import SubstrateFabric.Lib.JsonText

/-!
# Structs in Go's `encoding/json`

`Marshal` and `Unmarshal` for structs whose fields are strings and 64-bit integers.

A struct is given by its members, each a name with the accessors of a field.  `marshalStruct` writes
the fields in order.  `unmarshalStruct` stores the members of an object in the fields of their
names, in the order of the text: an exact name is preferred to one that differs in case, unknown
names are skipped, `null` stores nothing, and a value of another type is an error, reported once the
whole text has been read.

`unmarshalStruct_marshalStruct` is the round trip: integers come back as they were, and strings with
a replacement for every byte that is not UTF-8 (`readString`).  `unmarshalStruct_objectText` reads
the members in any other order.
-/

namespace EncodingJson

/-- The error values of the package that `Marshal` and `Unmarshal` return for structs of strings
and integers. -/
inductive Error
  | syntaxError
  | unmarshalTypeError
  deriving DecidableEq

/-- `Marshal` and `Unmarshal` at the type `α`. -/
structure Codec (α : Type) where
  marshal : α → Except Error (List UInt8)
  unmarshal : List UInt8 → Except Error α

/-- `Unmarshal` undoes `Marshal` on the values satisfying `valid`. -/
def Codec.RoundTrips {α : Type} (json : Codec α) (valid : α → Prop) : Prop :=
  ∀ a, valid a → ∃ bs, json.marshal a = .ok bs ∧ json.unmarshal bs = .ok a

variable {α : Type}

/-- A field of the struct `α`. -/
inductive Field (α : Type)
  | string (get : α → List UInt8) (set : List UInt8 → α → α)
  | int (get : α → Int64) (set : Int64 → α → α)

/-- The text of a field. -/
def Field.text (a : α) : Field α → List UInt8
  | .string get _ => quote (Utf8.runes (get a))
  | .int get _ => appendInt (get a)

/-- A value stored in a field. -/
def Field.store (v : Value) (a : α) : Field α → Except Error α
  | .string _ set =>
      match v with
      | .null => .ok a
      | .string s => .ok (set (Utf8.encode s) a)
      | _ => .error .unmarshalTypeError
  | .int _ set =>
      match v with
      | .null => .ok a
      | .number x =>
          match x.parseInt with
          | none => .error .unmarshalTypeError
          | some n => .ok (set n a)
      | _ => .error .unmarshalTypeError

/-- A field and its name in JSON. -/
structure Member (α : Type) where
  name : List Char
  field : Field α

/-- The least character that differs from `c` in case only, if that is an ASCII character. -/
def foldRune (c : Char) : Char :=
  if c = '\u017f' then 'S' else if c = '\u212a' then 'K' else c.toUpper

/-- The member of a name: the one of exactly that name, or else the first one whose name differs in
case only.  The names of members are in ASCII. -/
def findMember (members : List (Member α)) (name : List Char) : Option (Member α) :=
  (members.find? fun m => m.name = name).or
    (members.find? fun m => m.name.map foldRune = name.map foldRune)

/-- A member of an object stored in its field.  The first error is kept. -/
def storeMember (members : List (Member α)) (s : α × Option Error) (m : List Char × Value) :
    α × Option Error :=
  match findMember members m.1 with
  | none => s
  | some member =>
      match member.field.store m.2 s.1 with
      | .ok a => (a, s.2)
      | .error err => (s.1, s.2.or (some err))

/-- `Marshal` of a struct. -/
def marshalStruct (members : List (Member α)) (a : α) : List UInt8 :=
  objectText (members.map fun m => (m.name, m.field.text a))

/-- `Unmarshal` into a struct with the fields of `zero`. -/
def unmarshalStruct (members : List (Member α)) (zero : α) (bs : List UInt8) : Except Error α :=
  match parse bs with
  | none => .error .syntaxError
  | some .null => .ok zero
  | some (.object ms) =>
      match ms.foldl (storeMember members) (zero, none) with
      | (a, none) => .ok a
      | (_, some err) => .error err
  | some _ => .error .unmarshalTypeError

/-! ### Round trip -/

/-- The string that is read back for a string: every byte that is not UTF-8 is replaced. -/
def readString (bs : List UInt8) : List UInt8 := Utf8.encode ((Utf8.runes bs).map readRune)

theorem readString_of_valid {bs : List UInt8} (h : Utf8.Valid bs) : readString bs = bs := by
  obtain ⟨cs, rfl⟩ := h
  rw [readString, Utf8.runes_encode, List.map_map]
  exact congrArg Utf8.encode (List.map_id cs)

theorem valid_readString (bs : List UInt8) : Utf8.Valid (readString bs) := ⟨_, rfl⟩

@[simp] theorem readString_readString (bs : List UInt8) :
    readString (readString bs) = readString bs :=
  readString_of_valid (valid_readString bs)

/-- A field of `a` stored in `b` as it is read back. -/
def Field.copy (a b : α) : Field α → α
  | .string get set => set (readString (get a)) b
  | .int get set => set (get a) b

/-- The text of a field is read as a value that stores the field. -/
theorem Field.exists_reads (field : Field α) (a : α) :
    ∃ v, Reads (field.text a) v ∧ ∀ b, field.store v b = .ok (field.copy a b) := by
  cases field with
  | string get set => exact ⟨_, reads_quote (Utf8.runes (get a)), fun b => rfl⟩
  | int get set =>
    refine ⟨.number (literal (get a)), reads_appendInt (get a), fun b => ?_⟩
    rw [Field.store, parseInt_literal, Field.copy]

theorem findMember_of_mem {members : List (Member α)} (hnames : (members.map Member.name).Nodup)
    {m : Member α} (hm : m ∈ members) : findMember members m.name = some m := by
  have hfind : (members.find? fun m' => m'.name = m.name) = some m := by
    induction members with
    | nil => cases hm
    | cons m' members ih =>
      obtain ⟨hnot, hnodup⟩ := List.nodup_cons.mp hnames
      rcases List.mem_cons.mp hm with rfl | htail
      · exact List.find?_cons_of_pos (decide_eq_true rfl)
      · have hne : m'.name ≠ m.name := fun h => hnot (h ▸ List.mem_map_of_mem htail)
        rw [List.find?_cons_of_neg (by rw [decide_eq_true_eq]; exact hne), ih hnodup htail]
  rw [findMember, hfind, Option.some_or]

/-- Storing the members of the text in order copies their fields in order. -/
theorem exists_members {members : List (Member α)} (hnames : (members.map Member.name).Nodup)
    (a : α) {l : List (Member α)} (hl : l ⊆ members) :
    ∃ vs : List (List Char × Value),
      List.Forall₂ (fun m v => m.1 = v.1 ∧ Reads m.2 v.2)
        (l.map fun m => (m.name, m.field.text a)) vs ∧
      ∀ b, vs.foldl (storeMember members) (b, none) =
        (l.foldl (fun b m => m.field.copy a b) b, none) := by
  induction l with
  | nil => exact ⟨[], .nil, fun _ => rfl⟩
  | cons m l ih =>
    obtain ⟨hm, hl⟩ := List.cons_subset.mp hl
    obtain ⟨vs, hvs, hfold⟩ := ih hl
    obtain ⟨v, hreads, hstore⟩ := m.field.exists_reads a
    refine ⟨(m.name, v) :: vs, .cons ⟨rfl, hreads⟩ hvs, fun b => ?_⟩
    -- The name finds its own member, since no other member has it.
    have hstep : storeMember members (b, none) (m.name, v) = (m.field.copy a b, none) := by
      simp only [storeMember, findMember_of_mem hnames hm, hstore]
    rw [List.foldl_cons, hstep, hfold, List.foldl_cons]

/-- Reading an object with the texts of any of the members of a struct, in any order, stores their
fields in that order. -/
theorem unmarshalStruct_objectText {members : List (Member α)}
    (hnames : (members.map Member.name).Nodup) (a : α) {l : List (Member α)} (hl : l ⊆ members)
    (zero : α) :
    unmarshalStruct members zero (objectText (l.map fun m => (m.name, m.field.text a))) =
      .ok (l.foldl (fun b m => m.field.copy a b) zero) := by
  obtain ⟨vs, hvs, hfold⟩ := exists_members hnames a hl
  simp only [unmarshalStruct, parse_objectText hvs, hfold]

/-- **Round trip**: reading back a struct stores its fields. -/
theorem unmarshalStruct_marshalStruct {members : List (Member α)}
    (hnames : (members.map Member.name).Nodup) (a zero : α) :
    unmarshalStruct members zero (marshalStruct members a) =
      .ok (members.foldl (fun b m => m.field.copy a b) zero) :=
  unmarshalStruct_objectText hnames a (List.Subset.refl members) zero

end EncodingJson

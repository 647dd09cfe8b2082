import Mathlib.Tactic

/-!
# UTF-8 as byte lists

The encoding of code points, and the reading of runes from arbitrary bytes as Go's `unicode/utf8`
does it: a byte at which no encoding begins is an invalid rune of its own.
-/

namespace Utf8

/-- The UTF-8 encoding of a sequence of code points. -/
def encode (cs : List Char) : List UInt8 := cs.flatMap String.utf8EncodeChar

/-- The byte sequences that encode code points. -/
def Valid (bs : List UInt8) : Prop := ∃ cs, encode cs = bs

/-- The code point whose encoding the bytes begin with, and the bytes after it. -/
def decodeRune? (bs : List UInt8) : Option (Char × List UInt8) :=
  (bs.toByteArray.utf8DecodeChar? 0).map fun c => (c, bs.drop c.utf8Size)

/-- The first `n` runes of a byte sequence. -/
def runesUpTo : ℕ → List UInt8 → List (Option Char)
  | 0, _ => []
  | _ + 1, [] => []
  | n + 1, b :: bs =>
      match decodeRune? (b :: bs) with
      | none => none :: runesUpTo n bs
      | some (c, rest) => some c :: runesUpTo n rest

/-- The runes of a byte sequence, with `none` for a byte that begins no encoding. -/
def runes (bs : List UInt8) : List (Option Char) := runesUpTo bs.length bs

theorem decodeRune?_append (c : Char) (rest : List UInt8) :
    decodeRune? (String.utf8EncodeChar c ++ rest) = some (c, rest) := by
  have hdecode : (String.utf8EncodeChar c ++ rest).toByteArray.utf8DecodeChar? 0 = some c := by
    rw [List.toByteArray_append]
    exact ByteArray.utf8DecodeChar?_utf8EncodeChar_append
  have hdrop : (String.utf8EncodeChar c ++ rest).drop c.utf8Size = rest := by
    rw [← String.length_utf8EncodeChar, List.drop_left]
  rw [decodeRune?, hdecode, Option.map_some, hdrop]

/-- An encoding begins with the code point itself or with a byte past ASCII. -/
theorem exists_first_byte (c : Char) :
    ∃ b bs, String.utf8EncodeChar c = b :: bs ∧ (b.toNat = c.toNat ∨ 0x80 ≤ b.toNat) := by
  have hc : c.toNat = c.val.toNat := rfl
  simp only [String.utf8EncodeChar]
  split_ifs with h1 h2 h3
  · exact ⟨_, _, rfl, .inl (by rw [UInt8.toNat_ofNat']; omega)⟩
  · exact ⟨_, _, rfl, .inr (by rw [UInt8.toNat_ofNat']; omega)⟩
  · exact ⟨_, _, rfl, .inr (by rw [UInt8.toNat_ofNat']; omega)⟩
  · exact ⟨_, _, rfl, .inr (by rw [UInt8.toNat_ofNat']; omega)⟩

theorem encode_cons (c : Char) (cs : List Char) :
    encode (c :: cs) = String.utf8EncodeChar c ++ encode cs :=
  List.flatMap_cons

theorem length_le_encode (cs : List Char) : cs.length ≤ (encode cs).length := by
  induction cs with
  | nil => exact Nat.zero_le _
  | cons c cs ih =>
    rw [encode_cons, List.length_append, String.length_utf8EncodeChar, List.length_cons]
    have hpos : 0 < c.utf8Size := c.utf8Size_pos
    omega

theorem runesUpTo_encode {n : ℕ} {cs : List Char} (h : cs.length ≤ n) :
    runesUpTo n (encode cs) = cs.map some := by
  induction cs generalizing n with
  | nil => cases n <;> rfl
  | cons c cs ih =>
    have hne : String.utf8EncodeChar c ++ encode cs ≠ [] := by simp
    obtain ⟨b, bs, hb⟩ := List.exists_cons_of_ne_nil hne
    cases n with
    | zero => cases h
    | succ n =>
      rw [encode_cons, hb, runesUpTo, ← hb, decodeRune?_append]
      exact congrArg (some c :: ·) (ih (Nat.le_of_succ_le_succ h))

/-- Reading the runes of an encoding gives the code points back. -/
theorem runes_encode (cs : List Char) : runes (encode cs) = cs.map some :=
  runesUpTo_encode (length_le_encode cs)

theorem encode_runes_iff (bs : List UInt8) :
    encode ((runes bs).filterMap id) = bs ↔ Valid bs := by
  constructor
  · intro h
    exact ⟨_, h⟩
  · rintro ⟨cs, rfl⟩
    rw [runes_encode, List.filterMap_map, Function.id_comp, List.filterMap_some]

instance : DecidablePred Valid := fun bs => decidable_of_iff _ (encode_runes_iff bs)

end Utf8

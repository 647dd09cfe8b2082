import SubstrateFabric.Lib.Utf8

/-!
# JSON texts

How Go's `encoding/json` writes and reads JSON.

* Strings are quoted with the escapes of `Marshal`, which include those for HTML; a byte that is not
  UTF-8 is written as the replacement character.
* `parse` reads any text of at most 10000 nested arrays and objects.  It replaces bytes that are not
  UTF-8 and surrogates without a partner, so that the strings it gives are sequences of characters.

`unquote_quoteRunes` and `number_appendInt` read back strings and integers; `parse_objectText` reads
back an object whose members do so (`Reads`).
-/

namespace EncodingJson

/-- The byte of an ASCII character. -/
def byte (c : Char) : UInt8 := c.toUInt8

/-- The replacement character U+FFFD. -/
def replacement : Char := '\ufffd'

/-! ### Strings -/

/-- A lower-case hexadecimal digit. -/
def hexDigit (n : ℕ) : UInt8 := if n < 10 then UInt8.ofNat (48 + n) else UInt8.ofNat (87 + n)

/-- The value of a hexadecimal digit of either case. -/
def hexValue? (b : UInt8) : Option ℕ :=
  if 48 ≤ b.toNat ∧ b.toNat ≤ 57 then some (b.toNat - 48)
  else if 97 ≤ b.toNat ∧ b.toNat ≤ 102 then some (b.toNat - 87)
  else if 65 ≤ b.toNat ∧ b.toNat ≤ 70 then some (b.toNat - 55)
  else none

/-- A number as four hexadecimal digits. -/
def u4 (n : ℕ) : List UInt8 :=
  [hexDigit (n / 4096 % 16), hexDigit (n / 256 % 16), hexDigit (n / 16 % 16), hexDigit (n % 16)]

/-- The number written in the next four bytes. -/
def getU4 : List UInt8 → Option (ℕ × List UInt8)
  | a :: b :: c :: d :: rest => do
      let a ← hexValue? a
      let b ← hexValue? b
      let c ← hexValue? c
      let d ← hexValue? d
      return (a * 4096 + b * 256 + c * 16 + d, rest)
  | _ => none

/-- The character as `Marshal` writes it in a string. -/
def quoteChar (c : Char) : List UInt8 :=
  if c = '"' ∨ c = '\\' then [byte '\\', byte c]
  else if c = '\x08' then [byte '\\', byte 'b']
  else if c = '\x0c' then [byte '\\', byte 'f']
  else if c = '\n' then [byte '\\', byte 'n']
  else if c = '\r' then [byte '\\', byte 'r']
  else if c = '\t' then [byte '\\', byte 't']
  else if c.toNat < 0x20 ∨ c = '<' ∨ c = '>' ∨ c = '&' ∨ c = '\u2028' ∨ c = '\u2029' then
    byte '\\' :: byte 'u' :: u4 c.toNat
  else String.utf8EncodeChar c

/-- A rune as `Marshal` writes it in a string. -/
def quoteRune : Option Char → List UInt8
  | none => byte '\\' :: byte 'u' :: u4 replacement.toNat
  | some c => quoteChar c

/-- A string of runes with its quotes. -/
def quote (runes : List (Option Char)) : List UInt8 :=
  byte '"' :: runes.flatMap quoteRune ++ [byte '"']

/-- The character of a one-letter escape. -/
def unescape? (b : UInt8) : Option Char :=
  if b = byte '"' then some '"'
  else if b = byte '\\' then some '\\'
  else if b = byte '/' then some '/'
  else if b = byte 'b' then some '\x08'
  else if b = byte 'f' then some '\x0c'
  else if b = byte 'n' then some '\n'
  else if b = byte 'r' then some '\r'
  else if b = byte 't' then some '\t'
  else none

/-- The character of the escape of a UTF-16 unit.  A surrogate is joined with the one escaped next
if the two are a pair, and is replaced otherwise. -/
def unescapeU (n : ℕ) (rest : List UInt8) : Char × List UInt8 :=
  if 0xd800 ≤ n ∧ n < 0xe000 then
    match rest with
    | b :: u :: rest' =>
        match getU4 rest' with
        | none => (replacement, rest)
        | some (m, rest'') =>
            if b = byte '\\' ∧ u = byte 'u' ∧ n < 0xdc00 ∧ 0xdc00 ≤ m ∧ m < 0xe000 then
              (Char.ofNat (0x10000 + (n - 0xd800) * 0x400 + (m - 0xdc00)), rest'')
            else (replacement, rest)
    | _ => (replacement, rest)
  else (Char.ofNat n, rest)

/-- The character of an escape whose backslash has been read. -/
def unescapeStep : List UInt8 → Option (Char × List UInt8)
  | [] => none
  | e :: bs =>
      if e = byte 'u' then (getU4 bs).map fun (n, rest) => unescapeU n rest
      else (unescape? e).map fun c => (c, bs)

/-- One character of a string, or `none` for its closing quote. -/
def unquoteStep : List UInt8 → Option (Option Char × List UInt8)
  | [] => none
  | b :: bs =>
      if b = byte '"' then some (none, bs)
      else if b = byte '\\' then (unescapeStep bs).map fun (c, rest) => (some c, rest)
      else if b.toNat < 0x20 then none
      else
        match Utf8.decodeRune? (b :: bs) with
        | none => some (some replacement, bs)
        | some (c, rest) => some (some c, rest)

/-- The characters of a string up to its closing quote. -/
def unquoteUpTo : ℕ → List UInt8 → Option (List Char × List UInt8)
  | 0, _ => none
  | n + 1, bs =>
      match unquoteStep bs with
      | none => none
      | some (none, rest) => some ([], rest)
      | some (some c, rest) => (unquoteUpTo n rest).map fun (cs, rest) => (c :: cs, rest)

/-- The characters of a string whose opening quote has been read. -/
def unquote (bs : List UInt8) : Option (List Char × List UInt8) := unquoteUpTo bs.length bs

theorem hexValue?_hexDigit : ∀ n < 16, hexValue? (hexDigit n) = some n := by decide

theorem getU4_u4 {n : ℕ} (h : n < 65536) (rest : List UInt8) :
    getU4 (u4 n ++ rest) = some (n, rest) := by
  have hsum : n / 4096 % 16 * 4096 + n / 256 % 16 * 256 + n / 16 % 16 * 16 + n % 16 = n := by omega
  simp only [u4, List.cons_append, List.nil_append, getU4,
    hexValue?_hexDigit _ (Nat.mod_lt _ (by decide : 0 < 16)), Option.bind_eq_bind, Option.bind_some,
    Option.pure_def, hsum]

/-- An escaped code point of four digits is read back, since no character is a surrogate. -/
theorem unquoteStep_u4 {c : Char} (h : c.toNat < 0x10000) (rest : List UInt8) :
    unquoteStep (byte '\\' :: byte 'u' :: u4 c.toNat ++ rest) = some (some c, rest) := by
  have hstep : unescapeStep (byte 'u' :: u4 c.toNat ++ rest) =
      (getU4 (u4 c.toNat ++ rest)).map fun (n, rest) => unescapeU n rest := rfl
  have hplain : ¬ (0xd800 ≤ c.toNat ∧ c.toNat < 0xe000) := by
    have hvalid : c.toNat < 0xd800 ∨ 0xdfff < c.toNat ∧ c.toNat < 0x110000 := c.valid
    omega
  rw [getU4_u4 (by omega), Option.map_some] at hstep
  simp only [unescapeU, if_neg hplain, Char.ofNat_toNat] at hstep
  exact congrArg (Option.map fun (c, rest) => (some c, rest)) hstep

/-- A character whose encoding begins with neither a quote, a backslash nor a control byte is read
as it stands. -/
theorem unquoteStep_utf8 {c : Char} {b : UInt8} {bs : List UInt8}
    (hc : String.utf8EncodeChar c = b :: bs) (hquote : b ≠ byte '"') (hback : b ≠ byte '\\')
    (hcontrol : ¬ b.toNat < 0x20) (rest : List UInt8) :
    unquoteStep (String.utf8EncodeChar c ++ rest) = some (some c, rest) := by
  have hdecode := Utf8.decodeRune?_append c rest
  rw [hc, List.cons_append] at hdecode ⊢
  rw [unquoteStep, if_neg hquote, if_neg hback, if_neg hcontrol, hdecode]

/-- What is written for a character is read back as that character. -/
theorem unquoteStep_quoteChar (c : Char) (rest : List UInt8) :
    unquoteStep (quoteChar c ++ rest) = some (some c, rest) := by
  unfold quoteChar
  split_ifs with hback hb hf hn hr ht hu
  · rcases hback with rfl | rfl <;> rfl
  · subst hb; rfl
  · subst hf; rfl
  · subst hn; rfl
  · subst hr; rfl
  · subst ht; rfl
  · refine unquoteStep_u4 ?_ rest
    rcases hu with h | rfl | rfl | rfl | rfl | rfl
    · omega
    all_goals decide
  · obtain ⟨b, bs, hc, hfirst⟩ := Utf8.exists_first_byte c
    push Not at hback hu
    -- A first byte in ASCII would be the character itself.
    have hne : ∀ d : Char, c ≠ d → d.toNat < 0x80 → b ≠ byte d := by
      rintro d hd hascii rfl
      have hd' : (byte d).toNat = d.toNat := Nat.mod_eq_of_lt (hascii.trans (by decide))
      exact hd (Char.toNat_inj.mp (by omega))
    exact unquoteStep_utf8 hc (hne _ hback.1 (by decide)) (hne _ hback.2 (by decide)) (by omega)
      rest

/-- The character that a rune is read back as. -/
def readRune (r : Option Char) : Char := r.getD replacement

/-- What is written for a rune is read back as that rune, or as the replacement character. -/
theorem unquoteStep_quoteRune (r : Option Char) (rest : List UInt8) :
    unquoteStep (quoteRune r ++ rest) = some (some (readRune r), rest) := by
  cases r with
  | none => exact unquoteStep_u4 (c := replacement) (by decide) rest
  | some c => exact unquoteStep_quoteChar c rest

theorem quoteRune_ne_nil (r : Option Char) : quoteRune r ≠ [] := by
  intro h
  have hstep := unquoteStep_quoteRune r []
  rw [h] at hstep
  cases hstep

theorem length_le_flatMap_quoteRune (runes : List (Option Char)) :
    runes.length ≤ (runes.flatMap quoteRune).length := by
  induction runes with
  | nil => exact Nat.zero_le _
  | cons r runes ih =>
    have hpos : 0 < (quoteRune r).length := List.length_pos_iff.mpr (quoteRune_ne_nil r)
    rw [List.flatMap_cons, List.length_append, List.length_cons]
    omega

theorem unquoteUpTo_quote {n : ℕ} {runes : List (Option Char)} (h : runes.length < n)
    (rest : List UInt8) :
    unquoteUpTo n (runes.flatMap quoteRune ++ byte '"' :: rest) =
      some (runes.map readRune, rest) := by
  induction runes generalizing n with
  | nil =>
    cases n with
    | zero => cases h
    | succ n => rfl
  | cons r runes ih =>
    cases n with
    | zero => cases h
    | succ n =>
      rw [List.flatMap_cons, List.append_assoc, unquoteUpTo, unquoteStep_quoteRune]
      simp only [ih (Nat.lt_of_succ_lt_succ h), Option.map_some, List.map_cons]

/-- Reading back a quoted string of runes, whose opening quote has been read. -/
theorem unquote_quoteRunes (runes : List (Option Char)) (rest : List UInt8) :
    unquote (runes.flatMap quoteRune ++ byte '"' :: rest) = some (runes.map readRune, rest) := by
  refine unquoteUpTo_quote ?_ rest
  have hle := length_le_flatMap_quoteRune runes
  rw [List.length_append, List.length_cons]
  omega

/-- Valid runes are read back as they are. -/
theorem unquote_quote (cs : List Char) (rest : List UInt8) :
    unquote ((cs.map some).flatMap quoteRune ++ byte '"' :: rest) = some (cs, rest) := by
  rw [unquote_quoteRunes, List.map_map]
  exact congrArg (fun cs => some (cs, rest)) (List.map_id cs)

/-! ### Numbers -/

/-- The byte is a decimal digit. -/
def isDigit (b : UInt8) : Bool := byte '0' ≤ b && b ≤ byte '9'

/-- A number literal: its sign, the digits of its integer part, and whether it has a fraction or an
exponent. -/
structure Number where
  negative : Bool
  digits : List UInt8
  fractional : Bool

/-- The value of a sequence of decimal digits. -/
def decimalValue (ds : List UInt8) : ℕ := ds.foldl (fun n b => n * 10 + (b.toNat - 48)) 0

/-- `ParseInt` to 64 bits. -/
def Number.parseInt (x : Number) : Option Int64 :=
  let n : ℤ := if x.negative then -decimalValue x.digits else decimalValue x.digits
  if x.fractional ∨ n < -2 ^ 63 ∨ 2 ^ 63 ≤ n then none else some (Int64.ofInt n)

/-- The decimal digits of a number. -/
def decimal (n : ℕ) : List UInt8 :=
  if n = 0 then [byte '0'] else (Nat.digits 10 n).reverse.map fun d => UInt8.ofNat (48 + d)

/-- `AppendInt` in base 10. -/
def appendInt (n : Int64) : List UInt8 :=
  if n.toInt < 0 then byte '-' :: decimal n.toInt.natAbs else decimal n.toInt.natAbs

/-- One or more digits. -/
def digits1 (bs : List UInt8) : Option (List UInt8 × List UInt8) :=
  match bs.takeWhile isDigit with
  | [] => none
  | d :: ds => some (d :: ds, bs.dropWhile isDigit)

/-- The integer part of a literal: a zero, or digits of which the first is not zero. -/
def integerPart (bs : List UInt8) : Option (List UInt8 × List UInt8) :=
  match bs with
  | [] => none
  | b :: rest => if b = byte '0' then some ([b], rest) else digits1 bs

/-- The fraction of a literal: whether there is one, and the bytes after it. -/
def fraction : List UInt8 → Option (Bool × List UInt8)
  | [] => some (false, [])
  | b :: bs =>
      if b = byte '.' then (digits1 bs).map fun (_, rest) => (true, rest)
      else some (false, b :: bs)

/-- The exponent of a literal: whether there is one, and the bytes after it. -/
def exponent : List UInt8 → Option (Bool × List UInt8)
  | [] => some (false, [])
  | b :: bs =>
      if b = byte 'e' ∨ b = byte 'E' then
        let bs := if bs.head? = some (byte '+') ∨ bs.head? = some (byte '-') then bs.tail else bs
        (digits1 bs).map fun (_, rest) => (true, rest)
      else some (false, b :: bs)

/-- A number literal and the bytes after it. -/
def number (bs : List UInt8) : Option (Number × List UInt8) := do
  let negative := decide (bs.head? = some (byte '-'))
  let (ds, bs) ← integerPart (if negative then bs.tail else bs)
  let (hasFraction, bs) ← fraction bs
  let (hasExponent, bs) ← exponent bs
  return (⟨negative, ds, hasFraction || hasExponent⟩, bs)

theorem isDigit_ofNat : ∀ d < 10, isDigit (UInt8.ofNat (48 + d)) = true := by decide

theorem toNat_digit : ∀ d < 10, (UInt8.ofNat (48 + d)).toNat - 48 = d := by decide

theorem isDigit_of_mem_decimal {n : ℕ} {b : UInt8} (h : b ∈ decimal n) : isDigit b = true := by
  unfold decimal at h
  split_ifs at h with hn
  · rw [List.mem_singleton.mp h]; rfl
  · obtain ⟨d, hd, rfl⟩ := List.mem_map.mp h
    exact isDigit_ofNat d (Nat.digits_lt_base (by decide) (List.mem_reverse.mp hd))

theorem decimalValue_reverse {ds : List ℕ} (h : ∀ d ∈ ds, d < 10) :
    decimalValue (ds.reverse.map fun d => UInt8.ofNat (48 + d)) = Nat.ofDigits 10 ds := by
  induction ds with
  | nil => rfl
  | cons d ds ih =>
    rw [decimalValue, List.reverse_cons, List.map_append, List.foldl_append, ← decimalValue,
      ih fun e he => h e (List.mem_cons_of_mem d he), Nat.ofDigits_cons]
    simp only [List.map_cons, List.map_nil, List.foldl_cons, List.foldl_nil,
      toNat_digit d (h d List.mem_cons_self)]
    omega

theorem decimalValue_decimal (n : ℕ) : decimalValue (decimal n) = n := by
  unfold decimal
  split_ifs with hn
  · rw [hn]; rfl
  · rw [decimalValue_reverse fun d hd => Nat.digits_lt_base (by decide) hd, Nat.ofDigits_digits]

/-- The digits of a positive number do not begin with a zero. -/
theorem decimal_head {n : ℕ} (hn : n ≠ 0) : ∃ b bs, decimal n = b :: bs ∧ b ≠ byte '0' := by
  have hne : Nat.digits 10 n ≠ [] := Nat.digits_ne_nil_iff_ne_zero.mpr hn
  have hlast : (Nat.digits 10 n).getLast hne ≠ 0 := Nat.getLast_digit_ne_zero 10 hn
  have hlt : (Nat.digits 10 n).getLast hne < 10 :=
    Nat.digits_lt_base (by decide) (List.getLast_mem hne)
  have hhead : ∀ d < 10, d ≠ 0 → UInt8.ofNat (48 + d) ≠ byte '0' := by decide
  rw [decimal, if_neg hn, ← List.dropLast_append_getLast hne, List.reverse_append]
  exact ⟨_, _, rfl, hhead _ hlt hlast⟩

theorem decimal_ne_nil (n : ℕ) : decimal n ≠ [] := by
  by_cases hn : n = 0
  · subst hn; exact List.cons_ne_nil _ _
  · obtain ⟨b, bs, hb, -⟩ := decimal_head hn
    rw [hb]
    exact List.cons_ne_nil b bs

theorem decimal_head_ne_minus (n : ℕ) (rest : List UInt8) :
    (decimal n ++ rest).head? ≠ some (byte '-') := by
  obtain ⟨b, bs, hb⟩ := List.exists_cons_of_ne_nil (decimal_ne_nil n)
  have hdigit : isDigit b = true := isDigit_of_mem_decimal (hb ▸ List.mem_cons_self)
  rw [hb, List.cons_append, List.head?_cons]
  rintro ⟨⟩
  exact absurd hdigit (by decide)

/-- The text goes on with a comma or with a closing brace. -/
def Delimited (rest : List UInt8) : Prop :=
  ∃ b bs, rest = b :: bs ∧ (b = byte ',' ∨ b = byte '\x7d')

theorem integerPart_decimal (n : ℕ) {rest : List UInt8} (hrest : Delimited rest) :
    integerPart (decimal n ++ rest) = some (decimal n, rest) := by
  by_cases hn : n = 0
  · subst hn; rfl
  · obtain ⟨b, bs, hb, hzero⟩ := decimal_head hn
    obtain ⟨e, es, rfl, he⟩ := hrest
    have hstop : isDigit e = false := by rcases he with rfl | rfl <;> rfl
    have htake : (decimal n ++ e :: es).takeWhile isDigit = b :: bs := by
      rw [List.takeWhile_append_of_pos fun _ h => isDigit_of_mem_decimal h,
        List.takeWhile_cons_of_neg (by rw [hstop]; decide), List.append_nil, hb]
    have hdrop : (decimal n ++ e :: es).dropWhile isDigit = e :: es := by
      rw [List.dropWhile_append_of_pos fun _ h => isDigit_of_mem_decimal h,
        List.dropWhile_cons_of_neg (by rw [hstop]; decide)]
    have hdigits : digits1 (decimal n ++ e :: es) = some (decimal n, e :: es) := by
      rw [digits1, htake, hdrop, hb]
    rw [hb, List.cons_append] at hdigits ⊢
    rw [integerPart, if_neg hzero, hdigits]

/-- The literal that is written for an integer. -/
def literal (n : Int64) : Number := ⟨decide (n.toInt < 0), decimal n.toInt.natAbs, false⟩

theorem number_appendInt (n : Int64) {rest : List UInt8} (hrest : Delimited rest) :
    number (appendInt n ++ rest) = some (literal n, rest) := by
  have hint := integerPart_decimal n.toInt.natAbs hrest
  have hend : fraction rest = some (false, rest) ∧ exponent rest = some (false, rest) := by
    obtain ⟨e, es, rfl, rfl | rfl⟩ := hrest <;> exact ⟨rfl, rfl⟩
  unfold appendInt literal
  by_cases hneg : n.toInt < 0
  · simp only [number, List.cons_append, List.head?_cons, decide_true, if_true,
      List.tail_cons, hint, hend, Option.bind_eq_bind, Option.bind_some, Option.pure_def,
      Bool.or_self, hneg]
  · simp only [number, decide_eq_false (decimal_head_ne_minus _ rest),
      Bool.false_eq_true, if_false, hint, hend, Option.bind_eq_bind, Option.bind_some,
      Option.pure_def, Bool.or_self, hneg, decide_false]

theorem parseInt_literal (n : Int64) : (literal n).parseInt = some n := by
  have hvalue : (if decide (n.toInt < 0) = true then -(n.toInt.natAbs : ℤ) else n.toInt.natAbs) =
      n.toInt := by
    by_cases hneg : n.toInt < 0
    · rw [decide_eq_true hneg, if_pos rfl]; omega
    · rw [decide_eq_false hneg, if_neg (by decide)]; omega
  have hlow : -2 ^ 63 ≤ n.toInt := n.le_toInt
  have hhigh : n.toInt < 2 ^ 63 := n.toInt_lt
  simp only [Number.parseInt, literal, decimalValue_decimal, hvalue, Bool.false_eq_true, false_or]
  rw [if_neg (by omega), Int64.ofInt_toInt]

/-! ### Values -/

/-- A JSON value. -/
inductive Value
  | null
  | bool (b : Bool)
  | number (x : Number)
  | string (s : List Char)
  | array (elements : List Value)
  | object (members : List (List Char × Value))

/-- The byte is white space between tokens. -/
def isSpace (b : UInt8) : Bool := b = byte ' ' || b = byte '\t' || b = byte '\r' || b = byte '\n'

/-- The text without the white space at its start. -/
def skipSpace (bs : List UInt8) : List UInt8 := bs.dropWhile isSpace

/-- The first byte that is not white space, and the text after it. -/
def next (bs : List UInt8) : Option (UInt8 × List UInt8) :=
  match skipSpace bs with
  | [] => none
  | b :: rest => some (b, rest)

/-- The text after a word. -/
def keyword (word : List Char) (bs : List UInt8) : Option (List UInt8) :=
  if bs.take word.length = word.map byte then some (bs.drop word.length) else none

mutual

/-- A value at the start of the text, with at most `depth` nested arrays and objects.  Every call
costs one unit of fuel. -/
def value : ℕ → ℕ → List UInt8 → Option (Value × List UInt8)
  | 0, _, _ => none
  | _ + 1, _, [] => none
  | n + 1, depth, b :: bs =>
      if b = byte '"' then (unquote bs).map fun (s, rest) => (.string s, rest)
      else if b = byte '\x7b' then object n depth bs
      else if b = byte '[' then array n depth bs
      else if b = byte 't' then
        (keyword ['t', 'r', 'u', 'e'] (b :: bs)).map fun rest => (.bool true, rest)
      else if b = byte 'f' then
        (keyword ['f', 'a', 'l', 's', 'e'] (b :: bs)).map fun rest => (.bool false, rest)
      else if b = byte 'n' then
        (keyword ['n', 'u', 'l', 'l'] (b :: bs)).map fun rest => (.null, rest)
      else (number (b :: bs)).map fun (x, rest) => (.number x, rest)

/-- An object whose opening brace has been read. -/
def object : ℕ → ℕ → List UInt8 → Option (Value × List UInt8)
  | 0, _, _ => none
  | _ + 1, 0, _ => none
  | n + 1, depth + 1, bs => do
      let (c, bs) ← next bs
      if c = byte '\x7d' then return (.object [], bs)
      if c ≠ byte '"' then none
      let (ms, bs) ← members n depth bs
      return (.object ms, bs)

/-- An array whose opening bracket has been read. -/
def array : ℕ → ℕ → List UInt8 → Option (Value × List UInt8)
  | 0, _, _ => none
  | _ + 1, 0, _ => none
  | n + 1, depth + 1, bs => do
      let (c, rest) ← next bs
      if c = byte ']' then return (.array [], rest)
      let (vs, rest) ← elements n depth (c :: rest)
      return (.array vs, rest)

/-- The members of an object, from the name of the first one on, whose opening quote has been
read. -/
def members : ℕ → ℕ → List UInt8 → Option (List (List Char × Value) × List UInt8)
  | 0, _, _ => none
  | n + 1, depth, bs => do
      let (name, bs) ← unquote bs
      let (colon, bs) ← next bs
      if colon ≠ byte ':' then none
      let (v, bs) ← value n depth (skipSpace bs)
      let (c, bs) ← next bs
      if c = byte '\x7d' then return ([(name, v)], bs)
      if c ≠ byte ',' then none
      let (q, bs) ← next bs
      if q ≠ byte '"' then none
      let (ms, bs) ← members n depth bs
      return ((name, v) :: ms, bs)

/-- The elements of an array, from the first one on. -/
def elements : ℕ → ℕ → List UInt8 → Option (List Value × List UInt8)
  | 0, _, _ => none
  | n + 1, depth, bs => do
      let (v, bs) ← value n depth bs
      let (c, bs) ← next bs
      if c = byte ']' then return ([v], bs)
      if c ≠ byte ',' then none
      let (vs, bs) ← elements n depth (skipSpace bs)
      return (v :: vs, bs)

end

/-- The value of a whole text. -/
def parse (bs : List UInt8) : Option Value := do
  -- Of three nested calls at least one has read a byte, so the fuel does not run out.
  let (v, rest) ← value (3 * bs.length + 3) 10000 (skipSpace bs)
  if skipSpace rest = [] then some v else none

/-! ### Reading back an object -/

/-- A text which is read as a value when a comma or a closing brace follows. -/
structure Reads (text : List UInt8) (v : Value) : Prop where
  skipSpace : ∀ rest, skipSpace (text ++ rest) = text ++ rest
  value : ∀ n depth {rest}, Delimited rest → value (n + 1) depth (text ++ rest) = some (v, rest)

/-- A member of an object without the opening quote of its name. -/
def memberText (name : List Char) (text : List UInt8) : List UInt8 :=
  (name.map some).flatMap quoteRune ++ byte '"' :: byte ':' :: text

/-- The text of an object with given texts of the values of its members. -/
def objectText : List (List Char × List UInt8) → List UInt8
  | [] => [byte '\x7b', byte '\x7d']
  | m :: ms => byte '\x7b' :: byte '"' :: memberText m.1 m.2 ++
      ms.flatMap (fun m => byte ',' :: byte '"' :: memberText m.1 m.2) ++ [byte '\x7d']

theorem reads_quote (runes : List (Option Char)) :
    Reads (quote runes) (.string (runes.map readRune)) where
  skipSpace rest := rfl
  value n depth rest _ := by
    have htext : quote runes ++ rest =
        byte '"' :: (runes.flatMap quoteRune ++ byte '"' :: rest) := by
      simp [quote]
    rw [htext, EncodingJson.value, if_pos rfl, unquote_quoteRunes, Option.map_some]

theorem appendInt_head (n : Int64) :
    ∃ b bs, appendInt n = b :: bs ∧ (isDigit b = true ∨ b = byte '-') := by
  unfold appendInt
  split_ifs with hneg
  · exact ⟨_, _, rfl, .inr rfl⟩
  · obtain ⟨b, bs, hb⟩ := List.exists_cons_of_ne_nil (decimal_ne_nil n.toInt.natAbs)
    exact ⟨b, bs, hb, .inl (isDigit_of_mem_decimal (hb ▸ List.mem_cons_self))⟩

/-- No other kind of value begins like a number. -/
theorem value_of_number {b : UInt8} (hb : isDigit b = true ∨ b = byte '-') (n depth : ℕ)
    (bs : List UInt8) :
    value (n + 1) depth (b :: bs) = (number (b :: bs)).map fun (x, rest) => (.number x, rest) := by
  have hne : ∀ c : Char, ¬ (isDigit (byte c) = true ∨ byte c = byte '-') → b ≠ byte c := by
    rintro c hc rfl
    exact hc hb
  rw [value, if_neg (hne _ (by decide)), if_neg (hne _ (by decide)), if_neg (hne _ (by decide)),
    if_neg (hne _ (by decide)), if_neg (hne _ (by decide)), if_neg (hne _ (by decide))]

theorem reads_appendInt (n : Int64) : Reads (appendInt n) (.number (literal n)) where
  skipSpace rest := by
    obtain ⟨b, bs, hb, hfirst⟩ := appendInt_head n
    have hspace : ¬ isSpace b = true := by
      simp only [isSpace, Bool.or_eq_true, decide_eq_true_eq]
      rintro (((rfl | rfl) | rfl) | rfl) <;> revert hfirst <;> decide
    rw [hb, List.cons_append, EncodingJson.skipSpace, List.dropWhile_cons_of_neg hspace]
  value m depth rest hrest := by
    obtain ⟨b, bs, hb, hfirst⟩ := appendInt_head n
    have hnumber := number_appendInt n hrest
    rw [hb, List.cons_append] at hnumber ⊢
    rw [value_of_number hfirst, hnumber, Option.map_some]

section Members

variable {name : List Char} {text : List UInt8} {v : Value}

theorem members_last (h : Reads text v) (n depth : ℕ) (rest : List UInt8) :
    members (n + 2) depth (memberText name text ++ byte '\x7d' :: rest) =
      some ([(name, v)], rest) := by
  have hvalue := h.value n depth ⟨_, rest, rfl, .inr rfl⟩
  have hcolon : ∀ bs, next (byte ':' :: bs) = some (byte ':', bs) := fun _ => rfl
  have hbrace : next (byte '\x7d' :: rest) = some (byte '\x7d', rest) := rfl
  rw [members]
  simp only [memberText, List.append_assoc, List.cons_append, unquote_quote, hcolon,
    h.skipSpace, hvalue, hbrace, Option.bind_eq_bind, Option.bind_some, ne_eq, not_true, if_false,
    if_true, Option.pure_def]

theorem members_next (h : Reads text v) (n depth : ℕ) (rest : List UInt8) :
    members (n + 2) depth (memberText name text ++ byte ',' :: byte '"' :: rest) =
      (members (n + 1) depth rest).map fun (ms, rest) => ((name, v) :: ms, rest) := by
  have hvalue := h.value n depth ⟨_, byte '"' :: rest, rfl, .inl rfl⟩
  have hcolon : ∀ bs, next (byte ':' :: bs) = some (byte ':', bs) := fun _ => rfl
  have hcomma : next (byte ',' :: byte '"' :: rest) = some (byte ',', byte '"' :: rest) := rfl
  have hquote : next (byte '"' :: rest) = some (byte '"', rest) := rfl
  have hne : byte ',' ≠ byte '\x7d' := by decide
  rw [members]
  simp only [memberText, List.append_assoc, List.cons_append, unquote_quote, hcolon,
    h.skipSpace, hvalue, hcomma, hquote, Option.bind_eq_bind, Option.bind_some, ne_eq, not_true,
    if_false, if_neg hne, Option.pure_def]
  cases members (n + 1) depth rest <;> rfl

end Members

/-- The members of an object are read back in order, each with the value its text is read as. -/
theorem members_flatMap {texts : List (List Char × List UInt8)} {vs : List (List Char × Value)}
    {m : List Char × List UInt8} {v : List Char × Value}
    (h : List.Forall₂ (fun m v => m.1 = v.1 ∧ Reads m.2 v.2) (m :: texts) (v :: vs)) {n : ℕ}
    (hn : texts.length + 1 < n) (depth : ℕ) (rest : List UInt8) :
    members n depth (memberText m.1 m.2 ++
      (texts.flatMap (fun m => byte ',' :: byte '"' :: memberText m.1 m.2) ++
        byte '\x7d' :: rest)) = some (v :: vs, rest) := by
  -- Induction on the members to come; each of them costs one unit of fuel.
  obtain ⟨n, rfl⟩ : ∃ k, n = k + 2 := ⟨n - 2, by omega⟩
  induction texts generalizing m v vs n with
  | nil =>
    obtain _ | ⟨⟨hname, hread⟩, _ | _⟩ := h
    rw [List.flatMap_nil, List.nil_append, members_last hread, hname]
  | cons m' texts ih =>
    obtain _ | ⟨⟨hname, hread⟩, htail⟩ := h
    obtain _ | ⟨hhead, htail⟩ := htail
    rw [List.flatMap_cons, List.append_assoc, List.cons_append, List.cons_append,
      members_next hread]
    obtain ⟨n, rfl⟩ : ∃ k, n = k + 1 := ⟨n - 1, by simp at hn; omega⟩
    rw [ih (.cons hhead htail) n (by simp at hn; omega), hname, Option.map_some]

theorem length_le_objectText (texts : List (List Char × List UInt8)) :
    texts.length ≤ (objectText texts).length := by
  have hflat : ∀ l : List (List Char × List UInt8), l.length ≤
      (l.flatMap fun m => byte ',' :: byte '"' :: memberText m.1 m.2).length := by
    intro l
    induction l with
    | nil => exact Nat.le_refl 0
    | cons m l ih =>
      rw [List.flatMap_cons, List.length_append, List.length_cons, List.length_cons]
      omega
  cases texts with
  | nil => exact Nat.zero_le _
  | cons m texts =>
    have hle := hflat texts
    simp only [objectText, List.length_append, List.length_cons]
    omega

theorem value_brace (n depth : ℕ) (bs : List UInt8) :
    value (n + 1) depth (byte '\x7b' :: bs) = object n depth bs := by
  rw [value, if_neg (by decide), if_pos rfl]

theorem object_quote (n depth : ℕ) (bs : List UInt8) :
    object (n + 1) (depth + 1) (byte '"' :: bs) =
      (members n depth bs).map fun (ms, rest) => (.object ms, rest) := by
  have hquote : next (byte '"' :: bs) = some (byte '"', bs) := rfl
  have hne : byte '"' ≠ byte '\x7d' := by decide
  rw [object]
  simp only [hquote, Option.bind_eq_bind, Option.bind_some, if_neg hne, ne_eq, not_true, if_false]
  cases members n depth bs <;> rfl

/-- **Reading back an object** whose members' texts are read as given values. -/
theorem parse_objectText {texts : List (List Char × List UInt8)} {vs : List (List Char × Value)}
    (h : List.Forall₂ (fun m v => m.1 = v.1 ∧ Reads m.2 v.2) texts vs) :
    parse (objectText texts) = some (.object vs) := by
  have hlen := length_le_objectText texts
  have hspace : skipSpace (objectText texts) = objectText texts := by cases texts <;> rfl
  have hvalue : value (3 * (objectText texts).length + 3) 10000 (objectText texts) =
      some (.object vs, []) := by
    cases h with
    | nil =>
      rw [objectText, value_brace, object]
      rfl
    | @cons m v texts vs hhead htail =>
      generalize (objectText (m :: texts)).length = k at hlen ⊢
      rw [List.length_cons] at hlen
      rw [objectText, List.append_assoc, List.cons_append, List.cons_append, value_brace,
        object_quote, members_flatMap (.cons hhead htail) (by omega), Option.map_some]
  rw [parse, hspace, hvalue]
  rfl

end EncodingJson

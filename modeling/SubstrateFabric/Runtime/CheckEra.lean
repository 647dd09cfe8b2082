import SubstrateFabric.Lib.Machine

/-!
# Mortal eras and the block hashes of the runtime

A mortal transaction is bound to a period of blocks and to its position in that period.  The signer
puts the hash of the block the era is born at into the signed payload; the runtime recomputes that
block from the era and the number of the block it is executing, and looks its hash up.

* `Era` is the era of `sp_runtime`, with `mortal` and `birth` on checked machine words: a result
  `some` says that no step overflowed.
* `additionalSigned` is the lookup of `frame_system::CheckEra`.

`mortal_of_pow` shows that a small power of two is kept as the period and that its phase loses no
bits to quantisation; `birth_val` computes births exactly; `birth_mod_eq_iff` says for which blocks
a birth is the block the era was made at, and `birth_mod_eq` which block it is elsewhere.
-/

namespace Runtime

open Machine

/-- `BlockNumber` -/
abbrev BlockNumber := U32

/-- `BlockHashCount`: the number of block hashes kept. -/
def blockHashCount : BlockNumber := 2400

/-- `sp_runtime::generic::Era` -/
inductive Era
  | immortal
  | mortalAt (period phase : U64)
  deriving DecidableEq

/-- `Era::mortal`: the era of a transaction made at block `current` and valid for about `period`
blocks. -/
def Era.mortal (period current : U64) : Option Era := do
  -- `.checked_next_power_of_two().unwrap_or(1 << 16).clamp(4, 1 << 16)`
  let period := max 4 (min ((checkedNextPowerOfTwo period).getD (2 ^ 16)) (2 ^ 16))
  let phase ← checkedRem current period
  let quantizeFactor := max (shiftRight period 12) 1
  let quantized ← checkedDiv phase quantizeFactor
  let quantizedPhase ← checkedMul quantized quantizeFactor
  return .mortalAt period quantizedPhase

/-- `Era::birth`: the block an era is born at, as seen from block `current`. -/
def Era.birth (era : Era) (current : U64) : Option U64 :=
  match era with
  | .immortal => some 0
  | .mortalAt period phase => do
      let elapsed ← checkedSub (max current phase) phase
      let periods ← checkedDiv elapsed period
      let start ← checkedMul periods period
      checkedAdd start phase

/-- The errors of `CheckEra`. -/
inductive TransactionValidityError
  | ancientBirthBlock
  deriving DecidableEq

/-- `CheckEra::additional_signed` in block `current`, where `blockHash` are the hashes kept: the
hash of the block the era is born at. -/
def Era.additionalSigned {Hash : Type} (era : Era) (blockHash : BlockNumber → Option Hash)
    (current : BlockNumber) : Option (Except TransactionValidityError Hash) := do
  let n ← era.birth (saturatedInto 64 current)
  match blockHash (saturatedInto 32 n) with
  | none => return .error .ancientBirthBlock
  | some hash => return .ok hash

/-! ### Making an era -/

/-- A power of two from `4` to `2 ^ 12` is kept as the period, and the phase is exact. -/
theorem Era.mortal_of_pow {period : U64} {k : ℕ} (hperiod : period.val = 2 ^ k) (h2 : 2 ≤ k)
    (h12 : k ≤ 12) (current : U64) :
    ∃ phase : U64, Era.mortal period current = some (.mortalAt period phase) ∧
      phase.val = current.val % period.val := by
  have hlow : 2 ^ 2 ≤ period.val := hperiod ▸ Nat.pow_le_pow_right Nat.two_pos h2
  have hhigh : period.val ≤ 2 ^ 12 := hperiod ▸ Nat.pow_le_pow_right Nat.two_pos h12
  have hclamp : max 4 (min period (2 ^ 16)) = period := by
    have h16 : period ≤ 2 ^ 16 := hhigh.trans (by decide)
    rw [min_eq_left h16, max_eq_right (show (4 : U64) ≤ period from hlow)]
  have hfactor : max (shiftRight period 12) 1 = 1 := by
    refine max_eq_right (show (shiftRight period 12).val ≤ 1 from ?_)
    simp only [shiftRight, Nat.shiftRight_eq_div_pow]
    exact Nat.div_le_of_le_mul (by omega)
  refine ⟨⟨current.val % period.val, (Nat.mod_le _ _).trans_lt current.isLt⟩, ?_, rfl⟩
  simp only [Era.mortal, checkedNextPowerOfTwo_of_pow hperiod, Option.getD_some, hclamp, hfactor,
    checkedRem_of_pos current (by omega : 0 < period.val), Option.bind_eq_bind, Option.bind_some,
    checkedDiv_one, checkedMul_one, Option.pure_def]

/-! ### The block an era is born at -/

/-- With a phase inside the period no step of `birth` overflows, and its result is exact. -/
theorem Era.birth_val {period phase : U64} (hphase : phase.val < period.val) (current : U64) :
    ∃ n : U64, (Era.mortalAt period phase).birth current = some n ∧
      n.val = (max current.val phase.val - phase.val) / period.val * period.val + phase.val ∧
      n.val ≤ max current.val phase.val := by
  have hmax : (max current phase).val = max current.val phase.val := Fin.coe_max current phase
  have hlt : max current.val phase.val < 2 ^ 64 := hmax ▸ (max current phase).isLt
  -- The births of an era are at most the current block or the phase, which are words.
  have hstart : (max current.val phase.val - phase.val) / period.val * period.val ≤
      max current.val phase.val - phase.val := Nat.div_mul_le_self _ _
  have hsum : (max current.val phase.val - phase.val) / period.val * period.val + phase.val ≤
      max current.val phase.val := by
    have : phase.val ≤ max current.val phase.val := le_max_right _ _
    omega
  refine ⟨⟨_, hsum.trans_lt hlt⟩, ?_, rfl, hsum⟩
  simp only [Era.birth, checkedSub_of_le (le_max_right current phase), hmax, Option.bind_eq_bind,
    ofNat?_of_lt ((Nat.sub_le _ _).trans_lt hlt), Option.bind_some,
    checkedDiv_of_pos _ (Nat.zero_lt_of_lt hphase), checkedMul, checkedAdd,
    ofNat?_of_lt ((hstart.trans (Nat.sub_le _ _)).trans_lt hlt), ofNat?_of_lt (hsum.trans_lt hlt)]

/-- The last block congruent to `b` up to a block `c` past it is `b` exactly for the first `p`
blocks. -/
theorem birth_mod_eq_iff {p b c : ℕ} (hp : 0 < p) (hbc : b ≤ c) :
    (max c (b % p) - b % p) / p * p + b % p = b ↔ c < b + p := by
  have hmod : b % p ≤ c := (Nat.mod_le b p).trans hbc
  have hb : b / p * p + b % p = b := Nat.div_add_mod' b p
  have hr : b % p < p := Nat.mod_lt b hp
  rw [Nat.max_eq_left hmod]
  constructor
  · intro h
    have hc : c - b % p < (c - b % p) / p * p + p := Nat.lt_div_mul_add hp
    omega
  · intro h
    have hdiv : (c - b % p) / p = b / p := by
      refine Nat.div_eq_of_lt_le ?_ ?_
      · omega
      · rw [Nat.add_mul, Nat.one_mul]
        omega
    rw [hdiv, hb]

/-- The last block congruent to `b` up to a block `c` past it. -/
theorem birth_mod_eq {p b c : ℕ} (hp : 0 < p) (hbc : b ≤ c) :
    (max c (b % p) - b % p) / p * p + b % p = b + (c - b) / p * p := by
  have hmod : b % p ≤ c := (Nat.mod_le b p).trans hbc
  have hb : b / p * p + b % p = b := Nat.div_add_mod' b p
  have hdiff : c - b % p = (c - b) + b / p * p := by omega
  rw [Nat.max_eq_left hmod, hdiff, Nat.add_mul_div_right _ _ hp, Nat.add_mul]
  omega

end Runtime

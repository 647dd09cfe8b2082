import SubstrateFabric.Pallet.Template
import SubstrateFabric.Lib.Interaction

/-!
# The weights of the template pallet

A dispatchable declares its weight before it runs, from its benchmark: a base, and what the database
charges for the accesses to `Something` that the benchmark has counted.  Whether the declaration
covers what the call goes on to do is a matter of every path through the call, not of the one that
was benchmarked.

* `Dispatch.prog` are the dispatchables as programs over their storage accesses, in the order of the
  source.  Run against a storage they do what `dispatch` does (`run_prog`).
* `Dispatch.path_cases` are all their paths, whatever the storage replies.  A call that fails has
  written nothing: every check comes before the first write.
* `WeightInfo` are the declared weights, over what the pallet uses of `sp_weights`, which is the
  parameter `SpWeights`.

`run_weight` puts the two together for whole runs.
-/

namespace Pallet

open Machine Interaction Runs

variable {AccountId : Type}

/-! ### Storage accesses -/

/-- The accesses of a dispatchable: to the item `Something`, and to the event log. -/
inductive Access (AccountId : Type)
  | get
  | put (something : U32)
  | depositEvent (event : Event AccountId)

/-- What an access returns. -/
abbrev Access.Reply : Access AccountId → Type
  | .get => Option U32
  | .put _ => Unit
  | .depositEvent _ => Unit

/-- `do_something` -/
def doSomethingProg (origin : RawOrigin AccountId) (something : U32) :
    Prog (Access AccountId) Access.Reply DispatchResult := do
  match ensureSigned origin with
  | .error e => return .error e
  | .ok who =>
    Prog.call (Access.put something)
    Prog.call (Access.depositEvent (.somethingStored something who))
    return .ok ()

/-- `cause_error` -/
def causeErrorProg (origin : RawOrigin AccountId) :
    Prog (Access AccountId) Access.Reply DispatchResult := do
  match ensureSigned origin with
  | .error e => return .error e
  | .ok _ =>
    match ← Prog.call Access.get with
    | none => return .error (.moduleError .noneValue)
    | some old =>
      match checkedAdd old 1 with
      | none => return .error (.moduleError .storageOverflow)
      | some new =>
        Prog.call (Access.put new)
        return .ok ()

/-- The program of a dispatch. -/
def Dispatch.prog (d : Dispatch AccountId) : Prog (Access AccountId) Access.Reply DispatchResult :=
  match d.call with
  | .doSomething something => doSomethingProg d.origin something
  | .causeError => causeErrorProg d.origin

/-- The storage of the pallet. -/
def storage (T : FrameSystem AccountId) : Env (Access AccountId) Access.Reply (Storage T) where
  reply s
    | .get => s.something
    | .put _ => ()
    | .depositEvent _ => ()
  next s
    | .get => s
    | .put something => { s with something := some something }
    | .depositEvent event => { s with system := T.depositEvent event s.system }

theorem causeErrorProg_signed (who : AccountId) :
    causeErrorProg (.signed who) = .ask .get fun
      | none => .ret (.error (.moduleError .noneValue))
      | some old =>
        match checkedAdd old 1 with
        | none => .ret (.error (.moduleError .storageOverflow))
        | some new => .ask (.put new) fun _ => .ret (.ok ()) := by
  simp only [causeErrorProg, ensureSigned, Prog.call_bind]
  refine Prog.ask_congr fun r => ?_
  cases r with
  | none => rfl
  | some old =>
    simp only
    cases checkedAdd old 1 <;> rfl

/-- The programs do what the dispatchables do. -/
theorem run_prog {T : FrameSystem AccountId} (d : Dispatch AccountId) (s : Storage T) :
    ((run (storage T) d.prog s).value, (run (storage T) d.prog s).state) = dispatch d s := by
  obtain ⟨origin, call⟩ := d
  cases origin with
  | root => cases call <;> rfl
  | none => cases call <;> rfl
  | signed who =>
    cases call with
    | doSomething something => rfl
    | causeError =>
      simp only [Dispatch.prog, causeErrorProg_signed, run_ask, dispatch, causeError, ensureSigned]
      cases hs : s.something with
      | none => simp [storage, hs]
      | some old => cases hadd : checkedAdd old 1 <;> simp [storage, hs, hadd, run_ask]

/-! ### Paths -/

/-- The number of reads of `Something`. -/
def reads (log : List (Exchange (Access AccountId) Access.Reply)) : ℕ :=
  log.countP fun x => match x.1 with
    | .get => true
    | _ => false

/-- The number of writes of `Something`. -/
def writes (log : List (Exchange (Access AccountId) Access.Reply)) : ℕ :=
  log.countP fun x => match x.1 with
    | .put _ => true
    | _ => false

/-- Everything a dispatch can do, whatever the storage replies: fail at once, fail after the read,
or write and succeed. -/
theorem Dispatch.path_cases {d : Dispatch AccountId}
    {log : List (Exchange (Access AccountId) Access.Reply)} {r : DispatchResult}
    (h : d.prog.Path log r) :
    (log = [] ∧ r = .error .badOrigin) ∨
    (∃ v event, d.call = .doSomething v ∧ r = .ok () ∧
      log = [⟨.put v, ()⟩, ⟨.depositEvent event, ()⟩]) ∨
    (∃ old err, d.call = .causeError ∧ log = [⟨.get, old⟩] ∧ r = .error (.moduleError err)) ∨
    (∃ old new, d.call = .causeError ∧ r = .ok () ∧ log = [⟨.get, old⟩, ⟨.put new, ()⟩]) := by
  obtain ⟨origin, call⟩ := d
  cases origin with
  | root => cases call <;> exact .inl h
  | none => cases call <;> exact .inl h
  | signed who =>
    cases call with
    | doSomething v =>
      obtain ⟨_, _, rfl, _, _, rfl, rfl, rfl⟩ := h
      exact .inr (.inl ⟨v, _, rfl, rfl, rfl⟩)
    | causeError =>
      have hprog : Dispatch.prog (⟨.signed who, .causeError⟩ : Dispatch AccountId) =
          causeErrorProg (.signed who) := rfl
      rw [hprog, causeErrorProg_signed] at h
      obtain ⟨old, log', rfl, h⟩ := h
      cases old with
      | none =>
        obtain ⟨rfl, rfl⟩ := h
        exact .inr (.inr (.inl ⟨none, .noneValue, rfl, rfl, rfl⟩))
      | some old =>
        cases hadd : checkedAdd old 1 with
        | none =>
          simp only [hadd] at h
          obtain ⟨rfl, rfl⟩ := h
          exact .inr (.inr (.inl ⟨some old, .storageOverflow, rfl, rfl, rfl⟩))
        | some new =>
          simp only [hadd] at h
          obtain ⟨_, _, rfl, rfl, rfl⟩ := h
          exact .inr (.inr (.inr ⟨some old, new, rfl, rfl, rfl⟩))

/-! ### Declared weights -/

/-- What the pallet uses of `sp_weights`: weights of two parts, each added up on saturating words,
and the time that a database charges for a number of reads or writes. -/
structure SpWeights where
  Weight : Type
  RuntimeDbWeight : Type
  refTime : Weight → U64
  proofSize : Weight → U64
  fromParts : U64 → U64 → Weight
  saturatingAdd : Weight → Weight → Weight
  read : RuntimeDbWeight → U64
  write : RuntimeDbWeight → U64
  reads : RuntimeDbWeight → U64 → Weight
  writes : RuntimeDbWeight → U64 → Weight
  refTime_fromParts : ∀ time size, refTime (fromParts time size) = time
  proofSize_fromParts : ∀ time size, proofSize (fromParts time size) = size
  refTime_saturatingAdd : ∀ a b,
    refTime (saturatingAdd a b) = Machine.saturatingAdd (refTime a) (refTime b)
  proofSize_saturatingAdd : ∀ a b,
    proofSize (saturatingAdd a b) = Machine.saturatingAdd (proofSize a) (proofSize b)
  refTime_reads : ∀ db n, refTime (reads db n) = saturatingMul (read db) n
  refTime_writes : ∀ db n, refTime (writes db n) = saturatingMul (write db) n

/-- What the benchmark has measured of a call without its storage accesses. -/
structure Measured where
  refTime : U64
  proofSize : U64

namespace WeightInfo

/-- The measurement of `do_something`. -/
def doSomethingMeasured : Measured := ⟨9000000, 0⟩

/-- The measurement of `cause_error`; the proof size is the estimate for its read. -/
def causeErrorMeasured : Measured := ⟨6000000, 1489⟩

variable {W : SpWeights}

/-- `WeightInfo::do_something` -/
def doSomething (db : W.RuntimeDbWeight) : W.Weight :=
  W.saturatingAdd (W.fromParts doSomethingMeasured.refTime doSomethingMeasured.proofSize)
    (W.writes db 1)

/-- `WeightInfo::cause_error` -/
def causeError (db : W.RuntimeDbWeight) : W.Weight :=
  W.saturatingAdd
    (W.saturatingAdd (W.fromParts causeErrorMeasured.refTime causeErrorMeasured.proofSize)
      (W.reads db 1))
    (W.writes db 1)

end WeightInfo

/-- The weight that a call declares. -/
def Call.weight {W : SpWeights} (db : W.RuntimeDbWeight) : Call → W.Weight
  | .doSomething _ => WeightInfo.doSomething db
  | .causeError => WeightInfo.causeError db

/-- The time of a call without its storage accesses, as its declared weight has it. -/
def Call.baseTime : Call → ℕ
  | .doSomething _ => WeightInfo.doSomethingMeasured.refTime.val
  | .causeError => WeightInfo.causeErrorMeasured.refTime.val

/-- The proof size of one read of `Something`, as the declared weight of `cause_error` has it. -/
def readProofSize : ℕ := WeightInfo.causeErrorMeasured.proofSize.val

/-- The word is at least the number, or it is the greatest word. -/
def Covers (a : U64) (n : ℕ) : Prop := min n (2 ^ 64 - 1) ≤ a.val

instance (a : U64) (n : ℕ) : Decidable (Covers a n) :=
  inferInstanceAs (Decidable (min n (2 ^ 64 - 1) ≤ a.val))

theorem covers_saturate {n k : ℕ} (h : k ≤ n) : Covers (Machine.saturate 64 n) k := by
  unfold Covers Machine.saturate
  simp only
  omega

/-- A saturating sum covers the sum of what its terms cover. -/
theorem Covers.add {a b : U64} {m n : ℕ} (ha : Covers a m) (hb : Covers b n) :
    Covers (saturatingAdd a b) (m + n) := by
  unfold Covers at *
  rw [saturatingAdd_val]
  omega

theorem Covers.mono {a : U64} {m n : ℕ} (ha : Covers a n) (h : m ≤ n) : Covers a m := by
  unfold Covers at *
  omega

theorem covers_val (a : U64) : Covers a a.val :=
  Nat.min_le_left _ _

section Declared

variable {W : SpWeights}

theorem covers_read (db : W.RuntimeDbWeight) :
    Covers (W.refTime (W.reads db 1)) (W.read db).val := by
  rw [W.refTime_reads]
  exact covers_saturate (Nat.mul_one (W.read db).val).ge

theorem covers_write (db : W.RuntimeDbWeight) :
    Covers (W.refTime (W.writes db 1)) (W.write db).val := by
  rw [W.refTime_writes]
  exact covers_saturate (Nat.mul_one (W.write db).val).ge

theorem covers_zero (a : U64) : Covers a 0 :=
  Nat.zero_le _

theorem covers_fromParts (time size : U64) :
    Covers (W.refTime (W.fromParts time size)) time.val ∧
      Covers (W.proofSize (W.fromParts time size)) size.val := by
  rw [W.refTime_fromParts, W.proofSize_fromParts]
  exact ⟨covers_val time, covers_val size⟩

/-- The sum of two weights covers what they cover. -/
theorem covers_saturatingAdd {a b : W.Weight} {m n m' n' : ℕ}
    (ha : Covers (W.refTime a) m ∧ Covers (W.proofSize a) m')
    (hb : Covers (W.refTime b) n ∧ Covers (W.proofSize b) n') :
    Covers (W.refTime (W.saturatingAdd a b)) (m + n) ∧
      Covers (W.proofSize (W.saturatingAdd a b)) (m' + n') := by
  rw [W.refTime_saturatingAdd, W.proofSize_saturatingAdd]
  exact ⟨ha.1.add hb.1, ha.2.add hb.2⟩

theorem covers_doSomething (db : W.RuntimeDbWeight) :
    Covers (W.refTime (WeightInfo.doSomething db))
      (WeightInfo.doSomethingMeasured.refTime.val + (W.write db).val) :=
  (covers_saturatingAdd (covers_fromParts _ _) ⟨covers_write db, covers_zero _⟩).1

theorem covers_causeError (db : W.RuntimeDbWeight) :
    Covers (W.refTime (WeightInfo.causeError db))
        (WeightInfo.causeErrorMeasured.refTime.val + (W.read db).val + (W.write db).val) ∧
      Covers (W.proofSize (WeightInfo.causeError db)) readProofSize :=
  covers_saturatingAdd
    (covers_saturatingAdd (covers_fromParts _ _) ⟨covers_read db, covers_zero _⟩)
    ⟨covers_write db, covers_zero _⟩

end Declared

/-- The accesses of a path are at most those that the benchmark has counted. -/
theorem Dispatch.path_accesses {d : Dispatch AccountId}
    {log : List (Exchange (Access AccountId) Access.Reply)} {r : DispatchResult}
    (h : d.prog.Path log r) :
    (∀ v, d.call = .doSomething v → reads log = 0 ∧ writes log ≤ 1) ∧
      (d.call = .causeError → reads log ≤ 1 ∧ writes log ≤ 1) := by
  rcases Dispatch.path_cases h with ⟨rfl, -⟩ | ⟨v, event, hcall, -, rfl⟩ |
    ⟨old, err, hcall, rfl, -⟩ | ⟨old, new, hcall, -, rfl⟩
  · exact ⟨fun _ _ => ⟨rfl, Nat.zero_le 1⟩, fun _ => ⟨Nat.zero_le 1, Nat.zero_le 1⟩⟩
  · exact ⟨fun _ _ => ⟨rfl, Nat.le_refl 1⟩, fun _ => ⟨Nat.zero_le 1, Nat.le_refl 1⟩⟩
  · rw [hcall]
    exact ⟨fun _ hv => (nomatch hv), fun _ => ⟨Nat.le_refl 1, Nat.zero_le 1⟩⟩
  · rw [hcall]
    exact ⟨fun _ hv => (nomatch hv), fun _ => ⟨Nat.le_refl 1, Nat.le_refl 1⟩⟩

/-- The declared weight covers every path of a dispatch. -/
theorem Dispatch.covers_path {d : Dispatch AccountId}
    {log : List (Exchange (Access AccountId) Access.Reply)} {r : DispatchResult}
    (h : d.prog.Path log r) {W : SpWeights} (db : W.RuntimeDbWeight) :
    Covers (W.refTime (d.call.weight db))
        (d.call.baseTime + reads log * (W.read db).val + writes log * (W.write db).val) ∧
      Covers (W.proofSize (d.call.weight db)) (reads log * readProofSize) := by
  obtain ⟨hdo, hcause⟩ := Dispatch.path_accesses h
  cases hcall : d.call with
  | doSomething v =>
    obtain ⟨hr, hw⟩ := hdo v hcall
    have hwrite := Nat.mul_le_mul_right (W.write db).val hw
    rw [hr, Nat.zero_mul, Nat.zero_mul, Nat.add_zero]
    refine ⟨(covers_doSomething db).mono (Nat.add_le_add_left ?_ _), covers_zero _⟩
    omega
  | causeError =>
    obtain ⟨hr, hw⟩ := hcause hcall
    have hread := Nat.mul_le_mul_right (W.read db).val hr
    have hwrite := Nat.mul_le_mul_right (W.write db).val hw
    have hproof := Nat.mul_le_mul_right (readProofSize) hr
    refine ⟨(covers_causeError db).1.mono ?_, (covers_causeError db).2.mono (by omega)⟩
    show WeightInfo.causeErrorMeasured.refTime.val + reads log * (W.read db).val +
      writes log * (W.write db).val ≤ _
    omega

/-! ### Runs -/

/-- The execution of a dispatch, with its result and its storage accesses. -/
def Dispatch.exec {T : FrameSystem AccountId} (d : Dispatch AccountId) (s : Storage T) :
    (DispatchResult × List (Exchange (Access AccountId) Access.Reply)) × Storage T :=
  let o := run (storage T) d.prog s
  ((o.value, o.log), o.state)

/-- The weight declared for a run. -/
def declared {W : SpWeights} (db : W.RuntimeDbWeight) (calls : List (Dispatch AccountId)) :
    W.Weight :=
  calls.foldl (fun total d => W.saturatingAdd total (d.call.weight db)) (W.fromParts 0 0)

/-- The time that a run takes: the base times of its calls, and its accesses. -/
def timeSpent {W : SpWeights} (db : W.RuntimeDbWeight) (calls : List (Dispatch AccountId))
    (logs : List (List (Exchange (Access AccountId) Access.Reply))) : ℕ :=
  (calls.map fun d => d.call.baseTime).sum + (logs.map reads).sum * (W.read db).val +
    (logs.map writes).sum * (W.write db).val

section Run

variable {T : FrameSystem AccountId}

theorem runAll_exec (calls : List (Dispatch AccountId)) (s : Storage T) :
    ((runAll Dispatch.exec s calls).1.map Prod.fst, (runAll Dispatch.exec s calls).2) =
      runAll dispatch s calls := by
  induction calls generalizing s with
  | nil => rfl
  | cons d calls ih =>
    have hd := run_prog d s
    rw [runAll_cons, runAll_cons, ← hd, ← ih]
    rfl

/-- The weight declared so far and for the rest of the run covers the time and the proof size of
both. -/
theorem covers_run {W : SpWeights} (db : W.RuntimeDbWeight) (calls : List (Dispatch AccountId))
    (s : Storage T) (total : W.Weight) {time size : ℕ}
    (h : Covers (W.refTime total) time ∧ Covers (W.proofSize total) size) :
    let logs := (runAll Dispatch.exec s calls).1.map Prod.snd
    let final := calls.foldl (fun total d => W.saturatingAdd total (d.call.weight db)) total
    Covers (W.refTime final) (time + timeSpent db calls logs) ∧
      Covers (W.proofSize final) (size + (logs.map reads).sum * readProofSize) := by
  induction calls generalizing s total time size with
  | nil => simpa [timeSpent] using h
  | cons d calls ih =>
    have hd := Dispatch.covers_path (path_run (storage T) d.prog s) db
    obtain ⟨h1, h2⟩ := ih (Dispatch.exec d s).2 _ (covers_saturatingAdd h hd)
    simp only [runAll_cons, List.map_cons, List.foldl_cons]
    constructor
    · refine h1.mono (le_of_eq ?_)
      simp only [timeSpent, List.map_cons, List.sum_cons, Dispatch.exec]
      ring
    · refine h2.mono (le_of_eq ?_)
      simp only [List.sum_cons, Dispatch.exec]
      ring

/-- **The declared weights cover every run.**  Run any dispatches, from any origins and any storage,
counting their accesses to `Something`.

1. Results and storage are those of `dispatch`.
2. A call that returns an error has written nothing and deposited no event, on its own account and
   not by a rollback.
3. The weight declared for the calls, added up on saturating words, covers the base times of all
   calls and the price of all accesses made, whatever the database charges; and its proof size
   covers the estimate for every read made.

The base times and the estimate are the benchmark's own, so that for them the declaration covers by
construction; the rest is that no path of a call makes more accesses than the benchmark counted. -/
theorem run_weight {W : SpWeights} (db : W.RuntimeDbWeight) (calls : List (Dispatch AccountId))
    (s : Storage T) :
    let traced := runAll Dispatch.exec s calls
    let logs := traced.1.map Prod.snd
    (traced.1.map Prod.fst, traced.2) = runAll dispatch s calls ∧
    (∀ x ∈ traced.1, x.1 ≠ .ok () → ∀ y ∈ x.2, ∃ v, y = ⟨.get, v⟩) ∧
    Covers (W.refTime (declared db calls)) (timeSpent db calls logs) ∧
    Covers (W.proofSize (declared db calls)) ((logs.map reads).sum * readProofSize) := by
  intro traced logs
  obtain ⟨htime, hsize⟩ :=
    covers_run db calls s (W.fromParts 0 0) ⟨covers_zero _, covers_zero _⟩
  rw [Nat.zero_add] at htime hsize
  refine ⟨runAll_exec calls s, ?_, htime, hsize⟩
  intro x hx herr
  obtain ⟨d, s', rfl⟩ := exists_of_mem_runAll Dispatch.exec hx
  rcases Dispatch.path_cases (path_run (storage T) d.prog s') with ⟨hlog, -⟩ |
    ⟨v, event, -, hr, -⟩ | ⟨old, err, -, hlog, -⟩ | ⟨old, new, -, hr, -⟩
  · intro y hy
    simp only [Dispatch.exec, hlog] at hy
    cases hy
  · exact absurd hr herr
  · intro y hy
    simp only [Dispatch.exec, hlog, List.mem_singleton] at hy
    exact ⟨old, hy⟩
  · exact absurd hr herr

/-- `sp_weights` with a weight as the pair of its parts and a database as that of its prices. -/
def SpWeights.plain : SpWeights where
  Weight := U64 × U64
  RuntimeDbWeight := U64 × U64
  refTime := Prod.fst
  proofSize := Prod.snd
  fromParts := Prod.mk
  saturatingAdd := fun a b => (Machine.saturatingAdd a.1 b.1, Machine.saturatingAdd a.2 b.2)
  read := Prod.fst
  write := Prod.snd
  reads := fun db n => (saturatingMul db.1 n, 0)
  writes := fun db n => (saturatingMul db.2 n, 0)
  refTime_fromParts := fun _ _ => rfl
  proofSize_fromParts := fun _ _ => rfl
  refTime_saturatingAdd := fun _ _ => rfl
  proofSize_saturatingAdd := fun _ _ => rfl
  refTime_reads := fun _ _ => rfl
  refTime_writes := fun _ _ => rfl

/-- With the prices 25 and 100 for a read and a write. -/
example :
    declared (W := SpWeights.plain) (25, 100)
      [⟨.signed 7, .doSomething 1⟩, ⟨.signed 8, .causeError⟩] = (15000225, 1489) := rfl

end Run

end Pallet

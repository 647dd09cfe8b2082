import SubstrateFabric.Lib.Runs
import SubstrateFabric.Lib.Machine
import Mathlib.Data.List.DropRight

/-!
# The template pallet

The storage, events, errors and dispatchables of `pallet_template`.  The pallet keeps one optional
`u32`; `do_something` sets it and deposits an event, `cause_error` increments it and fails where
there is nothing to increment or no room to.

Of `frame_system` the pallet uses the check of the origin and the deposit of events.  The latter is
the parameter `FrameSystem`: an event deposited past the genesis block is appended to the event log.

Dispatches are run without the storage layer of the executive, so that a failing call is not rolled
back: that it leaves no trace is a fact about the pallet (`dispatch_error`).  `run_template` gives
the storage, the results and the events of every run in terms of the calls made.
-/

namespace Pallet

open Runs Machine

/-- `frame_system::RawOrigin` -/
inductive RawOrigin (AccountId : Type)
  | root
  | signed (who : AccountId)
  | none
  deriving DecidableEq

/-- `pallet_template::Error` -/
inductive Error
  | noneValue
  | storageOverflow
  deriving DecidableEq

/-- The dispatch errors the pallet returns: `BadOrigin` or one of its own. -/
inductive DispatchError
  | badOrigin
  | moduleError (err : Error)
  deriving DecidableEq

/-- `DispatchResult` -/
abbrev DispatchResult := Except DispatchError Unit

/-- `pallet_template::Event` -/
inductive Event (AccountId : Type)
  | somethingStored (something : U32) (who : AccountId)
  deriving DecidableEq

/-- `frame_system::ensure_signed` -/
def ensureSigned {AccountId : Type} : RawOrigin AccountId → Except DispatchError AccountId
  | .signed who => .ok who
  | .root => .error .badOrigin
  | .none => .error .badOrigin

/-- What the pallet uses of `frame_system`: the block number, the event log and `deposit_event`,
which appends to the log past the genesis block and leaves the block number alone. -/
structure FrameSystem (AccountId : Type) where
  State : Type
  blockNumber : State → ℕ
  events : State → List (Event AccountId)
  depositEvent : Event AccountId → State → State
  blockNumber_depositEvent : ∀ e s, blockNumber (depositEvent e s) = blockNumber s
  events_depositEvent : ∀ e s, 0 < blockNumber s → events (depositEvent e s) = events s ++ [e]

variable {AccountId : Type}

/-- The storage a dispatch works on: the item `Something` and the state of `frame_system`. -/
structure Storage (T : FrameSystem AccountId) where
  something : Option U32
  system : T.State

/-- The dispatchables. -/
inductive Call
  | doSomething (something : U32)
  | causeError
  deriving DecidableEq

/-- A call with its origin. -/
structure Dispatch (AccountId : Type) where
  origin : RawOrigin AccountId
  call : Call
  deriving DecidableEq

section Dispatch

variable {T : FrameSystem AccountId}

/-- `do_something` -/
def doSomething (origin : RawOrigin AccountId) (something : U32) (s : Storage T) :
    DispatchResult × Storage T :=
  match ensureSigned origin with
  | .error e => (.error e, s)
  | .ok who =>
      let s := { s with something := some something }
      let s := { s with system := T.depositEvent (.somethingStored something who) s.system }
      (.ok (), s)

/-- `cause_error` -/
def causeError (origin : RawOrigin AccountId) (s : Storage T) : DispatchResult × Storage T :=
  match ensureSigned origin with
  | .error e => (.error e, s)
  | .ok _ =>
      match s.something with
      | none => (.error (.moduleError .noneValue), s)
      | some old =>
          match checkedAdd old 1 with
          | none => (.error (.moduleError .storageOverflow), s)
          | some new => (.ok (), { s with something := some new })

/-- The dispatch of a call. -/
def dispatch (d : Dispatch AccountId) (s : Storage T) : DispatchResult × Storage T :=
  match d.call with
  | .doSomething something => doSomething d.origin something s
  | .causeError => causeError d.origin s

/-- What a dispatch can do to a storage. -/
inductive DispatchEffect (s : Storage T) :
    Dispatch AccountId → DispatchResult × Storage T → Prop
  | root (call : Call) : DispatchEffect s ⟨.root, call⟩ (.error .badOrigin, s)
  | unsigned (call : Call) : DispatchEffect s ⟨.none, call⟩ (.error .badOrigin, s)
  | set (who : AccountId) (v : U32) : DispatchEffect s ⟨.signed who, .doSomething v⟩
      (.ok (), ⟨some v, T.depositEvent (.somethingStored v who) s.system⟩)
  | noneValue (who : AccountId) (hs : s.something = none) :
      DispatchEffect s ⟨.signed who, .causeError⟩ (.error (.moduleError .noneValue), s)
  | overflow (who : AccountId) (old : U32) (hs : s.something = some old)
      (hadd : checkedAdd old 1 = none) :
      DispatchEffect s ⟨.signed who, .causeError⟩ (.error (.moduleError .storageOverflow), s)
  | increment (who : AccountId) (old new : U32) (hs : s.something = some old)
      (hadd : checkedAdd old 1 = some new) :
      DispatchEffect s ⟨.signed who, .causeError⟩ (.ok (), ⟨some new, s.system⟩)

theorem dispatch_effect (d : Dispatch AccountId) (s : Storage T) :
    DispatchEffect s d (dispatch d s) := by
  obtain ⟨origin, call⟩ := d
  cases origin with
  | root => cases call <;> exact .root _
  | none => cases call <;> exact .unsigned _
  | signed who =>
    cases call with
    | doSomething v => exact .set who v
    | causeError =>
      simp only [dispatch, causeError, ensureSigned]
      cases hs : s.something with
      | none => exact .noneValue who hs
      | some old =>
        cases hadd : checkedAdd old 1 with
        | none => simp only [hadd]; exact .overflow who old hs hadd
        | some new => simp only [hadd]; exact .increment who old new hs hadd

end Dispatch

/-! ### What a run is about -/

/-- The value that a signed `do_something` sets. -/
def Dispatch.set? (d : Dispatch AccountId) : Option U32 :=
  match d.origin, d.call with
  | .signed _, .doSomething something => some something
  | _, _ => none

/-- The dispatch is a signed `cause_error`. -/
def Dispatch.increments (d : Dispatch AccountId) : Bool :=
  match d.origin, d.call with
  | .signed _, .causeError => true
  | _, _ => false

/-- The event of a signed `do_something`. -/
def Dispatch.event? (d : Dispatch AccountId) : Option (Event AccountId) :=
  match d.origin, d.call with
  | .signed who, .doSomething something => some (.somethingStored something who)
  | _, _ => none

/-- The argument of the last signed `do_something`. -/
def lastSet (calls : List (Dispatch AccountId)) : Option U32 :=
  (calls.filterMap Dispatch.set?).getLast?

/-- The number of signed `cause_error` calls after the last signed `do_something`. -/
def incrementsSince (calls : List (Dispatch AccountId)) : ℕ :=
  (calls.rtakeWhile fun d => d.set?.isNone).countP Dispatch.increments

/-- The value of `Something` after some calls: that of the last signed `do_something` plus the
number of signed `cause_error` calls since, saturating at the greatest `u32`. -/
def expected (calls : List (Dispatch AccountId)) : Option U32 :=
  (lastSet calls).map fun v => saturate 32 (v.val + incrementsSince calls)

/-- The result of a call made after some others. -/
def expectedResult (before : List (Dispatch AccountId)) (d : Dispatch AccountId) : DispatchResult :=
  match d.origin, d.call with
  | .signed _, .doSomething _ => .ok ()
  | .signed _, .causeError =>
      match lastSet before with
      | none => .error (.moduleError .noneValue)
      | some v =>
          if 2 ^ 32 - 1 ≤ v.val + incrementsSince before then .error (.moduleError .storageOverflow)
          else .ok ()
  | _, _ => .error .badOrigin

section Counting

variable (calls : List (Dispatch AccountId)) {d : Dispatch AccountId}

theorem lastSet_concat_of_some {v : U32} (h : d.set? = some v) :
    lastSet (calls ++ [d]) = some v := by
  simp [lastSet, h]

theorem lastSet_concat_of_none (h : d.set? = none) : lastSet (calls ++ [d]) = lastSet calls := by
  simp [lastSet, h]

theorem incrementsSince_concat_of_some {v : U32} (h : d.set? = some v) :
    incrementsSince (calls ++ [d]) = 0 := by
  simp [incrementsSince, h]

theorem incrementsSince_concat_of_none (h : d.set? = none) :
    incrementsSince (calls ++ [d]) = incrementsSince calls + if d.increments then 1 else 0 := by
  simp [incrementsSince, h, List.countP_append, List.countP_cons]

end Counting

/-! ### One dispatch -/

section Step

variable {T : FrameSystem AccountId}

/-- A dispatch that fails leaves the storage as it was. -/
theorem dispatch_error {d : Dispatch AccountId} {s : Storage T} {e : DispatchError}
    (h : (dispatch d s).1 = .error e) : (dispatch d s).2 = s := by
  have heffect := dispatch_effect d s
  generalize dispatch d s = r at h heffect ⊢
  cases heffect with
  | root call => rfl
  | unsigned call => rfl
  | set who v => cases h
  | noneValue who hs => rfl
  | overflow who old hs hadd => rfl
  | increment who old new hs hadd => cases h

theorem expected_concat_of_ignored (before : List (Dispatch AccountId)) {d : Dispatch AccountId}
    (hset : d.set? = none) (hinc : d.increments = false) :
    expected (before ++ [d]) = expected before := by
  rw [expected, lastSet_concat_of_none before hset, incrementsSince_concat_of_none before hset,
    hinc]
  rfl

theorem expected_concat_of_set (before : List (Dispatch AccountId)) (who : AccountId) (v : U32) :
    expected (before ++ [⟨.signed who, .doSomething v⟩]) = some v := by
  rw [expected, lastSet_concat_of_some before (v := v) rfl,
    incrementsSince_concat_of_some before (v := v) rfl, Option.map_some, Nat.add_zero, saturate_val]

theorem expected_concat_of_increment (before : List (Dispatch AccountId)) (who : AccountId) :
    expected (before ++ [⟨.signed who, .causeError⟩]) =
      (lastSet before).map fun v => saturate 32 (v.val + incrementsSince before + 1) := by
  rw [expected, lastSet_concat_of_none before rfl, incrementsSince_concat_of_none before rfl]
  rfl

/-- The value before a signed `cause_error`, counted from the last signed `do_something`. -/
theorem exists_of_expected_eq_some {before : List (Dispatch AccountId)} {old : U32}
    (h : expected before = some old) :
    ∃ v, lastSet before = some v ∧ old = saturate 32 (v.val + incrementsSince before) := by
  obtain ⟨v, hv, rfl⟩ := Option.map_eq_some_iff.mp h
  exact ⟨v, hv, rfl⟩

/-- What one dispatch does to a storage that earlier calls have led to. -/
theorem dispatch_step (d : Dispatch AccountId) {before : List (Dispatch AccountId)} {s : Storage T}
    (hs : s.something = expected before) :
    (dispatch d s).1 = expectedResult before d ∧
      (dispatch d s).2.something = expected (before ++ [d]) := by
  have heffect := dispatch_effect d s
  generalize dispatch d s = r at heffect ⊢
  cases heffect with
  | root call =>
    rw [expected_concat_of_ignored before (by cases call <;> rfl) (by cases call <;> rfl)]
    exact ⟨by cases call <;> rfl, hs⟩
  | unsigned call =>
    rw [expected_concat_of_ignored before (by cases call <;> rfl) (by cases call <;> rfl)]
    exact ⟨by cases call <;> rfl, hs⟩
  | set who v => exact ⟨rfl, (expected_concat_of_set before who v).symm⟩
  | noneValue who hnone =>
    have hlast : lastSet before = none := Option.map_eq_none_iff.mp (hs.symm.trans hnone)
    rw [expected_concat_of_increment, hlast]
    exact ⟨by simp only [expectedResult, hlast], hnone⟩
  | overflow who old hold hadd =>
    -- The value has reached the limit, so that one more increment saturates to the same value.
    obtain ⟨v, hlast, rfl⟩ := exists_of_expected_eq_some (hs.symm.trans hold)
    rw [checkedAdd_saturate (by decide)] at hadd
    split_ifs at hadd with hmax
    rw [expected_concat_of_increment, hlast, Option.map_some, hold, saturate_of_le hmax,
      saturate_of_le (Nat.le_succ_of_le hmax)]
    exact ⟨by simp only [expectedResult, hlast, if_pos hmax], rfl⟩
  | increment who old new hold hadd =>
    obtain ⟨v, hlast, rfl⟩ := exists_of_expected_eq_some (hs.symm.trans hold)
    rw [checkedAdd_saturate (by decide)] at hadd
    split_ifs at hadd with hmax
    rw [expected_concat_of_increment, hlast, Option.map_some]
    exact ⟨by simp only [expectedResult, hlast, if_neg hmax], hadd.symm⟩

theorem dispatch_system (d : Dispatch AccountId) {s : Storage T}
    (hb : 0 < T.blockNumber s.system) :
    T.blockNumber (dispatch d s).2.system = T.blockNumber s.system ∧
      T.events (dispatch d s).2.system = T.events s.system ++ d.event?.toList := by
  have heffect := dispatch_effect d s
  generalize dispatch d s = r at heffect ⊢
  cases heffect with
  | root call => exact ⟨rfl, by cases call <;> simp [Dispatch.event?]⟩
  | unsigned call => exact ⟨rfl, by cases call <;> simp [Dispatch.event?]⟩
  | set who v => exact ⟨T.blockNumber_depositEvent _ _, T.events_depositEvent _ _ hb⟩
  | noneValue who hs => exact ⟨rfl, by simp [Dispatch.event?]⟩
  | overflow who old hs hadd => exact ⟨rfl, by simp [Dispatch.event?]⟩
  | increment who old new hs hadd => exact ⟨rfl, by simp [Dispatch.event?]⟩

end Step

/-! ### Runs -/

section Run

variable {T : FrameSystem AccountId} {s₀ : Storage T}

/-- The storage, the block number and the event log after any calls. -/
theorem run_storage (hs : s₀.something = none) (hb : 0 < T.blockNumber s₀.system)
    (calls : List (Dispatch AccountId)) :
    (runAll dispatch s₀ calls).2.something = expected calls ∧
      0 < T.blockNumber (runAll dispatch s₀ calls).2.system ∧
      T.events (runAll dispatch s₀ calls).2.system =
        T.events s₀.system ++ calls.filterMap Dispatch.event? := by
  -- Induction from the last call back, since the value counts from the last `do_something`.
  induction calls using List.reverseRecOn with
  | nil => exact ⟨hs, hb, by simp⟩
  | append_singleton calls d ih =>
    obtain ⟨h1, h2, h3⟩ := ih
    obtain ⟨hblock, hevents⟩ := dispatch_system d h2
    rw [runAll_concat]
    refine ⟨(dispatch_step d h1).2, by rw [hblock]; exact h2, ?_⟩
    rw [hevents, h3, List.append_assoc, List.filterMap_append]
    rfl

/-- **The template pallet over any run.**  From an empty `Something` past the genesis block,
whatever the calls and their origins:

1. `Something` is empty if no signed `do_something` was made, and else the argument of the last one
   plus the number of signed `cause_error` calls since, saturating at the greatest `u32`;
2. every call returns `BadOrigin` if it is not signed, `NoneValue` for a `cause_error` before any
   signed `do_something`, `StorageOverflow` for a `cause_error` with no room left, and `Ok` else;
3. a call that returns an error leaves the storage and the event log as they were;
4. the events deposited are those of the signed `do_something` calls, in order. -/
theorem run_template (hs : s₀.something = none) (hb : 0 < T.blockNumber s₀.system)
    (calls : List (Dispatch AccountId)) :
    (runAll dispatch s₀ calls).2.something = expected calls ∧
    (∀ before d after, calls = before ++ d :: after →
      (runAll dispatch s₀ calls).1[before.length]? = some (expectedResult before d)) ∧
    (∀ before d after, calls = before ++ d :: after →
      ∀ e, (dispatch d (runAll dispatch s₀ before).2).1 = .error e →
        (dispatch d (runAll dispatch s₀ before).2).2 = (runAll dispatch s₀ before).2) ∧
    T.events (runAll dispatch s₀ calls).2.system =
      T.events s₀.system ++ calls.filterMap Dispatch.event? := by
  refine ⟨(run_storage hs hb calls).1, ?_, fun _ _ _ _ _ he => dispatch_error he,
    (run_storage hs hb calls).2.2⟩
  rintro before d after rfl
  have hlen : (runAll dispatch s₀ before).1.length = before.length :=
    runAll_length dispatch s₀ before
  rw [runAll_append, List.getElem?_append_right (by rw [hlen]), hlen, Nat.sub_self, runAll_cons,
    List.getElem?_cons_zero, (dispatch_step d (run_storage hs hb before).1).1]

/-- `frame_system` reduced to its block number and its events. -/
def FrameSystem.plain (AccountId : Type) : FrameSystem AccountId where
  State := ℕ × List (Event AccountId)
  blockNumber := Prod.fst
  events := Prod.snd
  depositEvent := fun e s => if s.1 = 0 then s else (s.1, s.2 ++ [e])
  blockNumber_depositEvent := fun _ s => by by_cases h : s.1 = 0 <;> simp [h]
  events_depositEvent := fun _ s h => by rw [if_neg h.ne']

/-- Account 7 sets the value just below the limit; of the increments by accounts 7 and 8 the second
fails, and so does one by `Root`. -/
theorem run_template_limit :
    let s₀ : Storage (FrameSystem.plain ℕ) := ⟨none, (1, [])⟩
    let calls : List (Dispatch ℕ) := [⟨.signed 7, .doSomething 4294967294⟩,
      ⟨.signed 7, .causeError⟩, ⟨.signed 8, .causeError⟩, ⟨.root, .causeError⟩]
    (runAll dispatch s₀ calls).2.something = some 4294967295 ∧
    (runAll dispatch s₀ calls).1[2]? = some (.error (.moduleError .storageOverflow)) ∧
    (runAll dispatch s₀ calls).1[3]? = some (.error .badOrigin) ∧
    (runAll dispatch s₀ calls).2.system.2 = [.somethingStored 4294967294 7] := by
  intro s₀ calls
  obtain ⟨hsomething, hresults, -, hevents⟩ := @run_template _ _ s₀ rfl Nat.one_pos calls
  exact ⟨hsomething.trans (by decide), hresults (calls.take 2) _ _ rfl,
    hresults (calls.take 3) _ _ rfl, hevents⟩

end Run

end Pallet

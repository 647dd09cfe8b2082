import SubstrateFabric.Lib.Runs
import Mathlib.Data.List.Perm.Basic

/-!
# Execute, order, validate

Optimistic transactions over a versioned key-value store.  An operation is simulated against a
committed state; the simulation yields a response, the keys read with their versions and the writes
to be made.  Later, and in any order, the transactions are committed: one is valid if every version
it read is still the current one, and then its writes are applied, stamped with a fresh height; an
invalid one changes nothing.

The store maps a key to a height and a value, so that an absent key has no version.  Nothing else is
remembered of a deleted key: a key that was absent, was created and deleted again has the version it
had before, and rightly so, since it has the value it had before.

* `Semantics`: the operations, with their direct execution and their simulation;
* `Ledger`, `step`, `run`: the committed states so far, the transactions in flight, any interleaving
  of simulations and commits;
* `serializable`: the committed state and the responses are those of executing the valid
  transactions one after the other in commit order;
* `run_snapshot`: so is every earlier committed state, for the transactions committed up to it;
* `commitAll_of_apart` and `commitAll_perm`: transactions that keep off each other's keys are all
  valid in any order, and the order does not matter.
-/

namespace Mvcc

open Std List Runs

variable {κ ν ω ρ : Type} [Ord κ]

/-! ### Stores and writes -/

/-- A key-value store. -/
abbrev Store (κ ν : Type) [Ord κ] := ExtTreeMap κ ν

/-- A store whose entries carry the height of the commit that wrote them. -/
abbrev Versioned (κ ν : Type) [Ord κ] := Store κ (ℕ × ν)

/-- A write of a value, or with `none` the deletion of the key. -/
abbrev Write (κ ν : Type) := κ × Option ν

variable [TransOrd κ]

/-- Make one write. -/
def applyWrite (s : Store κ ν) (x : Write κ ν) : Store κ ν :=
  match x.2 with
  | some v => s.insert x.1 v
  | none => s.erase x.1

/-- Make writes in order. -/
def applyWrites (s : Store κ ν) (ws : List (Write κ ν)) : Store κ ν := ws.foldl applyWrite s

/-- The writes of the commit at height `h`. -/
def stamp (h : ℕ) (ws : List (Write κ ν)) : List (Write κ (ℕ × ν)) :=
  ws.map fun x => (x.1, x.2.map fun v => (h, v))

/-- The version of a key: the height of its last write, `none` if it is absent. -/
def version (s : Versioned κ ν) (k : κ) : Option ℕ := s[k]?.map Prod.fst

/-- The store without its versions. -/
def values (s : Versioned κ ν) : Store κ ν := s.map fun _ e => e.2

theorem applyWrites_cons (s : Store κ ν) (x : Write κ ν) (ws : List (Write κ ν)) :
    applyWrites s (x :: ws) = applyWrites (applyWrite s x) ws := rfl

theorem getElem?_values [LawfulEqOrd κ] (s : Versioned κ ν) (k : κ) :
    (values s)[k]? = s[k]?.map Prod.snd := by
  simp [values]

section Writes

variable [LawfulEqOrd κ] [DecidableEq κ]

theorem getElem?_applyWrite (s : Store κ ν) (x : Write κ ν) (k : κ) :
    (applyWrite s x)[k]? = if x.1 = k then x.2 else s[k]? := by
  obtain ⟨k', v⟩ := x
  cases v with
  | none => simp [applyWrite, ExtTreeMap.getElem?_erase]
  | some v => simp [applyWrite, ExtTreeMap.getElem?_insert]

/-- A key that is not written keeps its entry. -/
theorem getElem?_applyWrites_of_notMem {ws : List (Write κ ν)} {k : κ} (h : k ∉ ws.map Prod.fst)
    (s : Store κ ν) : (applyWrites s ws)[k]? = s[k]? := by
  induction ws generalizing s with
  | nil => rfl
  | cons x ws ih =>
    simp only [map_cons, mem_cons, not_or] at h
    rw [applyWrites_cons, ih h.2, getElem?_applyWrite, if_neg (Ne.symm h.1)]

/-- What writes make of a key depends on the entry of that key alone. -/
theorem getElem?_applyWrites_congr (ws : List (Write κ ν)) {s s' : Store κ ν} {k : κ}
    (h : s[k]? = s'[k]?) : (applyWrites s ws)[k]? = (applyWrites s' ws)[k]? := by
  induction ws generalizing s s' with
  | nil => exact h
  | cons x ws ih =>
    refine ih ?_
    rw [getElem?_applyWrite, getElem?_applyWrite, h]

/-- Writes to different keys commute. -/
theorem applyWrites_comm {ws ws' : List (Write κ ν)}
    (h : Disjoint (ws.map Prod.fst) (ws'.map Prod.fst)) (s : Store κ ν) :
    applyWrites (applyWrites s ws) ws' = applyWrites (applyWrites s ws') ws := by
  refine ExtTreeMap.ext_getElem? fun k => ?_
  by_cases hk : k ∈ ws.map Prod.fst
  · have hk' : k ∉ ws'.map Prod.fst := fun hk' => h hk hk'
    rw [getElem?_applyWrites_of_notMem hk']
    exact getElem?_applyWrites_congr ws (getElem?_applyWrites_of_notMem hk' s).symm
  · rw [getElem?_applyWrites_of_notMem hk]
    exact getElem?_applyWrites_congr ws' (getElem?_applyWrites_of_notMem hk s)

theorem values_applyWrites_stamp (h : ℕ) (ws : List (Write κ ν)) (s : Versioned κ ν) :
    values (applyWrites s (stamp h ws)) = applyWrites (values s) ws := by
  induction ws generalizing s with
  | nil => rfl
  | cons x ws ih =>
    have hx : values (applyWrite s (x.1, x.2.map fun v => (h, v))) = applyWrite (values s) x := by
      refine ExtTreeMap.ext_getElem? fun k => ?_
      rw [getElem?_values, getElem?_applyWrite, getElem?_applyWrite, getElem?_values]
      split_ifs
      · cases x.2 <;> rfl
      · rfl
    rw [applyWrites_cons, ← hx, ← ih]
    rfl

/-- A stamped commit leaves a key as it was, deletes it, or gives it the new height. -/
theorem getElem?_applyWrites_stamp (h : ℕ) (ws : List (Write κ ν)) (s : Versioned κ ν) (k : κ) :
    (applyWrites s (stamp h ws))[k]? = s[k]? ∨ (applyWrites s (stamp h ws))[k]? = none ∨
      ∃ v, (applyWrites s (stamp h ws))[k]? = some (h, v) := by
  induction ws generalizing s with
  | nil => exact Or.inl rfl
  | cons x ws ih =>
    rcases ih (applyWrite s (x.1, x.2.map fun v => (h, v))) with hk | hk | hk
    · rw [getElem?_applyWrite] at hk
      split_ifs at hk with hx
      · obtain ⟨k', v⟩ := x
        cases v with
        | none => exact Or.inr (Or.inl hk)
        | some v => exact Or.inr (Or.inr ⟨v, hk⟩)
      · exact Or.inl hk
    · exact Or.inr (Or.inl hk)
    · exact Or.inr (Or.inr hk)

end Writes

/-! ### Operations and transactions -/

/-- What the simulation of an operation yields: its response, the keys it read, its writes. -/
structure Effect (κ ν ρ : Type) where
  response : ρ
  reads : List κ
  writes : List (Write κ ν)

/-- Operations `ω` with responses `ρ`.  A simulation that succeeds predicts the direct execution on
the same state, and depends only on the keys it read. -/
structure Semantics (κ ν ω ρ : Type) [Ord κ] [TransOrd κ] where
  exec : ω → Store κ ν → ρ × Store κ ν
  simulate : ω → Store κ ν → Option (Effect κ ν ρ)
  exec_of_simulate : ∀ {op s e}, simulate op s = some e →
    exec op s = (e.response, applyWrites s e.writes)
  simulate_congr : ∀ {op s s' e}, simulate op s = some e → (∀ k ∈ e.reads, s'[k]? = s[k]?) →
    simulate op s' = some e

/-- A transaction: an operation with the response, the versions read and the writes that its
simulation yielded. -/
structure Tx (κ ν ω ρ : Type) where
  op : ω
  response : ρ
  readSet : List (κ × Option ℕ)
  writeSet : List (Write κ ν)

/-- The simulation of an operation against a committed state; `none` if it returns an error. -/
def endorse (S : Semantics κ ν ω ρ) (op : ω) (s : Versioned κ ν) : Option (Tx κ ν ω ρ) :=
  (S.simulate op (values s)).map fun e =>
    ⟨op, e.response, e.reads.map fun k => (k, version s k), e.writes⟩

/-- Every version read is the current one. -/
def Valid (tx : Tx κ ν ω ρ) (s : Versioned κ ν) : Prop := ∀ r ∈ tx.readSet, version s r.1 = r.2

instance (tx : Tx κ ν ω ρ) (s : Versioned κ ν) : Decidable (Valid tx s) :=
  inferInstanceAs (Decidable (∀ r ∈ tx.readSet, version s r.1 = r.2))

/-- The state a valid transaction leaves when it is committed at height `h`. -/
def commit (h : ℕ) (tx : Tx κ ν ω ρ) (s : Versioned κ ν) : Versioned κ ν :=
  applyWrites s (stamp h tx.writeSet)

/-! ### Interleavings -/

/-- A committed state to start from: every version is below the next height. -/
structure Genesis (κ ν : Type) [Ord κ] [TransOrd κ] where
  state : Versioned κ ν
  height : ℕ
  fresh : ∀ k v, version state k = some v → v < height

/-- The system: the current committed state and the earlier ones, the next height, the transactions
in flight, and the valid transactions in the order of their commits. -/
structure Ledger (κ ν ω ρ : Type) [Ord κ] where
  current : Versioned κ ν
  earlier : List (Versioned κ ν)
  height : ℕ
  inFlight : List (Tx κ ν ω ρ)
  committed : List (Tx κ ν ω ρ)

/-- All committed states, the current one first. -/
def Ledger.states (L : Ledger κ ν ω ρ) : List (Versioned κ ν) := L.current :: L.earlier

/-- What can happen: the simulation of an operation against the committed state `back` commits ago,
or the commit of the `i`-th transaction in flight. -/
inductive Event (ω : Type)
  | simulate (op : ω) (back : ℕ)
  | commit (i : ℕ)

/-- One event.  A simulation that returns an error is dropped, and so is an invalid transaction; an
event that refers to nothing does nothing. -/
def step (S : Semantics κ ν ω ρ) (L : Ledger κ ν ω ρ) : Event ω → Ledger κ ν ω ρ
  | .simulate op back =>
      match L.states[back]?.bind (endorse S op) with
      | none => L
      | some tx => { L with inFlight := tx :: L.inFlight }
  | .commit i =>
      match L.inFlight[i]? with
      | none => L
      | some tx =>
          if Valid tx L.current then
            { current := commit L.height tx L.current
              earlier := L.current :: L.earlier
              height := L.height + 1
              inFlight := L.inFlight.eraseIdx i
              committed := L.committed ++ [tx] }
          else
            { L with inFlight := L.inFlight.eraseIdx i }

/-- The system at the start. -/
def Ledger.init (g : Genesis κ ν) : Ledger κ ν ω ρ := ⟨g.state, [], g.height, [], []⟩

/-- The system after some events. -/
def run (S : Semantics κ ν ω ρ) (g : Genesis κ ν) (events : List (Event ω)) : Ledger κ ν ω ρ :=
  events.foldl (step S) (.init g)

/-- The invariant of the system.  Versions identify entries across all committed states; every
transaction in flight was simulated against one of them; the committed transactions, executed one
after the other, give their responses and the current state. -/
structure Inv (S : Semantics κ ν ω ρ) (s₀ : Store κ ν) (L : Ledger κ ν ω ρ) : Prop where
  fresh : ∀ s ∈ L.states, ∀ k v, version s k = some v → v < L.height
  coherent : ∀ s ∈ L.states, ∀ s' ∈ L.states, ∀ k, version s k = version s' k → s[k]? = s'[k]?
  endorsed : ∀ tx ∈ L.inFlight, ∃ s ∈ L.states, endorse S tx.op s = some tx
  serial : runAll S.exec s₀ (L.committed.map Tx.op) =
    (L.committed.map Tx.response, values L.current)

section Interleavings

variable (S : Semantics κ ν ω ρ) {s₀ : Store κ ν} {L : Ledger κ ν ω ρ}

theorem endorse_eq_some {op : ω} {s : Versioned κ ν} {tx : Tx κ ν ω ρ}
    (h : endorse S op s = some tx) :
    ∃ e, S.simulate op (values s) = some e ∧
      tx = ⟨op, e.response, e.reads.map fun k => (k, version s k), e.writes⟩ := by
  obtain ⟨e, he, rfl⟩ := Option.map_eq_some_iff.1 h
  exact ⟨e, he, rfl⟩

/-- What an event can do: nothing, put a simulated operation in flight, commit a valid transaction,
or drop one. -/
theorem step_cases (L : Ledger κ ν ω ρ) (ev : Event ω) :
    step S L ev = L ∨
    (∃ op back tx s, ev = .simulate op back ∧ s ∈ L.states ∧ endorse S op s = some tx ∧
      step S L ev = { L with inFlight := tx :: L.inFlight }) ∨
    (∃ i, ∃ tx ∈ L.inFlight, Valid tx L.current ∧
      step S L ev = { current := commit L.height tx L.current, earlier := L.current :: L.earlier,
                      height := L.height + 1, inFlight := L.inFlight.eraseIdx i,
                      committed := L.committed ++ [tx] }) ∨
    ∃ i, step S L ev = { L with inFlight := L.inFlight.eraseIdx i } := by
  cases ev with
  | simulate op back =>
    simp only [step]
    cases hb : L.states[back]?.bind (endorse S op) with
    | none => exact .inl rfl
    | some tx =>
      obtain ⟨s, hs, hend⟩ := Option.bind_eq_some_iff.1 hb
      exact .inr (.inl ⟨op, back, tx, s, rfl, mem_of_getElem? hs, hend, rfl⟩)
  | commit i =>
    simp only [step]
    cases hi : L.inFlight[i]? with
    | none => exact .inl rfl
    | some tx =>
      by_cases hv : Valid tx L.current
      · exact .inr (.inr (.inl ⟨i, tx, mem_of_getElem? hi, hv, by simp only [if_pos hv]⟩))
      · exact .inr (.inr (.inr ⟨i, by simp only [if_neg hv]⟩))

/-- What holds at the start and is kept by every event of a run holds after the run. -/
theorem run_induction {g : Genesis κ ν} {events : List (Event ω)}
    {P : Ledger κ ν ω ρ → Prop} (init : P (.init g))
    (step : ∀ L, P L → ∀ ev ∈ events, P (step S L ev)) : P (run S g events) :=
  List.foldlRecOn events (Mvcc.step S) init step

/-- What holds of every transaction that a simulation of the run can yield holds of the committed
ones. -/
theorem forall_committed {g : Genesis κ ν} {events : List (Event ω)} {P : Tx κ ν ω ρ → Prop}
    (h : ∀ op back, .simulate op back ∈ events → ∀ s tx, endorse S op s = some tx → P tx) :
    ∀ tx ∈ (run S g events).committed, P tx := by
  have hall : ∀ tx ∈ (run S g events).inFlight ++ (run S g events).committed, P tx := by
    refine run_induction S (P := fun L => ∀ tx ∈ L.inFlight ++ L.committed, P tx)
      (fun _ htx => nomatch htx) fun L hL ev hev tx htx => ?_
    rcases step_cases S L ev with heq | ⟨op, back, tx', s, rfl, -, hend, heq⟩ |
      ⟨i, tx', htx', -, heq⟩ | ⟨i, heq⟩ <;>
    rw [heq] at htx
    · exact hL tx htx
    · rcases mem_cons.1 htx with rfl | htx
      · exact h op back hev s tx hend
      · exact hL tx htx
    · rcases mem_append.1 htx with hmem | hmem
      · exact hL tx (mem_append_left _ (mem_of_mem_eraseIdx hmem))
      · rcases mem_append.1 hmem with hmem | hmem
        · exact hL tx (mem_append_right _ hmem)
        · rw [mem_singleton.1 hmem]
          exact hL tx' (mem_append_left _ htx')
    · rcases mem_append.1 htx with hmem | hmem
      · exact hL tx (mem_append_left _ (mem_of_mem_eraseIdx hmem))
      · exact hL tx (mem_append_right _ hmem)
  exact fun tx htx => hall tx (mem_append_right _ htx)

/-- The operations committed in a run are among those simulated in it. -/
theorem of_mem_committed {g : Genesis κ ν} {events : List (Event ω)}
    {P : ω → Prop} (h : ∀ op back, .simulate op back ∈ events → P op) {tx : Tx κ ν ω ρ}
    (htx : tx ∈ (run S g events).committed) : P tx.op := by
  refine forall_committed S (P := fun tx => P tx.op) (fun op back hev s tx hend => ?_) tx htx
  obtain ⟨e, -, rfl⟩ := endorse_eq_some S hend
  exact h op back hev

theorem inv_init (g : Genesis κ ν) : Inv S (values g.state) (.init g) where
  fresh := by
    intro s hs
    cases mem_singleton.1 hs
    exact g.fresh
  coherent := by
    intro s hs s' hs' k _
    cases mem_singleton.1 hs
    cases mem_singleton.1 hs'
    rfl
  endorsed := by simp [Ledger.init]
  serial := rfl

theorem inv_inFlight (h : Inv S s₀ L) {txs : List (Tx κ ν ω ρ)}
    (htxs : ∀ tx ∈ txs, ∃ s ∈ L.states, endorse S tx.op s = some tx) :
    Inv S s₀ { L with inFlight := txs } where
  fresh := h.fresh
  coherent := h.coherent
  endorsed := htxs
  serial := h.serial

variable [LawfulEqOrd κ]

/-- A transaction that is valid in a state where versions identify entries, executed there, does
what its simulation said. -/
theorem exec_of_endorse {s t : Versioned κ ν} {tx : Tx κ ν ω ρ}
    (hend : endorse S tx.op s = some tx)
    (hcoherent : ∀ k, version t k = version s k → t[k]? = s[k]?) (hv : Valid tx t) :
    S.exec tx.op (values t) = (tx.response, applyWrites (values t) tx.writeSet) := by
  obtain ⟨e, he, htx⟩ := endorse_eq_some S hend
  rw [htx] at hv ⊢
  refine S.exec_of_simulate (S.simulate_congr he fun k hk => ?_)
  have hver : version t k = version s k := hv _ (mem_map.2 ⟨k, hk, rfl⟩)
  rw [getElem?_values, getElem?_values, hcoherent k hver]

/-- A valid transaction, executed on the current state, does what its simulation said. -/
theorem exec_of_valid (h : Inv S s₀ L) {tx : Tx κ ν ω ρ} (htx : tx ∈ L.inFlight)
    (hv : Valid tx L.current) :
    S.exec tx.op (values L.current) =
      (tx.response, applyWrites (values L.current) tx.writeSet) := by
  obtain ⟨s, hs, hend⟩ := h.endorsed tx htx
  exact exec_of_endorse S hend (h.coherent _ mem_cons_self _ hs) hv

/-- A valid commit keeps the invariant. -/
theorem inv_commit [DecidableEq κ] (h : Inv S s₀ L) {tx : Tx κ ν ω ρ} (htx : tx ∈ L.inFlight)
    (hv : Valid tx L.current) {txs : List (Tx κ ν ω ρ)} (htxs : ∀ tx ∈ txs, tx ∈ L.inFlight) :
    Inv S s₀ ⟨commit L.height tx L.current, L.current :: L.earlier, L.height + 1, txs,
      L.committed ++ [tx]⟩ := by
  have hcur : L.current ∈ L.states := mem_cons_self
  have hnew : ∀ k, (commit L.height tx L.current)[k]? = L.current[k]? ∨
      (commit L.height tx L.current)[k]? = none ∨
      ∃ v, (commit L.height tx L.current)[k]? = some (L.height, v) :=
    getElem?_applyWrites_stamp L.height tx.writeSet L.current
  -- the new state agrees with a committed one wherever the versions do: the new height is unused
  have hcoh : ∀ s ∈ L.states, ∀ k, version (commit L.height tx L.current) k = version s k →
      (commit L.height tx L.current)[k]? = s[k]? := by
    intro s hs k hver
    rcases hnew k with hk | hk | ⟨v, hk⟩
    · rw [hk]
      refine h.coherent _ hcur _ hs k ?_
      rw [← hver, version, version, hk]
    · rw [version, hk, version] at hver
      rw [hk, eq_comm, ← Option.map_eq_none_iff]
      exact hver.symm
    · rw [version, hk] at hver
      exact absurd (h.fresh s hs k _ hver.symm) (lt_irrefl _)
  refine ⟨?_, ?_, ?_, ?_⟩
  · intro s hs k v hver
    rcases mem_cons.1 hs with rfl | hs
    · rcases hnew k with hk | hk | ⟨v', hk⟩
      · rw [version, hk] at hver
        exact Nat.lt_succ_of_lt (h.fresh _ hcur k v hver)
      · simp [version, hk] at hver
      · rw [version, hk] at hver
        cases hver
        exact Nat.lt_succ_self _
    · exact Nat.lt_succ_of_lt (h.fresh s hs k v hver)
  · intro s hs s' hs' k hver
    rcases mem_cons.1 hs with rfl | hs <;> rcases mem_cons.1 hs' with rfl | hs'
    · rfl
    · exact hcoh s' hs' k hver
    · exact (hcoh s hs k hver.symm).symm
    · exact h.coherent s hs s' hs' k hver
  · intro tx' htx'
    obtain ⟨s, hs, hend⟩ := h.endorsed tx' (htxs tx' htx')
    exact ⟨s, mem_cons_of_mem _ hs, hend⟩
  · simp only [map_append, map_cons, map_nil]
    rw [runAll_concat, h.serial, exec_of_valid S h htx hv, commit,
      values_applyWrites_stamp]

theorem inv_step [DecidableEq κ] (h : Inv S s₀ L) (ev : Event ω) : Inv S s₀ (step S L ev) := by
  rcases step_cases S L ev with heq | ⟨op, back, tx, s, -, hs, hend, heq⟩ | ⟨i, tx, htx, hv, heq⟩ |
    ⟨i, heq⟩
  · rw [heq]
    exact h
  · rw [heq]
    refine inv_inFlight S h fun tx' htx' => ?_
    rcases mem_cons.1 htx' with rfl | htx'
    · obtain ⟨e, he, rfl⟩ := endorse_eq_some S hend
      exact ⟨s, hs, hend⟩
    · exact h.endorsed tx' htx'
  · rw [heq]
    exact inv_commit S h htx hv fun _ => mem_of_mem_eraseIdx
  · rw [heq]
    exact inv_inFlight S h fun tx' htx' => h.endorsed tx' (mem_of_mem_eraseIdx htx')

theorem inv_run [DecidableEq κ] (g : Genesis κ ν) (events : List (Event ω)) :
    Inv S (values g.state) (run S g events) :=
  run_induction S (inv_init S g) fun _ h ev _ => inv_step S h ev

/-- **Serializability**: after any interleaving of simulations and commits, the committed state and
the responses of the valid transactions are those of executing them one after the other, in the
order of their commits. -/
theorem serializable [DecidableEq κ] (g : Genesis κ ν) (events : List (Event ω)) :
    runAll S.exec (values g.state) ((run S g events).committed.map Tx.op) =
      ((run S g events).committed.map Tx.response, values (run S g events).current) :=
  (inv_run S g events).serial

/-- Every committed state is the one that the transactions committed up to it have led to. -/
theorem run_snapshot [DecidableEq κ] (g : Genesis κ ν) (events : List (Event ω)) {back : ℕ}
    {s : Versioned κ ν} (hs : (run S g events).states[back]? = some s) :
    ∃ done, done <+: (run S g events).committed ∧
      done.length + back = (run S g events).committed.length ∧
      runAll S.exec (values g.state) (done.map Tx.op) = (done.map Tx.response, values s) := by
  have hall : Inv S (values g.state) (run S g events) ∧
      ∀ back s, (run S g events).states[back]? = some s →
        ∃ done, done <+: (run S g events).committed ∧
          done.length + back = (run S g events).committed.length ∧
          runAll S.exec (values g.state) (done.map Tx.op) = (done.map Tx.response, values s) := by
    refine run_induction S (P := fun L => Inv S (values g.state) L ∧
      ∀ back s, L.states[back]? = some s →
        ∃ done, done <+: L.committed ∧ done.length + back = L.committed.length ∧
          runAll S.exec (values g.state) (done.map Tx.op) = (done.map Tx.response, values s))
      ⟨inv_init S g, ?_⟩ fun L ⟨hinv, hL⟩ ev _ => ⟨inv_step S hinv ev, ?_⟩
    · intro back s hs
      cases back with
      | zero =>
        cases hs
        exact ⟨[], nil_prefix, rfl, rfl⟩
      | succ back => cases hs
    · have hinv' := inv_step S hinv ev
      rcases step_cases S L ev with heq | ⟨op, back, tx, s, -, -, -, heq⟩ | ⟨i, tx, -, -, heq⟩ |
        ⟨i, heq⟩ <;>
      rw [heq] at hinv' ⊢
      · exact hL
      · exact hL
      · intro back s hs
        cases back with
        | zero =>
          cases hs
          exact ⟨_, prefix_rfl, rfl, hinv'.serial⟩
        | succ back =>
          obtain ⟨done, hprefix, hlen, hrun⟩ := hL back s hs
          refine ⟨done, hprefix.trans (prefix_append _ _), ?_, hrun⟩
          rw [length_append, length_singleton]
          omega
      · exact hL
  exact hall.2 back s hs

end Interleavings

/-! ### One operation at a time -/

/-- The events of a client that simulates each operation on the current state and has it committed
before it turns to the next one. -/
def sequential (ops : List ω) : List (Event ω) := ops.flatMap fun op => [.simulate op 0, .commit 0]

theorem mem_of_simulate_mem_sequential {ops : List ω} {op : ω} {back : ℕ}
    (h : .simulate op back ∈ sequential ops) : op ∈ ops := by
  obtain ⟨op', hop', hmem⟩ := mem_flatMap.1 h
  simp only [mem_cons, Event.simulate.injEq, reduceCtorEq, not_mem_nil, or_false] at hmem
  rw [hmem.1]
  exact hop'

section Sequential

variable (S : Semantics κ ν ω ρ) {L : Ledger κ ν ω ρ}

theorem run_sequential_concat (g : Genesis κ ν) (ops : List ω) (op : ω) :
    run S g (sequential (ops ++ [op])) =
      step S (step S (run S g (sequential ops)) (.simulate op 0)) (.commit 0) := by
  simp [run, sequential, List.foldl_append]

/-- A transaction is valid in the state it was simulated on. -/
theorem valid_of_endorse {op : ω} {s : Versioned κ ν} {tx : Tx κ ν ω ρ}
    (h : endorse S op s = some tx) : Valid tx s := by
  obtain ⟨e, -, rfl⟩ := endorse_eq_some S h
  intro r hr
  obtain ⟨k, -, rfl⟩ := mem_map.1 hr
  rfl

theorem step_commit_of_endorse (hL : L.inFlight = []) {op : ω} {tx : Tx κ ν ω ρ}
    (h : endorse S op L.current = some tx) :
    step S (step S L (.simulate op 0)) (.commit 0) =
      { current := commit L.height tx L.current, earlier := L.current :: L.earlier,
        height := L.height + 1, inFlight := [], committed := L.committed ++ [tx] } := by
  have hsim : step S L (.simulate op 0) = { L with inFlight := [tx] } := by
    simp only [step, Ledger.states, getElem?_cons_zero, Option.bind_some, h, hL]
  rw [hsim]
  simp only [step, getElem?_cons_zero, if_pos (valid_of_endorse S h), eraseIdx_zero, tail_cons]

theorem step_commit_of_error (hL : L.inFlight = []) {op : ω} (h : endorse S op L.current = none) :
    step S (step S L (.simulate op 0)) (.commit 0) = L := by
  have hsim : step S L (.simulate op 0) = L := by
    simp only [step, Ledger.states, getElem?_cons_zero, Option.bind_some, h]
  rw [hsim]
  simp only [step, hL, getElem?_nil]

end Sequential

/-! ### Transactions that keep off each other's keys -/

/-- The keys a transaction writes. -/
def Tx.writeKeys (tx : Tx κ ν ω ρ) : List κ := tx.writeSet.map Prod.fst

/-- The keys a transaction reads. -/
def Tx.readKeys (tx : Tx κ ν ω ρ) : List κ := tx.readSet.map Prod.fst

/-- Neither transaction writes a key the other one reads or writes. -/
def Apart (tx tx' : Tx κ ν ω ρ) : Prop :=
  Disjoint tx.writeKeys tx'.readKeys ∧ Disjoint tx.readKeys tx'.writeKeys ∧
    Disjoint tx.writeKeys tx'.writeKeys

omit [Ord κ] [TransOrd κ] in
theorem Apart.symm {tx tx' : Tx κ ν ω ρ} (h : Apart tx tx') : Apart tx' tx :=
  ⟨h.2.1.symm, h.1.symm, h.2.2.symm⟩

instance : Std.Symm (Apart : Tx κ ν ω ρ → Tx κ ν ω ρ → Prop) := ⟨fun _ _ => Apart.symm⟩

/-- Commit transactions in order from the height `h` on: which of them are valid, and the final
state. -/
def commitAll (h : ℕ) (s : Versioned κ ν) : List (Tx κ ν ω ρ) → List Bool × Versioned κ ν
  | [] => ([], s)
  | tx :: txs =>
      if Valid tx s then
        (true :: (commitAll (h + 1) (commit h tx s) txs).1,
          (commitAll (h + 1) (commit h tx s) txs).2)
      else
        (false :: (commitAll h s txs).1, (commitAll h s txs).2)

section Apart

variable [LawfulEqOrd κ] [DecidableEq κ] (S : Semantics κ ν ω ρ)

/-- The transaction is valid in the state, and simulating its operation there yields it again. -/
def Ready (tx : Tx κ ν ω ρ) (s : Versioned κ ν) : Prop :=
  Valid tx s ∧ S.simulate tx.op (values s) = some ⟨tx.response, tx.readKeys, tx.writeSet⟩

omit [LawfulEqOrd κ] [DecidableEq κ] in
theorem ready_of_endorse {tx : Tx κ ν ω ρ} {s : Versioned κ ν} (h : endorse S tx.op s = some tx) :
    Ready S tx s := by
  obtain ⟨e, he, htx⟩ := endorse_eq_some S h
  have hkeys : tx.readKeys = e.reads := by
    rw [Tx.readKeys, htx, map_map]
    exact map_id _
  exact ⟨valid_of_endorse S h, by rw [he, hkeys, htx]⟩

/-- The commit of a transaction that is apart from it leaves a transaction ready. -/
theorem ready_commit {tx tx' : Tx κ ν ω ρ} {s : Versioned κ ν} (h : Ready S tx s)
    (hap : Apart tx tx') (n : ℕ) : Ready S tx (commit n tx' s) := by
  have hkeep : ∀ k ∈ tx.readKeys, (commit n tx' s)[k]? = s[k]? := by
    intro k hk
    refine getElem?_applyWrites_of_notMem (fun hk' => hap.2.1 hk ?_) s
    simpa [stamp, Tx.writeKeys] using hk'
  constructor
  · intro r hr
    rw [version, hkeep r.1 (mem_map.2 ⟨r, hr, rfl⟩)]
    exact h.1 r hr
  · refine S.simulate_congr h.2 fun k hk => ?_
    rw [getElem?_values, getElem?_values, hkeep k hk]

/-- Transactions ready in a state and apart from each other are all valid when committed from it,
and the values they leave are those of their writes made in that order. -/
theorem commitAll_of_apart (n : ℕ) {s : Versioned κ ν} {txs : List (Tx κ ν ω ρ)}
    (hready : ∀ tx ∈ txs, Ready S tx s) (hap : txs.Pairwise Apart) :
    (commitAll n s txs).1 = txs.map (fun _ => true) ∧
      values (commitAll n s txs).2 = txs.foldl (fun s tx => applyWrites s tx.writeSet) (values s) ∧
      runAll S.exec (values s) (txs.map Tx.op) =
        (txs.map Tx.response, txs.foldl (fun s tx => applyWrites s tx.writeSet) (values s)) := by
  induction txs generalizing n s with
  | nil => exact ⟨rfl, rfl, rfl⟩
  | cons tx txs ih =>
    obtain ⟨hhead, htail⟩ := pairwise_cons.1 hap
    have hv := hready tx mem_cons_self
    have hvalues : values (commit n tx s) = applyWrites (values s) tx.writeSet :=
      values_applyWrites_stamp n tx.writeSet s
    obtain ⟨h1, h2, h3⟩ := ih (n + 1) (s := commit n tx s) (fun tx' htx' =>
      ready_commit S (hready tx' (mem_cons_of_mem _ htx')) (hhead tx' htx').symm n) htail
    rw [hvalues] at h2 h3
    simp only [commitAll, if_pos hv.1, map_cons, foldl_cons, runAll_cons]
    rw [S.exec_of_simulate hv.2]
    exact ⟨by rw [h1], h2, by rw [h3]⟩

omit [DecidableEq κ] in
/-- The writes of transactions apart from each other may be made in any order. -/
theorem foldl_applyWrites_perm {txs txs' : List (Tx κ ν ω ρ)} (hap : txs.Pairwise Apart)
    (hperm : txs ~ txs') (s : Store κ ν) :
    txs.foldl (fun s tx => applyWrites s tx.writeSet) s =
      txs'.foldl (fun s tx => applyWrites s tx.writeSet) s := by
  classical
  refine hperm.foldl_eq' (fun tx htx tx' htx' s => ?_) s
  by_cases heq : tx = tx'
  · rw [heq]
  · have h : Apart tx tx' := hap.forall htx htx' heq
    exact applyWrites_comm h.2.2 s

/-- **Commits apart from each other commute**: transactions simulated on one state and apart from
each other are all valid in whatever order they are committed, and the state and the responses are
those of executing the operations one after the other in any order. -/
theorem commitAll_perm (n : ℕ) {s : Versioned κ ν} {txs order serial : List (Tx κ ν ω ρ)}
    (hend : ∀ tx ∈ txs, endorse S tx.op s = some tx) (hap : txs.Pairwise Apart)
    (horder : order ~ txs) (hserial : serial ~ txs) :
    (commitAll n s order).1 = order.map (fun _ => true) ∧
      runAll S.exec (values s) (serial.map Tx.op) =
        (serial.map Tx.response, values (commitAll n s order).2) := by
  have hready : ∀ {l : List (Tx κ ν ω ρ)}, l ~ txs → ∀ tx ∈ l, Ready S tx s := fun hl tx htx =>
    ready_of_endorse S (hend tx (hl.mem_iff.1 htx))
  have hpair : ∀ {l : List (Tx κ ν ω ρ)}, l ~ txs → l.Pairwise Apart := fun hl =>
    hap.perm hl.symm Apart.symm
  obtain ⟨h1, h2, -⟩ := commitAll_of_apart S n (hready horder) (hpair horder)
  obtain ⟨-, -, h3⟩ := commitAll_of_apart S n (hready hserial) (hpair hserial)
  refine ⟨h1, ?_⟩
  rw [h3, h2, foldl_applyWrites_perm (hpair hserial) (hserial.trans horder.symm)]

end Apart

end Mvcc

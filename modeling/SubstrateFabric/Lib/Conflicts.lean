import SubstrateFabric.Lib.Mvcc

/-!
# Transactions in conflict

`Mvcc.commitAll_perm` is about transactions that keep off each other's keys.  This file settles what
happens when they do not, for transactions that read one key and write at most that key (`OnKey`),
simulated on one state and committed in some order.

A commit gives the key it writes a version it never had, so that a transaction is valid exactly if
none before it has written its key: of the writers of a key the first one wins
(`commitAll_valid_iff`).  The valid ones are then executed as they would be one after the other
(`runAll_validTxs`).
-/

namespace Mvcc

open Std List Runs

variable {κ ν ω ρ : Type} [Ord κ] [TransOrd κ]

/-- The transaction read the key `k` as it is in the state `s`, and it writes that key or nothing;
what it deletes is there. -/
structure OnKey (k : κ) (s : Versioned κ ν) (tx : Tx κ ν ω ρ) : Prop where
  readSet : tx.readSet = [(k, version s k)]
  writeSet : tx.writeSet = [] ∨ ∃ v, tx.writeSet = [(k, v)] ∧ (v = none → version s k ≠ none)

/-- No transaction of the list writes the key `k`. -/
def Unwritten (key : Tx κ ν ω ρ → κ) (k : κ) (txs : List (Tx κ ν ω ρ)) : Prop :=
  ∀ tx ∈ txs, key tx = k → tx.writeSet = []

omit [TransOrd κ] [Ord κ] in
theorem unwritten_concat {key : Tx κ ν ω ρ → κ} {k : κ} {txs : List (Tx κ ν ω ρ)}
    {tx : Tx κ ν ω ρ} :
    Unwritten key k (txs ++ [tx]) ↔ Unwritten key k txs ∧ (key tx = k → tx.writeSet = []) := by
  simp only [Unwritten, forall_mem_append, forall_mem_singleton]

theorem valid_onKey {k : κ} {s t : Versioned κ ν} {tx : Tx κ ν ω ρ} (h : OnKey k s tx) :
    Valid tx t ↔ version t k = version s k := by
  unfold Valid
  rw [h.readSet, forall_mem_singleton]

/-- Where the commits of `before` have led from the state `s`, from the height `n` on: to the height
`h` and the state `t`.  The keys unwritten are as they were, the others have a version they did not
have. -/
structure Reached (key : Tx κ ν ω ρ → κ) (s : Versioned κ ν) (before : List (Tx κ ν ω ρ)) (h : ℕ)
    (t : Versioned κ ν) : Prop where
  old : ∀ k v, version s k = some v → v < h
  kept : ∀ k, Unwritten key k before → t[k]? = s[k]?
  moved : ∀ k, ¬ Unwritten key k before → version t k ≠ version s k

section Commit

variable [LawfulEqOrd κ] [DecidableEq κ] {key : Tx κ ν ω ρ → κ} {s t : Versioned κ ν}
  {before : List (Tx κ ν ω ρ)} {h : ℕ} {tx : Tx κ ν ω ρ}

omit [LawfulEqOrd κ] [DecidableEq κ] in
/-- A transaction is valid exactly if its key is unwritten. -/
theorem Reached.valid_iff (hr : Reached key s before h t) (hk : OnKey (key tx) s tx) :
    Valid tx t ↔ Unwritten key (key tx) before := by
  rw [valid_onKey hk]
  constructor
  · intro hver
    by_contra hwritten
    exact hr.moved _ hwritten hver
  · intro hun
    unfold version
    rw [hr.kept _ hun]

/-- The commit of a valid transaction. -/
theorem Reached.commit (hr : Reached key s before h t) (hk : OnKey (key tx) s tx)
    (hun : Unwritten key (key tx) before) :
    Reached key s (before ++ [tx]) (h + 1) (commit h tx t) := by
  refine ⟨fun k v hv => Nat.lt_succ_of_lt (hr.old k v hv), ?_, ?_⟩
  · intro k hk'
    obtain ⟨hbefore, htx⟩ := unwritten_concat.1 hk'
    rw [← hr.kept k hbefore]
    refine getElem?_applyWrites_of_notMem ?_ t
    rcases hk.writeSet with hnone | ⟨v, hv, -⟩
    · simp [hnone, stamp]
    · have hne : key tx ≠ k := fun heq => by simp [hv] at htx; exact htx heq
      simpa [hv, stamp] using Ne.symm hne
  · intro k hk'
    by_cases hkey : key tx = k
    · subst hkey
      rcases hk.writeSet with hnone | ⟨v, hv, hdel⟩
      · exact absurd (unwritten_concat.2 ⟨hun, fun _ => hnone⟩) hk'
      · have hget : (Mvcc.commit h tx t)[key tx]? = v.map fun v => (h, v) := by
          simp [Mvcc.commit, hv, stamp, applyWrites, getElem?_applyWrite]
        unfold version
        rw [hget]
        cases v with
        | none => exact fun heq => hdel rfl heq.symm
        | some v => exact fun heq => lt_irrefl _ (hr.old _ _ heq.symm)
    · -- another key: what was written before it is written still
      have hbefore : ¬ Unwritten key k before := fun hbefore =>
        hk' (unwritten_concat.2 ⟨hbefore, fun heq => absurd heq hkey⟩)
      have hget : (Mvcc.commit h tx t)[k]? = t[k]? := by
        refine getElem?_applyWrites_of_notMem ?_ t
        rcases hk.writeSet with hnone | ⟨v, hv, -⟩
        · simp [hnone, stamp]
        · simpa [hv, stamp] using Ne.symm hkey
      unfold version
      rw [hget]
      exact hr.moved k hbefore

omit [LawfulEqOrd κ] [DecidableEq κ] in
/-- An invalid transaction: its key had been written. -/
theorem Reached.drop (hr : Reached key s before h t) (hwritten : ¬ Unwritten key (key tx) before) :
    Reached key s (before ++ [tx]) h t := by
  refine ⟨hr.old, fun k hk => hr.kept k (unwritten_concat.1 hk).1, fun k hk => ?_⟩
  by_cases hkey : key tx = k
  · exact hr.moved k (hkey ▸ hwritten)
  · exact hr.moved k fun hbefore =>
      hk (unwritten_concat.2 ⟨hbefore, fun heq => absurd heq hkey⟩)

/-- The transaction after `pre` is valid exactly if none before it writes its key. -/
theorem Reached.commitAll_iff (hr : Reached key s before h t) {txs : List (Tx κ ν ω ρ)}
    (hkeys : ∀ tx ∈ txs, OnKey (key tx) s tx) {pre post : List (Tx κ ν ω ρ)}
    (htxs : txs = pre ++ tx :: post) :
    ∃ b, (commitAll h t txs).1[pre.length]? = some b ∧
      (b = true ↔ Unwritten key (key tx) (before ++ pre)) := by
  -- Induction on the transactions still to commit; `before` grows by each of them.
  induction txs generalizing before h t pre with
  | nil => exact absurd htxs.symm (by simp)
  | cons x txs ih =>
    obtain ⟨hx, hrest⟩ := forall_mem_cons.1 hkeys
    have hvalid := hr.valid_iff hx
    cases pre with
    | nil =>
      obtain ⟨rfl, rfl⟩ := cons.inj htxs
      rw [append_nil, ← hvalid]
      by_cases hv : Valid x t
      · exact ⟨true, by simp [commitAll, hv], by simp [hv]⟩
      · exact ⟨false, by simp [commitAll, hv], by simp [hv]⟩
    | cons y pre =>
      obtain ⟨rfl, htail⟩ := cons.inj htxs
      have happend : before ++ x :: pre = before ++ [x] ++ pre := by simp
      rw [happend]
      by_cases hv : Valid x t
      · obtain ⟨b, hb, hiff⟩ := ih (hr.commit hx (hvalid.1 hv)) hrest htail
        exact ⟨b, by simpa [commitAll, hv] using hb, hiff⟩
      · obtain ⟨b, hb, hiff⟩ := ih (hr.drop fun hun => hv (hvalid.2 hun)) hrest htail
        exact ⟨b, by simpa [commitAll, hv] using hb, hiff⟩

/-- **The first writer of a key wins.**  Of transactions on single keys, simulated on the state `s`
and committed in order from the height `h`, one is valid exactly if none before it writes its
key. -/
theorem commitAll_valid_iff (hs : ∀ k v, version s k = some v → v < h) {txs : List (Tx κ ν ω ρ)}
    (hkeys : ∀ tx ∈ txs, OnKey (key tx) s tx) {pre post : List (Tx κ ν ω ρ)}
    (htxs : txs = pre ++ tx :: post) :
    ∃ b, (commitAll h s txs).1[pre.length]? = some b ∧
      (b = true ↔ Unwritten key (key tx) pre) := by
  have hstart : Reached key s [] h s :=
    ⟨hs, fun _ _ => rfl, fun k hk => absurd (fun _ hmem => nomatch hmem) hk⟩
  exact hstart.commitAll_iff hkeys htxs

end Commit

/-! ### The valid transactions -/

/-- The transactions that the flags say are valid. -/
def validTxs (txs : List (Tx κ ν ω ρ)) (flags : List Bool) : List (Tx κ ν ω ρ) :=
  ((txs.zip flags).filter Prod.snd).map Prod.fst

section Valid

variable [LawfulEqOrd κ] [DecidableEq κ] (S : Semantics κ ν ω ρ) {s : Versioned κ ν}

/-- Where versions agree with those of `s` the entries do. -/
def Coherent (s t : Versioned κ ν) : Prop := ∀ k, version t k = version s k → t[k]? = s[k]?

/-- A commit at a height above the versions of `s` keeps a state coherent with `s`. -/
theorem Coherent.commit {t : Versioned κ ν} {h : ℕ} (hs : ∀ k v, version s k = some v → v < h)
    (hst : Coherent s t) (tx : Tx κ ν ω ρ) : Coherent s (commit h tx t) := by
  intro k hver
  rcases getElem?_applyWrites_stamp h tx.writeSet t k with hk | hk | ⟨v, hk⟩
  · unfold version Mvcc.commit at hver
    unfold Mvcc.commit
    rw [hk] at hver ⊢
    exact hst k hver
  · unfold version Mvcc.commit at hver
    unfold Mvcc.commit
    rw [hk] at hver ⊢
    exact (Option.map_eq_none_iff.1 hver.symm).symm
  · unfold Mvcc.commit at hver
    rw [version, hk] at hver
    exact absurd (hs k h hver.symm) (lt_irrefl h)

/-- **The valid transactions are executed one after the other.**  Of transactions simulated on one
state and committed in order, the valid ones get the responses, and lead to the values, of executing
their operations one after the other. -/
theorem runAll_validTxs {txs : List (Tx κ ν ω ρ)}
    (hend : ∀ tx ∈ txs, endorse S tx.op s = some tx) {h : ℕ} {t : Versioned κ ν}
    (hs : ∀ k v, version s k = some v → v < h) (hst : Coherent s t) :
    runAll S.exec (values t) ((validTxs txs (commitAll h t txs).1).map Tx.op) =
      ((validTxs txs (commitAll h t txs).1).map Tx.response, values (commitAll h t txs).2) := by
  induction txs generalizing h t with
  | nil => rfl
  | cons tx txs ih =>
    obtain ⟨htx, hrest⟩ := forall_mem_cons.1 hend
    by_cases hv : Valid tx t
    · have hexec := exec_of_endorse S htx hst hv
      have hvalues : values (commit h tx t) = applyWrites (values t) tx.writeSet :=
        values_applyWrites_stamp h tx.writeSet t
      have ih' := ih hrest (h := h + 1) (fun k v hk => Nat.lt_succ_of_lt (hs k v hk))
        (hst.commit hs tx)
      have hcons : validTxs (tx :: txs) (commitAll h t (tx :: txs)).1 =
          tx :: validTxs txs (commitAll (h + 1) (commit h tx t) txs).1 := by
        simp [validTxs, commitAll, hv]
      rw [hcons, map_cons, map_cons, runAll_cons, hexec, ← hvalues, ih']
      simp [commitAll, hv]
    · have hcons : validTxs (tx :: txs) (commitAll h t (tx :: txs)).1 =
          validTxs txs (commitAll h t txs).1 := by
        simp [validTxs, commitAll, hv]
      rw [hcons, ih hrest hs hst]
      simp [commitAll, hv]

end Valid

end Mvcc

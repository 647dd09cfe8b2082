import SubstrateFabric.Chaincode.Transactions
import SubstrateFabric.Lib.Conflicts

/-!
# Calls on the same asset

`calls_commute` is about calls on different assets.  Here the calls may be on any assets: they are
simulated on one committed state, by clients that do not know of each other, and then committed in
some order.

A call reads the key of its asset, and a successful writer writes that key, so that the transactions
of the contract are `OnKey` (`endorse_onKey`).  Hence of the writers of an asset exactly the first
one to be committed is valid, together with the readers committed before it (`calls_conflict`): no
two clients succeed in creating the same asset, or in handing it over, on the strength of the same
state.
-/

namespace Chaincode

open Interaction EncodingJson Mvcc Runs

variable (json : Codec Asset)

/-- What a call decides to delete is there. -/
theorem Call.stored_of_plan_del {c : Call} {stored : Option Bytes} {response : Response}
    (h : c.plan json stored = .del response) : stored ≠ none := by
  rw [Call.eq_deleteAsset_of_plan_del json h] at h
  rintro rfl
  cases h

/-- Everything a successful simulation can be: a read, or a read and one write of the same key. -/
theorem Call.simulate_cases {c : Call} {w : WorldState} {e : Effect GoString Bytes Result}
    (h : c.simulate json w = some e) :
    (¬ c.IsWriter ∧ e.reads = [c.id] ∧ e.writes = []) ∨
    (c.IsWriter ∧ e.reads = [c.id] ∧
      ∃ v, e.writes = [(c.id, v)] ∧ (v = none → w[c.id]? ≠ none)) := by
  obtain ⟨hok, rfl⟩ := (Call.simulate_eq_some json).1 h
  have hpath := path_run stub.frozen (c.prog json) w
  have hreply : ∀ stored, ⟨.getState c.id, .ok stored⟩ ∈ (run stub.frozen (c.prog json) w).log →
      w[c.id]? = stored := by
    intro stored hmem
    have hreply := reply_of_mem_frozen stub _ hmem
    rw [stub_getState] at hreply
    exact (Except.ok.inj hreply).symm
  have hwriter : ∀ stored, (∀ r, c.plan json stored ≠ .stop r) → c.IsWriter := by
    intro stored hplan
    by_contra hc
    obtain ⟨r, hr⟩ := Call.plan_of_not_isWriter json hc stored
    exact hplan r hr
  rcases Call.path_cases json hpath with ⟨err, -, hvalue⟩ | ⟨stored, hlog, hplan⟩ |
    ⟨stored, bs, response, reply, hplan, hlog, -⟩ | ⟨stored, response, reply, hplan, hlog, -⟩
  · rw [hvalue] at hok
    cases hok
  · left
    refine ⟨fun hc => Call.plan_stop_of_isWriter json hc hplan hok, ?_, ?_⟩ <;>
    rw [hlog] <;> rfl
  · right
    refine ⟨hwriter stored (by simp [hplan]), by rw [hlog]; rfl, some bs, by rw [hlog]; rfl, ?_⟩
    intro hnone
    cases hnone
  · right
    refine ⟨hwriter stored (by simp [hplan]), by rw [hlog]; rfl, none, by rw [hlog]; rfl, ?_⟩
    intro _
    rw [hreply stored (by rw [hlog]; exact List.mem_cons_self)]
    exact Call.stored_of_plan_del json hplan

/-- A transaction of the contract is one on the key of its asset, and it writes it exactly if its
call is a writer. -/
theorem endorse_onKey {s : Versioned GoString Bytes} {tx : Tx GoString Bytes Call Result}
    (h : endorse (semantics json) tx.op s = some tx) :
    OnKey tx.op.id s tx ∧ (tx.writeSet = [] ↔ ¬ tx.op.IsWriter) := by
  obtain ⟨e, he, htx⟩ := endorse_eq_some _ h
  have hwrites : tx.writeSet = e.writes := by rw [htx]
  have hreads : tx.readSet = e.reads.map fun k => (k, version s k) := by rw [htx]
  rcases Call.simulate_cases json he with ⟨hc, hr, hw⟩ | ⟨hc, hr, v, hw, hdel⟩
  · rw [hw] at hwrites
    exact ⟨⟨by rw [hreads, hr]; rfl, .inl hwrites⟩, by simp [hwrites, hc]⟩
  · rw [hw] at hwrites
    refine ⟨⟨by rw [hreads, hr]; rfl, .inr ⟨v, hwrites, fun hv => ?_⟩⟩, by simp [hwrites, hc]⟩
    have hstored := hdel hv
    rw [getElem?_values, ne_eq, Option.map_eq_none_iff] at hstored
    unfold version
    rwa [ne_eq, Option.map_eq_none_iff]

/-- **The first writer of an asset wins.**  Take any calls, on whatever assets, all simulated
successfully on one committed state, and commit them in any order.  A transaction is valid exactly
if none of those before it is a writer of the same asset, and the responses of the valid ones and
the world state they leave are those of executing them one after the other. -/
theorem calls_conflict (g : Genesis GoString Bytes) {txs : List (Tx GoString Bytes Call Result)}
    (hend : ∀ tx ∈ txs, endorse (semantics json) tx.op g.state = some tx) :
    (∀ pre tx post, txs = pre ++ tx :: post →
      (commitAll g.height g.state txs).1[pre.length]? =
        some (decide (∀ tx' ∈ pre, tx'.op.id = tx.op.id → ¬ tx'.op.IsWriter))) ∧
    let valid := validTxs txs (commitAll g.height g.state txs).1
    runAll (Call.exec json) (values g.state) (valid.map Tx.op) =
      (valid.map Tx.response, values (commitAll g.height g.state txs).2) := by
  constructor
  · intro pre tx post htxs
    have hkeys : ∀ tx ∈ txs, OnKey tx.op.id g.state tx := fun tx htx =>
      (endorse_onKey json (hend tx htx)).1
    obtain ⟨b, hb, hiff⟩ := commitAll_valid_iff g.fresh hkeys htxs
    rw [hb, Option.some.injEq, Bool.eq_iff_iff, hiff, decide_eq_true_eq]
    have hwrites : ∀ tx' ∈ pre, (tx'.writeSet = [] ↔ ¬ tx'.op.IsWriter) := fun tx' htx' =>
      (endorse_onKey json (hend tx' (by rw [htxs]; exact List.mem_append_left _ htx'))).2
    constructor
    · intro hun tx' htx' hid
      exact (hwrites tx' htx').1 (hun tx' htx' hid)
    · intro hnone tx' htx' hid
      exact (hwrites tx' htx').2 (hnone tx' htx' hid)
  · exact runAll_validTxs (semantics json) hend g.fresh fun _ _ => rfl

/-- Two clients create the same asset on the empty ledger, and a third one looks for it.  The
second creation is invalid, and so is the look if it is committed last. -/
theorem calls_conflict_creates :
    let op₁ : Call := .createAsset [97] [98] 5 [111] 300
    let op₂ : Call := .createAsset [97] [99] 6 [112] 400
    let tx₁ : Tx GoString Bytes Call Result := ⟨op₁, (.unit, none), [([97], none)],
      [([97], some (marshalStruct assetMembers ⟨300, [98], [97], [111], 5⟩))]⟩
    let tx₂ : Tx GoString Bytes Call Result := ⟨op₂, (.unit, none), [([97], none)],
      [([97], some (marshalStruct assetMembers ⟨400, [99], [97], [112], 6⟩))]⟩
    let tx₃ : Tx GoString Bytes Call Result :=
      ⟨.assetExists [97], (.bool false, none), [([97], none)], []⟩
    (∀ tx ∈ [tx₁, tx₂, tx₃], endorse (semantics assetJson) tx.op emptyGenesis.state = some tx) ∧
      (commitAll 0 ∅ [tx₁, tx₂, tx₃]).1[0]? = some true ∧
      (commitAll 0 ∅ [tx₁, tx₂, tx₃]).1[1]? = some false ∧
      (commitAll 0 ∅ [tx₁, tx₂, tx₃]).1[2]? = some false := by
  intro op₁ op₂ tx₁ tx₂ tx₃
  have hend : ∀ tx ∈ [tx₁, tx₂, tx₃],
      endorse (semantics assetJson) tx.op emptyGenesis.state = some tx := by
    simp only [List.forall_mem_cons]
    exact ⟨rfl, rfl, rfl, fun _ h => nomatch h⟩
  have hvalid := (calls_conflict assetJson emptyGenesis hend).1
  exact ⟨hend, hvalid [] tx₁ [tx₂, tx₃] rfl, hvalid [tx₁] tx₂ [tx₃] rfl,
    hvalid [tx₁, tx₂] tx₃ [] rfl⟩

end Chaincode

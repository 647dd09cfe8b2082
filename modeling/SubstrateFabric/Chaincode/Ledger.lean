import SubstrateFabric.Chaincode.Transactions
import SubstrateFabric.Chaincode.Listing

/-!
# The contract on the ledger

What clients see of the contract on the ledger.  Its transactions are serialisable, whatever the
interleaving of simulations and commits, and a serial run of its calls refines the map of assets.
Together: starting from the empty ledger, and with calls whose arguments are valid
(`Call.ValidArgs`), the committed world state is at any time the one of the map that the valid
transactions have built in the order of their commits, and every valid transaction has been answered
as that map answers (`ledger_refines`): no update is lost or made twice.

* `ledger_sequential`: a client on its own, who waits for every commit, sees the calls executed
  directly;
* `ledger_query`: a request answered from a committed state, however old, is answered by the map of
  the transactions committed up to it; in particular `GetAllAssets` lists that map, in order and
  without the ids that its scan does not reach.
-/

namespace Chaincode

open Interaction EncodingJson Mvcc Runs

variable {json : Codec Asset}

/-- The calls committed are run by the ledger as they would be one after the other. -/
theorem ledger_serial (json : Codec Asset) (events : List (Event Call)) :
    let ledger := Mvcc.run (semantics json) emptyGenesis events
    runAll (Call.exec json) ∅ (ledger.committed.map Tx.op) =
      (ledger.committed.map Tx.response, values ledger.current) :=
  serializable (semantics json) emptyGenesis events

/-- The arguments of a call are valid: its strings are valid UTF-8, and its id is not empty. -/
def Call.ValidArgs (c : Call) : Prop := c.ValidUtf8 ∧ c.id ≠ []

instance : DecidablePred Call.ValidArgs := fun c =>
  inferInstanceAs (Decidable (c.ValidUtf8 ∧ c.id ≠ []))

/-- The event simulates no call but one with valid arguments. -/
def ValidEvent : Event Call → Prop
  | .simulate c _ => c.ValidArgs
  | .commit _ => True

instance : DecidablePred ValidEvent
  | .simulate c _ => inferInstanceAs (Decidable c.ValidArgs)
  | .commit _ => .isTrue trivial

theorem validEvent_of_mem_sequential {calls : List Call} (h : ∀ c ∈ calls, c.ValidArgs) :
    ∀ e ∈ sequential calls, ValidEvent e := by
  intro e he
  cases e with
  | simulate c back => exact h c (mem_of_simulate_mem_sequential he)
  | commit i => exact trivial

/-- The calls committed have valid arguments if those simulated do. -/
theorem ledger_calls (json : Codec Asset) {events : List (Event Call)}
    (hevents : ∀ e ∈ events, ValidEvent e) :
    ∀ c ∈ (Mvcc.run (semantics json) emptyGenesis events).committed.map Tx.op, c.ValidArgs := by
  intro c hc
  obtain ⟨tx, htx, rfl⟩ := List.mem_map.1 hc
  have hops : ∀ op back, .simulate op back ∈ events → op.ValidArgs := fun _ _ hmem =>
    hevents _ hmem
  exact of_mem_committed (semantics json) hops htx

/-- **Clients see one map of assets.**  Let clients simulate calls with non-empty ids and valid
UTF-8 arguments against any committed states, and let the transactions be committed in any order,
from the empty ledger on.  The responses of the valid transactions are the answers of the map to
their calls in the order of their commits, and the committed world state holds exactly the encodings
of the assets of the map after them. -/
theorem ledger_refines (hjson : json.RoundTrips Asset.ValidUtf8) {events : List (Event Call)}
    (hevents : ∀ e ∈ events, ValidEvent e) :
    let ledger := Mvcc.run (semantics json) emptyGenesis events
    let map := runAll Call.spec (fun _ => none) (ledger.committed.map Tx.op)
    ledger.committed.map Tx.response = map.1 ∧ Represents json (values ledger.current) map.2 := by
  have h := runAll_exec_refines hjson (ledger_calls json hevents)
  rw [ledger_serial] at h
  exact h

/-! ### One client -/

section Sequential

variable (json)

/-- A call that returns an error leaves the world state as it was. -/
theorem Call.exec_of_error {c : Call} {w : WorldState} (h : (c.exec json w).1.2 ≠ none) :
    (c.exec json w).2 = w := by
  rw [Call.exec_eq] at h ⊢
  cases hp : c.plan json w[c.id]? with
  | stop r => rfl
  | put bs response =>
    rw [hp] at h
    by_cases hid : c.id = []
    · rw [Plan.exec, if_pos hid]
    · rw [Plan.exec, if_neg hid] at h
      exact absurd rfl h
  | del response =>
    rw [hp] at h
    exact absurd rfl h

/-- The simulation of a call succeeds exactly if its execution does. -/
theorem Call.simulate_eq_none_iff {c : Call} {w : WorldState} :
    c.simulate json w = none ↔ (c.exec json w).1.2 ≠ none := by
  have hvalue : (c.exec json w).1 = (run stub.frozen (c.prog json) w).value :=
    (run_eq_frozen stub (fun w c hc => stub_next_of_writeKey_none w (not_not.1 hc)) _
      (c.writesLast json) w).1
  rw [hvalue]
  simp only [Call.simulate]
  split_ifs with h <;> simp [h]

/-- One call of a client on its own. -/
theorem step_call {L : Ledger GoString Bytes Call Result} (hL : L.inFlight = []) (c : Call) :
    let L' := step (semantics json) (step (semantics json) L (.simulate c 0)) (.commit 0)
    let r := c.exec json (values L.current)
    L'.inFlight = [] ∧ values L'.current = r.2 ∧
      L'.committed.map (fun tx => (tx.op, tx.response)) =
        L.committed.map (fun tx => (tx.op, tx.response)) ++
          [(c, r.1)].filter fun x => x.2.2 = none := by
  intro L' r
  cases hend : endorse (semantics json) c L.current with
  | none =>
    have herror : r.1.2 ≠ none :=
      (Call.simulate_eq_none_iff json).1 (Option.map_eq_none_iff.1 hend)
    have hL' : L' = L := step_commit_of_error _ hL hend
    have hr : r.2 = values L.current := Call.exec_of_error json herror
    rw [hL', hr]
    exact ⟨hL, rfl, by simp [herror]⟩
  | some tx =>
    obtain ⟨e, he, htx⟩ := endorse_eq_some _ hend
    have hexec : r = (e.response, applyWrites (values L.current) e.writes) :=
      Call.exec_of_simulate json he
    have hok : r.1.2 = none := by
      by_contra herror
      exact absurd (he.symm.trans ((Call.simulate_eq_none_iff json).2 herror)) (by simp)
    have hL' : L' = _ := step_commit_of_endorse _ hL hend
    rw [hL']
    refine ⟨rfl, ?_, ?_⟩
    · rw [hexec, htx]
      exact values_applyWrites_stamp _ _ _
    · have hresponse : e.response = r.1 := by rw [hexec]
      simp [htx, hresponse, hok]

/-- Calls made by one client on its own are executed as they are directly. -/
theorem run_sequential (g : Genesis GoString Bytes) (calls : List Call) :
    let ledger := Mvcc.run (semantics json) g (sequential calls)
    let direct := runAll (Call.exec json) (values g.state) calls
    ledger.inFlight = [] ∧ values ledger.current = direct.2 ∧
      ledger.committed.map (fun tx => (tx.op, tx.response)) =
        (calls.zip direct.1).filter fun x => x.2.2 = none := by
  -- Induction from the last call back: the two states agree before it.
  induction calls using List.reverseRecOn with
  | nil => exact ⟨rfl, rfl, rfl⟩
  | append_singleton calls c ih =>
    obtain ⟨hflight, hstate, hcommitted⟩ := ih
    have hlen : calls.length = (runAll (Call.exec json) (values g.state) calls).1.length :=
      (runAll_length _ _ _).symm
    obtain ⟨h1, h2, h3⟩ := step_call json hflight c
    rw [hstate] at h2 h3
    rw [run_sequential_concat, runAll_concat]
    refine ⟨h1, h2, ?_⟩
    rw [h3, hcommitted, List.zip_append hlen, List.filter_append]
    rfl

variable {json}

/-- The transactions of a client on its own who makes calls that the map does not refuse. -/
theorem committed_sequential (hjson : json.RoundTrips Asset.ValidUtf8) {calls : List Call}
    (hcalls : ∀ c ∈ calls, c.ValidArgs) :
    (Mvcc.run (semantics json) emptyGenesis (sequential calls)).committed.map
        (fun tx => (tx.op, tx.response)) =
      (calls.zip (runAll Call.spec (fun _ => none) calls).1).filter fun x => x.2.2 = none := by
  rw [(run_sequential json emptyGenesis calls).2.2, ← (runAll_exec_refines hjson hcalls).1]
  rfl

/-- **A client on its own sees the map.**  Let a client, from the empty ledger on, make calls with
non-empty ids and valid UTF-8 arguments, simulating each on the current state and having it
committed before the next one.  None of its transactions is invalid: those committed are the calls
that the map does not refuse, with the answers of the map, and the world state holds exactly the
encodings of the assets of the map. -/
theorem ledger_sequential (hjson : json.RoundTrips Asset.ValidUtf8) {calls : List Call}
    (hcalls : ∀ c ∈ calls, c.ValidArgs) :
    let ledger := Mvcc.run (semantics json) emptyGenesis (sequential calls)
    let map := runAll Call.spec (fun _ => none) calls
    ledger.inFlight = [] ∧
      ledger.committed.map (fun tx => (tx.op, tx.response)) =
        (calls.zip map.1).filter (fun x => x.2.2 = none) ∧
      Represents json (values ledger.current) map.2 := by
  obtain ⟨hflight, hstate, -⟩ := run_sequential json emptyGenesis calls
  refine ⟨hflight, committed_sequential hjson hcalls, ?_⟩
  rw [hstate]
  exact (runAll_exec_refines hjson hcalls).2

/-- An asset is created, cannot be created again, and is handed over. -/
theorem ledger_sequential_transfer :
    let calls : List Call := [.createAsset [97] [98] 5 [111] 300,
      .createAsset [97] [99] 6 [112] 400, .transferAsset [97] [113]]
    (Mvcc.run (semantics assetJson) emptyGenesis (sequential calls)).committed.map
        (fun tx => (tx.op, tx.response)) =
      [(.createAsset [97] [98] 5 [111] 300, (.unit, none)),
        (.transferAsset [97] [113], (.string [111], none))] := by
  intro calls
  have hcalls : ∀ c ∈ calls, c.ValidArgs := by decide
  exact (ledger_sequential assetJson_roundTrips hcalls).2.1

end Sequential

/-! ### Queries -/

/-- The answer to a request that is simulated on a world state. -/
def Request.query (json : Codec Asset) (q : Request) (w : WorldState) : Result :=
  (run stub.frozen (q.prog json) w).value

/-- The arguments of a request are valid; `GetAllAssets` has none. -/
def Request.ValidArgs : Request → Prop
  | .call c => c.ValidArgs
  | .getAllAssets => True

/-- The list has the assets of the map whose ids the scan reaches, each once, in strictly ascending
byte order of the ids. -/
def AssetMap.Lists (m : AssetMap) (l : List Asset) : Prop :=
  (l.Pairwise fun a b => compare a.id b.id = .lt) ∧
    ∀ a, a ∈ l ↔ (∃ d, m a.id = some d ∧ a = d.asset a.id) ∧ a.id ≠ [] ∧ ¬ Reserved a.id

/-- The result is the one that the map gives for the request. -/
def AssetMap.Answers (m : AssetMap) (q : Request) (r : Result) : Prop :=
  match q with
  | .call c => r = (c.spec m).1
  | .getAllAssets => ∃ l, r = (.assets l, none) ∧ m.Lists l

section Query

theorem collectAssets_writesLast (json : Codec Asset) (pending : List KV) (assets : List Asset) :
    (collectAssets json pending assets).WritesLast fun x => x.writeKey ≠ none := by
  induction pending generalizing assets with
  | nil => exact trivial
  | cons kv rest ih =>
    rw [collectAssets_cons]
    refine ⟨fun h => absurd rfl h, fun reply => ?_⟩
    cases reply with
    | error err => exact trivial
    | ok queryResponse =>
      simp only
      cases json.unmarshal queryResponse.value with
      | error err => exact trivial
      | ok asset => exact ih _

/-- A simulation answers as the execution does. -/
theorem Request.query_eq (json : Codec Asset) (q : Request) (w : WorldState) :
    q.query json w = (run stub (q.prog json) w).value := by
  have hlast : (q.prog json).WritesLast fun x => x.writeKey ≠ none := by
    cases q with
    | call c => exact c.writesLast json
    | getAllAssets =>
      rw [getAllAssets_eq]
      refine ⟨fun h => absurd rfl h, fun reply => ?_⟩
      cases reply with
      | error err => exact trivial
      | ok resultsIterator => exact (collectAssets_writesLast json resultsIterator []).map _
  exact (run_eq_frozen stub (fun w c hc => stub_next_of_writeKey_none w (not_not.1 hc)) _
    hlast w).1.symm

/-- What the scan meets of a represented world state lists the map. -/
theorem Represents.lists {w : WorldState} {m : AssetMap} (h : Represents json w m) :
    m.Lists ((rangeEntries w [] []).map m.asset) := by
  refine ⟨listing_pairwise w m, fun a => ?_⟩
  rw [← isLE_emptyKeySubstitute_iff]
  constructor
  · intro ha
    obtain ⟨kv, hkv, rfl⟩ := List.mem_map.1 ha
    obtain ⟨hget, hle⟩ := mem_rangeEntries.1 hkv
    rw [AssetMap.asset_id]
    refine ⟨?_, hle⟩
    rcases h.cases kv.key with ⟨hw, -⟩ | ⟨bs, d, -, hm, -⟩
    · rw [hw] at hget
      cases hget
    · exact ⟨d, hm, by simp only [AssetMap.asset, hm]⟩
  · rintro ⟨⟨d, hm, ha⟩, hle⟩
    rcases h.cases a.id with ⟨-, hnone⟩ | ⟨bs, -, hw, -, -⟩
    · rw [hnone] at hm
      cases hm
    · refine List.mem_map.2 ⟨⟨a.id, bs⟩, mem_rangeEntries.2 ⟨hw, hle⟩, ?_⟩
      simp only [AssetMap.asset, hm]
      exact ha.symm

/-- A request simulated on a represented world state is answered by the map. -/
theorem Represents.answers (hjson : json.RoundTrips Asset.ValidUtf8) {w : WorldState}
    {m : AssetMap} (h : Represents json w m) {q : Request} (hq : q.ValidArgs) :
    m.Answers q (q.query json w) := by
  rw [Request.query_eq]
  cases q with
  | call c => exact (Call.exec_refines hjson h hq.1 hq.2).1
  | getAllAssets => exact ⟨_, h.listing_eq hjson, h.lists⟩

/-- **Queries see a moment of the ledger.**  Let clients simulate calls with non-empty ids and valid
UTF-8 arguments against any committed states, and let the transactions be committed in any order,
from the empty ledger on.  Then a request whose arguments are so too, simulated against the
committed state `back` commits ago, `GetAllAssets` included, is answered by the map that all valid
transactions but the last `back` have built. -/
theorem ledger_query (hjson : json.RoundTrips Asset.ValidUtf8) {events : List (Event Call)}
    (hevents : ∀ e ∈ events, ValidEvent e) :
    let ledger := Mvcc.run (semantics json) emptyGenesis events
    ∀ back s, ledger.states[back]? = some s → ∀ q : Request, q.ValidArgs →
      ∃ done, done <+: ledger.committed ∧ done.length + back = ledger.committed.length ∧
        (runAll Call.spec (fun _ => none) (done.map Tx.op)).2.Answers q
          (q.query json (values s)) := by
  intro ledger back s hs q hq
  obtain ⟨done, hdone, hlen, hrun⟩ := run_snapshot (semantics json) emptyGenesis events hs
  have hcalls : ∀ c ∈ done.map Tx.op, c.ValidArgs := fun c hc =>
    ledger_calls json hevents c ((hdone.map Tx.op).subset hc)
  have hrep := (runAll_exec_refines hjson hcalls).2
  have hvalues : (runAll (Call.exec json) ∅ (done.map Tx.op)).2 = values s :=
    congrArg Prod.snd hrun
  rw [hvalues] at hrep
  exact ⟨done, hdone, hlen, hrep.answers hjson hq⟩

/-- An asset has been created.  A listing of the committed state finds it, one of the state before
does not. -/
theorem ledger_query_created :
    let create : Call := .createAsset [97] [98] 5 [111] 300
    let ledger := Mvcc.run (semantics assetJson) emptyGenesis [.simulate create 0, .commit 0]
    ∃ s₀ s₁, ledger.states = [s₁, s₀] ∧
      (∃ l, Request.getAllAssets.query assetJson (values s₀) = (.assets l, none) ∧
        ∀ a, a ∉ l) ∧
      ∃ l, Request.getAllAssets.query assetJson (values s₁) = (.assets l, none) ∧
        ⟨300, [98], [97], [111], 5⟩ ∈ l := by
  intro create ledger
  have hevents : ∀ e ∈ [.simulate create 0, .commit 0], ValidEvent e := by decide
  have hcommitted : ledger.committed.map Tx.op = [create] := rfl
  have hquery := ledger_query assetJson_roundTrips hevents
  refine ⟨_, _, rfl, ?_, ?_⟩
  · obtain ⟨done, -, hlen, l, hl, -, hmem⟩ := hquery 1 _ rfl .getAllAssets trivial
    have hnil : done = [] := List.eq_nil_of_length_eq_zero (Nat.succ.inj hlen)
    refine ⟨l, hl, fun a ha => ?_⟩
    rw [hnil] at hmem
    obtain ⟨⟨d, hd, -⟩, -⟩ := (hmem a).1 ha
    cases hd
  · obtain ⟨done, hdone, hlen, l, hl, -, hmem⟩ := hquery 0 _ rfl .getAllAssets trivial
    have hall : done = ledger.committed := hdone.eq_of_length hlen
    refine ⟨l, hl, (hmem _).2 ⟨?_, by decide, by decide⟩⟩
    rw [hall, hcommitted]
    exact ⟨⟨[98], 5, [111], 300⟩, rfl, rfl⟩

end Query

end Chaincode

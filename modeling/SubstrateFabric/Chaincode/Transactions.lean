import SubstrateFabric.Chaincode.Faults
import SubstrateFabric.Chaincode.AssetJson
import SubstrateFabric.Lib.Mvcc

/-!
# Transactions

The calls of the contract as transactions of an execute-order-validate ledger.  A peer simulates a
call by running it against a snapshot of the world state: the keys passed to `GetState` are its read
set, the `PutState` and `DelState` calls its write set, and a simulation that returns an error is
dropped.  The direct execution of a call is its run against the stub.

`semantics` makes the calls an instance of `Mvcc.Semantics`.  Its two laws are where the contract
comes in: a call reads before it writes, so that its simulation predicts its execution, and its
replies come from the key of its asset alone, so that its simulation depends on nothing else.
-/

namespace Chaincode

open Interaction EncodingJson Mvcc Runs

variable (json : Codec Asset)

/-- The simulation of a call against a snapshot of the world state. -/
def Call.simulate (c : Call) (w : WorldState) : Option (Effect GoString Bytes Result) :=
  let o := run stub.frozen (c.prog json) w
  if o.value.2 = none then
    some ⟨o.value, o.log.filterMap fun x => x.1.readKey, o.log.filterMap fun x => x.1.write⟩
  else
    none

theorem Call.simulate_eq_some {c : Call} {w : WorldState} {e : Effect GoString Bytes Result} :
    c.simulate json w = some e ↔
      (run stub.frozen (c.prog json) w).value.2 = none ∧
        e = ⟨(run stub.frozen (c.prog json) w).value,
          (run stub.frozen (c.prog json) w).log.filterMap fun x => x.1.readKey,
          (run stub.frozen (c.prog json) w).log.filterMap fun x => x.1.write⟩ := by
  simp only [Call.simulate]
  split_ifs with h
  · simp [h, eq_comm]
  · simp [h]

/-- A call writes last. -/
theorem Call.writesLast (c : Call) :
    (c.prog json).WritesLast fun x => x.writeKey ≠ none := by
  rw [Call.prog_eq]
  refine ⟨fun h => absurd rfl h, fun reply => ?_⟩
  cases reply with
  | error err => exact trivial
  | ok stored =>
    simp only [Call.resume]
    cases c.plan json stored with
    | stop result => exact trivial
    | put bs response => exact ⟨fun _ reply => ⟨_, rfl⟩, fun _ => trivial⟩
    | del response => exact ⟨fun _ reply => ⟨_, rfl⟩, fun _ => trivial⟩

/-- A call reads the key of its asset, once, and writes no other. -/
theorem Call.footprint {c : Call} {log : List (Exchange StubCall StubCall.Reply)} {r : Result}
    (h : (c.prog json).Path log r) :
    (log.filterMap fun x => x.1.readKey) = [c.id] ∧
      (∀ x ∈ log, ∀ startKey endKey, x.1 ≠ .getStateByRange startKey endKey) ∧
      ∀ y ∈ log.filterMap fun x => x.1.write, y.1 = c.id := by
  rcases Call.path_cases json h with ⟨err, rfl, -⟩ | ⟨stored, rfl, -⟩ |
    ⟨stored, bs, response, reply, -, rfl, -⟩ | ⟨stored, response, reply, -, rfl, -⟩ <;>
  exact ⟨rfl, by simp, by simp [StubCall.write]⟩

/-- The calls of a log without a failure do to the world state what its writes say. -/
theorem foldl_next_eq_applyWrites {log : List (Exchange StubCall StubCall.Reply)}
    (h : ∀ x ∈ log, ∀ value, x.1 ≠ .putState [] value) (w : WorldState) :
    log.foldl (fun w x => stub.next w x.1) w =
      applyWrites w (log.filterMap fun x => x.1.write) := by
  induction log generalizing w with
  | nil => rfl
  | cons x log ih =>
    have ih' := ih fun y hy => h y (List.mem_cons_of_mem _ hy)
    obtain ⟨c, reply⟩ := x
    rw [List.foldl_cons, ih']
    cases c with
    | putState key value =>
      have hk : key ≠ [] := fun hk => h _ List.mem_cons_self value (by rw [hk])
      rw [stub_next_putState, if_neg hk]
      rfl
    | delState key => rfl
    | getState key => rfl
    | getStateByRange startKey endKey => rfl
    | next resultsIterator => rfl

theorem Call.exec_of_simulate {c : Call} {w : WorldState} {e : Effect GoString Bytes Result}
    (h : c.simulate json w = some e) : c.exec json w = (e.response, applyWrites w e.writes) := by
  obtain ⟨hok, rfl⟩ := (Call.simulate_eq_some json).1 h
  obtain ⟨hvalue, hlog⟩ := run_eq_frozen stub
    (fun w c hc => stub_next_of_writeKey_none w (not_not.1 hc)) _ (c.writesLast json) w
  have hpath := path_run stub.frozen (c.prog json) w
  -- a `PutState` at the empty key would have failed the simulation
  have hput : ∀ x ∈ (run stub.frozen (c.prog json) w).log, ∀ value, x.1 ≠ .putState [] value := by
    rintro ⟨c', reply⟩ hx value rfl
    refine Call.error_of_failed json hpath hx ⟨emptyKey, ?_⟩ hok
    rw [reply_of_mem_frozen stub _ hx]
    rfl
  rw [Call.exec, hvalue, run_state, hlog, foldl_next_eq_applyWrites hput]

theorem Call.simulate_congr {c : Call} {w w' : WorldState} {e : Effect GoString Bytes Result}
    (h : c.simulate json w = some e) (hreads : ∀ k ∈ e.reads, w'[k]? = w[k]?) :
    c.simulate json w' = some e := by
  obtain ⟨hok, rfl⟩ := (Call.simulate_eq_some json).1 h
  obtain ⟨-, hrange, -⟩ := Call.footprint json (path_run stub.frozen (c.prog json) w)
  -- The replies of the log come from the keys read, which hold the same in both states.
  have hreplies : ∀ x ∈ (run stub.frozen (c.prog json) w).log, stub.reply w' x.1 = x.2 := by
    rintro ⟨c', reply⟩ hx
    rw [reply_of_mem_frozen stub _ hx]
    cases c' with
    | getState key =>
      simp only [stub_getState]
      rw [hreads key (List.mem_filterMap.2 ⟨_, hx, rfl⟩)]
    | getStateByRange startKey endKey => exact absurd rfl (hrange _ hx startKey endKey)
    | putState key value => rfl
    | delState key => rfl
    | next resultsIterator => cases resultsIterator <;> rfl
  obtain ⟨hvalue, hlog⟩ := run_frozen_congr stub (c.prog json) hreplies
  refine (Call.simulate_eq_some json).2 ⟨?_, ?_⟩
  · rw [hvalue]; exact hok
  · rw [hvalue, hlog]

/-- The calls of the contract as operations of the ledger. -/
def semantics : Semantics GoString Bytes Call Result where
  exec c w := c.exec json w
  simulate c w := c.simulate json w
  exec_of_simulate := Call.exec_of_simulate json
  simulate_congr := Call.simulate_congr json

/-- The empty ledger. -/
def emptyGenesis : Genesis GoString Bytes where
  state := ∅
  height := 0
  fresh := by simp [version]

/-- **The contract is serialisable.**  Clients simulate calls against the current or any earlier
committed world state, and the transactions are committed in any order under the version check.
However these interleave, the committed world state and the response of every valid transaction are
those of executing the valid transactions one after the other in the order of their commits. -/
theorem calls_serializable (g : Genesis GoString Bytes) (events : List (Event Call)) :
    runAll (Call.exec json) (values g.state)
        ((Mvcc.run (semantics json) g events).committed.map Tx.op) =
      ((Mvcc.run (semantics json) g events).committed.map Tx.response,
        values (Mvcc.run (semantics json) g events).current) :=
  serializable (semantics json) g events

/-! ### Calls on different assets -/

/-- A transaction of the contract reads and writes the key of its asset only. -/
theorem endorse_footprint {s : Versioned GoString Bytes} {tx : Tx GoString Bytes Call Result}
    (h : endorse (semantics json) tx.op s = some tx) :
    (∀ k ∈ tx.readKeys, k = tx.op.id) ∧ ∀ k ∈ tx.writeKeys, k = tx.op.id := by
  obtain ⟨e, he, htx⟩ := endorse_eq_some _ h
  obtain ⟨-, rfl⟩ := (Call.simulate_eq_some json).1 he
  obtain ⟨hreads, -, hwrites⟩ :=
    Call.footprint json (path_run stub.frozen (tx.op.prog json) (values s))
  have hread : tx.readSet = [(tx.op.id, version s tx.op.id)] := by
    rw [htx]
    exact congrArg (List.map fun k => (k, version s k)) hreads
  constructor
  · intro k hk
    rw [Tx.readKeys, hread] at hk
    exact List.mem_singleton.1 hk
  · intro k hk
    obtain ⟨y, hy, rfl⟩ := List.mem_map.1 hk
    rw [htx] at hy
    exact hwrites y hy

theorem apart_of_id_ne {s : Versioned GoString Bytes} {tx tx' : Tx GoString Bytes Call Result}
    (h : endorse (semantics json) tx.op s = some tx)
    (h' : endorse (semantics json) tx'.op s = some tx') (hne : tx.op.id ≠ tx'.op.id) :
    Apart tx tx' := by
  obtain ⟨hr, hw⟩ := endorse_footprint json h
  obtain ⟨hr', hw'⟩ := endorse_footprint json h'
  refine ⟨fun k hk hk' => hne ?_, fun k hk hk' => hne ?_, fun k hk hk' => hne ?_⟩
  · rw [← hw k hk, hr' k hk']
  · rw [← hr k hk, hw' k hk']
  · rw [← hw k hk, hw' k hk']

/-- **Transactions on different assets never conflict, and their order does not matter.**  Take any
calls on pairwise distinct ids, all simulated successfully on one committed state.  In whatever
order they are committed, all of them are valid, and the world state they leave and their responses
are those of executing the calls one after the other in whatever order from that state. -/
theorem calls_commute (n : ℕ) {s : Versioned GoString Bytes}
    {txs order serial : List (Tx GoString Bytes Call Result)}
    (hend : ∀ tx ∈ txs, endorse (semantics json) tx.op s = some tx)
    (hids : (txs.map fun tx => tx.op.id).Nodup) (horder : order.Perm txs)
    (hserial : serial.Perm txs) :
    (commitAll n s order).1 = order.map (fun _ => true) ∧
      runAll (Call.exec json) (values s) (serial.map Tx.op) =
        (serial.map Tx.response, values (commitAll n s order).2) := by
  have hap : txs.Pairwise Apart := by
    refine List.Pairwise.imp_of_mem ?_ (List.pairwise_map.1 hids)
    intro tx tx' htx htx' hne
    exact apart_of_id_ne json (hend tx htx) (hend tx' htx') hne
  exact commitAll_perm (semantics json) n hend hap horder hserial

/-- Two assets created on the empty world state and committed in the other order. -/
theorem calls_commute_creates :
    let op₁ : Call := .createAsset [97] [98] 5 [111] 300
    let op₂ : Call := .createAsset [98] [99] 6 [112] 400
    let tx₁ : Tx GoString Bytes Call Result := ⟨op₁, (.unit, none), [([97], none)],
      [([97], some (marshalStruct assetMembers ⟨300, [98], [97], [111], 5⟩))]⟩
    let tx₂ : Tx GoString Bytes Call Result := ⟨op₂, (.unit, none), [([98], none)],
      [([98], some (marshalStruct assetMembers ⟨400, [99], [98], [112], 6⟩))]⟩
    endorse (semantics assetJson) op₁ ∅ = some tx₁ ∧
      endorse (semantics assetJson) op₂ ∅ = some tx₂ ∧
      (commitAll 1 ∅ [tx₂, tx₁]).1 = [true, true] ∧
      runAll (Call.exec assetJson) (values ∅) [op₁, op₂] =
        ([(.unit, none), (.unit, none)], values (commitAll 1 ∅ [tx₂, tx₁]).2) := by
  intro op₁ op₂ tx₁ tx₂
  have hend : ∀ tx ∈ [tx₁, tx₂], endorse (semantics assetJson) tx.op ∅ = some tx := by
    intro tx htx
    rcases List.mem_pair.mp htx with rfl | rfl <;> rfl
  exact ⟨hend tx₁ (by simp), hend tx₂ (by simp),
    calls_commute assetJson 1 hend (by decide) (List.Perm.swap tx₁ tx₂ []) (List.Perm.refl _)⟩

end Chaincode

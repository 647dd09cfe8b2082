import SubstrateFabric.Chaincode.Ledger

/-!
# The history of an asset

The ledger keeps, for every key, the bytes last written.  This file says what they are in terms of
the calls alone: an asset exists if the last valid writer of its id was not a `DeleteAsset`; it then
belongs to whom that writer named, and its other fields are those of the last `CreateAsset` or
`UpdateAsset` of the id (`recorded`).

* `runAll_spec_recorded`: so it is with the map, if no call of the run was refused;
* `ledger_recorded`: and so it is on the ledger, after any interleaving of calls with valid
  arguments: every valid transaction is answered from the writers committed before it;
* `ledger_custody`: the chain of owners.  A valid `TransferAsset` returns the owner that the last
  valid writer of the asset before it has named;
* `ledger_lifecycle`: the life of an asset.  It is created exactly when it is not there.  This rests
  on no more than which keys are stored (`runAll_getElem_eq_none_iff`), and holds of any arguments
  and any encoding.
-/

namespace Chaincode

open EncodingJson Mvcc Runs

/-- The fields that `CreateAsset` and `UpdateAsset` give to their asset. -/
def Call.details? : Call → Option Details
  | .createAsset _ color size owner appraisedValue => some ⟨color, size, owner, appraisedValue⟩
  | .updateAsset _ color size owner appraisedValue => some ⟨color, size, owner, appraisedValue⟩
  | _ => none

/-- The owner that a call names for its asset. -/
def Call.owner? : Call → Option GoString
  | .createAsset _ _ _ owner _ => some owner
  | .updateAsset _ _ _ owner _ => some owner
  | .transferAsset _ newOwner => some newOwner
  | _ => none

/-- The writers of an asset, in order. -/
def writers (calls : List Call) (id : GoString) : List Call :=
  calls.filter fun c => c.id = id ∧ c.IsWriter

/-- The assets as the writers of each of them have left them. -/
def recorded (calls : List Call) : AssetMap := fun id =>
  match (writers calls id).getLast?.bind Call.owner? with
  | none => none
  | some owner =>
      ((writers calls id).filterMap Call.details?).getLast?.map fun d => { d with owner := owner }

section Recorded

variable {calls : List Call} {c : Call} {id : GoString}

theorem writers_append (calls rest : List Call) (id : GoString) :
    writers (calls ++ rest) id = writers calls id ++ writers rest id :=
  List.filter_append _ _

theorem writers_concat_of_writer (hc : c.IsWriter) :
    writers (calls ++ [c]) c.id = writers calls c.id ++ [c] := by
  simp [writers, hc]

theorem writers_concat_of_not (h : ¬ (c.id = id ∧ c.IsWriter)) :
    writers (calls ++ [c]) id = writers calls id := by
  have hnone : writers [c] id = [] := List.filter_cons_of_neg (by simpa using h)
  rw [writers_append, hnone, List.append_nil]

/-- A call that is no writer of the asset changes nothing of it. -/
theorem recorded_concat_of_not (h : ¬ (c.id = id ∧ c.IsWriter)) :
    recorded (calls ++ [c]) id = recorded calls id := by
  unfold recorded
  rw [writers_concat_of_not h]

/-- `CreateAsset` and `UpdateAsset` give all fields. -/
theorem recorded_concat_of_details {d : Details} (hc : c.IsWriter) (hd : c.details? = some d) :
    recorded (calls ++ [c]) c.id = some d := by
  have howner : c.owner? = some d.owner := by
    cases c with
    | createAsset id color size owner appraisedValue => cases hd; rfl
    | updateAsset id color size owner appraisedValue => cases hd; rfl
    | _ => cases hd
  unfold recorded
  rw [writers_concat_of_writer hc]
  simp [howner, hd]

/-- `DeleteAsset` leaves nothing. -/
theorem recorded_concat_of_delete :
    recorded (calls ++ [.deleteAsset id]) id = none := by
  have hwriters : writers (calls ++ [.deleteAsset id]) id = writers calls id ++ [.deleteAsset id] :=
    writers_concat_of_writer (c := .deleteAsset id) trivial
  unfold recorded
  rw [hwriters]
  simp [Call.owner?]

/-- `TransferAsset` replaces the owner of what is there. -/
theorem recorded_concat_of_transfer {newOwner : GoString} {d : Details}
    (h : recorded calls id = some d) :
    recorded (calls ++ [.transferAsset id newOwner]) id = some { d with owner := newOwner } := by
  unfold recorded at h ⊢
  cases hlast : (writers calls id).getLast?.bind Call.owner? with
  | none =>
    rw [hlast] at h
    cases h
  | some owner =>
    rw [hlast] at h
    obtain ⟨d', hd', rfl⟩ := Option.map_eq_some_iff.1 h
    have hwriters : writers (calls ++ [.transferAsset id newOwner]) id =
        writers calls id ++ [.transferAsset id newOwner] :=
      writers_concat_of_writer (c := .transferAsset id newOwner) trivial
    rw [hwriters]
    simp [Call.owner?, Call.details?, List.filterMap_append, hd']

/-- One call that is not refused. -/
theorem spec_recorded (h : (c.spec (recorded calls)).1.2 = none) :
    (c.spec (recorded calls)).2 = recorded (calls ++ [c]) := by
  -- a call that writes moves the map at its own id only
  have key : ∀ v, (c.IsWriter → recorded (calls ++ [c]) c.id = v) → c.IsWriter →
      Function.update (recorded calls) c.id v = recorded (calls ++ [c]) := by
    intro v hv hc
    funext id
    by_cases hid : c.id = id
    · subst hid
      rw [Function.update_self, hv hc]
    · rw [Function.update_of_ne (Ne.symm hid), recorded_concat_of_not fun h => hid h.1]
  have stay : ¬ c.IsWriter → recorded calls = recorded (calls ++ [c]) := by
    intro hc
    funext id
    rw [recorded_concat_of_not fun h => hc h.2]
  cases c with
  | createAsset id color size owner appraisedValue =>
    cases hm : recorded calls id with
    | some d => simp [Call.spec, AssetMap.step, hm, Call.report] at h
    | none =>
      simp only [Call.spec, AssetMap.step, hm]
      exact key _ (fun hc => recorded_concat_of_details hc rfl) trivial
  | readAsset id =>
    rw [← stay fun h => h]
    cases hm : recorded calls id <;> simp [Call.spec, AssetMap.step, hm]
  | updateAsset id color size owner appraisedValue =>
    cases hm : recorded calls id with
    | none => simp [Call.spec, AssetMap.step, hm, Call.report] at h
    | some d =>
      simp only [Call.spec, AssetMap.step, hm]
      exact key _ (fun hc => recorded_concat_of_details hc rfl) trivial
  | deleteAsset id =>
    cases hm : recorded calls id with
    | none => simp [Call.spec, AssetMap.step, hm, Call.report] at h
    | some d =>
      simp only [Call.spec, AssetMap.step, hm]
      exact key _ (fun _ => recorded_concat_of_delete) trivial
  | assetExists id =>
    rw [← stay fun h => h]
    rfl
  | transferAsset id newOwner =>
    cases hm : recorded calls id with
    | none => simp [Call.spec, AssetMap.step, hm, Call.report] at h
    | some d =>
      simp only [Call.spec, AssetMap.step, hm]
      exact key _ (fun _ => recorded_concat_of_transfer hm) trivial

/-- The map after calls none of which was refused is the one recorded. -/
theorem runAll_spec_recorded {calls : List Call}
    (h : ∀ r ∈ (runAll Call.spec (fun _ => none) calls).1, r.2 = none) :
    (runAll Call.spec (fun _ => none) calls).2 = recorded calls := by
  induction calls using List.reverseRecOn with
  | nil => rfl
  | append_singleton calls c ih =>
    rw [runAll_concat] at h ⊢
    obtain ⟨hcalls, hc⟩ := List.forall_mem_append.1 h
    rw [ih hcalls] at hc ⊢
    exact spec_recorded (hc _ List.mem_cons_self)

end Recorded

/-- A `TransferAsset` that the map does not refuse finds its asset. -/
theorem exists_of_transfer {m : AssetMap} {id newOwner : GoString}
    (hok : ((Call.transferAsset id newOwner).spec m).1.2 = none) : ∃ d, m id = some d := by
  cases hm : m id with
  | none => simp [Call.spec, AssetMap.step, hm, Call.report] at hok
  | some d => exact ⟨d, rfl⟩

/-! ### What is stored -/

section Stored

variable {json : Codec Asset} {c : Call} {w : WorldState} {id : GoString}

/-- A call that is no writer of a key leaves what is stored there. -/
theorem Call.exec_getElem_of_not (h : ¬ (c.id = id ∧ c.IsWriter)) :
    (c.exec json w).2[id]? = w[id]? := by
  rw [Call.exec_eq]
  have hne : (∀ r, c.plan json w[c.id]? ≠ .stop r) → c.id ≠ id := by
    intro hplan hid
    obtain ⟨r, hr⟩ := Call.plan_of_not_isWriter json (fun hc => h ⟨hid, hc⟩) w[c.id]?
    exact hplan r hr
  cases hp : c.plan json w[c.id]? with
  | stop r => rfl
  | put bs response =>
    have hid := hne (by simp [hp])
    simp only [Plan.exec]
    split_ifs
    · rfl
    · rw [Std.ExtTreeMap.getElem?_insert, if_neg (by simpa using hid)]
  | del response =>
    have hid := hne (by simp [hp])
    simp only [Plan.exec]
    rw [Std.ExtTreeMap.getElem?_erase, if_neg (by simpa using hid)]

/-- A writer that succeeds leaves its key stored, unless it is a `DeleteAsset`. -/
theorem Call.exec_getElem_eq_none_iff (hc : c.IsWriter) (hok : (c.exec json w).1.2 = none) :
    (c.exec json w).2[c.id]? = none ↔ c = .deleteAsset c.id := by
  rw [Call.exec_eq] at hok ⊢
  cases hp : c.plan json w[c.id]? with
  | stop r =>
    rw [hp] at hok
    exact absurd hok (Call.plan_stop_of_isWriter json hc hp)
  | put bs response =>
    rw [hp] at hok
    have hid : c.id ≠ [] := by
      intro hid
      rw [Plan.exec, if_pos hid] at hok
      cases hok
    have hdelete := Call.ne_deleteAsset_of_plan_put json hp c.id
    rw [Plan.exec, if_neg hid]
    simp [hdelete]
  | del response =>
    have hdelete := Call.eq_deleteAsset_of_plan_del json hp
    exact ⟨fun _ => hdelete, fun _ => by simp [Plan.exec]⟩

/-- Of the calls that succeed, `AssetExists` aside, exactly `CreateAsset` finds its key empty. -/
theorem Call.createAsset_iff (hok : (c.exec json w).1.2 = none)
    (hexists : ∀ id, c ≠ .assetExists id) :
    (∃ id color size owner appraisedValue,
        c = .createAsset id color size owner appraisedValue) ↔ w[c.id]? = none := by
  rw [Call.exec_eq] at hok
  cases c with
  | createAsset id color size owner appraisedValue =>
    cases hw : w[id]? with
    | none => simp [Call.id, hw]
    | some bs => simp [Call.id, Call.plan, Plan.exec, hw] at hok
  | assetExists id => exact absurd rfl (hexists id)
  | readAsset id =>
    cases hw : w[id]? with
    | none => simp [Call.id, Call.plan, Plan.exec, hw] at hok
    | some bs => simp [Call.id, hw]
  | updateAsset id color size owner appraisedValue =>
    cases hw : w[id]? with
    | none => simp [Call.id, Call.plan, Plan.exec, hw] at hok
    | some bs => simp [Call.id, hw]
  | deleteAsset id =>
    cases hw : w[id]? with
    | none => simp [Call.id, Call.plan, Plan.exec, hw] at hok
    | some bs => simp [Call.id, hw]
  | transferAsset id newOwner =>
    cases hw : w[id]? with
    | none => simp [Call.id, Call.plan, Plan.exec, hw] at hok
    | some bs => simp [Call.id, hw]

/-- After calls that have all succeeded a key is empty exactly if its last writer, if there is one,
was a `DeleteAsset`. -/
theorem runAll_getElem_eq_none_iff {calls : List Call}
    (h : ∀ r ∈ (runAll (Call.exec json) ∅ calls).1, r.2 = none) :
    (runAll (Call.exec json) ∅ calls).2[id]? = none ↔
      ∀ c, (writers calls id).getLast? = some c → c = .deleteAsset id := by
  induction calls using List.reverseRecOn with
  | nil => simp [writers]
  | append_singleton calls c ih =>
    rw [runAll_concat] at h ⊢
    obtain ⟨hcalls, hc⟩ := List.forall_mem_append.1 h
    by_cases hwriter : c.id = id ∧ c.IsWriter
    · obtain ⟨rfl, hwriter⟩ := hwriter
      rw [Call.exec_getElem_eq_none_iff hwriter (hc _ List.mem_cons_self),
        writers_concat_of_writer hwriter, List.getLast?_concat]
      simp
    · rw [Call.exec_getElem_of_not hwriter, writers_concat_of_not hwriter]
      exact ih hcalls

end Stored

/-! ### On the ledger -/

/-- The response of a valid transaction carries no error. -/
theorem response_of_mem_committed {json : Codec Asset} {events : List (Event Call)}
    {tx : Tx GoString Bytes Call Result}
    (htx : tx ∈ (Mvcc.run (semantics json) emptyGenesis events).committed) :
    tx.response.2 = none := by
  refine forall_committed (semantics json) (P := fun tx => tx.response.2 = none)
    (fun op _ _ s tx hend => ?_) tx htx
  obtain ⟨e, he, rfl⟩ := endorse_eq_some _ hend
  obtain ⟨hok, rfl⟩ := (Call.simulate_eq_some json).1 he
  exact hok

/-- `w` is the last writer of the asset `id` among the transactions. -/
def LastWriter (txs : List (Tx GoString Bytes Call Result)) (id : GoString)
    (w : Tx GoString Bytes Call Result) : Prop :=
  ∃ pre post, txs = pre ++ w :: post ∧ (w.op.id = id ∧ w.op.IsWriter) ∧
    ∀ tx ∈ post, ¬ (tx.op.id = id ∧ tx.op.IsWriter)

/-- The last writer is the last one of the writers. -/
theorem exists_lastWriter {txs : List (Tx GoString Bytes Call Result)} {id : GoString} {c : Call}
    (h : (writers (txs.map Tx.op) id).getLast? = some c) :
    ∃ w, LastWriter txs id w ∧ w.op = c := by
  induction txs using List.reverseRecOn with
  | nil => cases h
  | append_singleton txs tx ih =>
    rw [List.map_append, List.map_singleton] at h
    by_cases htx : tx.op.id = id ∧ tx.op.IsWriter
    · refine ⟨tx, ⟨txs, [], rfl, htx, fun _ hmem => nomatch hmem⟩, ?_⟩
      rw [← htx.1, writers_concat_of_writer htx.2, List.getLast?_concat] at h
      exact Option.some.inj h
    · rw [writers_concat_of_not htx] at h
      obtain ⟨w, ⟨pre, post, rfl, hw, hpost⟩, hc⟩ := ih h
      refine ⟨w, ⟨pre, post ++ [tx], by simp, hw, ?_⟩, hc⟩
      exact List.forall_mem_append.2 ⟨hpost, List.forall_mem_singleton.2 htx⟩

theorem LastWriter.getLast?_writers {txs : List (Tx GoString Bytes Call Result)} {id : GoString}
    {w : Tx GoString Bytes Call Result} (h : LastWriter txs id w) :
    (writers (txs.map Tx.op) id).getLast? = some w.op := by
  obtain ⟨pre, post, rfl, ⟨rfl, hw⟩, hpost⟩ := h
  have hnone : writers (post.map Tx.op) w.op.id = [] := by
    refine List.filter_eq_nil_iff.2 fun c hc => ?_
    obtain ⟨tx, htx, rfl⟩ := List.mem_map.1 hc
    simpa using hpost tx htx
  rw [List.append_cons, List.map_append, writers_append, hnone, List.append_nil, List.map_append,
    List.map_singleton, writers_concat_of_writer hw, List.getLast?_concat]

/-- An asset that is recorded has a last writer, which named its owner. -/
theorem exists_lastWriter_of_recorded {txs : List (Tx GoString Bytes Call Result)} {id : GoString}
    {d : Details} (h : recorded (txs.map Tx.op) id = some d) :
    ∃ w, LastWriter txs id w ∧ w.op.owner? = some d.owner := by
  unfold recorded at h
  cases hlast : (writers (txs.map Tx.op) id).getLast?.bind Call.owner? with
  | none =>
    rw [hlast] at h
    cases h
  | some owner =>
    rw [hlast] at h
    obtain ⟨d', -, rfl⟩ := Option.map_eq_some_iff.1 h
    obtain ⟨c, hc, howner⟩ := Option.bind_eq_some_iff.1 hlast
    obtain ⟨w, hw, rfl⟩ := exists_lastWriter hc
    exact ⟨w, hw, howner⟩

section Ledger

variable {json : Codec Asset} {events : List (Event Call)}

/-- The first transactions, executed one after the other, answer as they did on the ledger. -/
theorem ledger_direct {done : List (Tx GoString Bytes Call Result)}
    (hdone : done <+: (Mvcc.run (semantics json) emptyGenesis events).committed) :
    (runAll (Call.exec json) ∅ (done.map Tx.op)).1 = done.map Tx.response := by
  obtain ⟨rest, hrest⟩ := hdone
  have hserial := congrArg Prod.fst (ledger_serial json events)
  simp only [← hrest, List.map_append, runAll_append] at hserial
  exact (List.append_inj hserial (by rw [runAll_length, List.length_map, List.length_map])).1

/-- None of the first transactions fails when executed so. -/
theorem ledger_direct_ok {done : List (Tx GoString Bytes Call Result)}
    (hdone : done <+: (Mvcc.run (semantics json) emptyGenesis events).committed) :
    ∀ r ∈ (runAll (Call.exec json) ∅ (done.map Tx.op)).1, r.2 = none := by
  rw [ledger_direct hdone]
  intro r hr
  obtain ⟨tx, htx, rfl⟩ := List.mem_map.1 hr
  exact response_of_mem_committed (hdone.subset htx)

/-- A transaction is answered by its execution after those committed before it. -/
theorem ledger_exec {before after : List (Tx GoString Bytes Call Result)}
    {tx : Tx GoString Bytes Call Result}
    (h : (Mvcc.run (semantics json) emptyGenesis events).committed = before ++ tx :: after) :
    tx.response = (tx.op.exec json (runAll (Call.exec json) ∅ (before.map Tx.op)).2).1 := by
  have hbefore := ledger_direct ⟨tx :: after, h.symm⟩
  have hwith := ledger_direct ⟨after, (List.append_cons before tx after) ▸ h.symm⟩
  rw [List.map_append, List.map_append, List.map_singleton, runAll_concat, hbefore] at hwith
  simpa using hwith.symm

section First

variable (hjson : json.RoundTrips Asset.ValidUtf8) (hevents : ∀ e ∈ events, ValidEvent e)

include hjson hevents

/-- The responses of the first transactions, and the map they lead to. -/
theorem ledger_first {done : List (Tx GoString Bytes Call Result)}
    (hdone : done <+: (Mvcc.run (semantics json) emptyGenesis events).committed) :
    runAll Call.spec (fun _ => none) (done.map Tx.op) =
      (done.map Tx.response, recorded (done.map Tx.op)) := by
  have hcalls : ∀ c ∈ done.map Tx.op, c.ValidArgs := fun c hc =>
    ledger_calls json hevents c ((hdone.map Tx.op).subset hc)
  have hanswers := (runAll_exec_refines hjson hcalls).1
  have hok : ∀ r ∈ (runAll Call.spec (fun _ => none) (done.map Tx.op)).1, r.2 = none := by
    rw [← hanswers]
    exact ledger_direct_ok hdone
  exact Prod.ext (hanswers.symm.trans (ledger_direct hdone)) (runAll_spec_recorded hok)

/-- A valid transaction is answered by what is recorded before it. -/
theorem ledger_answer {before after : List (Tx GoString Bytes Call Result)}
    {tx : Tx GoString Bytes Call Result}
    (h : (Mvcc.run (semantics json) emptyGenesis events).committed = before ++ tx :: after) :
    tx.response = (tx.op.spec (recorded (before.map Tx.op))).1 ∧ tx.response.2 = none := by
  have hbefore := ledger_first hjson hevents ⟨tx :: after, h.symm⟩
  have hwith := ledger_first hjson hevents ⟨after, (List.append_cons before tx after) ▸ h.symm⟩
  rw [List.map_append, List.map_append, List.map_singleton, runAll_concat, hbefore] at hwith
  refine ⟨by simpa using (congrArg Prod.fst hwith).symm, ?_⟩
  exact response_of_mem_committed (h ▸ List.mem_append_right _ List.mem_cons_self)

end First

/-- **Every answer comes from the last writers.**  Let clients simulate calls with non-empty ids and
valid UTF-8 arguments against any committed states, and let the transactions be committed in any
order, from the empty ledger on.  Then every valid transaction is answered by the assets as the
valid writers committed before it have recorded them, without an error, and the world state holds
exactly the assets that all valid writers have recorded. -/
theorem ledger_recorded (hjson : json.RoundTrips Asset.ValidUtf8)
    (hevents : ∀ e ∈ events, ValidEvent e) :
    let ledger := Mvcc.run (semantics json) emptyGenesis events
    (∀ before tx after, ledger.committed = before ++ tx :: after →
      tx.response = (tx.op.spec (recorded (before.map Tx.op))).1 ∧ tx.response.2 = none) ∧
    Represents json (values ledger.current) (recorded (ledger.committed.map Tx.op)) := by
  refine ⟨fun _ _ _ h => ledger_answer hjson hevents h, ?_⟩
  have hrep := (ledger_refines hjson hevents).2
  rw [ledger_first hjson hevents (List.prefix_refl _)] at hrep
  exact hrep

/-- Two clients have created the same asset on the empty ledger, and only the creation committed
first is recorded. -/
theorem ledger_recorded_creates :
    let op₁ : Call := .createAsset [97] [98] 5 [111] 300
    let op₂ : Call := .createAsset [97] [99] 6 [112] 400
    let events : List (Event Call) := [.simulate op₁ 0, .simulate op₂ 0, .commit 0, .commit 0]
    let ledger := Mvcc.run (semantics assetJson) emptyGenesis events
    ledger.committed.map Tx.op = [op₂] ∧ Represents assetJson (values ledger.current)
      (recorded [op₂]) ∧ recorded [op₂] [97] = some ⟨[99], 6, [112], 400⟩ := by
  intro op₁ op₂ events ledger
  have hevents : ∀ e ∈ events, ValidEvent e := by decide
  have hcommitted : ledger.committed.map Tx.op = [op₂] := rfl
  refine ⟨hcommitted, ?_, rfl⟩
  rw [← hcommitted]
  exact (ledger_recorded assetJson_roundTrips hevents).2

/-- **The chain of owners is unbroken.**  After any interleaving of calls with non-empty ids and
valid UTF-8 arguments, a valid `TransferAsset` has a last valid writer of its asset before it, which
is a `CreateAsset`, an `UpdateAsset` or a `TransferAsset`, and returns the owner that this one
named. -/
theorem ledger_custody (hjson : json.RoundTrips Asset.ValidUtf8)
    (hevents : ∀ e ∈ events, ValidEvent e)
    {before after : List (Tx GoString Bytes Call Result)}
    {tx : Tx GoString Bytes Call Result} {id newOwner : GoString}
    (hcommitted : (Mvcc.run (semantics json) emptyGenesis events).committed =
      before ++ tx :: after)
    (hop : tx.op = .transferAsset id newOwner) :
    ∃ w owner, LastWriter before id w ∧ w.op.owner? = some owner ∧
      tx.response = (.string owner, none) := by
  obtain ⟨hanswer, hok⟩ := ledger_answer hjson hevents hcommitted
  rw [hop] at hanswer
  rw [hanswer] at hok
  obtain ⟨d, hd⟩ := exists_of_transfer hok
  obtain ⟨w, hw, howner⟩ := exists_lastWriter_of_recorded hd
  refine ⟨w, d.owner, hw, howner, ?_⟩
  rw [hanswer]
  simp only [Call.spec, AssetMap.step, hd, Call.report]

/-- An asset is created and handed over: the second transaction returns the owner that the first one
named. -/
theorem ledger_custody_created :
    let calls : List Call := [.createAsset [97] [98] 5 [111] 300, .transferAsset [97] [112]]
    let ledger := Mvcc.run (semantics assetJson) emptyGenesis (sequential calls)
    ∃ tx₁ tx₂, ledger.committed = [tx₁, tx₂] ∧ tx₂.op = .transferAsset [97] [112] ∧
      ∃ w owner, LastWriter [tx₁] [97] w ∧ w.op.owner? = some owner ∧
        tx₂.response = (.string owner, none) := by
  intro calls ledger
  have hcalls : ∀ c ∈ calls, c.ValidArgs := by decide
  have hevents := validEvent_of_mem_sequential hcalls
  have hcommitted := committed_sequential assetJson_roundTrips hcalls
  obtain ⟨tx₁, tail, hledger, -, htail⟩ := List.map_eq_cons_iff.1 hcommitted
  obtain ⟨tx₂, tail, rfl, htx₂, htail⟩ := List.map_eq_cons_iff.1 htail
  rw [List.map_eq_nil_iff.1 htail] at hledger
  have hop : tx₂.op = .transferAsset [97] [112] := congrArg Prod.fst htx₂
  have hsplit : ledger.committed = [tx₁] ++ tx₂ :: [] := hledger
  exact ⟨tx₁, tx₂, hledger, hop, ledger_custody assetJson_roundTrips hevents hsplit hop⟩

/-- **The life of an asset.**  After any interleaving from the empty ledger, whatever the arguments
and the encoding, a valid transaction other than `AssetExists` is a `CreateAsset` exactly if its
asset was not there: no valid writer of it was committed before, or the last one was a
`DeleteAsset`.  So no asset is created twice without being deleted in between, and none is read,
updated, handed over or deleted before its creation or after its deletion. -/
theorem ledger_lifecycle {before after : List (Tx GoString Bytes Call Result)}
    {tx : Tx GoString Bytes Call Result}
    (hcommitted : (Mvcc.run (semantics json) emptyGenesis events).committed =
      before ++ tx :: after)
    (hop : ∀ id, tx.op ≠ .assetExists id) :
    (∃ id color size owner appraisedValue,
        tx.op = .createAsset id color size owner appraisedValue) ↔
      ∀ w, LastWriter before tx.op.id w → w.op = .deleteAsset tx.op.id := by
  have hbefore := ledger_direct_ok ⟨tx :: after, hcommitted.symm⟩
  have hexec : (tx.op.exec json (runAll (Call.exec json) ∅ (before.map Tx.op)).2).1.2 = none := by
    rw [← ledger_exec hcommitted]
    exact response_of_mem_committed
      (hcommitted ▸ List.mem_append_right _ List.mem_cons_self)
  rw [Call.createAsset_iff hexec hop, runAll_getElem_eq_none_iff hbefore]
  constructor
  · intro hlast w hw
    exact hlast w.op hw.getLast?_writers
  · intro hlast c hc
    obtain ⟨w, hw, rfl⟩ := exists_lastWriter hc
    exact hlast w hw

/-- An asset is created, deleted and created again: the last writer before its second creation is
its deletion. -/
theorem ledger_lifecycle_again :
    let create : Call := .createAsset [97] [98] 5 [111] 300
    let calls : List Call := [create, .deleteAsset [97], create]
    let ledger := Mvcc.run (semantics assetJson) emptyGenesis (sequential calls)
    ∃ tx₁ tx₂ tx₃, ledger.committed = [tx₁, tx₂, tx₃] ∧ tx₃.op = create ∧
      ∀ w, LastWriter [tx₁, tx₂] [97] w → w.op = .deleteAsset [97] := by
  intro create calls ledger
  have hcalls : ∀ c ∈ calls, c.ValidArgs := by decide
  have hcommitted := committed_sequential assetJson_roundTrips hcalls
  obtain ⟨tx₁, tail, hledger, -, htail⟩ := List.map_eq_cons_iff.1 hcommitted
  obtain ⟨tx₂, tail, rfl, -, htail⟩ := List.map_eq_cons_iff.1 htail
  obtain ⟨tx₃, tail, rfl, htx₃, htail⟩ := List.map_eq_cons_iff.1 htail
  rw [List.map_eq_nil_iff.1 htail] at hledger
  have hop : tx₃.op = create := congrArg Prod.fst htx₃
  refine ⟨tx₁, tx₂, tx₃, hledger, hop, ?_⟩
  have hsplit : ledger.committed = [tx₁, tx₂] ++ tx₃ :: [] := hledger
  have hlife := ledger_lifecycle hsplit (by rw [hop]; simp [create])
  rw [hop] at hlife
  exact hlife.1 ⟨_, _, _, _, _, rfl⟩

end Ledger

end Chaincode

import SubstrateFabric.Chaincode.Calls
import SubstrateFabric.Chaincode.AssetJson
import SubstrateFabric.Lib.Runs

/-!
# The contract as a partial map

What the contract is for: a partial map from asset ids to the four other fields of an asset
(`AssetMap`), with the obvious operations (`AssetMap.step`).  A world state represents such a map if
it holds, under every id of the domain, the encoding of the asset with that id and the fields of the
map, and nothing else (`Represents`).  Every call keeps this relation and answers as the map does
(`Call.exec_refines`), whichever of the four writers wrote the entry it meets; hence every sequence
of calls does (`calls_refine`).

Of `encoding/json` only the round trip on valid UTF-8 is used.
-/

namespace Chaincode

open Interaction EncodingJson Runs

/-- The fields of an asset besides its id. -/
structure Details where
  color : GoString
  size : Int64
  owner : GoString
  appraisedValue : Int64
  deriving DecidableEq

/-- The asset with the given id and details. -/
def Details.asset (d : Details) (id : GoString) : Asset :=
  { id := id, color := d.color, size := d.size, owner := d.owner,
    appraisedValue := d.appraisedValue }

/-- A partial map from ids to details. -/
abbrev AssetMap := GoString → Option Details

/-- Why an operation on the map is refused. -/
inductive Refusal
  | alreadyExists
  | doesNotExist
  deriving DecidableEq

/-- The operations on the map: `Create` adds an entry if the id is absent, `Update` replaces all
four fields, `Delete` removes the entry and `Transfer` replaces the owner, and returns the old one,
if it is present. -/
def AssetMap.step (m : AssetMap) : Call → Except Refusal Response × AssetMap
  | .createAsset id color size owner appraisedValue =>
      match m id with
      | some _ => (.error .alreadyExists, m)
      | none => (.ok .unit, Function.update m id (some ⟨color, size, owner, appraisedValue⟩))
  | .readAsset id =>
      match m id with
      | some d => (.ok (.asset (some (d.asset id))), m)
      | none => (.error .doesNotExist, m)
  | .updateAsset id color size owner appraisedValue =>
      match m id with
      | some _ => (.ok .unit, Function.update m id (some ⟨color, size, owner, appraisedValue⟩))
      | none => (.error .doesNotExist, m)
  | .deleteAsset id =>
      match m id with
      | some _ => (.ok .unit, Function.update m id none)
      | none => (.error .doesNotExist, m)
  | .assetExists id => (.ok (.bool (m id).isSome), m)
  | .transferAsset id newOwner =>
      match m id with
      | some d => (.ok (.string d.owner), Function.update m id (some { d with owner := newOwner }))
      | none => (.error .doesNotExist, m)

/-- How the contract reports an answer of the map. -/
def Call.report (c : Call) : Except Refusal Response → Result
  | .ok response => (response, none)
  | .error .alreadyExists => (c.zero, some (alreadyExists c.id))
  | .error .doesNotExist => (c.zero, some (doesNotExist c.id))

/-- The operation of the map with its answer as the contract reports it. -/
def Call.spec (c : Call) (m : AssetMap) : Result × AssetMap := (c.report (m.step c).1, (m.step c).2)

section Pointwise

variable {E : GoString → Option Bytes → Option Details → Prop} {w : WorldState} {m : AssetMap}
  {id : GoString}

/-- A relation of what is stored to what is in the map, under each id, is kept by storing related
things. -/
theorem forall_insert (h : ∀ id, E id w[id]? (m id)) {bs : Bytes} {d : Details}
    (hd : E id (some bs) (some d)) (id' : GoString) :
    E id' (w.insert id bs)[id']? (Function.update m id (some d) id') := by
  by_cases hid : id = id'
  · subst hid
    simpa using hd
  · rw [Std.ExtTreeMap.getElem?_insert, Function.update_of_ne (Ne.symm hid)]
    simpa [hid] using h id'

theorem forall_erase (h : ∀ id, E id w[id]? (m id)) (hnone : E id none none) (id' : GoString) :
    E id' (w.erase id)[id']? (Function.update m id none id') := by
  by_cases hid : id = id'
  · subst hid
    simpa using hnone
  · rw [Std.ExtTreeMap.getElem?_erase, Function.update_of_ne (Ne.symm hid)]
    simpa [hid] using h id'

/-- If nothing is related to something, an id is either absent from both or related in both. -/
theorem cases_of_forall (hleft : ∀ id d, ¬ E id none (some d))
    (hright : ∀ id bs, ¬ E id (some bs) none) (h : ∀ id, E id w[id]? (m id)) (id : GoString) :
    (w[id]? = none ∧ m id = none) ∨
      ∃ bs d, w[id]? = some bs ∧ m id = some d ∧ E id (some bs) (some d) := by
  have hid := h id
  cases hw : w[id]? with
  | none =>
    cases hm : m id with
    | none => exact Or.inl ⟨rfl, rfl⟩
    | some d => rw [hw, hm] at hid; exact absurd hid (hleft id d)
  | some bs =>
    cases hm : m id with
    | none => rw [hw, hm] at hid; exact absurd hid (hright id bs)
    | some d => rw [hw, hm] at hid; exact Or.inr ⟨bs, d, rfl, rfl, hid⟩

end Pointwise

section Refinement

variable (json : Codec Asset)

/-- What is stored under an id for given details: the encoding of the asset, if there is one. -/
def Encodes (id : GoString) : Option Bytes → Option Details → Prop
  | none, none => True
  | some bs, some d => (d.asset id).ValidUtf8 ∧ json.marshal (d.asset id) = .ok bs
  | _, _ => False

/-- The world state is exactly `{id ↦ json.Marshal(asset of id) | id ∈ dom m}`. -/
def Represents (w : WorldState) (m : AssetMap) : Prop := ∀ id, Encodes json id w[id]? (m id)

variable {json} {w : WorldState} {m : AssetMap}

theorem represents_empty : Represents json ∅ fun _ => none := by
  intro id
  simp [Encodes]

theorem Represents.insert (h : Represents json w m) {id : GoString} {bs : Bytes} {d : Details}
    (hd : Encodes json id (some bs) (some d)) :
    Represents json (w.insert id bs) (Function.update m id (some d)) :=
  forall_insert h hd

theorem Represents.erase (h : Represents json w m) (id : GoString) :
    Represents json (w.erase id) (Function.update m id none) :=
  forall_erase h trivial

/-- An id is either absent from both or holds the encoding of its asset. -/
theorem Represents.cases (h : Represents json w m) (id : GoString) :
    (w[id]? = none ∧ m id = none) ∨
      ∃ bs d, w[id]? = some bs ∧ m id = some d ∧ Encodes json id (some bs) (some d) :=
  cases_of_forall (fun _ _ hE => hE) (fun _ _ hE => hE) h id

/-- A stored encoding decodes to its asset. -/
theorem Encodes.unmarshal (hjson : json.RoundTrips Asset.ValidUtf8) {id : GoString} {bs : Bytes}
    {d : Details} (h : Encodes json id (some bs) (some d)) :
    json.unmarshal bs = .ok (d.asset id) := by
  obtain ⟨bs', hm, hu⟩ := hjson _ h.1
  rw [h.2] at hm
  cases hm
  exact hu

/-- The step that stores an asset with valid strings puts its encoding. -/
theorem store_eq_put (hjson : json.RoundTrips Asset.ValidUtf8) (c : Call) {i : GoString}
    {d : Details} (hd : (d.asset i).ValidUtf8) (response : Response) :
    ∃ bs, Plan.store json c (d.asset i) response = .put bs response ∧
      Encodes json i (some bs) (some d) := by
  obtain ⟨bs, hm, -⟩ := hjson _ hd
  exact ⟨bs, by simp only [Plan.store, hm], hd, hm⟩

/-- Storing valid details under a non-empty id updates the map. -/
theorem refines_of_store (hjson : json.RoundTrips Asset.ValidUtf8) (h : Represents json w m)
    {c : Call} (hid : c.id ≠ []) {d : Details} (hd : (d.asset c.id).ValidUtf8) {r : Response}
    (hplan : c.plan json w[c.id]? = .store json c (d.asset c.id) r)
    (hspec : m.step c = (.ok r, Function.update m c.id (some d))) :
    (c.exec json w).1 = (c.spec m).1 ∧ Represents json (c.exec json w).2 (c.spec m).2 := by
  obtain ⟨bs, hput, henc⟩ := store_eq_put hjson c hd r
  rw [Call.exec_of_put (hplan.trans hput) hid, Call.spec, hspec]
  exact ⟨rfl, h.insert henc⟩

/-- A call that returns without writing leaves the map as it is. -/
theorem refines_of_stop (h : Represents json w m) {c : Call} {a : Except Refusal Response}
    (hplan : c.plan json w[c.id]? = .stop (c.report a)) (hspec : m.step c = (a, m)) :
    (c.exec json w).1 = (c.spec m).1 ∧ Represents json (c.exec json w).2 (c.spec m).2 := by
  rw [Call.exec_of_stop hplan, Call.spec, hspec]
  exact ⟨rfl, h⟩

/-- **One call refines one operation of the map.** -/
theorem Call.exec_refines (hjson : json.RoundTrips Asset.ValidUtf8) (h : Represents json w m)
    {c : Call} (hc : c.ValidUtf8) (hid : c.id ≠ []) :
    (c.exec json w).1 = (c.spec m).1 ∧ Represents json (c.exec json w).2 (c.spec m).2 := by
  cases c with
  | createAsset id color size owner appraisedValue =>
    rcases h.cases id with ⟨hw, hm⟩ | ⟨bs, d, hw, hm, -⟩
    · refine refines_of_store hjson h hid (d := ⟨color, size, owner, appraisedValue⟩)
        (r := .unit) ⟨hc.2.1, hc.1, hc.2.2⟩ ?_ ?_
      · simp only [Call.id, hw]; rfl
      · simp only [AssetMap.step, hm]; rfl
    · refine refines_of_stop h (a := .error .alreadyExists) ?_ ?_
      · simp only [Call.id, hw]; rfl
      · simp only [AssetMap.step, hm]
  | readAsset id =>
    rcases h.cases id with ⟨hw, hm⟩ | ⟨bs, d, hw, hm, henc⟩
    · refine refines_of_stop h (a := .error .doesNotExist) ?_ ?_
      · simp only [Call.id, hw]; rfl
      · simp only [AssetMap.step, hm]
    · refine refines_of_stop h (a := .ok (.asset (some (d.asset id)))) ?_ ?_
      · simp only [Call.id, hw, Call.plan, henc.unmarshal hjson]; rfl
      · simp only [AssetMap.step, hm]
  | updateAsset id color size owner appraisedValue =>
    rcases h.cases id with ⟨hw, hm⟩ | ⟨bs, d, hw, hm, -⟩
    · refine refines_of_stop h (a := .error .doesNotExist) ?_ ?_
      · simp only [Call.id, hw]; rfl
      · simp only [AssetMap.step, hm]
    · refine refines_of_store hjson h hid (d := ⟨color, size, owner, appraisedValue⟩)
        (r := .unit) ⟨hc.2.1, hc.1, hc.2.2⟩ ?_ ?_
      · simp only [Call.id, hw]; rfl
      · simp only [AssetMap.step, hm]; rfl
  | deleteAsset id =>
    rcases h.cases id with ⟨hw, hm⟩ | ⟨bs, d, hw, hm, -⟩
    · refine refines_of_stop h (a := .error .doesNotExist) ?_ ?_
      · simp only [Call.id, hw]; rfl
      · simp only [AssetMap.step, hm]
    · rw [Call.exec_of_del (r := .unit) (by simp only [Call.id, hw]; rfl)]
      simp only [Call.spec, AssetMap.step, hm]
      exact ⟨rfl, h.erase id⟩
  | assetExists id =>
    refine refines_of_stop h (a := .ok (.bool (m id).isSome)) ?_ rfl
    rcases h.cases id with ⟨hw, hm⟩ | ⟨bs, d, hw, hm, -⟩
    · simp only [Call.id, hw, hm]; rfl
    · simp only [Call.id, hw, hm]; rfl
  | transferAsset id newOwner =>
    rcases h.cases id with ⟨hw, hm⟩ | ⟨bs, d, hw, hm, henc⟩
    · refine refines_of_stop h (a := .error .doesNotExist) ?_ ?_
      · simp only [Call.id, hw]; rfl
      · simp only [AssetMap.step, hm]
    · -- decoding gives back the stored details, so only the owner changes
      refine refines_of_store hjson h hid (d := { d with owner := newOwner })
        (r := .string d.owner) ⟨henc.1.1, hc.1, hc.2⟩ ?_ ?_
      · simp only [Call.id, hw, Call.plan, henc.unmarshal hjson]; rfl
      · simp only [AssetMap.step, hm]; rfl

/-- Calls run from the empty world state and the operations of the map stay together. -/
theorem runAll_exec_refines (hjson : json.RoundTrips Asset.ValidUtf8) {calls : List Call}
    (hcalls : ∀ c ∈ calls, c.ValidUtf8 ∧ c.id ≠ []) :
    (runAll (Call.exec json) ∅ calls).1 = (runAll Call.spec (fun _ => none) calls).1 ∧
      Represents json (runAll (Call.exec json) ∅ calls).2
        (runAll Call.spec (fun _ => none) calls).2 :=
  runAll_simulation (Call.exec json) Call.spec
    (fun _ _ _ hc h => Call.exec_refines hjson h hc.1 hc.2) hcalls represents_empty

/-- **The contract refines a partial map, byte for byte.**  Any calls with non-empty ids and valid
UTF-8 arguments, run one after the other from the empty world state, answer as the operations of the
map do, and after each of them the world state holds exactly the encodings of the assets of the
map. -/
theorem calls_refine (hjson : json.RoundTrips Asset.ValidUtf8) {calls : List Call}
    (hcalls : ∀ c ∈ calls, c.ValidUtf8 ∧ c.id ≠ []) :
    (runAll (Call.exec json) ∅ calls).1 = (runAll Call.spec (fun _ => none) calls).1 ∧
      ∀ done, done <+: calls →
        Represents json (runAll (Call.exec json) ∅ done).2
          (runAll Call.spec (fun _ => none) done).2 := by
  refine ⟨(runAll_exec_refines hjson hcalls).1, fun done hdone => ?_⟩
  exact (runAll_exec_refines hjson fun c hc => hcalls c (hdone.subset hc)).2

/-- An asset is created, cannot be created again, is transferred and read. -/
theorem calls_refine_transfer :
    let calls : List Call := [.createAsset [97] [98] 5 [111] 300,
      .createAsset [97] [99] 6 [112] 400, .transferAsset [97] [113], .readAsset [97]]
    (runAll (Call.exec assetJson) ∅ calls).1 =
        [(.unit, none), (.unit, some (alreadyExists [97])), (.string [111], none),
          (.asset (some ⟨300, [98], [97], [113], 5⟩), none)] ∧
      Represents assetJson (runAll (Call.exec assetJson) ∅ calls).2
        (Function.update (Function.update (fun _ => none) [97] (some ⟨[98], 5, [111], 300⟩)) [97]
          (some ⟨[98], 5, [113], 300⟩)) := by
  intro calls
  have hvalid : ∀ c ∈ calls, c.ValidUtf8 ∧ c.id ≠ [] := by decide
  obtain ⟨hresults, hstates⟩ := calls_refine assetJson_roundTrips hvalid
  exact ⟨hresults, hstates calls (List.prefix_refl calls)⟩

end Refinement

end Chaincode

import SubstrateFabric.Chaincode.AssetMap

/-!
# Arguments that are not UTF-8

The refinement of the map of assets is about arguments that are valid UTF-8, and non-empty ids.  Go
strings are any bytes, and `json.Marshal` takes them all: it writes a replacement for every byte
that is not UTF-8, so that what is read back is not what was stored.  The contract notices none of
this.

`Call.answer` says what a client gets to see for any arguments whatsoever: the map of assets keeps
the ids as they are, since those are the keys of the world state, and all other strings with the
replacements made; an asset that is read has them in its id as well, so that its `ID` need not be
the one asked for; and an asset with the empty id can never be created.  `calls_answer` says that
the contract does exactly this, for every sequence of calls.
-/

namespace Chaincode

open Interaction EncodingJson Runs

/-- The call with the strings other than the id as they are read back. -/
def Call.readBack : Call → Call
  | .createAsset id color size owner appraisedValue =>
      .createAsset id (readString color) size (readString owner) appraisedValue
  | .updateAsset id color size owner appraisedValue =>
      .updateAsset id (readString color) size (readString owner) appraisedValue
  | .transferAsset id newOwner => .transferAsset id (readString newOwner)
  | c => c

/-- The response with the asset as it is read back. -/
def Response.readBack : Response → Response
  | .asset (some a) => .asset (some a.readBack)
  | r => r

/-- The answer to a call with any arguments, and the map after it. -/
def Call.answer (c : Call) (m : AssetMap) : Result × AssetMap :=
  match c with
  | .createAsset [] _ _ _ _ => ((.unit, some (.text emptyKey)), m)
  | c => (((c.readBack.spec m).1.1.readBack, (c.readBack.spec m).1.2), (c.readBack.spec m).2)

/-- What is stored under an id for given details: bytes that decode to the asset as it is read back,
if there is one.  The empty id has none. -/
def Decodes (id : GoString) : Option Bytes → Option Details → Prop
  | none, none => True
  | some bs, some d => id ≠ [] ∧ readString d.owner = d.owner ∧
      assetJson.unmarshal bs = .ok (d.asset id).readBack
  | _, _ => False

section Step

variable {w : WorldState} {m : AssetMap} {c : Call}

theorem decodes_cases (h : ∀ id, Decodes id w[id]? (m id)) (id : GoString) :
    (w[id]? = none ∧ m id = none) ∨
      ∃ bs d, w[id]? = some bs ∧ m id = some d ∧ Decodes id (some bs) (some d) :=
  cases_of_forall (fun _ _ hE => hE) (fun _ _ hE => hE) h id

/-- Except for the creation of the empty id, the answer is that of the map. -/
theorem Call.answer_eq (hc : c.id ≠ []) (m : AssetMap) :
    c.answer m = (((c.readBack.spec m).1.1.readBack, (c.readBack.spec m).1.2),
      (c.readBack.spec m).2) := by
  cases c with
  | createAsset id color size owner appraisedValue =>
    cases id with
    | nil => exact absurd rfl hc
    | cons b id => rfl
  | _ => rfl

/-- A call that stores an asset which is read back as given details. -/
theorem answer_of_store (h : ∀ id, Decodes id w[id]? (m id)) (hid : c.id ≠ []) {a : Asset}
    {d : Details} {r : Response} (hplan : c.plan assetJson w[c.id]? = .store assetJson c a r)
    (hspec : c.answer m = ((r, none), Function.update m c.id (some d)))
    (howner : readString d.owner = d.owner) (ha : a.readBack = (d.asset c.id).readBack) :
    (c.exec assetJson w).1 = (c.answer m).1 ∧
      ∀ id, Decodes id (c.exec assetJson w).2[id]? ((c.answer m).2 id) := by
  have hput : c.plan assetJson w[c.id]? = .put (marshalStruct assetMembers a) r := hplan
  rw [Call.exec_of_put hput hid, hspec]
  refine ⟨rfl, forall_insert h ⟨hid, howner, ?_⟩⟩
  rw [assetJson_unmarshal, ha]

/-- A call that returns without writing. -/
theorem answer_of_stop (h : ∀ id, Decodes id w[id]? (m id)) {r : Result}
    (hplan : c.plan assetJson w[c.id]? = .stop r) (hspec : c.answer m = (r, m)) :
    (c.exec assetJson w).1 = (c.answer m).1 ∧
      ∀ id, Decodes id (c.exec assetJson w).2[id]? ((c.answer m).2 id) := by
  rw [Call.exec_of_stop hplan, hspec]
  exact ⟨rfl, h⟩

/-- **One call, with any arguments.** -/
theorem Call.exec_answer (h : ∀ id, Decodes id w[id]? (m id)) (c : Call) :
    (c.exec assetJson w).1 = (c.answer m).1 ∧
      ∀ id, Decodes id (c.exec assetJson w).2[id]? ((c.answer m).2 id) := by
  cases c with
  | createAsset id color size owner appraisedValue =>
    by_cases hid : id = []
    · -- nothing is stored under the empty id, and `PutState` rejects it
      subst hid
      rcases decodes_cases h [] with ⟨hw, -⟩ | ⟨bs, d, -, -, hne, -⟩
      · rw [Call.exec_eq]
        simp only [Call.id, hw]
        exact ⟨rfl, h⟩
      · exact absurd rfl hne
    · have hanswer := Call.answer_eq (c := .createAsset id color size owner appraisedValue) hid m
      rcases decodes_cases h id with ⟨hw, hm⟩ | ⟨bs, d, hw, hm, -⟩
      · refine answer_of_store h hid (a := ⟨appraisedValue, color, id, owner, size⟩)
          (d := ⟨readString color, size, readString owner, appraisedValue⟩) (r := .unit) ?_ ?_ ?_ ?_
        · simp only [Call.id, hw]; rfl
        · rw [hanswer]
          simp only [Call.readBack, Call.spec, AssetMap.step, hm]
          rfl
        · exact readString_readString owner
        · simp [Asset.readBack, Details.asset, Call.id]
      · refine answer_of_stop h (r := (.unit, some (alreadyExists id))) ?_ ?_
        · simp only [Call.id, hw]; rfl
        · rw [hanswer]
          simp only [Call.readBack, Call.spec, AssetMap.step, hm]
          rfl
  | readAsset id =>
    rcases decodes_cases h id with ⟨hw, hm⟩ | ⟨bs, d, hw, hm, -, -, hu⟩
    · refine answer_of_stop h (r := (.asset none, some (doesNotExist id))) ?_ ?_
      · simp only [Call.id, hw]; rfl
      · simp only [Call.answer, Call.readBack, Call.spec, AssetMap.step, hm]
        rfl
    · refine answer_of_stop h (r := (.asset (some (d.asset id).readBack), none)) ?_ ?_
      · simp only [Call.id, hw, Call.plan, hu]
      · simp only [Call.answer, Call.readBack, Call.spec, AssetMap.step, hm]
        rfl
  | updateAsset id color size owner appraisedValue =>
    rcases decodes_cases h id with ⟨hw, hm⟩ | ⟨bs, d, hw, hm, hid, -⟩
    · refine answer_of_stop h (r := (.unit, some (doesNotExist id))) ?_ ?_
      · simp only [Call.id, hw]; rfl
      · simp only [Call.answer, Call.readBack, Call.spec, AssetMap.step, hm]
        rfl
    · refine answer_of_store h hid (a := ⟨appraisedValue, color, id, owner, size⟩)
        (d := ⟨readString color, size, readString owner, appraisedValue⟩) (r := .unit) ?_ ?_ ?_ ?_
      · simp only [Call.id, hw]; rfl
      · simp only [Call.answer, Call.readBack, Call.spec, AssetMap.step, hm]
        rfl
      · exact readString_readString owner
      · simp [Asset.readBack, Details.asset, Call.id]
  | deleteAsset id =>
    rcases decodes_cases h id with ⟨hw, hm⟩ | ⟨bs, d, hw, hm, -⟩
    · refine answer_of_stop h (r := (.unit, some (doesNotExist id))) ?_ ?_
      · simp only [Call.id, hw]; rfl
      · simp only [Call.answer, Call.readBack, Call.spec, AssetMap.step, hm]
        rfl
    · rw [Call.exec_of_del (r := .unit) (by simp only [Call.id, hw]; rfl)]
      simp only [Call.answer, Call.readBack, Call.spec, AssetMap.step, hm]
      exact ⟨rfl, forall_erase h trivial⟩
  | assetExists id =>
    rcases decodes_cases h id with ⟨hw, hm⟩ | ⟨bs, d, hw, hm, -⟩
    · refine answer_of_stop h (r := (.bool false, none)) ?_ ?_
      · simp only [Call.id, hw]; rfl
      · simp only [Call.answer, Call.readBack, Call.spec, AssetMap.step, hm]
        rfl
    · refine answer_of_stop h (r := (.bool true, none)) ?_ ?_
      · simp only [Call.id, hw]; rfl
      · simp only [Call.answer, Call.readBack, Call.spec, AssetMap.step, hm]
        rfl
  | transferAsset id newOwner =>
    rcases decodes_cases h id with ⟨hw, hm⟩ | ⟨bs, d, hw, hm, hid, howner, hu⟩
    · refine answer_of_stop h (r := (.string [], some (doesNotExist id))) ?_ ?_
      · simp only [Call.id, hw]; rfl
      · simp only [Call.answer, Call.readBack, Call.spec, AssetMap.step, hm]
        rfl
    · -- the asset was read back once already, so that only the new owner is replaced
      refine answer_of_store h hid (a := { (d.asset id).readBack with owner := newOwner })
        (d := { d with owner := readString newOwner }) (r := .string d.owner) ?_ ?_ ?_ ?_
      · simp only [Call.id, hw, Call.plan, hu]
        rw [show (d.asset id).readBack.owner = d.owner from howner]
      · simp only [Call.answer, Call.readBack, Call.spec, AssetMap.step, hm]
        rfl
      · exact readString_readString newOwner
      · simp [Asset.readBack, Details.asset, Call.id]

end Step

/-- **The contract on any arguments.**  Any calls, with any bytes for strings and any ids, run one
after the other from the empty world state, are answered as `Call.answer` says, and the world state
holds for every asset of the map bytes that decode to it. -/
theorem calls_answer (calls : List Call) :
    (runAll (Call.exec assetJson) ∅ calls).1 = (runAll Call.answer (fun _ => none) calls).1 ∧
      ∀ id, Decodes id (runAll (Call.exec assetJson) ∅ calls).2[id]?
        ((runAll Call.answer (fun _ => none) calls).2 id) :=
  runAll_simulation (Call.exec assetJson) Call.answer (Q := fun _ => True)
    (R := fun w m => ∀ id, Decodes id w[id]? (m id)) (fun c _ _ _ h => Call.exec_answer h c)
    (fun _ _ => trivial) (fun id => by simp [Decodes])

end Chaincode

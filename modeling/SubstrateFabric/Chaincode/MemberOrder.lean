import SubstrateFabric.Chaincode.AssetMap

/-!
# The order of the members

The struct `Asset` declares its fields in alphabetic order, "to achieve determinism across
languages": what is written for an asset has its members in that order, and chaincode in another
language that does likewise writes the same bytes.

This file says what the order is needed for, and what not.  `Unmarshal` takes the members in any
order (`unmarshal_assetText`), and the contract sees what is stored through it alone (`plan_congr`).
So two peers whose world states hold the same assets with their members in different orders answer
every sequence of calls alike, and they agree byte for byte on every asset that has been written
since (`calls_reordered`).
-/

namespace Chaincode

open Interaction EncodingJson Runs

/-- The text of an asset with its members in the order `l`. -/
def assetText (l : List (Member Asset)) (a : Asset) : Bytes :=
  objectText (l.map fun m => (m.name, m.field.text a))

/-- The fields of an asset may be stored in any order. -/
theorem copy_comm (a b : Asset) : ∀ m ∈ assetMembers, ∀ m' ∈ assetMembers,
    m'.field.copy a (m.field.copy a b) = m.field.copy a (m'.field.copy a b) := by
  intro m hm m' hm'
  simp only [assetMembers, List.mem_cons, List.not_mem_nil, or_false] at hm hm'
  rcases hm with rfl | rfl | rfl | rfl | rfl <;> rcases hm' with rfl | rfl | rfl | rfl | rfl <;> rfl

/-- An asset is read back from its members in any order. -/
theorem unmarshal_assetText {l : List (Member Asset)} (hl : l.Perm assetMembers) (a : Asset) :
    assetJson.unmarshal (assetText l a) = .ok a.readBack := by
  have hfold : l.foldl (fun b m => m.field.copy a b) .zero = a.readBack := by
    rw [hl.foldl_eq' (fun m hm m' hm' b => copy_comm a b m (hl.subset hm) m' (hl.subset hm'))]
    rfl
  have hread := unmarshalStruct_objectText nodup_assetMembers a hl.subset .zero
  rw [hfold] at hread
  exact hread

/-! ### Stored values that decode alike -/

/-- Both are absent, or both decode to the same, be it an asset or an error. -/
def SameDecoding (json : Codec Asset) : Option Bytes → Option Bytes → Prop
  | none, none => True
  | some bs, some bs' => json.unmarshal bs = json.unmarshal bs'
  | _, _ => False

/-- Two world states whose values decode alike. -/
def Same (json : Codec Asset) (w w' : WorldState) : Prop :=
  ∀ id : GoString, SameDecoding json w[id]? w'[id]?

section Same

variable {json : Codec Asset} {w w' : WorldState}

theorem SameDecoding.refl (stored : Option Bytes) : SameDecoding json stored stored := by
  cases stored with
  | none => exact trivial
  | some bs => exact rfl

/-- The decision of a call depends on what the bytes stored decode to. -/
theorem Call.plan_congr {stored stored' : Option Bytes} (h : SameDecoding json stored stored')
    (c : Call) : c.plan json stored = c.plan json stored' := by
  cases stored with
  | none =>
    cases stored' with
    | none => rfl
    | some bs' => exact h.elim
  | some bs =>
    cases stored' with
    | none => exact h.elim
    | some bs' =>
      have hu : json.unmarshal bs = json.unmarshal bs' := h
      cases c with
      | readAsset id => simp only [Call.plan, hu]
      | transferAsset id newOwner => simp only [Call.plan, hu]
      | createAsset id color size owner appraisedValue => rfl
      | updateAsset id color size owner appraisedValue => rfl
      | deleteAsset id => rfl
      | assetExists id => rfl

/-- What a plan makes of a key depends on what was stored there. -/
theorem Plan.exec_getElem {P : Option Bytes → Option Bytes → Prop} (hP : ∀ stored, P stored stored)
    {k : GoString} (h : P w[k]? w'[k]?) (c : Call) (p : Plan) :
    P (p.exec c w).2[k]? (p.exec c w').2[k]? := by
  cases p with
  | stop r => exact h
  | put bs response =>
    simp only [Plan.exec]
    by_cases hid : c.id = []
    · rw [if_pos hid, if_pos hid]
      exact h
    · rw [if_neg hid, if_neg hid, Std.ExtTreeMap.getElem?_insert, Std.ExtTreeMap.getElem?_insert]
      split_ifs
      · exact hP _
      · exact h
  | del response =>
    simp only [Plan.exec]
    rw [Std.ExtTreeMap.getElem?_erase, Std.ExtTreeMap.getElem?_erase]
    split_ifs
    · exact hP _
    · exact h

/-- One call on world states that decode alike. -/
theorem Call.exec_same (h : Same json w w') (c : Call) :
    (c.exec json w).1 = (c.exec json w').1 ∧
      Same json (c.exec json w).2 (c.exec json w').2 ∧
      ∀ id : GoString, w[id]? = w'[id]? → (c.exec json w).2[id]? = (c.exec json w').2[id]? := by
  rw [Call.exec_eq, Call.exec_eq, Call.plan_congr (h c.id) c]
  refine ⟨?_, fun id => Plan.exec_getElem .refl (h id) c _,
    fun id hid => Plan.exec_getElem (P := Eq) (fun _ => rfl) hid c _⟩
  cases c.plan json w'[c.id]? with
  | stop r => rfl
  | put bs response =>
    simp only [Plan.exec]
    split_ifs <;> rfl
  | del response => rfl

/-- A writer that succeeds leaves the same bytes in both. -/
theorem Call.exec_writer (h : Same json w w') {c : Call} (hc : c.IsWriter)
    (hok : (c.exec json w).1.2 = none) :
    (c.exec json w).2[c.id]? = (c.exec json w').2[c.id]? := by
  rw [Call.exec_eq] at hok
  rw [Call.exec_eq, Call.exec_eq, ← Call.plan_congr (h c.id) c]
  cases hp : c.plan json w[c.id]? with
  | stop r =>
    rw [hp] at hok
    exact absurd hok (Call.plan_stop_of_isWriter json hc hp)
  | put bs response =>
    rw [hp] at hok
    simp only [Plan.exec] at hok ⊢
    by_cases hid : c.id = []
    · rw [if_pos hid] at hok
      cases hok
    · rw [if_neg hid, if_neg hid]
      simp
  | del response => simp [Plan.exec]

/-- Calls on world states that decode alike. -/
theorem runAll_same (h : Same json w w') (calls : List Call) :
    (runAll (Call.exec json) w calls).1 = (runAll (Call.exec json) w' calls).1 ∧
      Same json (runAll (Call.exec json) w calls).2 (runAll (Call.exec json) w' calls).2 :=
  runAll_simulation (Call.exec json) (Call.exec json) (Q := fun _ => True) (R := Same json)
    (fun c _ _ _ h => ⟨(Call.exec_same h c).1, (Call.exec_same h c).2.1⟩) (fun _ _ => trivial) h

/-- Where two such world states hold the same bytes they go on to do so. -/
theorem runAll_same_bytes (h : Same json w w') {id : GoString}
    (hid : w[id]? = w'[id]?) (calls : List Call) :
    (runAll (Call.exec json) w calls).2[id]? = (runAll (Call.exec json) w' calls).2[id]? := by
  induction calls generalizing w w' with
  | nil => exact hid
  | cons c calls ih =>
    obtain ⟨-, hsame, hbytes⟩ := Call.exec_same h c
    exact ih hsame (hbytes id hid)

end Same

/-- Both are absent, or both are texts of the same asset, with members in whatever order. -/
def Reordered : Option Bytes → Option Bytes → Prop
  | none, none => True
  | some bs, some bs' => ∃ a l l', l.Perm assetMembers ∧ l'.Perm assetMembers ∧
      bs = assetText l a ∧ bs' = assetText l' a
  | _, _ => False

theorem Reordered.sameDecoding {stored stored' : Option Bytes} (h : Reordered stored stored') :
    SameDecoding assetJson stored stored' := by
  cases stored with
  | none =>
    cases stored' with
    | none => exact trivial
    | some bs' => exact h.elim
  | some bs =>
    cases stored' with
    | none => exact h.elim
    | some bs' =>
      obtain ⟨a, l, l', hl, hl', rfl, rfl⟩ := h
      show assetJson.unmarshal (assetText l a) = assetJson.unmarshal (assetText l' a)
      rw [unmarshal_assetText hl, unmarshal_assetText hl']

/-- **The order of the members does not matter, and does not last.**  Let two world states hold the
same assets with their members in different orders.  Any calls, run one after the other, get the
same answers from both, and after a writer has succeeded both hold the same bytes under its id,
whatever calls follow. -/
theorem calls_reordered {w w' : WorldState} (h : ∀ id : GoString, Reordered w[id]? w'[id]?)
    (calls : List Call) :
    (runAll (Call.exec assetJson) w calls).1 = (runAll (Call.exec assetJson) w' calls).1 ∧
      ∀ done c rest, calls = done ++ c :: rest → c.IsWriter →
        (c.exec assetJson (runAll (Call.exec assetJson) w done).2).1.2 = none →
        (runAll (Call.exec assetJson) w calls).2[c.id]? =
          (runAll (Call.exec assetJson) w' calls).2[c.id]? := by
  have hsame : Same assetJson w w' := fun id => (h id).sameDecoding
  refine ⟨(runAll_same hsame calls).1, ?_⟩
  rintro done c rest rfl hc hok
  have hdone := (runAll_same hsame done).2
  rw [runAll_append, runAll_append, runAll_cons, runAll_cons]
  exact runAll_same_bytes (Call.exec_same hdone c).2.1 (Call.exec_writer hdone hc hok) rest

/-- An asset is stored with its members in alphabetic order and in the opposite one.  After an
update the same bytes are there, and it is read alike. -/
theorem calls_reordered_reverse :
    let a : Asset := ⟨300, [98], [97], [111], 5⟩
    let w : WorldState := Std.ExtTreeMap.insert ∅ [97] (assetText assetMembers a)
    let w' : WorldState := Std.ExtTreeMap.insert ∅ [97] (assetText assetMembers.reverse a)
    let calls : List Call := [.updateAsset [97] [99] 6 [112] 400, .readAsset [97]]
    (runAll (Call.exec assetJson) w calls).1 = (runAll (Call.exec assetJson) w' calls).1 ∧
      (runAll (Call.exec assetJson) w calls).2[([97] : GoString)]? =
        (runAll (Call.exec assetJson) w' calls).2[([97] : GoString)]? := by
  intro a w w' calls
  have hreordered : ∀ id : GoString, Reordered w[id]? w'[id]? := by
    intro id
    rw [Std.ExtTreeMap.getElem?_insert, Std.ExtTreeMap.getElem?_insert]
    split_ifs
    · exact ⟨a, assetMembers, assetMembers.reverse, .refl _, List.reverse_perm _, rfl, rfl⟩
    · simp [Reordered]
  obtain ⟨hanswers, hbytes⟩ := calls_reordered hreordered calls
  exact ⟨hanswers, hbytes [] (.updateAsset [97] [99] 6 [112] 400) [.readAsset [97]] rfl trivial rfl⟩

end Chaincode

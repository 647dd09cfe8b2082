import SubstrateFabric.Chaincode.AssetMap

/-!
# The listing and the point reads

`GetAllAssets` scans the whole namespace and trusts the ids inside the decoded values; `AssetExists`
and `ReadAsset` look a key up.  On the world states the contract builds the two agree on every asset
that the scan meets, because every stored value is the encoding of an asset whose id is its key.

The scan does not meet every key.  `GetStateByRange` with an empty start key starts at `U+0001`,
while `PutState` takes every key but the empty one: an asset whose id begins with the byte `0` can
be created, read and transferred, but `GetAllAssets`, documented to return all assets found in the
world state, does not list it.  `listingAgrees_iff` says that on a represented world state this is
all that can go wrong, and `listing_agrees_iff` says the same of runs: the listing agrees with the
point reads throughout a run iff the run creates no asset with such an id.
-/

namespace Chaincode

open Interaction EncodingJson Runs

/-- The result of `GetAllAssets` on a world state. -/
def listing (json : Codec Asset) (w : WorldState) : Result :=
  (run stub (Request.getAllAssets.prog json) w).value

/-- The listing agrees with the point reads: it succeeds; it contains an asset with a given id iff
that id exists; it then contains exactly one, the one `ReadAsset` returns; and it is in strictly
ascending byte order of the ids. -/
def ListingAgrees (json : Codec Asset) (w : WorldState) : Prop :=
  ∃ l, listing json w = (.assets l, none) ∧
    (∀ id, (∃ a ∈ l, a.id = id) ↔ ((Call.assetExists id).exec json w).1 = (.bool true, none)) ∧
    (∀ id, ((Call.assetExists id).exec json w).1 = (.bool true, none) →
      ∃ a, l.filter (fun a => a.id = id) = [a] ∧
        ((Call.readAsset id).exec json w).1 = (.asset (some a), none)) ∧
    l.Pairwise fun a b => compare a.id b.id = .lt

/-- The id begins with `U+0000`. -/
def Reserved (id : GoString) : Prop := id.head? = some 0

instance : DecidablePred Reserved := fun id => inferInstanceAs (Decidable (id.head? = some 0))

/-- Every stored key is one that the scan of the namespace meets. -/
def InRange (w : WorldState) : Prop :=
  ∀ id bs, w[id]? = some bs → (compare emptyKeySubstitute id).isLE

/-- The scan meets the keys that are neither empty nor begin with `U+0000`. -/
theorem isLE_emptyKeySubstitute_iff (id : GoString) :
    (compare emptyKeySubstitute id).isLE ↔ id ≠ [] ∧ ¬ Reserved id := by
  cases id with
  | nil => decide
  | cons b rest =>
    have hb : (compare 1 b).isLE ↔ 1 ≤ b := Std.isLE_compare
    rw [emptyKeySubstitute, List.compare_cons_cons, Ordering.isLE_then_iff_and]
    simp only [List.isLE_compare_nil_left, or_true, and_true, hb, UInt8.le_iff_toNat_le, Reserved,
      List.head?_cons, Option.some.injEq, ← UInt8.toNat_inj, UInt8.toNat_one, UInt8.toNat_zero]
    simp only [ne_eq, reduceCtorEq, not_false_eq_true, true_and]
    omega

/-! ### The scan -/

theorem mem_rangeEntries {w : WorldState} {kv : KV} :
    kv ∈ rangeEntries w [] [] ↔
      w[kv.key]? = some kv.value ∧ (compare emptyKeySubstitute kv.key).isLE := by
  simp only [rangeEntries, if_true, List.isEmpty_nil, Bool.true_or, Bool.and_true, List.mem_map,
    List.mem_filter, Prod.exists, Std.ExtTreeMap.mem_toList_iff_getElem?_eq_some]
  constructor
  · rintro ⟨key, value, h, rfl⟩
    exact h
  · exact fun h => ⟨kv.key, kv.value, h, rfl⟩

theorem rangeEntries_pairwise (w : WorldState) :
    (rangeEntries w [] []).Pairwise fun a b => compare a.key b.key = .lt := by
  unfold rangeEntries
  rw [List.pairwise_map]
  exact Std.ExtTreeMap.ordered_keys_toList.filter _

variable {json : Codec Asset}

/-- The loop returns the assets that the pending results decode to. -/
theorem run_collectAssets_of_decode {asset : KV → Asset} {pending : List KV}
    (h : ∀ kv ∈ pending, json.unmarshal kv.value = .ok (asset kv)) (assets : List Asset)
    (w : WorldState) :
    (run stub (collectAssets json pending assets) w).value =
      (assets ++ pending.map asset, none) := by
  induction pending generalizing assets w with
  | nil => simp [collectAssets]
  | cons kv rest ih =>
    rw [collectAssets_cons, run_ask, stub_next]
    simp only [h kv List.mem_cons_self]
    rw [ih fun kv' hkv' => h kv' (List.mem_cons_of_mem _ hkv')]
    simp

theorem listing_of_decode {asset : KV → Asset} {w : WorldState}
    (h : ∀ kv ∈ rangeEntries w [] [], json.unmarshal kv.value = .ok (asset kv)) :
    listing json w = (.assets ((rangeEntries w [] []).map asset), none) := by
  rw [listing, getAllAssets_eq, run_ask, stub_getStateByRange]
  simp only [run_map, run_collectAssets_of_decode h, List.nil_append]

/-- In a list strictly ascending in its ids an asset is the only one with its id. -/
theorem filter_id_eq {l : List Asset} (h : l.Pairwise fun a b => compare a.id b.id = .lt)
    {a : Asset} (ha : a ∈ l) : l.filter (fun b => b.id = a.id) = [a] := by
  induction l with
  | nil => cases ha
  | cons x l ih =>
    obtain ⟨hx, hl⟩ := List.pairwise_cons.1 h
    have hne : ∀ b ∈ l, b.id ≠ x.id := by
      intro b hb hid
      have hlt := hx b hb
      rw [hid, Std.ReflOrd.compare_self] at hlt
      cases hlt
    rcases List.mem_cons.1 ha with rfl | ha
    · rw [List.filter_cons_of_pos (by simp), List.filter_eq_nil_iff.2]
      intro b hb
      simpa using hne b hb
    · rw [List.filter_cons_of_neg (by simpa using (hne a ha).symm), ih hl ha]

/-! ### Represented world states -/

theorem assetExists_exec (id : GoString) (w : WorldState) :
    ((Call.assetExists id).exec json w).1 = (.bool true, none) ↔ ∃ bs, w[id]? = some bs := by
  rw [Call.exec_eq, ← Option.isSome_iff_exists]
  simp [Call.plan, Plan.exec, Call.id]

/-- The asset of the map that an entry of the world state stands for. -/
def AssetMap.asset (m : AssetMap) (kv : KV) : Asset :=
  match m kv.key with
  | some d => d.asset kv.key
  | none => ⟨0, [], kv.key, [], 0⟩

@[simp] theorem AssetMap.asset_id (m : AssetMap) (kv : KV) : (m.asset kv).id = kv.key := by
  unfold AssetMap.asset
  cases m kv.key <;> rfl

section Represents

variable {w : WorldState} {m : AssetMap}

theorem Represents.unmarshal (hjson : json.RoundTrips Asset.ValidUtf8) (h : Represents json w m)
    {kv : KV} (hkv : w[kv.key]? = some kv.value) : json.unmarshal kv.value = .ok (m.asset kv) := by
  rcases h.cases kv.key with ⟨hw, -⟩ | ⟨bs, d, hw, hm, henc⟩
  · rw [hw] at hkv; cases hkv
  · rw [hw] at hkv
    cases hkv
    simp only [AssetMap.asset, hm]
    exact henc.unmarshal hjson

/-- The listing of a represented world state: the assets of the entries that the scan meets. -/
theorem Represents.listing_eq (hjson : json.RoundTrips Asset.ValidUtf8) (h : Represents json w m) :
    listing json w = (.assets ((rangeEntries w [] []).map m.asset), none) :=
  listing_of_decode fun _ hkv => h.unmarshal hjson (mem_rangeEntries.1 hkv).1

theorem exists_mem_listing_iff (m : AssetMap) (id : GoString) :
    (∃ a ∈ (rangeEntries w [] []).map m.asset, a.id = id) ↔
      (∃ bs, w[id]? = some bs) ∧ (compare emptyKeySubstitute id).isLE := by
  constructor
  · rintro ⟨a, ha, rfl⟩
    obtain ⟨kv, hkv, rfl⟩ := List.mem_map.1 ha
    obtain ⟨hget, hle⟩ := mem_rangeEntries.1 hkv
    rw [AssetMap.asset_id]
    exact ⟨⟨kv.value, hget⟩, hle⟩
  · rintro ⟨⟨bs, hget⟩, hle⟩
    exact ⟨_, List.mem_map.2 ⟨⟨id, bs⟩, mem_rangeEntries.2 ⟨hget, hle⟩, rfl⟩, AssetMap.asset_id _ _⟩

theorem listing_pairwise (w : WorldState) (m : AssetMap) :
    ((rangeEntries w [] []).map m.asset).Pairwise fun a b => compare a.id b.id = .lt := by
  rw [List.pairwise_map]
  refine (rangeEntries_pairwise w).imp fun hlt => ?_
  rw [AssetMap.asset_id, AssetMap.asset_id]
  exact hlt

/-- **The listing agrees with the point reads iff the scan meets every stored key.** -/
theorem listingAgrees_iff (hjson : json.RoundTrips Asset.ValidUtf8) (h : Represents json w m) :
    ListingAgrees json w ↔ InRange w := by
  constructor
  · rintro ⟨l, hl, hiff, -, -⟩ id bs hget
    rw [h.listing_eq hjson] at hl
    cases hl
    exact ((exists_mem_listing_iff m id).1 ((hiff id).2 ((assetExists_exec id w).2 ⟨bs, hget⟩))).2
  · intro hrange
    have hiff : ∀ id, (∃ a ∈ (rangeEntries w [] []).map m.asset, a.id = id) ↔
        ((Call.assetExists id).exec json w).1 = (.bool true, none) := by
      intro id
      rw [exists_mem_listing_iff, assetExists_exec]
      exact ⟨fun h => h.1, fun ⟨bs, hget⟩ => ⟨⟨bs, hget⟩, hrange id bs hget⟩⟩
    refine ⟨_, h.listing_eq hjson, hiff, fun id hex => ?_, listing_pairwise w m⟩
    obtain ⟨a, ha, rfl⟩ := (hiff id).2 hex
    refine ⟨a, filter_id_eq (listing_pairwise w m) ha, ?_⟩
    obtain ⟨kv, hkv, rfl⟩ := List.mem_map.1 ha
    have hget := (mem_rangeEntries.1 hkv).1
    rw [AssetMap.asset_id, Call.exec_of_stop (r := (.asset (some (m.asset kv)), none))]
    simp only [Call.id, hget, Call.plan, h.unmarshal hjson hget]

end Represents

/-! ### Runs -/

/-- The call creates an asset with an id that begins with `U+0000`. -/
def Call.CreatesReserved : Call → Prop
  | .createAsset id _ _ _ _ => Reserved id
  | _ => False

instance : DecidablePred Call.CreatesReserved
  | .createAsset id _ _ _ _ => inferInstanceAs (Decidable (Reserved id))
  | .readAsset _ | .updateAsset _ _ _ _ _ | .deleteAsset _ | .assetExists _ | .transferAsset _ _ =>
      .isFalse id

section Runs

variable {w : WorldState}

/-- Every call with valid strings keeps the world state represented, whatever its id. -/
theorem exec_represents (hjson : json.RoundTrips Asset.ValidUtf8) {c : Call} (hc : c.ValidUtf8)
    (h : ∃ m, Represents json w m) : ∃ m, Represents json (c.exec json w).2 m := by
  obtain ⟨m, h⟩ := h
  by_cases hid : c.id = []
  · -- `PutState` rejects the empty key
    rw [Call.exec_eq]
    cases c.plan json w[c.id]? with
    | stop r => exact ⟨m, h⟩
    | put bs response => rw [Plan.exec, if_pos hid]; exact ⟨m, h⟩
    | del response => exact ⟨_, h.erase c.id⟩
  · exact ⟨_, (Call.exec_refines hjson h hc hid).2⟩

/-- A call other than `CreateAsset` puts nothing under a key that is absent. -/
theorem createAsset_of_plan_put {c : Call} {bs : Bytes} {response : Response}
    (h : c.plan json none = .put bs response) :
    ∃ id color size owner appraisedValue, c = .createAsset id color size owner appraisedValue := by
  cases c with
  | createAsset id color size owner appraisedValue => exact ⟨_, _, _, _, _, rfl⟩
  | readAsset id => cases h
  | updateAsset id color size owner appraisedValue => cases h
  | deleteAsset id => cases h
  | assetExists id => cases h
  | transferAsset id newOwner => cases h

/-- A call that creates no reserved id keeps the stored keys in the scanned range. -/
theorem exec_inRange {c : Call} (hc : ¬ c.CreatesReserved) (h : InRange w) :
    InRange (c.exec json w).2 := by
  rw [Call.exec_eq]
  cases hp : c.plan json w[c.id]? with
  | stop r => exact h
  | put bs response =>
    rw [Plan.exec]
    split_ifs with hid
    · exact h
    · intro id bs' hget
      by_cases hk : c.id = id
      · subst hk
        cases hw : w[c.id]? with
        | some bs₀ => exact h _ _ hw
        | none =>
          rw [hw] at hp
          obtain ⟨id, color, size, owner, appraisedValue, rfl⟩ := createAsset_of_plan_put hp
          exact (isLE_emptyKeySubstitute_iff id).2 ⟨hid, hc⟩
      · refine h id bs' ?_
        rw [← hget, Std.ExtTreeMap.getElem?_insert]
        simp [hk]
  | del response =>
    intro id bs' hget
    rw [Plan.exec, Std.ExtTreeMap.getElem?_erase] at hget
    split_ifs at hget
    exact h id bs' hget

/-- After `CreateAsset` its id is stored, whether it was created now or was there before. -/
theorem exec_createAsset_stored (hjson : json.RoundTrips Asset.ValidUtf8) {c : Call}
    (hc : c.ValidUtf8) (hr : c.CreatesReserved) : ∃ bs, (c.exec json w).2[c.id]? = some bs := by
  cases c with
  | createAsset id color size owner appraisedValue =>
    have hid : id ≠ [] := by rintro rfl; cases hr
    cases hw : w[id]? with
    | some bs =>
      rw [Call.exec_of_stop (r := (.unit, some (alreadyExists id)))
        (by simp only [Call.id, hw]; rfl)]
      exact ⟨bs, hw⟩
    | none =>
      obtain ⟨bs, hput, -⟩ := store_eq_put hjson (.createAsset id color size owner appraisedValue)
        (d := ⟨color, size, owner, appraisedValue⟩) (i := id) ⟨hc.2.1, hc.1, hc.2.2⟩ .unit
      have hplan : (Call.createAsset id color size owner appraisedValue).plan json w[id]? =
          .put bs .unit := by
        rw [hw]; exact hput
      rw [Call.exec_of_put hplan hid]
      exact ⟨bs, by simp [Call.id]⟩
  | _ => exact hr.elim

/-- **When the listing agrees with the point reads.**  In a run of writers with valid UTF-8
arguments from the empty world state, the listing agrees with the point reads after every call iff
no call of the run is a `CreateAsset` whose id begins with `U+0000`. -/
theorem listing_agrees_iff (hjson : json.RoundTrips Asset.ValidUtf8) {calls : List Call}
    (hcalls : ∀ c ∈ calls, c.IsWriter ∧ c.ValidUtf8) :
    (∀ done, done <+: calls → ListingAgrees json (runAll (Call.exec json) ∅ done).2) ↔
      ∀ c ∈ calls, ¬ c.CreatesReserved := by
  have hrep : ∀ done, done <+: calls →
      ∃ m, Represents json (runAll (Call.exec json) ∅ done).2 m := fun done hdone =>
    runAll_invariant (Call.exec json) (P := fun w => ∃ m, Represents json w m) (Q := Call.ValidUtf8)
      (fun c w hc h => exec_represents hjson hc h) (fun c hc => (hcalls c (hdone.subset hc)).2)
      ⟨_, represents_empty⟩
  constructor
  · -- Right after the call its id is stored, and the scan does not reach it.
    intro hagree c hc hr
    obtain ⟨done, rest, rfl⟩ := List.append_of_mem hc
    have hdone : done ++ [c] <+: done ++ c :: rest := ⟨rest, by simp⟩
    obtain ⟨m, hm⟩ := hrep _ hdone
    have hrange := (listingAgrees_iff hjson hm).1 (hagree _ hdone)
    rw [runAll_concat] at hrange
    obtain ⟨bs, hstored⟩ := exec_createAsset_stored hjson (w := (runAll (Call.exec json) ∅ done).2)
      (hcalls c hc).2 hr
    have hle := (isLE_emptyKeySubstitute_iff c.id).1 (hrange _ _ hstored)
    cases c with
    | createAsset id color size owner appraisedValue => exact hle.2 hr
    | _ => exact hr.elim
  · intro hno done hdone
    obtain ⟨m, hm⟩ := hrep done hdone
    refine (listingAgrees_iff hjson hm).2 ?_
    exact runAll_invariant (Call.exec json) (P := InRange) (Q := fun c => ¬ c.CreatesReserved)
      (fun c w hc h => exec_inRange hc h) (fun c hc => hno c (hdone.subset hc))
      (by simp [InRange])

/-- Two assets are created, and one of them is transferred. -/
theorem listing_agrees_transfer :
    let calls : List Call := [.createAsset [98] [99] 6 [112] 400,
      .createAsset [97] [98] 5 [111] 300, .transferAsset [97] [113]]
    ∀ done, done <+: calls → ListingAgrees assetJson (runAll (Call.exec assetJson) ∅ done).2 :=
  (listing_agrees_iff assetJson_roundTrips (by decide)).2 (by decide)

/-- The asset with the id `U+0000` is created and exists, but the listing is empty. -/
theorem listing_misses_reserved :
    let calls : List Call := [.createAsset [0] [98] 5 [111] 300]
    let w := (runAll (Call.exec assetJson) ∅ calls).2
    (∀ c ∈ calls, c.IsWriter ∧ c.ValidUtf8) ∧
      (runAll (Call.exec assetJson) ∅ calls).1 = [(.unit, none)] ∧
      ((Call.assetExists [0]).exec assetJson w).1 = (.bool true, none) ∧
      listing assetJson w = (.assets [], none) ∧ ¬ ListingAgrees assetJson w := by
  intro calls w
  have hexists : ((Call.assetExists [0]).exec assetJson w).1 = (.bool true, none) := rfl
  have hlisting : listing assetJson w = (.assets [], none) := rfl
  refine ⟨by decide, rfl, hexists, hlisting, ?_⟩
  rintro ⟨l, hl, hmem, -⟩
  rw [hlisting] at hl
  cases hl
  obtain ⟨a, ha, -⟩ := (hmem [0]).2 hexists
  cases ha

end Runs

end Chaincode

import SubstrateFabric.Chaincode.Contract

/-!
# Assets in JSON

`encoding/json` at the type `Asset`: the fields with the names of their tags, in the order in which
the struct declares them.  Whatever is written for an asset is read back (`assetJson_unmarshal`),
with a replacement for every byte that is not UTF-8.  An asset with valid strings is read back as it
was (`assetJson_roundTrips`), which is what the contract relies on.
-/

namespace Chaincode

open EncodingJson

/-- The fields of `Asset` with their tags. -/
def assetMembers : List (Member Asset) :=
  [⟨"AppraisedValue".toList, .int (·.appraisedValue) fun v a => { a with appraisedValue := v }⟩,
   ⟨"Color".toList, .string (·.color) fun v a => { a with color := v }⟩,
   ⟨"ID".toList, .string (·.id) fun v a => { a with id := v }⟩,
   ⟨"Owner".toList, .string (·.owner) fun v a => { a with owner := v }⟩,
   ⟨"Size".toList, .int (·.size) fun v a => { a with size := v }⟩]

/-- `var asset Asset` -/
def Asset.zero : Asset := ⟨0, [], [], [], 0⟩

/-- `json.Marshal` and `json.Unmarshal` at the type `Asset`. -/
def assetJson : Codec Asset where
  marshal a := .ok (marshalStruct assetMembers a)
  unmarshal := unmarshalStruct assetMembers .zero

/-- The asset that is read back for an asset: bytes that are not UTF-8 are replaced. -/
def Asset.readBack (a : Asset) : Asset :=
  { a with color := readString a.color, id := readString a.id, owner := readString a.owner }

theorem Asset.readBack_of_valid {a : Asset} (h : a.ValidUtf8) : a.readBack = a := by
  obtain ⟨hcolor, hid, howner⟩ := h
  rw [Asset.readBack, readString_of_valid hcolor, readString_of_valid hid,
    readString_of_valid howner]

theorem nodup_assetMembers : (assetMembers.map Member.name).Nodup := by decide

/-- Every asset can be written, and is read back up to bytes that are not UTF-8. -/
theorem assetJson_unmarshal (a : Asset) :
    assetJson.unmarshal (marshalStruct assetMembers a) = .ok a.readBack :=
  unmarshalStruct_marshalStruct nodup_assetMembers a .zero

/-- An asset with valid strings is read back from what was written for it. -/
theorem assetJson_roundTrips : assetJson.RoundTrips Asset.ValidUtf8 := by
  intro a ha
  refine ⟨_, rfl, ?_⟩
  rw [assetJson_unmarshal, Asset.readBack_of_valid ha]

end Chaincode

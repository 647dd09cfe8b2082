import SubstrateFabric.Chaincode.Stub
import SubstrateFabric.Lib.EncodingJson

/-!
# The asset contract

The functions of `SmartContract`, as programs over the stub.  A Go function returning a value and an
error returns a pair here, with `none` for a `nil` error; each `if err != nil` of the source is a
`match` on the error, in the same order.  `encoding/json` at the type `Asset` is the parameter
`json`.

`Call` collects the functions that read and write single keys, with `TransferAsset` at
`flag = true`; `Request` adds `GetAllAssets`.
-/

namespace Chaincode

open Interaction EncodingJson

/-- The asset record; `int` is the 64-bit integer of the peers' platforms. -/
structure Asset where
  appraisedValue : Int64
  color : GoString
  id : GoString
  owner : GoString
  size : Int64
  deriving DecidableEq

/-- All strings of the asset are valid UTF-8. -/
def Asset.ValidUtf8 (a : Asset) : Prop := Utf8.Valid a.color ∧ Utf8.Valid a.id ∧ Utf8.Valid a.owner

/-- A Go error: the text of `errors.New` or `fmt.Errorf`, or an error value of `encoding/json`. -/
inductive GoError
  | text (message : GoString)
  | json (err : EncodingJson.Error)
  deriving DecidableEq

/-- `fmt.Errorf("failed to read from world state: %v", err)` -/
def readFailed (err : GoString) : GoError :=
  .text (utf8 "failed to read from world state: " ++ err)

/-- `fmt.Errorf("the asset %s already exists", id)` -/
def alreadyExists (id : GoString) : GoError :=
  .text (utf8 "the asset " ++ id ++ utf8 " already exists")

/-- `fmt.Errorf("the asset %s does not exist", id)` -/
def doesNotExist (id : GoString) : GoError :=
  .text (utf8 "the asset " ++ id ++ utf8 " does not exist")

/-- The error of a stub call that returns nothing else. -/
def errorOf : Except GoString Unit → Option GoError
  | .error err => some (.text err)
  | .ok () => none

section Functions

variable (json : Codec Asset)

/-- `AssetExists` -/
def assetExists (id : GoString) : Stub (Bool × Option GoError) := do
  match ← Stub.getState id with
  | .error err => return (false, some (readFailed err))
  | .ok assetJSON => return (assetJSON.isSome, none)

/-- `CreateAsset` -/
def createAsset (id color : GoString) (size : Int64) (owner : GoString) (appraisedValue : Int64) :
    Stub (Option GoError) := do
  match ← assetExists id with
  | (_, some err) => return some err
  | (exists?, none) =>
    if exists? then
      return some (alreadyExists id)
    else
      let asset : Asset :=
        { id := id, color := color, size := size, owner := owner, appraisedValue := appraisedValue }
      match json.marshal asset with
      | .error err => return some (.json err)
      | .ok assetJSON => return errorOf (← Stub.putState id assetJSON)

/-- `ReadAsset`; the asset is `none` where the source returns a `nil` pointer. -/
def readAsset (id : GoString) : Stub (Option Asset × Option GoError) := do
  match ← Stub.getState id with
  | .error err => return (none, some (readFailed err))
  | .ok none => return (none, some (doesNotExist id))
  | .ok (some assetJSON) =>
    match json.unmarshal assetJSON with
    | .error err => return (none, some (.json err))
    | .ok asset => return (some asset, none)

/-- `UpdateAsset` -/
def updateAsset (id color : GoString) (size : Int64) (owner : GoString) (appraisedValue : Int64) :
    Stub (Option GoError) := do
  match ← assetExists id with
  | (_, some err) => return some err
  | (exists?, none) =>
    if !exists? then
      return some (doesNotExist id)
    else
      -- overwriting original asset with new asset
      let asset : Asset :=
        { id := id, color := color, size := size, owner := owner, appraisedValue := appraisedValue }
      match json.marshal asset with
      | .error err => return some (.json err)
      | .ok assetJSON => return errorOf (← Stub.putState id assetJSON)

/-- `DeleteAsset` -/
def deleteAsset (id : GoString) : Stub (Option GoError) := do
  match ← assetExists id with
  | (_, some err) => return some err
  | (exists?, none) =>
    if !exists? then
      return some (doesNotExist id)
    else
      return errorOf (← Stub.delState id)

/-- `TransferAsset`.  The result is `none` where the source returns nothing: at the end of the
body, which is where the empty branch for `flag = false` leads, and after the dereference of a `nil`
pointer, which `ReadAsset` never hands over without an error. -/
def transferAsset (id newOwner : GoString) (flag : Bool) :
    Stub (Option (GoString × Option GoError)) := do
  match ← readAsset json id with
  | (_, some err) => return some ([], some err)
  | (asset?, none) =>
    if flag = true then
      match asset? with
      | none => return none
      | some asset =>
        let oldOwner := asset.owner
        match json.marshal { asset with owner := newOwner } with
        | .error err => return some ([], some (.json err))
        | .ok assetJSON =>
          match ← Stub.putState id assetJSON with
          | .error err => return some ([], some (.text err))
          | .ok () => return some (oldOwner, none)
    else
      return none

/-- The loop of `GetAllAssets` over the results still to come, with the assets collected so far. -/
def collectAssets : List KV → List Asset → Stub (List Asset × Option GoError)
  | [], assets => return (assets, none)
  | kv :: rest, assets => do
    match ← Stub.next (kv :: rest) with
    | .error err => return ([], some (.text err))
    | .ok queryResponse =>
      match json.unmarshal queryResponse.value with
      | .error err => return ([], some (.json err))
      | .ok asset => collectAssets rest (assets ++ [asset])

/-- `GetAllAssets`; a `nil` slice is the empty list. -/
def getAllAssets : Stub (List Asset × Option GoError) := do
  match ← Stub.getStateByRange [] [] with
  | .error err => return ([], some (.text err))
  | .ok resultsIterator => collectAssets json resultsIterator []

end Functions

/-! ### Requests -/

/-- The calls of the contract that concern one asset, `TransferAsset` with `flag = true`. -/
inductive Call
  | createAsset (id color : GoString) (size : Int64) (owner : GoString) (appraisedValue : Int64)
  | readAsset (id : GoString)
  | updateAsset (id color : GoString) (size : Int64) (owner : GoString) (appraisedValue : Int64)
  | deleteAsset (id : GoString)
  | assetExists (id : GoString)
  | transferAsset (id newOwner : GoString)
  deriving DecidableEq

/-- The requests a client can make. -/
inductive Request
  | call (c : Call)
  | getAllAssets
  deriving DecidableEq

/-- What a function returns besides its error; `noReturn` where it returns nothing. -/
inductive Response
  | unit
  | bool (b : Bool)
  | string (s : GoString)
  | asset (a : Option Asset)
  | assets (l : List Asset)
  | noReturn
  deriving DecidableEq

/-- A response with its error, `none` for `nil`. -/
abbrev Result := Response × Option GoError

/-- The asset a call is about. -/
def Call.id : Call → GoString
  | .createAsset id _ _ _ _ => id
  | .readAsset id => id
  | .updateAsset id _ _ _ _ => id
  | .deleteAsset id => id
  | .assetExists id => id
  | .transferAsset id _ => id

/-- The calls meant to change the world state. -/
def Call.IsWriter : Call → Prop
  | .readAsset _ => False
  | .assetExists _ => False
  | _ => True

instance : DecidablePred Call.IsWriter
  | .createAsset _ _ _ _ _ | .updateAsset _ _ _ _ _ | .deleteAsset _ | .transferAsset _ _ =>
      .isTrue trivial
  | .readAsset _ | .assetExists _ => .isFalse id

/-- All strings among the arguments are valid UTF-8. -/
def Call.ValidUtf8 : Call → Prop
  | .createAsset id color _ owner _ => Utf8.Valid id ∧ Utf8.Valid color ∧ Utf8.Valid owner
  | .readAsset id => Utf8.Valid id
  | .updateAsset id color _ owner _ => Utf8.Valid id ∧ Utf8.Valid color ∧ Utf8.Valid owner
  | .deleteAsset id => Utf8.Valid id
  | .assetExists id => Utf8.Valid id
  | .transferAsset id newOwner => Utf8.Valid id ∧ Utf8.Valid newOwner

instance : DecidablePred Call.ValidUtf8
  | .createAsset id color _ owner _ | .updateAsset id color _ owner _ =>
      inferInstanceAs (Decidable (Utf8.Valid id ∧ Utf8.Valid color ∧ Utf8.Valid owner))
  | .readAsset id | .deleteAsset id | .assetExists id => inferInstanceAs (Decidable (Utf8.Valid id))
  | .transferAsset id newOwner =>
      inferInstanceAs (Decidable (Utf8.Valid id ∧ Utf8.Valid newOwner))

/-- The program a call runs. -/
def Call.prog (json : Codec Asset) : Call → Stub Result
  | .createAsset id color size owner appraisedValue => do
      return (.unit, ← Chaincode.createAsset json id color size owner appraisedValue)
  | .readAsset id => do
      let (asset, err) ← Chaincode.readAsset json id
      return (.asset asset, err)
  | .updateAsset id color size owner appraisedValue => do
      return (.unit, ← Chaincode.updateAsset json id color size owner appraisedValue)
  | .deleteAsset id => do
      return (.unit, ← Chaincode.deleteAsset id)
  | .assetExists id => do
      let (b, err) ← Chaincode.assetExists id
      return (.bool b, err)
  | .transferAsset id newOwner => do
      match ← Chaincode.transferAsset json id newOwner true with
      | some (oldOwner, err) => return (.string oldOwner, err)
      | none => return (.noReturn, none)

/-- The program a request runs. -/
def Request.prog (json : Codec Asset) : Request → Stub Result
  | .call c => c.prog json
  | .getAllAssets => do
      let (assets, err) ← Chaincode.getAllAssets json
      return (.assets assets, err)

end Chaincode

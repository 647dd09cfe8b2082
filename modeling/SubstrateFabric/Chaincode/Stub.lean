import SubstrateFabric.Lib.Interaction
import SubstrateFabric.Lib.Utf8
import Mathlib.Data.UInt

/-!
# The chaincode stub

The chaincode reaches the ledger only through `ctx.GetStub()`.  This file fixes the calls it makes
there, `GetState`, `PutState`, `DelState`, `GetStateByRange` and the `Next` of the iterator the
latter returns, each of which answers with a value or with an error, and their effect on a world
state.

Go strings are byte sequences, so a key is a list of bytes and keys are ordered bytewise.  Of the
shim we use what its documentation promises: `GetState` of an absent key returns `nil`, `PutState`
rejects the empty key and no other, and `GetStateByRange` with two empty keys starts at `U+0001` and
runs, in ascending key order, to the end of the world state.

`HasNext` reads the iterator and cannot fail; `Close` has no effect on the state and its result is
dropped by the `defer`, so neither is a call of the model.
-/

namespace Chaincode

open Interaction

/-- A Go string. -/
abbrev GoString := List UInt8

/-- A Go byte slice. -/
abbrev Bytes := List UInt8

/-- The world state of the chaincode's namespace. -/
abbrev WorldState := Std.ExtTreeMap GoString Bytes

/-- `queryresult.KV`, as the iterator of a range query yields it. -/
structure KV where
  key : GoString
  value : Bytes
  deriving DecidableEq

/-- The calls of the stub.  An iterator is the list of the results it has still to yield. -/
inductive StubCall
  | getState (key : GoString)
  | putState (key : GoString) (value : Bytes)
  | delState (key : GoString)
  | getStateByRange (startKey endKey : GoString)
  | next (resultsIterator : List KV)
  deriving DecidableEq

/-- What a call returns besides its error. -/
abbrev StubCall.Value : StubCall → Type
  | .getState _ => Option Bytes
  | .putState _ _ => Unit
  | .delState _ => Unit
  | .getStateByRange _ _ => List KV
  | .next _ => KV

/-- The reply to a call: a value, or the text of an error. -/
abbrev StubCall.Reply (c : StubCall) : Type := Except GoString c.Value

/-- A computation with access to the stub. -/
abbrev Stub (α : Type) := Prog StubCall StubCall.Reply α

namespace Stub

variable {α : Type}

def getState (key : GoString) : Stub (Except GoString (Option Bytes)) :=
  Prog.call (StubCall.getState key)

def putState (key : GoString) (value : Bytes) : Stub (Except GoString Unit) :=
  Prog.call (StubCall.putState key value)

def delState (key : GoString) : Stub (Except GoString Unit) :=
  Prog.call (StubCall.delState key)

def getStateByRange (startKey endKey : GoString) : Stub (Except GoString (List KV)) :=
  Prog.call (StubCall.getStateByRange startKey endKey)

def next (resultsIterator : List KV) : Stub (Except GoString KV) :=
  Prog.call (StubCall.next resultsIterator)

@[simp] theorem getState_bind (key : GoString) (f : Except GoString (Option Bytes) → Stub α) :
    (getState key >>= f) = .ask (.getState key) f := rfl

@[simp] theorem putState_bind (key : GoString) (value : Bytes)
    (f : Except GoString Unit → Stub α) :
    (putState key value >>= f) = .ask (.putState key value) f := rfl

@[simp] theorem delState_bind (key : GoString) (f : Except GoString Unit → Stub α) :
    (delState key >>= f) = .ask (.delState key) f := rfl

@[simp] theorem getStateByRange_bind (startKey endKey : GoString)
    (f : Except GoString (List KV) → Stub α) :
    (getStateByRange startKey endKey >>= f) = .ask (.getStateByRange startKey endKey) f := rfl

@[simp] theorem next_bind (resultsIterator : List KV) (f : Except GoString KV → Stub α) :
    (next resultsIterator >>= f) = .ask (.next resultsIterator) f := rfl

end Stub

/-- The key a call writes or deletes, if it does. -/
def StubCall.writeKey : StubCall → Option GoString
  | .putState key _ => some key
  | .delState key => some key
  | _ => none

/-- The key a call reads, if it reads a single one. -/
def StubCall.readKey : StubCall → Option GoString
  | .getState key => some key
  | _ => none

/-- The write a call asks for: a value for a key, or `none` to delete it. -/
def StubCall.write : StubCall → Option (GoString × Option Bytes)
  | .putState key value => some (key, some value)
  | .delState key => some (key, none)
  | _ => none

/-! ### The ledger behind the stub -/

/-- The UTF-8 encoding of a string literal of the source. -/
def utf8 (s : String) : GoString := Utf8.encode s.toList

/-- The key that `GetStateByRange` puts in place of an empty start key: `U+0001`. -/
def emptyKeySubstitute : GoString := [1]

/-- The entries a range query yields: the stored keys from `startKey` on and, unless `endKey` is
empty, below `endKey`, in ascending byte order. -/
def rangeEntries (w : WorldState) (startKey endKey : GoString) : List KV :=
  let startKey := if startKey = [] then emptyKeySubstitute else startKey
  (w.toList.filter fun e =>
    (compare startKey e.1).isLE && (endKey.isEmpty || (compare e.1 endKey).isLT)).map
      fun e => ⟨e.1, e.2⟩

/-- The error of `PutState` at the empty key. -/
def emptyKey : GoString := utf8 "key must not be an empty string"

/-- The stub over a world state. -/
def stub : Env StubCall StubCall.Reply WorldState where
  reply w
    | .getState key => .ok w[key]?
    | .putState key _ =>
        if key = [] then .error emptyKey else .ok ()
    | .delState _ => .ok ()
    | .getStateByRange startKey endKey => .ok (rangeEntries w startKey endKey)
    | .next [] => .error (utf8 "no such key")
    | .next (kv :: _) => .ok kv
  next w
    | .putState key value => if key = [] then w else w.insert key value
    | .delState key => w.erase key
    | _ => w

section Stub

variable (w : WorldState)

@[simp] theorem stub_getState (key : GoString) : stub.reply w (.getState key) = .ok w[key]? := rfl

theorem stub_putState (key : GoString) (value : Bytes) :
    stub.reply w (.putState key value) =
      if key = [] then .error emptyKey else .ok () := rfl

@[simp] theorem stub_delState (key : GoString) : stub.reply w (.delState key) = .ok () := rfl

@[simp] theorem stub_getStateByRange (startKey endKey : GoString) :
    stub.reply w (.getStateByRange startKey endKey) = .ok (rangeEntries w startKey endKey) := rfl

@[simp] theorem stub_next (kv : KV) (rest : List KV) :
    stub.reply w (.next (kv :: rest)) = .ok kv := rfl

theorem stub_next_putState (key : GoString) (value : Bytes) :
    stub.next w (.putState key value) = if key = [] then w else w.insert key value := rfl

@[simp] theorem stub_next_delState (key : GoString) :
    stub.next w (.delState key) = w.erase key := rfl

/-- A call that is no write changes nothing. -/
theorem stub_next_of_writeKey_none {c : StubCall} (h : c.writeKey = none) : stub.next w c = w := by
  cases c with
  | putState key value => cases h
  | delState key => cases h
  | getState key => rfl
  | getStateByRange startKey endKey => rfl
  | next resultsIterator => rfl

/-- A call that fails changes nothing. -/
theorem stub_next_of_error {c : StubCall} {err : GoString} (h : stub.reply w c = .error err) :
    stub.next w c = w := by
  cases c with
  | putState key value =>
    rw [stub_putState] at h
    rw [stub_next_putState]
    split_ifs at h ⊢
    rfl
  | delState key => cases h
  | getState key => rfl
  | getStateByRange startKey endKey => rfl
  | next resultsIterator => rfl

/-- A call changes at most the key it writes. -/
theorem stub_next_getElem {c : StubCall} {k : GoString} (h : c.writeKey ≠ some k) :
    (stub.next w c)[k]? = w[k]? := by
  cases c with
  | putState key value =>
    have hk : key ≠ k := fun hk => h (congrArg some hk)
    rw [stub_next_putState]
    split_ifs
    · rfl
    · simp [Std.ExtTreeMap.getElem?_insert, hk]
  | delState key =>
    have hk : key ≠ k := fun hk => h (congrArg some hk)
    simp [Std.ExtTreeMap.getElem?_erase, hk]
  | getState key => rfl
  | getStateByRange startKey endKey => rfl
  | next resultsIterator => rfl

end Stub

end Chaincode

import SubstrateFabric.Chaincode.Contract

/-!
# What a call does

Every `Call` has one shape: it reads the key of its asset, decides on the bytes found there alone,
and then either returns or makes one write, at the same key, whose error it passes on.  `Call.plan`
is the decision and `Call.prog_eq` says that the functions of the contract have this shape.  All
that follows about calls is derived from it: their paths (`Call.path_cases`), that their writes come
last, and their runs on a world state (`Call.exec_eq`).
-/

namespace Chaincode

open Interaction EncodingJson

/-- What a call does once it has read its key: return, or make one write and return `response` if
the write succeeds. -/
inductive Plan
  | stop (result : Result)
  | put (assetJSON : Bytes) (response : Response)
  | del (response : Response)
  deriving DecidableEq

/-- The value that accompanies an error of the call: the zero value of its result type. -/
def Call.zero : Call → Response
  | .createAsset .. => .unit
  | .readAsset _ => .asset none
  | .updateAsset .. => .unit
  | .deleteAsset _ => .unit
  | .assetExists _ => .bool false
  | .transferAsset _ _ => .string []

section Plan

variable (json : Codec Asset)

/-- Write the encoding of an asset. -/
def Plan.store (c : Call) (a : Asset) (response : Response) : Plan :=
  match json.marshal a with
  | .error err => .stop (c.zero, some (.json err))
  | .ok assetJSON => .put assetJSON response

/-- The decision of a call on the bytes stored under its key. -/
def Call.plan (c : Call) (stored : Option Bytes) : Plan :=
  match c, stored with
  | .createAsset id _ _ _ _, some _ => .stop (.unit, some (alreadyExists id))
  | .createAsset id color size owner appraisedValue, none =>
      .store json c ⟨appraisedValue, color, id, owner, size⟩ .unit
  | .readAsset id, none => .stop (.asset none, some (doesNotExist id))
  | .readAsset _, some assetJSON =>
      match json.unmarshal assetJSON with
      | .error err => .stop (.asset none, some (.json err))
      | .ok asset => .stop (.asset (some asset), none)
  | .updateAsset id _ _ _ _, none => .stop (.unit, some (doesNotExist id))
  | .updateAsset id color size owner appraisedValue, some _ =>
      .store json c ⟨appraisedValue, color, id, owner, size⟩ .unit
  | .deleteAsset id, none => .stop (.unit, some (doesNotExist id))
  | .deleteAsset _, some _ => .del .unit
  | .assetExists _, _ => .stop (.bool stored.isSome, none)
  | .transferAsset id _, none => .stop (.string [], some (doesNotExist id))
  | .transferAsset _ newOwner, some assetJSON =>
      match json.unmarshal assetJSON with
      | .error err => .stop (.string [], some (.json err))
      | .ok asset => .store json c { asset with owner := newOwner } (.string asset.owner)

/-- The result of a write that was to give `response`. -/
def Call.written (c : Call) (response : Response) : Except GoString Unit → Result
  | .error err => (c.zero, some (.text err))
  | .ok () => (response, none)

/-- The rest of a call after its decision. -/
def Plan.prog (c : Call) : Plan → Stub Result
  | .stop result => .ret result
  | .put assetJSON response =>
      .ask (.putState c.id assetJSON) fun reply => .ret (c.written response reply)
  | .del response => .ask (.delState c.id) fun reply => .ret (c.written response reply)

/-- A call from the reply to its `GetState` on. -/
def Call.resume (c : Call) : Except GoString (Option Bytes) → Stub Result
  | .error err => .ret (c.zero, some (readFailed err))
  | .ok stored => (c.plan json stored).prog c

/-- The encode-and-put step that `CreateAsset` and `UpdateAsset` share. -/
theorem store_prog {c : Call} (hc : c.zero = .unit) (a : Asset) :
    ((match json.marshal a with
      | .error err => .ret (some (.json err))
      | .ok assetJSON => .ask (.putState c.id assetJSON) fun r => .ret (errorOf r) :
        Stub (Option GoError)) >>= fun err => .ret (.unit, err)) =
      (Plan.store json c a .unit).prog c := by
  unfold Plan.store
  cases json.marshal a with
  | error err => simp [Plan.prog, hc]
  | ok assetJSON =>
    simp only [Prog.ask_bind, Prog.ret_bind, Plan.prog]
    congr 1
    funext r
    rcases r with err | _ <;> simp [Call.written, errorOf, hc]

/-- **The shape of a call**: read the key of the asset, decide, write at most once. -/
theorem Call.prog_eq (c : Call) : c.prog json = .ask (.getState c.id) (c.resume json) := by
  -- In every function the reply to `GetState` is an error, `nil` or the bytes stored.
  cases c with
  | createAsset id color size owner appraisedValue =>
    refine Prog.ask_congr fun r => ?_
    rcases r with err | _ | stored
    · rfl
    · exact store_prog json (c := .createAsset id color size owner appraisedValue) rfl _
    · rfl
  | readAsset id =>
    simp only [Call.prog, Chaincode.readAsset, Stub.getState_bind, Prog.ask_bind]
    refine Prog.ask_congr fun r => ?_
    rcases r with err | _ | stored
    · rfl
    · rfl
    · cases h : json.unmarshal stored <;> simp [Call.resume, Call.plan, Plan.prog, h]
  | updateAsset id color size owner appraisedValue =>
    refine Prog.ask_congr fun r => ?_
    rcases r with err | _ | stored
    · rfl
    · rfl
    · exact store_prog json (c := .updateAsset id color size owner appraisedValue) rfl _
  | deleteAsset id =>
    refine Prog.ask_congr fun r => ?_
    rcases r with err | _ | stored
    · rfl
    · rfl
    · refine Prog.ask_congr fun r => ?_
      cases r <;> rfl
  | assetExists id =>
    refine Prog.ask_congr fun r => ?_
    cases r <;> rfl
  | transferAsset id newOwner =>
    simp only [Call.prog, Chaincode.transferAsset, Chaincode.readAsset, Stub.getState_bind,
      Prog.ask_bind]
    refine Prog.ask_congr fun r => ?_
    rcases r with err | _ | stored
    · rfl
    · rfl
    · cases h : json.unmarshal stored with
      | error err => simp [Call.resume, Call.plan, Plan.prog, h]
      | ok asset =>
        cases hm : json.marshal { asset with owner := newOwner } with
        | error err => simp [Call.resume, Call.plan, Plan.prog, Plan.store, Call.zero, h, hm]
        | ok assetJSON =>
          simp only [Call.resume, Call.plan, Plan.store, Plan.prog, h, hm, Prog.pure_eq,
            Prog.ret_bind, Stub.putState_bind, Prog.ask_bind, if_true]
          refine Prog.ask_congr fun r => ?_
          cases r <;> rfl

/-- A call that is not a writer returns without writing. -/
theorem Call.plan_of_not_isWriter {c : Call} (hc : ¬ c.IsWriter) (stored : Option Bytes) :
    ∃ r, c.plan json stored = .stop r := by
  cases c with
  | readAsset id =>
    cases stored with
    | none => exact ⟨_, rfl⟩
    | some bs => simp only [Call.plan]; cases json.unmarshal bs <;> exact ⟨_, rfl⟩
  | assetExists id => exact ⟨_, rfl⟩
  | _ => exact absurd trivial hc

/-- A writer that returns without writing returns an error. -/
theorem Call.plan_stop_of_isWriter {c : Call} (hc : c.IsWriter) {stored : Option Bytes} {r : Result}
    (h : c.plan json stored = .stop r) : r.2 ≠ none := by
  have store : ∀ a response, Plan.store json c a response = .stop r → r.2 ≠ none := by
    intro a response h
    unfold Plan.store at h
    cases hm : json.marshal a <;> rw [hm] at h <;> cases h
    simp
  cases c with
  | readAsset id => exact hc.elim
  | assetExists id => exact hc.elim
  | transferAsset id newOwner =>
    cases stored with
    | none => cases h; simp
    | some bs =>
      simp only [Call.plan] at h
      cases hu : json.unmarshal bs with
      | error err => rw [hu] at h; cases h; simp
      | ok asset => rw [hu] at h; exact store _ _ h
  | createAsset id color size owner appraisedValue =>
    cases stored with
    | none => exact store _ _ h
    | some bs => cases h; simp
  | updateAsset id color size owner appraisedValue =>
    cases stored with
    | none => cases h; simp
    | some bs => exact store _ _ h
  | deleteAsset id =>
    cases stored with
    | none => cases h; simp
    | some bs => cases h

/-- Only `DeleteAsset` deletes. -/
theorem Call.eq_deleteAsset_of_plan_del {c : Call} {stored : Option Bytes} {response : Response}
    (h : c.plan json stored = .del response) : c = .deleteAsset c.id := by
  cases c with
  | deleteAsset id => rfl
  | assetExists id => cases h
  | readAsset id =>
    cases stored with
    | none => cases h
    | some bs => simp only [Call.plan] at h; split at h <;> cases h
  | createAsset id color size owner appraisedValue =>
    cases stored with
    | none => simp only [Call.plan, Plan.store] at h; split at h <;> cases h
    | some bs => cases h
  | updateAsset id color size owner appraisedValue =>
    cases stored with
    | none => cases h
    | some bs => simp only [Call.plan, Plan.store] at h; split at h <;> cases h
  | transferAsset id newOwner =>
    cases stored with
    | none => cases h
    | some bs =>
      simp only [Call.plan, Plan.store] at h
      split at h
      · cases h
      · split at h <;> cases h

/-- `DeleteAsset` puts nothing. -/
theorem Call.ne_deleteAsset_of_plan_put {c : Call} {stored : Option Bytes} {bs : Bytes}
    {response : Response} (h : c.plan json stored = .put bs response) (id : GoString) :
    c ≠ .deleteAsset id := by
  rintro rfl
  cases stored <;> cases h

theorem collectAssets_cons (kv : KV) (rest : List KV) (assets : List Asset) :
    collectAssets json (kv :: rest) assets = .ask (.next (kv :: rest)) fun
      | .error err => .ret ([], some (.text err))
      | .ok queryResponse =>
        match json.unmarshal queryResponse.value with
        | .error err => .ret ([], some (.json err))
        | .ok asset => collectAssets json rest (assets ++ [asset]) := by
  refine Prog.ask_congr fun r => ?_
  cases r <;> rfl

theorem getAllAssets_eq :
    Request.getAllAssets.prog json = .ask (.getStateByRange [] []) fun
      | .error err => .ret (.assets [], some (.text err))
      | .ok resultsIterator =>
        collectAssets json resultsIterator [] >>= fun r => .ret (.assets r.1, r.2) := by
  refine Prog.ask_congr fun r => ?_
  cases r <;> rfl

/-! ### Paths -/

/-- Everything a call can do: fail to read, return after the read, or make one write after it. -/
theorem Call.path_cases {c : Call} {log : List (Exchange StubCall StubCall.Reply)} {r : Result}
    (h : (c.prog json).Path log r) :
    (∃ err, log = [⟨.getState c.id, .error err⟩] ∧ r = (c.zero, some (readFailed err))) ∨
    (∃ stored, log = [⟨.getState c.id, .ok stored⟩] ∧ c.plan json stored = .stop r) ∨
    (∃ stored bs response reply, c.plan json stored = .put bs response ∧
      log = [⟨.getState c.id, .ok stored⟩, ⟨.putState c.id bs, reply⟩] ∧
      r = c.written response reply) ∨
    (∃ stored response reply, c.plan json stored = .del response ∧
      log = [⟨.getState c.id, .ok stored⟩, ⟨.delState c.id, reply⟩] ∧
      r = c.written response reply) := by
  rw [Call.prog_eq] at h
  obtain ⟨reply, log', rfl, h⟩ := h
  cases reply with
  | error err =>
    obtain ⟨rfl, rfl⟩ := h
    exact Or.inl ⟨err, rfl, rfl⟩
  | ok stored =>
    refine Or.inr ?_
    simp only [Call.resume] at h
    cases hp : c.plan json stored with
    | stop result =>
      rw [hp] at h
      obtain ⟨rfl, rfl⟩ := h
      exact Or.inl ⟨stored, rfl, hp⟩
    | put bs response =>
      rw [hp] at h
      obtain ⟨reply, _, rfl, rfl, rfl⟩ := h
      exact Or.inr (Or.inl ⟨stored, bs, response, reply, hp, rfl, rfl⟩)
    | del response =>
      rw [hp] at h
      obtain ⟨reply, _, rfl, rfl, rfl⟩ := h
      exact Or.inr (Or.inr ⟨stored, response, reply, hp, rfl, rfl⟩)

/-! ### Execution -/

/-- The execution of a call on a world state. -/
def Call.exec (c : Call) (w : WorldState) : Result × WorldState :=
  ((run stub (c.prog json) w).value, (run stub (c.prog json) w).state)

/-- The result and the world state that a plan leaves. -/
def Plan.exec (c : Call) (w : WorldState) : Plan → Result × WorldState
  | .stop result => (result, w)
  | .put assetJSON response =>
      if c.id = [] then ((c.zero, some (.text emptyKey)), w)
      else ((response, none), w.insert c.id assetJSON)
  | .del response => ((response, none), w.erase c.id)

theorem Call.exec_eq (c : Call) (w : WorldState) :
    c.exec json w = (c.plan json w[c.id]?).exec c w := by
  simp only [Call.exec, Call.prog_eq, run_ask, stub_getState, Call.resume]
  cases c.plan json w[c.id]? with
  | stop result => rfl
  | put bs response =>
    simp only [Plan.prog, Plan.exec, run_ask, run_ret, stub_putState, stub_next_putState]
    split_ifs <;> rfl
  | del response => rfl

variable {json} {c : Call} {w : WorldState}

theorem Call.exec_of_stop {r : Result} (h : c.plan json w[c.id]? = .stop r) :
    c.exec json w = (r, w) := by
  rw [Call.exec_eq, h]; rfl

theorem Call.exec_of_put {bs : Bytes} {r : Response}
    (h : c.plan json w[c.id]? = .put bs r) (hid : c.id ≠ []) :
    c.exec json w = ((r, none), w.insert c.id bs) := by
  rw [Call.exec_eq, h, Plan.exec, if_neg hid]

theorem Call.exec_of_del {r : Response} (h : c.plan json w[c.id]? = .del r) :
    c.exec json w = ((r, none), w.erase c.id) := by
  rw [Call.exec_eq, h]; rfl

end Plan

end Chaincode

import SubstrateFabric.Chaincode.Calls

/-!
# Failing stub calls

The contract run against a stub whose calls fail at the positions an adversary chose
(`Env.faulty`), over any world state, also one holding values the contract never wrote.

What the log and the result of a request say about each other is proved of its paths, that is under
all replies whatsoever: a failed call makes the request fail (`Request.error_of_failed`), a failing
request has no successful write (`Request.failed_of_write`), a successful writer has made one write,
at its key (`Call.writeKeys_of_ok`).  What that means for the world state follows by
`run_invariant`.  Only the scan of `GetAllAssets` needs its actual replies (`run_collectAssets`).
-/

namespace Chaincode

open Interaction EncodingJson

/-- The call of an exchange failed. -/
def Failed (x : Exchange StubCall StubCall.Reply) : Prop := ∃ err, x.2 = .error err

/-- The keys written or deleted in a log, successfully or not, in order. -/
def writeKeys (log : List (Exchange StubCall StubCall.Reply)) : List GoString :=
  log.filterMap fun x => x.1.writeKey

/-- The requests meant to change the world state. -/
def Request.IsWriter : Request → Prop
  | .call c => c.IsWriter
  | .getAllAssets => False

/-- The stored values a request has to decode: the one under the id for `ReadAsset` and
`TransferAsset`, all in the scanned range for `GetAllAssets`. -/
def Request.decodes (w : WorldState) : Request → List Bytes
  | .call (.readAsset id) => w[id]?.toList
  | .call (.transferAsset id _) => w[id]?.toList
  | .call _ => []
  | .getAllAssets => (rangeEntries w [] []).map KV.value

variable (json : Codec Asset)

theorem failed_cons_ok {c : StubCall} {v : c.Value}
    {log : List (Exchange StubCall StubCall.Reply)} {P : Prop} (h : ∀ x ∈ log, Failed x → P) :
    ∀ x ∈ ⟨c, .ok v⟩ :: log, Failed x → P := by
  intro x hx hf
  rcases List.mem_cons.1 hx with rfl | hx
  · obtain ⟨err, hf⟩ := hf
    cases hf
  · exact h x hx hf

/-! ### Paths -/

theorem Call.error_of_failed {c : Call} {log : List (Exchange StubCall StubCall.Reply)} {r : Result}
    (h : (c.prog json).Path log r) {x : Exchange StubCall StubCall.Reply} (hx : x ∈ log)
    (hf : Failed x) : r.2 ≠ none := by
  obtain ⟨err, hf⟩ := hf
  rcases Call.path_cases json h with ⟨err', rfl, rfl⟩ | ⟨stored, rfl, -⟩ |
    ⟨stored, bs, response, reply, -, rfl, rfl⟩ | ⟨stored, response, reply, -, rfl, rfl⟩
  · simp
  · cases List.mem_singleton.1 hx
    cases hf
  · rcases List.mem_pair.1 hx with rfl | rfl
    · cases hf
    · rw [show reply = .error err from hf]; simp [Call.written]
  · rcases List.mem_pair.1 hx with rfl | rfl
    · cases hf
    · rw [show reply = .error err from hf]; simp [Call.written]

theorem Call.failed_of_write {c : Call} {log : List (Exchange StubCall StubCall.Reply)} {r : Result}
    (h : (c.prog json).Path log r) (hr : r.2 ≠ none) {x : Exchange StubCall StubCall.Reply}
    (hx : x ∈ log) (hw : x.1.writeKey ≠ none) : Failed x := by
  rcases Call.path_cases json h with ⟨err', rfl, -⟩ | ⟨stored, rfl, -⟩ |
    ⟨stored, bs, response, reply, -, rfl, rfl⟩ | ⟨stored, response, reply, -, rfl, rfl⟩
  · cases List.mem_singleton.1 hx
    exact absurd rfl hw
  · cases List.mem_singleton.1 hx
    exact absurd rfl hw
  · rcases List.mem_pair.1 hx with rfl | rfl
    · exact absurd rfl hw
    · cases reply with
      | error err => exact ⟨err, rfl⟩
      | ok u => exact absurd rfl hr
  · rcases List.mem_pair.1 hx with rfl | rfl
    · exact absurd rfl hw
    · cases reply with
      | error err => exact ⟨err, rfl⟩
      | ok u => exact absurd rfl hr

theorem Call.writeKeys_of_ok {c : Call} (hc : c.IsWriter)
    {log : List (Exchange StubCall StubCall.Reply)} {r : Result} (h : (c.prog json).Path log r)
    (hr : r.2 = none) : writeKeys log = [c.id] := by
  rcases Call.path_cases json h with ⟨err, rfl, rfl⟩ | ⟨stored, rfl, hp⟩ |
    ⟨stored, bs, response, reply, -, rfl, -⟩ | ⟨stored, response, reply, -, rfl, -⟩
  · cases hr
  · exact absurd hr (Call.plan_stop_of_isWriter json hc hp)
  · rfl
  · rfl

theorem Call.writeKeys_of_not_isWriter {c : Call} (hc : ¬ c.IsWriter)
    {log : List (Exchange StubCall StubCall.Reply)} {r : Result} (h : (c.prog json).Path log r) :
    writeKeys log = [] := by
  rcases Call.path_cases json h with ⟨err, rfl, -⟩ | ⟨stored, rfl, -⟩ |
    ⟨stored, bs, response, reply, hp, -, -⟩ | ⟨stored, response, reply, hp, -, -⟩
  · rfl
  · rfl
  · obtain ⟨r', hr'⟩ := Call.plan_of_not_isWriter json hc stored
    rw [hr'] at hp; cases hp
  · obtain ⟨r', hr'⟩ := Call.plan_of_not_isWriter json hc stored
    rw [hr'] at hp; cases hp

/-- The scan writes nothing, and reports the failure of any `Next`. -/
theorem collectAssets_path {pending : List KV} {assets : List Asset}
    {log : List (Exchange StubCall StubCall.Reply)} {r : List Asset × Option GoError}
    (h : (collectAssets json pending assets).Path log r) :
    writeKeys log = [] ∧ ∀ x ∈ log, Failed x → r.2 ≠ none := by
  -- Induction on the results still to come: only a result that decodes leads on to the next one.
  induction pending generalizing assets log with
  | nil =>
    obtain ⟨rfl, rfl⟩ := h
    exact ⟨rfl, by simp⟩
  | cons kv rest ih =>
    rw [collectAssets_cons] at h
    obtain ⟨reply, log', rfl, h⟩ := h
    cases reply with
    | error err =>
      obtain ⟨rfl, rfl⟩ := h
      exact ⟨rfl, by simp⟩
    | ok queryResponse =>
      cases hu : json.unmarshal queryResponse.value with
      | error err =>
        simp only [hu] at h
        obtain ⟨rfl, rfl⟩ := h
        exact ⟨rfl, by simp⟩
      | ok asset =>
        simp only [hu] at h
        obtain ⟨h1, h2⟩ := ih h
        exact ⟨h1, failed_cons_ok h2⟩

theorem getAllAssets_path {log : List (Exchange StubCall StubCall.Reply)} {r : Result}
    (h : (Request.getAllAssets.prog json).Path log r) :
    writeKeys log = [] ∧ ∀ x ∈ log, Failed x → r.2 ≠ none := by
  rw [getAllAssets_eq] at h
  obtain ⟨reply, log', rfl, h⟩ := h
  cases reply with
  | error err =>
    obtain ⟨rfl, rfl⟩ := h
    exact ⟨rfl, by simp⟩
  | ok resultsIterator =>
    obtain ⟨r', hr', rfl⟩ := Prog.path_map.1 h
    obtain ⟨h1, h2⟩ := collectAssets_path json hr'
    exact ⟨h1, failed_cons_ok h2⟩

section Request

variable {q : Request} {log : List (Exchange StubCall StubCall.Reply)} {r : Result}

theorem Request.error_of_failed (h : (q.prog json).Path log r)
    {x : Exchange StubCall StubCall.Reply} (hx : x ∈ log) (hf : Failed x) : r.2 ≠ none := by
  cases q with
  | call c => exact Call.error_of_failed json h hx hf
  | getAllAssets => exact (getAllAssets_path json h).2 x hx hf

theorem Request.writeKeys_of_not_isWriter (hq : ¬ q.IsWriter) (h : (q.prog json).Path log r) :
    writeKeys log = [] := by
  cases q with
  | call c => exact Call.writeKeys_of_not_isWriter json hq h
  | getAllAssets => exact (getAllAssets_path json h).1

theorem Request.failed_of_write (h : (q.prog json).Path log r) (hr : r.2 ≠ none)
    {x : Exchange StubCall StubCall.Reply} (hx : x ∈ log) (hw : x.1.writeKey ≠ none) :
    Failed x := by
  cases q with
  | call c => exact Call.failed_of_write json h hr hx hw
  | getAllAssets =>
    have hnil := (getAllAssets_path json h).1
    rw [writeKeys, List.filterMap_eq_nil_iff] at hnil
    exact absurd (hnil x hx) hw

end Request

/-! ### Runs against a failing stub -/

section Run

variable (faults : ℕ → Option GoString)

theorem faulty_next_of_failed {s : WorldState × ℕ} {c : StubCall}
    (h : Failed ⟨c, (stub.faulty faults).reply s c⟩) : ((stub.faulty faults).next s c).1 = s.1 := by
  obtain ⟨err, h⟩ := h
  cases hf : faults s.2 with
  | some e => rw [faulty_next_of_some _ hf]
  | none =>
    rw [faulty_next_of_none _ hf]
    exact stub_next_of_error _ ((faulty_reply_of_none _ hf c).symm.trans h)

theorem faulty_next_of_writeKey_none {s : WorldState × ℕ} {c : StubCall} (h : c.writeKey = none) :
    ((stub.faulty faults).next s c).1 = s.1 := by
  cases hf : faults s.2 with
  | some e => rw [faulty_next_of_some _ hf]
  | none =>
    rw [faulty_next_of_none _ hf]
    exact stub_next_of_writeKey_none _ h

theorem faulty_next_getElem {s : WorldState × ℕ} {c : StubCall} {k : GoString}
    (h : c.writeKey ≠ some k) : ((stub.faulty faults).next s c).1[k]? = s.1[k]? := by
  cases hf : faults s.2 with
  | some e => rw [faulty_next_of_some _ hf]
  | none =>
    rw [faulty_next_of_none _ hf]
    exact stub_next_getElem _ h

/-- The scan returns the decoding of everything pending, or an error and no asset. -/
theorem run_collectAssets (pending : List KV) (assets : List Asset) (s : WorldState × ℕ) :
    (∃ l, pending.map (fun kv => json.unmarshal kv.value) = l.map .ok ∧
      (run (stub.faulty faults) (collectAssets json pending assets) s).value =
        (assets ++ l, none)) ∨
    (∃ err, (run (stub.faulty faults) (collectAssets json pending assets) s).value =
      ([], some err)) := by
  induction pending generalizing assets s with
  | nil => exact Or.inl ⟨[], rfl, by simp [collectAssets]⟩
  | cons kv rest ih =>
    rw [collectAssets_cons, run_ask]
    cases hf : faults s.2 with
    | some e =>
      rw [faulty_reply_of_some _ hf]
      exact Or.inr ⟨_, rfl⟩
    | none =>
      rw [faulty_reply_of_none _ hf, stub_next]
      cases hu : json.unmarshal kv.value with
      | error err =>
        refine Or.inr ⟨.json err, ?_⟩
        simp only [hu, run_ret]
      | ok asset =>
        simp only [hu]
        rcases ih (assets ++ [asset]) ((stub.faulty faults).next s (.next (kv :: rest))) with
          ⟨l, hl, hv⟩ | ⟨err, hv⟩
        · refine Or.inl ⟨asset :: l, ?_, ?_⟩
          · rw [List.map_cons, List.map_cons, hu, hl]
          · rw [hv]; simp
        · exact Or.inr ⟨err, hv⟩

/-- `GetAllAssets` returns the decoding of the whole scanned range, or an error and no asset. -/
theorem run_getAllAssets (s : WorldState × ℕ) :
    (∃ l, (rangeEntries s.1 [] []).map (fun kv => json.unmarshal kv.value) = l.map .ok ∧
      (run (stub.faulty faults) (Request.getAllAssets.prog json) s).value = (.assets l, none)) ∨
    (∃ err, (run (stub.faulty faults) (Request.getAllAssets.prog json) s).value =
      (.assets [], some err)) := by
  rw [getAllAssets_eq, run_ask]
  cases hf : faults s.2 with
  | some e =>
    rw [faulty_reply_of_some _ hf]
    exact Or.inr ⟨_, rfl⟩
  | none =>
    rw [faulty_reply_of_none _ hf, stub_getStateByRange]
    simp only [run_map]
    rcases run_collectAssets json faults (rangeEntries s.1 [] []) []
      ((stub.faulty faults).next s (.getStateByRange [] [])) with ⟨l, hl, hv⟩ | ⟨err, hv⟩
    · exact Or.inl ⟨l, hl, by rw [hv]; rfl⟩
    · exact Or.inr ⟨err, by rw [hv]⟩

/-- A request that fails leaves the world state as it was. -/
theorem run_state_of_error (q : Request) (s : WorldState × ℕ)
    (h : (run (stub.faulty faults) (q.prog json) s).value.2 ≠ none) :
    (run (stub.faulty faults) (q.prog json) s).state.1 = s.1 := by
  have hpath := path_run (stub.faulty faults) (q.prog json) s
  refine run_invariant (stub.faulty faults) (P := fun s' => s'.1 = s.1)
    (Q := fun x => x.1.writeKey ≠ none → Failed x) ?_ _ rfl fun x hx hw =>
      Request.failed_of_write json hpath h hx hw
  -- Every call of the log either writes nothing or is a write that failed.
  intro s' c hs' hok
  by_cases hc : c.writeKey = none
  · rw [faulty_next_of_writeKey_none faults hc, hs']
  · rw [faulty_next_of_failed faults (hok hc), hs']

/-- A key that is not written keeps its bytes. -/
theorem run_getElem_of_notMem (q : Request) (s : WorldState × ℕ) {k : GoString}
    (h : k ∉ writeKeys (run (stub.faulty faults) (q.prog json) s).log) :
    (run (stub.faulty faults) (q.prog json) s).state.1[k]? = s.1[k]? := by
  refine run_invariant (stub.faulty faults) (P := fun s' => s'.1[k]? = s.1[k]?)
    (Q := fun x => x.1.writeKey ≠ some k) ?_ _ rfl fun x hx hw =>
      h (List.mem_filterMap.2 ⟨x, hx, hw⟩)
  intro s' c hs' hok
  rw [faulty_next_getElem faults hok, hs']

/-- A value that has to be decoded and does not decode makes the request fail. -/
theorem run_error_of_undecodable (q : Request) (s : WorldState × ℕ) {bs : Bytes}
    (hbs : bs ∈ q.decodes s.1) {err : EncodingJson.Error} (hu : json.unmarshal bs = .error err) :
    (run (stub.faulty faults) (q.prog json) s).value.2 ≠ none := by
  have point : ∀ c : Call, s.1[c.id]? = some bs →
      (∃ r, c.plan json (some bs) = .stop r ∧ r.2 ≠ none) →
      (run (stub.faulty faults) (c.prog json) s).value.2 ≠ none := by
    rintro c hget ⟨r, hp, hr⟩
    rw [Call.prog_eq, run_ask]
    cases hf : faults s.2 with
    | some e => rw [faulty_reply_of_some _ hf]; simp [Call.resume]
    | none =>
      rw [faulty_reply_of_none _ hf, stub_getState, hget]
      simp only [Call.resume, hp, Plan.prog, run_ret]
      exact hr
  cases q with
  | getAllAssets =>
    rcases run_getAllAssets json faults s with ⟨l, hl, -⟩ | ⟨err', hv⟩
    · -- a scan that succeeded has decoded `bs`
      obtain ⟨kv, hkv, rfl⟩ := List.mem_map.1 hbs
      have hmem := List.mem_map_of_mem (f := fun kv => json.unmarshal kv.value) hkv
      rw [hl] at hmem
      obtain ⟨asset, -, hok⟩ := List.mem_map.1 hmem
      rw [← hok] at hu
      cases hu
    · rw [hv]; simp
  | call c =>
    cases c with
    | readAsset id =>
      have hget := Option.mem_toList.1 hbs
      exact point (.readAsset id) hget
        ⟨(.asset none, some (.json err)), by simp only [Call.plan, hu], by simp⟩
    | transferAsset id newOwner =>
      have hget := Option.mem_toList.1 hbs
      exact point (.transferAsset id newOwner) hget
        ⟨(.string [], some (.json err)), by simp only [Call.plan, hu], by simp⟩
    | _ => cases hbs

/-- **No stub failure is swallowed and no failed request leaves a trace.**  Over any world state and
under any choice of failing stub calls:

1. a request one of whose stub calls failed, or that had to decode a value that does not decode,
   returns an error;
2. a request that returns an error leaves the world state as it was;
3. a writer that returns no error has made exactly one write, at the key of its asset, and every
   other key keeps its bytes;
4. a reader makes no write;
5. `GetAllAssets` returns the decoding of every value in the scanned range, in order, or an error
   and no asset. -/
theorem Request.run_faulty (q : Request) (w : WorldState) :
    let o := run (stub.faulty faults) (q.prog json) (w, 0)
    ((∃ x ∈ o.log, Failed x) ∨ (∃ bs ∈ q.decodes w, ∃ err, json.unmarshal bs = .error err) →
      o.value.2 ≠ none) ∧
    (o.value.2 ≠ none → o.state.1 = w) ∧
    (∀ c, q = .call c → c.IsWriter → o.value.2 = none →
      writeKeys o.log = [c.id] ∧ ∀ k, k ≠ c.id → o.state.1[k]? = w[k]?) ∧
    (¬ q.IsWriter → writeKeys o.log = []) ∧
    (q = .getAllAssets →
      (∃ l, (rangeEntries w [] []).map (fun kv => json.unmarshal kv.value) = l.map .ok ∧
        o.value = (.assets l, none)) ∨
      (∃ err, o.value = (.assets [], some err))) := by
  intro o
  have hpath : (q.prog json).Path o.log o.value := path_run _ _ _
  refine ⟨?_, run_state_of_error json faults q (w, 0), ?_, ?_, ?_⟩
  · rintro (⟨x, hx, hf⟩ | ⟨bs, hbs, err, hu⟩)
    · exact Request.error_of_failed json hpath hx hf
    · exact run_error_of_undecodable json faults q (w, 0) hbs hu
  · rintro c rfl hc hok
    have hkeys : writeKeys o.log = [c.id] := Call.writeKeys_of_ok json hc hpath hok
    refine ⟨hkeys, fun k hk => run_getElem_of_notMem json faults (.call c) (w, 0) ?_⟩
    change k ∉ writeKeys o.log
    rw [hkeys, List.mem_singleton]
    exact hk
  · exact fun hq => Request.writeKeys_of_not_isWriter json hq hpath
  · rintro rfl
    exact run_getAllAssets json faults (w, 0)

end Run

end Chaincode

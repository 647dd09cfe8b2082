import SubstrateFabric.Node.Benchmarking

/-!
# The extrinsic builders and the signatures of their extrinsics

The benchmarking commands build their extrinsics with `RemarkBuilder` and
`TransferKeepAliveBuilder`, which sign a call with the key of Bob by `create_benchmark_extrinsic`.
The runtime that receives such an extrinsic recomputes the data signed along with the call and
verifies the signature over it.

* `remarkBuilder`, `transferKeepAliveBuilder` and `extFactory` are the builders as the `benchmark`
  commands set them up;
* `Verifier` is what the runtime does to check a signature, a parameter.

`benchmark_extrinsics_verified` says in which blocks the signature of an extrinsic that the builders
make is verified over what was signed, and what becomes of it in the others.  Whether the runtime
then applies the extrinsic also depends on what the other extensions check, such as the nonce and
the fee, which is not looked at here.
-/

namespace Node

open Machine Runtime

/-- The calls of the runtime that the builders make. -/
inductive RuntimeCall (AccountId : Type)
  | remark (remark : List UInt8)
  | transferKeepAlive (dest : Address AccountId) (value : Balance)

/-- `EXISTENTIAL_DEPOSIT` -/
def existentialDeposit : Balance := 500

section Builders

variable {σ ε Hash AccountId Pair Sig : Type}

/-- `ExtrinsicBuilder`; `build` is called in a state of the client, and `none` is a panic. -/
structure ExtrinsicBuilder (σ AccountId Sig : Type) where
  pallet : String
  extrinsic : String
  build : Nonce → σ → Option (UncheckedExtrinsic (RuntimeCall AccountId) AccountId Sig)

/-- The accounts of `Sr25519Keyring` that are used. -/
structure Keyring (Pair : Type) where
  alice : Pair
  bob : Pair

variable (keys : Keys (RuntimeCall AccountId) Hash AccountId Pair Sig) (keyring : Keyring Pair)
  (client : Client σ ε Hash)

/-- `RemarkBuilder` -/
def remarkBuilder : ExtrinsicBuilder σ AccountId Sig where
  pallet := "system"
  extrinsic := "remark"
  build nonce s := createBenchmarkExtrinsic keys client keyring.bob (.remark []) nonce s

/-- `TransferKeepAliveBuilder` -/
def transferKeepAliveBuilder (dest : AccountId) (value : Balance) :
    ExtrinsicBuilder σ AccountId Sig where
  pallet := "balances"
  extrinsic := "transfer_keep_alive"
  build nonce s :=
    createBenchmarkExtrinsic keys client keyring.bob (.transferKeepAlive (.id dest) value) nonce s

/-- The builders that the command `benchmark extrinsic` registers. -/
def extFactory : List (ExtrinsicBuilder σ AccountId Sig) :=
  [remarkBuilder keys keyring client,
    transferKeepAliveBuilder keys keyring client (keys.accountId keyring.alice) existentialDeposit]

/-- Every registered builder signs some call with the key of Bob. -/
theorem exists_call_of_mem_extFactory {builder : ExtrinsicBuilder σ AccountId Sig}
    (h : builder ∈ extFactory keys keyring client) :
    ∃ call, ∀ nonce s, builder.build nonce s =
      createBenchmarkExtrinsic keys client keyring.bob call nonce s := by
  simp only [extFactory, List.mem_cons, List.not_mem_nil, or_false] at h
  rcases h with rfl | rfl
  · exact ⟨.remark [], fun _ _ => rfl⟩
  · exact ⟨.transferKeepAlive (.id (keys.accountId keyring.alice)) existentialDeposit,
      fun _ _ => rfl⟩

end Builders

/-! ### The check of the signature -/

/-- What the runtime does to check the signature of an extrinsic: `additional_signed` of
`SignedExtra` in a block, and the verification of signatures.  `CheckEra` fails or adds the hash it
finds, and the other extensions add the versions, the genesis hash and nothing else. -/
structure Verifier {RuntimeCall Hash AccountId Pair Sig : Type}
    (keys : Keys RuntimeCall Hash AccountId Pair Sig) (genesisHash : Hash)
    (blockHash : BlockNumber → BlockNumber → Option Hash) where
  additionalSigned : SignedExtra → BlockNumber →
    Except TransactionValidityError (AdditionalSigned Hash)
  verify : AccountId → List UInt8 → Sig → Bool
  additionalSigned_of_ok : ∀ (extra : SignedExtra) (current : BlockNumber) (hash : Hash),
    extra.checkEra.additionalSigned (blockHash current) current = some (.ok hash) →
      additionalSigned extra current = .ok
        { checkNonZeroSender := ()
          checkSpecVersion := specVersion
          checkTxVersion := transactionVersion
          checkGenesis := genesisHash
          checkEra := hash
          checkNonce := ()
          checkWeight := ()
          chargeTransactionPayment := () }
  additionalSigned_of_error : ∀ (extra : SignedExtra) (current : BlockNumber)
    (err : TransactionValidityError),
    extra.checkEra.additionalSigned (blockHash current) current = some (.error err) →
      additionalSigned extra current = .error err
  verify_sign : ∀ pair message, verify (keys.accountId pair) message (keys.sign pair message) = true

/-- The block that `CheckEra` looks up in a block past the one the era was made at. -/
theorem birth_period_eq {b current : BlockNumber} (h : b < current) {phase : U64}
    (hphase : phase.val = b.val % period.val) :
    ∃ n : U64, (Era.mortalAt period phase).birth (saturatedInto 64 current) = some n ∧
      n.val = b.val + (current.val - b.val) / period.val * period.val := by
  have hp : 0 < period.val := by rw [period_val]; decide
  have hle : b.val ≤ current.val := le_of_lt h
  obtain ⟨n, hbirth, hn, -⟩ :=
    Era.birth_val (hphase ▸ Nat.mod_lt b.val hp) (saturatedInto 64 current)
  rw [saturatedInto_val (by decide) current, hphase, birth_mod_eq hp hle] at hn
  exact ⟨n, hbirth, hn⟩

/-- What `CheckEra` finds in a later block of an era made at block `b`. -/
theorem additionalSigned_born {Hash : Type} {b current born : BlockNumber} (h : b < current)
    (hborn : born.val = b.val + (current.val - b.val) / period.val * period.val) {phase : U64}
    (hphase : phase.val = b.val % period.val) (blockHash : BlockNumber → Option Hash) :
    (Era.mortalAt period phase).additionalSigned blockHash current =
      some (match blockHash born with
        | none => .error .ancientBirthBlock
        | some hash => .ok hash) := by
  obtain ⟨n, hbirth, hn⟩ := birth_period_eq h hphase
  have hlookup : saturatedInto 32 n = born := by
    have hlt : n.val < 2 ^ 32 := by rw [hn, ← hborn]; exact born.isLt
    rw [saturatedInto_of_lt hlt]
    exact Fin.ext (hn.trans hborn.symm)
  simp only [Era.additionalSigned, hbirth, Option.bind_eq_bind, Option.bind_some, hlookup]
  cases blockHash born with
  | none => rfl
  | some hash => rfl

/-- Past its window an era made at block `b` is born again in a later block, less than a period
ago. -/
theorem exists_born {b current : BlockNumber} (h : b.val + period.val ≤ current.val) :
    ∃ born : BlockNumber, born.val = b.val + (current.val - b.val) / period.val * period.val ∧
      b < born ∧ born ≤ current ∧ current.val - born.val < period.val := by
  have hp : 0 < period.val := by rw [period_val]; decide
  have hmul : (current.val - b.val) / period.val * period.val ≤ current.val - b.val :=
    Nat.div_mul_le_self _ _
  have hnear : current.val - b.val < (current.val - b.val) / period.val * period.val + period.val :=
    Nat.lt_div_mul_add hp
  have hone : 1 * period.val ≤ (current.val - b.val) / period.val * period.val :=
    Nat.mul_le_mul_right _ ((Nat.le_div_iff_mul_le hp).mpr (by omega))
  have hle : b.val + (current.val - b.val) / period.val * period.val ≤ current.val := by omega
  refine ⟨⟨_, hle.trans_lt current.isLt⟩, rfl, ?_, hle, ?_⟩
  · show b.val < b.val + (current.val - b.val) / period.val * period.val
    omega
  · simp only
    omega

section Verified

variable {σ ε Hash AccountId Pair Sig : Type}
  (keys : Keys (RuntimeCall AccountId) Hash AccountId Pair Sig) (keyring : Keyring Pair)

/-- **The signatures of the benchmarking extrinsics, in every block.**  Let the best block of the
client stay the same while an extrinsic is built, and let the runtime keep the hashes of the last
`blockHashCount` blocks of a chain through that block, and not yet that of the block it is in.  Then
every registered builder builds an extrinsic, whatever the nonce, signed by Bob, and in a block past
the best one

* if fewer than `period` blocks have passed, the signature verifies over the payload that the
  runtime recomputes;
* if a multiple of `period` blocks has passed, no payload is recomputed, since `CheckEra` looks for
  the hash of the very block the runtime is in;
* else the payload recomputed has the hash of a block past the best one. -/
theorem benchmark_extrinsics_verified (client : Client σ ε Hash) (s : σ) {genesisHash : Hash}
    {info : ChainInfo Hash} (hgenesis : client.blockHash 0 s = .ok (some genesisHash))
    (hfirst : client.chainInfo (client.next s) = info)
    (hsecond : client.chainInfo (client.next (client.next s)) = info)
    (chain : BlockNumber → Hash) (hbest : chain info.bestNumber = info.bestHash)
    {blockHash : BlockNumber → BlockNumber → Option Hash}
    (hkept : ∀ current n : BlockNumber, n < current → current.val - n.val ≤ blockHashCount.val →
      blockHash current n = some (chain n))
    (hunknown : ∀ current : BlockNumber, blockHash current current = none)
    (runtime : Verifier keys genesisHash blockHash)
    {builder : ExtrinsicBuilder σ AccountId Sig}
    (hbuilder : builder ∈ extFactory keys keyring client) (nonce : Nonce) :
    ∃ call extra signature,
      builder.build nonce s =
        some ⟨call, some (.id (keys.accountId keyring.bob), .sr25519 signature, extra)⟩ ∧
      ∀ current : BlockNumber, info.bestNumber < current →
        (current.val < info.bestNumber.val + period.val →
          ∃ additionalSigned, runtime.additionalSigned extra current = .ok additionalSigned ∧
            runtime.verify (keys.accountId keyring.bob)
              (keys.encoded ⟨call, extra, additionalSigned⟩) signature = true) ∧
        (info.bestNumber.val + period.val ≤ current.val →
          ∃ born : BlockNumber, info.bestNumber < born ∧ born ≤ current ∧
            (born = current ↔ period.val ∣ current.val - info.bestNumber.val) ∧
            runtime.additionalSigned extra current =
              if born = current then .error .ancientBirthBlock
              else .ok (rawPayload call extra genesisHash (chain born)).additionalSigned) := by
  obtain ⟨call, hcall⟩ := exists_call_of_mem_extFactory keys keyring client hbuilder
  obtain ⟨extra, phase, hmade, hera, hphase⟩ :=
    createBenchmarkExtrinsic_eq keys hgenesis hfirst hsecond keyring.bob call nonce
  refine ⟨call, extra, _, (hcall nonce s).trans hmade, fun current hcurrent => ⟨?_, ?_⟩⟩
  · intro hwindow
    have hkeep : blockHash current info.bestNumber = some info.bestHash := by
      rw [hkept current _ hcurrent (sub_lt_blockHashCount hwindow).le, hbest]
    have hfound : extra.checkEra.additionalSigned (blockHash current) current =
        some (.ok info.bestHash) := by
      rw [hera]
      exact additionalSigned_period hcurrent hphase hwindow hkeep
    exact ⟨_, runtime.additionalSigned_of_ok extra current _ hfound, runtime.verify_sign _ _⟩
  · intro hpast
    obtain ⟨born, hborn, hafter, hle, hnear⟩ := exists_born hpast
    have hfound := additionalSigned_born hcurrent hborn hphase (blockHash current)
    rw [← hera] at hfound
    refine ⟨born, hafter, hle, ?_, ?_⟩
    · -- the birth is the current block exactly when whole periods have passed
      rw [Fin.ext_iff, hborn, Nat.dvd_iff_div_mul_eq]
      have hlt : info.bestNumber.val < current.val := hcurrent
      omega
    · by_cases heq : born = current
      · rw [heq, hunknown] at hfound
        rw [if_pos heq]
        exact runtime.additionalSigned_of_error extra current _ hfound
      · have hlt : born < current := lt_of_le_of_ne hle heq
        have hkeep : current.val - born.val ≤ blockHashCount.val := by
          have hcount : blockHashCount.val = 2400 := by decide
          rw [period_val] at hnear
          omega
        rw [hkept current born hlt hkeep] at hfound
        rw [if_neg heq]
        exact runtime.additionalSigned_of_ok extra current _ hfound

/-- An instance of `Verifier` over any signatures that verify. -/
def Verifier.plain {RuntimeCall : Type} (keys : Keys RuntimeCall Hash AccountId Pair Sig)
    (genesisHash : Hash) (blockHash : BlockNumber → BlockNumber → Option Hash)
    (verify : AccountId → List UInt8 → Sig → Bool)
    (hverify : ∀ pair message,
      verify (keys.accountId pair) message (keys.sign pair message) = true) :
    Verifier keys genesisHash blockHash where
  additionalSigned := fun extra current =>
    match extra.checkEra.additionalSigned (blockHash current) current with
    | some (.ok hash) =>
        .ok ⟨(), specVersion, transactionVersion, genesisHash, hash, (), (), ()⟩
    | some (.error err) => .error err
    | none => .error .ancientBirthBlock
  verify := verify
  additionalSigned_of_ok := fun _ _ _ h => by simp only [h]
  additionalSigned_of_error := fun _ _ _ h => by simp only [h]
  verify_sign := hverify

/-- With best block 5000 the signature on the extrinsic of the `RemarkBuilder` verifies in block
7047, and in block 7048 it comes to no verification.  Blocks stand for their hashes, accounts for
their keys, and a signature is the pair of the key and the bytes signed. -/
theorem benchmark_extrinsics_verified_remark :
    let keys : Keys (RuntimeCall ℕ) ℕ ℕ ℕ (ℕ × List UInt8) :=
      ⟨id, Prod.mk, fun payload => [UInt8.ofNat payload.additionalSigned.checkEra]⟩
    let client : Client Unit Unit ℕ := ⟨fun n _ => .ok (some n.val), fun _ => ⟨5000, 5000⟩, id⟩
    let blockHash : BlockNumber → BlockNumber → Option ℕ := fun current n =>
      if n < current ∧ current.val - n.val ≤ blockHashCount.val then some n.val else none
    let runtime : Verifier keys 0 blockHash := .plain keys 0 blockHash
      (fun account message signature => signature = (account, message))
      fun _ _ => decide_eq_true rfl
    ∃ call extra signature, (remarkBuilder keys ⟨1, 2⟩ client).build 3 () =
        some ⟨call, some (.id 2, .sr25519 signature, extra)⟩ ∧
      (∃ additionalSigned, runtime.additionalSigned extra 7047 = .ok additionalSigned ∧
        runtime.verify 2 (keys.encoded ⟨call, extra, additionalSigned⟩) signature = true) ∧
      runtime.additionalSigned extra 7048 = .error .ancientBirthBlock := by
  intro keys client blockHash runtime
  obtain ⟨call, extra, signature, hbuild, hblocks⟩ := benchmark_extrinsics_verified keys ⟨1, 2⟩
    client () rfl rfl rfl (fun n => n.val) rfl (fun _ _ h h' => if_pos ⟨h, h'⟩)
    (fun current => if_neg fun h => lt_irrefl current h.1) runtime List.mem_cons_self 3
  obtain ⟨born, -, -, hiff, hborn⟩ := (hblocks 7048 (by decide)).2 (by decide)
  have heq : born = 7048 := hiff.mpr ⟨1, by decide⟩
  rw [if_pos heq] at hborn
  exact ⟨call, extra, signature, hbuild, (hblocks 7047 (by decide)).1 (by decide), hborn⟩

end Verified

end Node

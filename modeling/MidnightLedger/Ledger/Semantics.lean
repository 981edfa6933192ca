import MidnightLedger.Ledger.Structure
import MidnightLedger.Lib.Loops

/-! The transitions of the ledger (ledger/src/semantics.rs, ledger/src/dust.rs) without their
events: Dust, contract actions, the sections of a transaction, claims, system transactions and the
update after a block. `Services` is what they take from other crates. In a run of the entry points a
rejected call leaves the state as it was; one that panics ends the run. -/
namespace MidnightLedger.Ledger
open ByteString Maps Words

structure Services (W : Components) where
  userAddress : SignatureVerifyingKey → UserAddress
  schnorrVerify : Bytes → Bytes → Bytes → Bool
  ecdsaVerify : Bytes → Bytes → Bytes → Bool
  /- The signed part of a maintenance update: address, updates and counter. -/
  updateData : ContractAddress → List SingleUpdate → U32 → Bytes
  intentHash : Intent W → Segment → IntentHash
  initialNonce : U32 → IntentHash → InitialNonce
  outputHash : UnshieldedTokenType → OutputInstructionUnshielded → IntentHash
  deployAddress : ContractDeploy W → ContractAddress
  authoritySize : ContractMaintenanceAuthority → Nat
  operationSize : Bytes → ContractOperation → Nat
  dustFirstNonce : InitialNonce → DustPublicKey → Fr
  dustCommitment : U128 → DustPublicKey → Fr → Timestamp → DustCommitment
  commitmentHash : DustCommitment → HashOutput
  generationHash : DustGenerationInfo → HashOutput
  nullData : W.ChargedState
  runTranscript : ContractState W → BlockContext → Intent W → ComIndices →
    ContractCall W → Transcript W → W.Pricing → Except W.Rejection (W.ChargedState × Effects)
  zswapNew : W.ZswapState
  zswapTryApply : W.ZswapState → W.ZswapOffer → Whitelist →
    Except W.Rejection (W.ZswapState × ComIndices)
  zswapPostBlockUpdate : W.ZswapState → Timestamp → Duration → W.ZswapState
  minClaimableRewards : LedgerParameters W → U128
  updatePricing : LedgerParameters W → W.Fullness → W.Pricing
  withinLimits : W.Fullness → Bool

inductive BalanceOperation where
  | addition
  | subtraction
  deriving DecidableEq, Repr

inductive InvariantViolation where
  | nightBalance (total : U128)
  deriving DecidableEq, Repr

inductive DustStateError where
  | merkleTreeError (e : InvalidUpdate)
  | generationInfoAlreadyPresent (info : DustGenerationInfo)
  deriving DecidableEq, Repr

variable (W : Components)

inductive TransactionInvalid where
  | effectsMismatch (declared actual : Effects)
  | contractAlreadyDeployed (address : ContractAddress)
  | contractNotPresent (address : ContractAddress)
  | zswap (reason : W.Rejection)
  | transcript (reason : W.Rejection)
  | insufficientClaimable (requested claimable : U128) (claimant : UserAddress) (kind : ClaimKind)
  | verifierKeyNotFound (entryPoint : Bytes) (version : ContractOperationVersion)
  | verifierKeyAlreadyPresent (entryPoint : Bytes) (version : ContractOperationVersion)
  | replayCounterMismatch (address : ContractAddress)
  | replayProtectionViolation (e : TransactionApplicationError)
  | balanceCheckOutOfBounds (tokenType : TokenType) (currentBalance operationValue : U128)
      (operation : BalanceOperation)
  | inputNotInUtxos (utxo : Utxo)
  | dustDoubleSpend (nullifier : DustNullifier)
  | dustDeregistrationNotRegistered (address : UserAddress)
  | generationInfoAlreadyPresent (info : DustGenerationInfo)
  | invariantViolation (e : InvariantViolation)
  | rewardTooSmall (claimed minimum : U128)
  | divideByZero
  | merkleTreeError (e : InvalidUpdate)
  | contractMetadataTooLarge (address : ContractAddress) (entryPoint : Bytes) (size : Nat)
      (limit : U64)
  | contractAuthorityMetadataTooLarge (address : ContractAddress) (size : Nat) (limit : U64)
  | irNotFound (entryPoint : Bytes)
  | irAlreadyPresent (entryPoint : Bytes)

abbrev Applied (α : Type) := Outcome (TransactionInvalid W) α

abbrev Log := List (Segment × Option (TransactionInvalid W))

variable {W}

def TransactionInvalid.ofDust : DustStateError → TransactionInvalid W
  | .merkleTreeError e => .merkleTreeError e
  | .generationInfoAlreadyPresent info => .generationInfoAlreadyPresent info

inductive SystemTransactionError where
  | illegalPayout (claimedAmount : Option U128) (supply : U128) (bridgedAmount : Option U128)
      (locked : U128)
  | replayProtectionFailure (e : TransactionApplicationError)
  | illegalReserveDistribution (distributedAmount reserveSupply : U128)
  | generationInfoAlreadyPresent (info : DustGenerationInfo)
  | invalidBasisPoints (points : U32)
  | invariantViolation (e : InvariantViolation)
  | treasuryDisabled
  | merkleTreeError (e : InvalidUpdate)
  deriving DecidableEq, Repr

def SystemTransactionError.ofDust : DustStateError → SystemTransactionError
  | .merkleTreeError e => .merkleTreeError e
  | .generationInfoAlreadyPresent info => .generationInfoAlreadyPresent info

namespace Services

variable (S : Services W)

def verify : SignatureVerifyingKey → Bytes → Signature → Bool
  | .schnorr key, message, .schnorr signature => S.schnorrVerify key message signature
  | .ecdsa key, message, .ecdsa signature => S.ecdsaVerify key message signature
  | _, _, _ => false

def spendNonce (spend : UtxoSpend) : InitialNonce := S.initialNonce spend.outputNo spend.intentHash

def utxoNonce (utxo : Utxo) : InitialNonce := S.initialNonce utxo.outputNo utxo.intentHash

def spentUtxo (spend : UtxoSpend) : Utxo where
  value := spend.value
  owner := S.userAddress spend.owner
  type := spend.type
  intentHash := spend.intentHash
  outputNo := spend.outputNo

def createdUtxo (hash : IntentHash) (output : UtxoOutput × Nat) : Utxo where
  value := output.1.value
  owner := output.1.owner
  type := output.1.type
  intentHash := hash
  outputNo := BitVec.ofNat 32 output.2

def dataToSign (upd : MaintenanceUpdate) : Bytes :=
  S.updateData upd.address upd.updates upd.counter

end Services

/- `debug_assert!(false)` followed by leaving the state as it is. -/
def debugAssertFalse {ε α : Type} (build : Build) (a : α) : Outcome ε α :=
  match build with
  | .debug => .error .panic
  | .release => .ok a

def UnshieldedOffer.nightInputs (offer : UnshieldedOffer) : List UtxoSpend :=
  offer.inputs.filter (fun input => input.type = night)

def UnshieldedOffer.nightOutputs (offer : UnshieldedOffer) : List (UtxoOutput × Nat) :=
  offer.outputs.zipIdx.filter (fun output => output.1.type = night)

def Intent.registrations (intent : Intent W) : List DustRegistration :=
  match intent.dustActions with
  | some actions => actions.registrations
  | none => []

namespace DustState

variable (S : Services W)

def applySpend (state : DustState) (spend : DustSpend) : Applied W DustState :=
  if spend.oldNullifier ∈ state.utxo.nullifiers then reject (.dustDoubleSpend spend.oldNullifier)
  else do
    let commitments ← lift .merkleTreeError (state.utxo.commitments.tryUpdateHash
      state.utxo.commitmentsFirstFree (S.commitmentHash spend.newCommitment) ())
    .ok { state with utxo := {
      commitments := commitments
      commitmentsFirstFree := state.utxo.commitmentsFirstFree + 1
      nullifiers := spend.oldNullifier :: state.utxo.nullifiers } }

def freshDustOutput (state : DustState) (initialNonce : InitialNonce)
    (initialValue nightValue : U128) (dustAddr : DustPublicKey) (tnow : Timestamp) :
    Except DustStateError DustState := do
  let nonce := S.dustFirstNonce initialNonce dustAddr
  let commitment := S.dustCommitment initialValue dustAddr nonce tnow
  let commitments ← (state.utxo.commitments.tryUpdateHash state.utxo.commitmentsFirstFree
    (S.commitmentHash commitment) ()).mapError .merkleTreeError
  let genInfo : DustGenerationInfo := ⟨nightValue, dustAddr, initialNonce, Timestamp.max⟩
  let generation := state.generation
  if genInfo.unique ∈ generation.generatingSet then .error (.generationInfoAlreadyPresent genInfo)
  else
    let tree ← (generation.generatingTree.tryUpdateHash generation.generatingTreeFirstFree
      (S.generationHash genInfo) genInfo).mapError .merkleTreeError
    .ok {
      utxo := { state.utxo with
        commitments := commitments
        commitmentsFirstFree := state.utxo.commitmentsFirstFree + 1 }
      generation := { generation with
        generatingTree := tree
        generatingTreeFirstFree := generation.generatingTreeFirstFree + 1
        generatingSet := genInfo.unique :: generation.generatingSet
        nightIndices :=
          generation.nightIndices.insert initialNonce generation.generatingTreeFirstFree } }

def setDtime (build : Build) (state : DustState) (idx : Nat) (time : Timestamp) :
    Outcome InvalidUpdate DustState :=
  match state.generation.generatingTree.index idx with
  | none => debugAssertFalse build state
  | some (_, found) => do
    let genInfo : DustGenerationInfo := { found with dtime := time }
    let tree ← lift id
      (state.generation.generatingTree.tryUpdateHash idx (S.generationHash genInfo) genInfo)
    .ok { state with generation := { state.generation with generatingTree := tree } }

def spendNight (build : Build) (tblock : Timestamp) (state : DustState) (input : UtxoSpend) :
    Applied W DustState :=
  match state.generation.nightIndices.lookup (S.spendNonce input) with
  | none => .ok state
  | some idx => mapFault .merkleTreeError (state.setDtime S build idx tblock)

/- Outputs of the guaranteed offer whose owner the intent registers wait for the
registration. -/
def handledByRegistration (parent : Intent W) (segment : Segment) (owner : UserAddress) : Bool :=
  segment = guaranteedSegment ∧
    parent.registrations.any (fun reg => owner = S.userAddress reg.nightKey)

def creditNight (parent : Intent W) (segment : Segment) (tblock : Timestamp) (state : DustState)
    (output : UtxoOutput × Nat) : Applied W DustState :=
  match state.generation.addressDelegation.lookup output.1.owner with
  | none => .ok state
  | some dustAddr =>
    if handledByRegistration S parent segment output.1.owner then .ok state
    else
      lift .ofDust (state.freshDustOutput S
        (S.initialNonce (BitVec.ofNat 32 output.2) (S.intentHash parent segment)) 0
        output.1.value dustAddr tblock)

def applyOffer (build : Build) (state : DustState) (offer : UnshieldedOffer) (parent : Intent W)
    (segment : Segment) (tblock : Timestamp) : Applied W DustState := do
  let spent ← offer.nightInputs.foldlM (spendNight S build tblock) state
  offer.nightOutputs.foldlM (creditNight S parent segment tblock) spent

def generationlessFeeAvailability (state : DustState) (utxos : Map Utxo UtxoMeta)
    (parent : Intent W) (nightKey : SignatureVerifyingKey) (params : DustParameters) : U128 :=
  let inputs := ((parent.guaranteedUnshieldedOffer.map (·.inputs)).getD []).filter (fun i =>
    i.owner = nightKey ∧ i.type = night ∧
      (state.generation.nightIndices.lookup (S.spendNonce i)).isNone)
  match parent.dustActions with
  | none => 0
  | some actions =>
    (inputs.map fun i =>
      let vfull := saturatingMul i.value (params.nightDustRatio.setWidth 128)
      let rate := saturatingMul i.value (params.generationDecayRate.setWidth 128)
      match utxos.lookup (S.spentUtxo i) with
      | none => 0
      | some utxoMeta =>
        let dt := BitVec.ofNat 128 (actions.ctime.toNat - utxoMeta.ctime.toNat)
        let valueUnchecked := saturatingMul dt rate
        if vfull < valueUnchecked then vfull else valueUnchecked).foldl saturatingAdd 0

def distributionResolution : U128 := 10000

def ownedOutputs (parent : Intent W) (address : UserAddress) : List (UtxoOutput × Nat) :=
  ((parent.guaranteedUnshieldedOffer.map (·.nightOutputs)).getD []).filter
    (fun output => output.1.owner = address)

def delegate (state : DustState) (registration : DustRegistration) : Applied W DustState :=
  let address := S.userAddress registration.nightKey
  let delegation := state.generation.addressDelegation
  match registration.dustAddress with
  | none =>
    if (delegation.lookup address).isNone then reject (.dustDeregistrationNotRegistered address)
    else .ok { state with
      generation := { state.generation with addressDelegation := delegation.erase address } }
  | some dustAddress =>
    .ok { state with generation := { state.generation with
      addressDelegation := delegation.insert address dustAddress } }

def registerOutput (parent : Intent W) (dustAddr : DustPublicKey) (outputSum dustOut : U128)
    (tnow : Timestamp) (state : DustState) (output : UtxoOutput × Nat) :
    Applied W DustState :=
  if outputSum = 0 then reject .divideByZero
  else
    let ratio := saturatingMul output.1.value distributionResolution / outputSum
    let initialValue := saturatingMul ratio dustOut / distributionResolution
    lift .ofDust (state.freshDustOutput S
      (S.initialNonce (BitVec.ofNat 32 output.2) (S.intentHash parent guaranteedSegment))
      initialValue output.1.value dustAddr tnow)

def smaller (a b : U128) : U128 := if a ≤ b then a else b

def applyRegistration (state : DustState) (utxos : Map Utxo UtxoMeta) (feesRemaining : U128)
    (parent : Intent W) (registration : DustRegistration) (params : DustParameters)
    (tnow : Timestamp) : Applied W (DustState × U128) := do
  let delegated ← delegate S state registration
  let owned := ownedOutputs parent (S.userAddress registration.nightKey)
  let dustIn := generationlessFeeAvailability S state utxos parent registration.nightKey params
  let feePaid := smaller feesRemaining (smaller registration.allowFeePayment dustIn)
  let dustOut := dustIn - feePaid
  match registration.dustAddress with
  | none => .ok (delegated, feesRemaining - feePaid)
  | some dustAddr =>
    let outputSum := (owned.map (·.1.value)).foldl saturatingAdd 0
    let registered ←
      owned.foldlM (registerOutput S parent dustAddr outputSum dustOut tnow) delegated
    .ok (registered, feesRemaining - feePaid)

end DustState

def Effects.same (a b : Effects) : Bool :=
  sameSet a.claimedNullifiers b.claimedNullifiers &&
  sameSet a.claimedShieldedReceives b.claimedShieldedReceives &&
  sameSet a.claimedShieldedSpends b.claimedShieldedSpends &&
  sameSet a.claimedContractCalls b.claimedContractCalls &&
  sameMap a.shieldedMints b.shieldedMints &&
  sameMap a.unshieldedMints b.unshieldedMints &&
  sameMap a.unshieldedInputs b.unshieldedInputs &&
  sameMap a.unshieldedOutputs b.unshieldedOutputs &&
  sameMap a.claimedUnshieldedSpends b.claimedUnshieldedSpends

def whitelistMatches (whitelist : Whitelist) (address : ContractAddress) : Bool :=
  match whitelist with
  | some wl => address ∈ wl
  | none => true

def ContractOperationVersion.has (version : ContractOperationVersion) (op : ContractOperation) :
    Bool :=
  match version with
  | .v3 => op.v2.isSome
  | .v4 => op.v3.isSome

def ContractOperationVersion.rmFrom (version : ContractOperationVersion) (op : ContractOperation) :
    ContractOperation :=
  match version with
  | .v3 => { op with v2 := none }
  | .v4 => { op with v3 := none }

namespace ContractOperationVersionedVerifierKey

def asVersion : ContractOperationVersionedVerifierKey → ContractOperationVersion
  | v3 _ => .v3
  | v4 _ => .v4

def insertInto (key : ContractOperationVersionedVerifierKey) (op : ContractOperation) :
    ContractOperation :=
  match key with
  | v3 vk => { op with v2 := some vk }
  | v4 vk => { op with v3 := some vk }

end ContractOperationVersionedVerifierKey

def balanceOf {K : Type} [DecidableEq K] (balance : Map K U128) (key : K) : U128 :=
  (balance.lookup key).getD 0

namespace ContractState

/- An operation that lost its last part is removed. -/
def setOperation (cstate : ContractState W) (entryPoint : Bytes) (op : ContractOperation) :
    ContractState W :=
  { cstate with operations :=
      if op = .blank then cstate.operations.erase entryPoint
      else cstate.operations.insert entryPoint op }

def applyUpdate (cstate : ContractState W) : SingleUpdate → Applied W (ContractState W)
  | .replaceAuthority authority => .ok { cstate with maintenanceAuthority := authority }
  | .verifierKeyRemove ep version =>
    match cstate.operations.lookup ep with
    | some op =>
      if version.has op then .ok (cstate.setOperation ep (version.rmFrom op))
      else reject (.verifierKeyNotFound ep version)
    | none => reject (.verifierKeyNotFound ep version)
  | .verifierKeyInsert ep key =>
    let op := (cstate.operations.lookup ep).getD .blank
    if key.asVersion.has op then reject (.verifierKeyAlreadyPresent ep key.asVersion)
    else .ok { cstate with operations := cstate.operations.insert ep (key.insertInto op) }
  | .irRemove ep =>
    match cstate.operations.lookup ep with
    | some op => .ok (cstate.setOperation ep { op with ir := none })
    | none => reject (.irNotFound ep)
  | .irInsert ep ir =>
    let op := (cstate.operations.lookup ep).getD .blank
    if op.ir.isSome then reject (.irAlreadyPresent ep)
    else .ok { cstate with operations := cstate.operations.insert ep { op with ir := some ir } }

/- The counter is raised first, so a new authority brings its own. -/
def bumpCounter (cstate : ContractState W) : ContractState W :=
  { cstate with maintenanceAuthority := { cstate.maintenanceAuthority with
      counter := saturatingAdd cstate.maintenanceAuthority.counter 1 } }

def maintain (cstate : ContractState W) (upd : MaintenanceUpdate) : Applied W (ContractState W) :=
  if cstate.maintenanceAuthority.counter ≠ upd.counter then
    reject (.replayCounterMismatch upd.address)
  else upd.updates.foldlM applyUpdate cstate.bumpCounter

end ContractState

inductive MetadataSizeError where
  | entryPoint (entryPoint : Bytes) (size : Nat)
  | authority (size : Nat)
  deriving DecidableEq, Repr

def MetadataSizeError.invalid (address : ContractAddress) (limit : U64) :
    MetadataSizeError → TransactionInvalid W
  | .entryPoint ep size => .contractMetadataTooLarge address ep size limit
  | .authority size => .contractAuthorityMetadataTooLarge address size limit

section

variable (S : Services W)

def checkEntryPointMetadataSizes (state : ContractState W) (limit : U64) :
    Except MetadataSizeError Unit :=
  if limit.toNat < S.authoritySize state.maintenanceAuthority then
    .error (.authority (S.authoritySize state.maintenanceAuthority))
  else state.operations.entries.forM fun entry =>
    if limit.toNat < S.operationSize entry.1 entry.2 then
      .error (.entryPoint entry.1 (S.operationSize entry.1 entry.2))
    else .ok ()

def moveBalance (op : U128 → U128 → Option U128) (operation : BalanceOperation)
    (balance : Map TokenType U128) (entry : Sigma fun _ : TokenType => U128) :
    Applied W (Map TokenType U128) :=
  let bal := balanceOf balance entry.1
  match op bal entry.2 with
  | some moved => .ok (balance.insert entry.1 moved)
  | none => reject (.balanceCheckOutOfBounds entry.1 bal entry.2 operation)

/- What goes into the contract is added before what leaves it is taken. -/
def applyBalances (balance : Map TokenType U128) (effects : Effects) :
    Applied W (Map TokenType U128) := do
  let credited ← effects.unshieldedInputs.entries.foldlM (moveBalance checkedAdd .addition) balance
  effects.unshieldedOutputs.entries.foldlM (moveBalance checkedSub .subtraction) credited

def ContractCall.transcript (call : ContractCall W) (guaranteed : Bool) : Option (Transcript W) :=
  if guaranteed then call.guaranteedTranscript else call.fallibleTranscript

namespace LedgerState

def updateIndex (state : LedgerState W) (address : ContractAddress) (data : W.ChargedState)
    (balance : Map TokenType U128) : LedgerState W :=
  let contract := (state.contract.lookup address).getD ⟨S.nullData, ∅, ⟨[], 1, 0⟩, ∅⟩
  { state with contract :=
      state.contract.insert address { contract with data := data, balance := balance } }

def applyCall (params : LedgerParameters W) (guaranteed : Bool) (context : TransactionContext W)
    (parent : Intent W) (comIndices : ComIndices) (res : LedgerState W)
    (call : ContractCall W) : Applied W (LedgerState W) :=
  match res.contract.lookup call.address with
  | none => reject (.contractNotPresent call.address)
  | some cstate =>
    match call.transcript guaranteed with
    | none => .ok res
    | some transcript => do
      let (data, effects) ← lift .transcript (S.runTranscript cstate context.blockContext parent
        comIndices call transcript params.pricing)
      if effects.same transcript.effects then
        let balance ← applyBalances cstate.balance transcript.effects
        .ok (res.updateIndex S call.address data balance)
      else reject (.effectsMismatch transcript.effects effects)

def applyDeploy (params : LedgerParameters W) (res : LedgerState W) (deploy : ContractDeploy W) :
    Applied W (LedgerState W) :=
  let address := S.deployAddress deploy
  if (res.contract.lookup address).isSome then reject (.contractAlreadyDeployed address)
  else do
    let limit := params.maxContractMetadataSize
    lift (MetadataSizeError.invalid address limit)
      (checkEntryPointMetadataSizes S deploy.initialState limit)
    .ok { res with contract := res.contract.insert address deploy.initialState }

def applyMaintain (params : LedgerParameters W) (res : LedgerState W) (upd : MaintenanceUpdate) :
    Applied W (LedgerState W) :=
  match res.contract.lookup upd.address with
  | none => reject (.contractNotPresent upd.address)
  | some cstate => do
    let updated ← cstate.maintain upd
    let limit := params.maxContractMetadataSize
    lift (MetadataSizeError.invalid upd.address limit) (checkEntryPointMetadataSizes S updated limit)
    .ok { res with contract := res.contract.insert upd.address updated }

/- Actions on contracts outside the whitelist are passed over; deployments and
maintenance run in the fallible section only. -/
def applyAction (params : LedgerParameters W) (guaranteed : Bool) (context : TransactionContext W)
    (parent : Intent W) (comIndices : ComIndices) (res : LedgerState W) :
    ContractAction W → Applied W (LedgerState W)
  | .call call =>
    if whitelistMatches context.whitelist call.address then
      applyCall S params guaranteed context parent comIndices res call
    else .ok res
  | .deploy deploy =>
    if whitelistMatches context.whitelist (S.deployAddress deploy) ∧ ¬ guaranteed then
      applyDeploy S params res deploy
    else .ok res
  | .maintain upd =>
    if whitelistMatches context.whitelist upd.address ∧ ¬ guaranteed then
      applyMaintain S params res upd
    else .ok res

def applyActions (state : LedgerState W) (actions : List (ContractAction W)) (guaranteed : Bool)
    (context : TransactionContext W) (parent : Intent W) (comIndices : ComIndices) :
    Applied W (LedgerState W) :=
  actions.foldlM (applyAction S state.parameters guaranteed context parent comIndices) state

end LedgerState

end

def Utxo.night (utxo : Utxo) : U128 := if utxo.type = Ledger.night then utxo.value else 0

def ContractState.night (state : ContractState W) : U128 :=
  balanceOf state.balance (.unshielded Ledger.night)

/- `NightAnn` of a persistent map: the saturating sum over its entries. -/
def nightAnn {K V : Type} (night : K → V → U128) (m : Map K V) : U128 :=
  (m.entries.map (fun entry => night entry.1 entry.2)).foldl saturatingAdd 0

namespace ReplayProtectionState

variable (S : Services W)

/- The hash of an intent for replay protection does not depend on its segment. -/
def applyIntent (state : ReplayProtectionState) (intent : Intent W) (tblock : Timestamp)
    (globalTtl : Duration) : Except TransactionApplicationError ReplayProtectionState :=
  state.applyMember (S.intentHash intent 0) intent.ttl tblock globalTtl

def applyTx (state : ReplayProtectionState) (tx : StandardTransaction W) (tblock : Timestamp)
    (globalTtl : Duration) : Except TransactionApplicationError ReplayProtectionState :=
  (sortedIter tx.intents).foldlM
    (fun st entry => applyIntent S st entry.2 tblock globalTtl) state

end ReplayProtectionState

namespace UtxoState

variable (S : Services W)

def spend (utxos : Map Utxo UtxoMeta) (input : UtxoSpend) : Applied W (Map Utxo UtxoMeta) :=
  if (utxos.lookup (S.spentUtxo input)).isSome then .ok (utxos.erase (S.spentUtxo input))
  else reject (.inputNotInUtxos (S.spentUtxo input))

def create (hash : IntentHash) (tblock : Timestamp) (utxos : Map Utxo UtxoMeta)
    (output : UtxoOutput × Nat) : Map Utxo UtxoMeta :=
  utxos.insert (Services.createdUtxo hash output) ⟨tblock⟩

def applyOffer (utxos : Map Utxo UtxoMeta) (offer : UnshieldedOffer) (parent : Intent W)
    (segment : Segment) (tblock : Timestamp) :
    Applied W (Map Utxo UtxoMeta) := do
  let spent ← offer.inputs.foldlM (spend S) utxos
  .ok (offer.outputs.zipIdx.foldl (create (S.intentHash parent segment) tblock) spent)

end UtxoState

namespace StandardTransaction

def fallibleSegments (tx : StandardTransaction W) : List Segment :=
  ((tx.intents.keys ++ tx.fallibleCoins.keys).filter (· ≠ guaranteedSegment)).dedup.insertionSort
    (· ≤ ·)

end StandardTransaction

namespace LedgerState

def treasuryNight (state : LedgerState W) : U128 := balanceOf state.treasury (.unshielded night)

def checkNightBalanceInvariant (build : Build) (state : LedgerState W) :
    Outcome InvariantViolation Unit := do
  let utxos := nightAnn (fun utxo _ => Utxo.night utxo) state.utxo
  let unclaimedRewards := nightAnn (fun _ value => value) state.unclaimedBlockRewards
  let bridgeReceiving := nightAnn (fun _ value => value) state.bridgeReceiving
  let contractValue := nightAnn (fun _ contract => ContractState.night contract) state.contract
  let total ← plainAdd build utxos state.lockedPool
  let total ← plainAdd build total state.reservePool
  let total ← plainAdd build total state.blockRewardPool
  let total ← plainAdd build total state.treasuryNight
  let total ← plainAdd build total unclaimedRewards
  let total ← plainAdd build total bridgeReceiving
  let total ← plainAdd build total contractValue
  if total = BitVec.ofNat 128 maxSupply then .ok () else reject (.nightBalance total)

section

variable (S : Services W) (build : Build)

def applyZswap (state : LedgerState W) (offer : W.ZswapOffer) (whitelist : Whitelist) :
    Applied W (LedgerState W × ComIndices) := do
  let (zswap, comIndices) ← lift .zswap (S.zswapTryApply state.zswap offer whitelist)
  .ok ({ state with zswap := zswap }, comIndices)

def applyZswapOption (state : LedgerState W) (offer : Option W.ZswapOffer) (whitelist : Whitelist) :
    Applied W (LedgerState W × ComIndices) :=
  match offer with
  | some offer => applyZswap S state offer whitelist
  | none => .ok (state, ∅)

def applyUnshielded (state : LedgerState W) (offer : Option UnshieldedOffer) (intent : Intent W)
    (segment : Segment) (context : TransactionContext W) :
    Applied W (LedgerState W) :=
  match offer with
  | none => .ok state
  | some offer => do
    let tblock := context.blockContext.tblock
    let utxo ← UtxoState.applyOffer S state.utxo offer intent segment tblock
    let dust ← state.dust.applyOffer S build offer intent segment tblock
    .ok { state with utxo := utxo, dust := dust }

def checkFallibleOffers (state : LedgerState W) (tx : StandardTransaction W)
    (context : TransactionContext W) : Applied W Unit := do
  let _ ← (sortedIter tx.fallibleCoins).foldlM (fun zswap entry => do
    let (next, _) ← lift .zswap (S.zswapTryApply zswap entry.2 context.whitelist)
    .ok next) state.zswap
  .ok ()

def guaranteedIntent (context : TransactionContext W) (comIndices : ComIndices)
    (state : LedgerState W) (entry : Segment × Intent W) :
    Applied W (LedgerState W) := do
  let intent := entry.2
  let moved ← state.applyUnshielded S build intent.guaranteedUnshieldedOffer intent
    guaranteedSegment context
  moved.applyActions S intent.actions true context intent comIndices

def guaranteedSpend (state : LedgerState W × U128) (spend : DustSpend) :
    Applied W (LedgerState W × U128) := do
  let dust ← state.1.dust.applySpend S spend
  .ok ({ state.1 with dust := dust }, saturatingSub state.2 spend.vFee)

def guaranteedRegistration (context : TransactionContext W) (state : LedgerState W × U128)
    (entry : Intent W × Timestamp × DustRegistration) :
    Applied W (LedgerState W × U128) := do
  let (intent, ctime, registration) := entry
  let (dust, feesRemaining) ← state.1.dust.applyRegistration S context.refState.utxo state.2
    intent registration state.1.parameters.dust ctime
  .ok ({ state.1 with dust := dust }, feesRemaining)

def dustSpends (tx : StandardTransaction W) : List DustSpend :=
  (sortedIter tx.intents).flatMap fun entry =>
    match entry.2.dustActions with
    | some actions => actions.spends
    | none => []

def dustRegistrations (tx : StandardTransaction W) :
    List (Intent W × Timestamp × DustRegistration) :=
  (sortedIter tx.intents).flatMap fun entry =>
    match entry.2.dustActions with
    | some actions => actions.registrations.map (fun reg => (entry.2, actions.ctime, reg))
    | none => []

/- All spends of the transaction come first, then all registrations. A fee that is left
over at the end is only logged. -/
def applyGuaranteed (state : LedgerState W) (tx : StandardTransaction W) (fees : U128)
    (context : TransactionContext W) : Applied W (LedgerState W) := do
  let replay ← lift .replayProtectionViolation (state.replayProtection.applyTx S tx
    context.blockContext.tblock state.parameters.globalTtl)
  let (state, comIndices) ← { state with replayProtection := replay }.applyZswapOption S
    tx.guaranteedCoins context.whitelist
  checkFallibleOffers S state tx context
  let state ← (sortedIter tx.intents).foldlM (guaranteedIntent S build context comIndices) state
  let (state, feesRemaining) ← (dustSpends tx).foldlM (guaranteedSpend S) (state, fees)
  let (state, _) ←
    (dustRegistrations tx).foldlM (guaranteedRegistration S context) (state, feesRemaining)
  .ok state

def applyFallibleOffers (state : LedgerState W) (tx : StandardTransaction W) (segment : Segment)
    (context : TransactionContext W) :
    Applied W (LedgerState W × ComIndices) := do
  let (state, comIndices) ←
    state.applyZswapOption S (tx.fallibleCoins.lookup segment) context.whitelist
  match tx.intents.lookup segment with
  | none => .ok (state, comIndices)
  | some intent => do
    let moved ← state.applyUnshielded S build intent.fallibleUnshieldedOffer intent segment context
    .ok (moved, comIndices)

def applyFallible (state : LedgerState W) (tx : StandardTransaction W) (segment : Segment)
    (context : TransactionContext W) : Applied W (LedgerState W) := do
  let (state, comIndices) ← state.applyFallibleOffers S build tx segment context
  match tx.intents.lookup segment with
  | none => .ok state
  | some intent => state.applyActions S intent.actions false context intent comIndices

def applySection (state : LedgerState W) (tx : StandardTransaction W) (fees : U128)
    (segment : Segment) (context : TransactionContext W) :
    Applied W (LedgerState W) := do
  let applied ← (if segment = guaranteedSegment then state.applyGuaranteed S build tx fees context
    else state.applyFallible S build tx segment context)
  mapFault .invariantViolation (applied.checkNightBalanceInvariant build)
  .ok applied

end

end LedgerState

open Loops

variable (W) in
inductive TransactionResult where
  | success
  | partialSuccess (segments : Log W)
  | failure (e : TransactionInvalid W)

/- Whole ten-thousandths of the value, computed without leaving the word. -/
def basisPointsOf (points : U32) (val : U128) : Except SystemTransactionError U128 :=
  if 10000 < points then .error (.invalidBasisPoints points)
  else
    let quotient := val / 10000
    let remainder := val % 10000
    .ok (quotient * points.setWidth 128 + remainder * points.setWidth 128 / 10000)

namespace LedgerState

section

variable (S : Services W) (build : Build)

def claimable (state : LedgerState W) (kind : ClaimKind) (address : UserAddress) : U128 :=
  match kind with
  | .cardanoBridge => balanceOf state.bridgeReceiving address
  | .reward => balanceOf state.unclaimedBlockRewards address

def leave (balances : Map UserAddress U128) (address : UserAddress) (remaining : U128) :
    Map UserAddress U128 :=
  if remaining = 0 then balances.erase address else balances.insert address remaining

def takeClaim (state : LedgerState W) (kind : ClaimKind) (address : UserAddress)
    (remaining : U128) : LedgerState W :=
  match kind with
  | .cardanoBridge =>
    { state with bridgeReceiving := leave state.bridgeReceiving address remaining }
  | .reward =>
    { state with unclaimedBlockRewards := leave state.unclaimedBlockRewards address remaining }

def claimedUtxo (tx : ClaimRewardsTransaction) : Utxo where
  value := tx.value
  owner := S.userAddress tx.owner
  type := night
  intentHash := S.outputHash night ⟨tx.value, S.userAddress tx.owner, tx.nonce⟩
  outputNo := 0

def claimDust (state : LedgerState W) (output : Utxo) (tblock : Timestamp) :
    Except DustStateError DustState :=
  match state.dust.generation.addressDelegation.lookup output.owner with
  | none => .ok state.dust
  | some dustAddr =>
    state.dust.freshDustOutput S (S.utxoNonce output) 0 output.value dustAddr tblock

def claimUnshielded (state : LedgerState W) (tx : ClaimRewardsTransaction)
    (context : BlockContext) : Applied W (LedgerState W) := do
  let output := claimedUtxo S tx
  let claimable := state.claimable tx.kind output.owner
  if claimable < tx.value then
    reject (.insufficientClaimable tx.value claimable output.owner tx.kind)
  else if tx.kind = .reward ∧ tx.value < S.minClaimableRewards state.parameters then
    reject (.rewardTooSmall tx.value (S.minClaimableRewards state.parameters))
  else do
    let ttl := Timestamp.add context.tblock state.parameters.globalTtl
    let replay ← lift .replayProtectionViolation (state.replayProtection.applyMember
      output.intentHash ttl context.tblock state.parameters.globalTtl)
    let dust ← lift .ofDust (state.claimDust S output context.tblock)
    let claimed := { state.takeClaim tx.kind output.owner (claimable - tx.value) with
      utxo := state.utxo.insert output ⟨context.tblock⟩
      replayProtection := replay
      dust := dust }
    mapFault .invariantViolation (claimed.checkNightBalanceInvariant build)
    .ok claimed

/- One fallible segment: an invalid one leaves the state and the run goes on. -/
def fallibleStep (tx : StandardTransaction W) (fees : U128) (context : TransactionContext W)
    (acc : LedgerState W × Log W) (segment : Segment) :
    Except Panic (LedgerState W × Log W) :=
  match acc.1.applySection S build tx fees segment context with
  | .ok next => .ok (next, acc.2 ++ [(segment, none)])
  | .error (.error e) => .ok (acc.1, acc.2 ++ [(segment, some e)])
  | .error .panic => .error .panic

def applyFallibleSegments (state : LedgerState W) (tx : StandardTransaction W) (fees : U128)
    (context : TransactionContext W) : Except Panic (LedgerState W × TransactionResult W) := do
  let (final, segments) ← tx.fallibleSegments.foldlM (fallibleStep S build tx fees context)
    (state, [(guaranteedSegment, none)])
  if segments.all (fun segment => segment.2.isNone) then .ok (final, .success)
  else .ok (final, .partialSuccess segments)

def applyGuaranteedOnly (state : LedgerState W) (tx : VerifiedTransaction W)
    (context : TransactionContext W) : Applied W (LedgerState W) :=
  match tx.inner with
  | .standard stx => state.applySection S build stx tx.fees guaranteedSegment context
  | .claimRewards rewards => state.claimUnshielded S build rewards context.blockContext

def apply (state : LedgerState W) (tx : VerifiedTransaction W) (context : TransactionContext W) :
    Except Panic (LedgerState W × TransactionResult W) :=
  match state.applyGuaranteedOnly S build tx context with
  | .error (.error e) => .ok (state, .failure e)
  | .error .panic => .error .panic
  | .ok guaranteed =>
    match tx.inner with
    | .standard stx => guaranteed.applyFallibleSegments S build stx tx.fees context
    | .claimRewards _ => .ok (guaranteed, .success)

def creditReward (state : LedgerState W) (output : OutputInstructionUnshielded) : LedgerState W :=
  let balances := state.unclaimedBlockRewards
  let credited := saturatingAdd (balanceOf balances output.targetAddress) output.amount
  { state with unclaimedBlockRewards := balances.insert output.targetAddress credited }

def payTreasury (state : LedgerState W) (amount : U128) : LedgerState W :=
  let credited := saturatingAdd state.treasuryNight amount
  { state with treasury := state.treasury.insert (.unshielded night) credited }

def bridgeFees (state : LedgerState W) (amount : U128) : Except SystemTransactionError U128 :=
  if amount < state.parameters.cToMBridgeMinAmount then .ok amount
  else basisPointsOf state.parameters.cardanoToMidnightBridgeFeeBasisPoints amount

def creditBridge (state : LedgerState W) (output : OutputInstructionUnshielded) :
    Outcome SystemTransactionError (LedgerState W) := do
  let fees ← lift id (state.bridgeFees output.amount)
  let balances := state.bridgeReceiving
  let credited := saturatingAdd (balanceOf balances output.targetAddress) (output.amount - fees)
  .ok { state.payTreasury fees with
    bridgeReceiving := balances.insert output.targetAddress credited }

def distribute (kind : ClaimKind) (tblock : Timestamp) (state : LedgerState W)
    (output : OutputInstructionUnshielded) :
    Outcome SystemTransactionError (LedgerState W) := do
  let globalTtl := state.parameters.globalTtl
  let replay ← lift .replayProtectionFailure (state.replayProtection.applyMember
    (S.outputHash night output) (Timestamp.add tblock globalTtl) tblock globalTtl)
  let protectedState := { state with replayProtection := replay }
  match kind with
  | .reward => .ok (protectedState.creditReward output)
  | .cardanoBridge => protectedState.creditBridge output

def payouts (kind : ClaimKind) (sum : U128) : U128 × U128 :=
  match kind with
  | .reward => (sum, 0)
  | .cardanoBridge => (0, sum)

def distributeNight (state : LedgerState W) (kind : ClaimKind)
    (outputs : List OutputInstructionUnshielded) (tblock : Timestamp) :
    Outcome SystemTransactionError (LedgerState W) :=
  let totals := (outputs.foldlM (fun sum o => checkedAdd sum o.amount) 0).map (payouts kind)
  let refusal := SystemTransactionError.illegalPayout (totals.map Prod.fst) state.blockRewardPool
    (totals.map Prod.snd) state.lockedPool
  match totals with
  | none => reject refusal
  | some (claimed, bridged) =>
    if claimed ≤ state.blockRewardPool ∧ bridged ≤ state.lockedPool then do
      let paid := { state with
        blockRewardPool := state.blockRewardPool - claimed
        lockedPool := state.lockedPool - bridged }
      let final ← outputs.foldlM (distribute S kind tblock) paid
      mapFault .invariantViolation (final.checkNightBalanceInvariant build)
      .ok final
    else reject refusal

def cNightUpdate (dust : DustState) (action : CNightGeneratesDustEvent) :
    Outcome SystemTransactionError DustState :=
  match action.action with
  | .create => lift .ofDust
      (dust.freshDustOutput S action.nonce 0 action.value action.owner action.time)
  | .destroy =>
    match dust.generation.nightIndices.lookup action.nonce with
    | none => debugAssertFalse build dust
    | some idx => mapFault .merkleTreeError (dust.setDtime S build idx action.time)

/- The pools moved by a system transaction are checked before it takes effect. -/
def checked (state : LedgerState W) : Outcome SystemTransactionError (LedgerState W) := do
  mapFault .invariantViolation (state.checkNightBalanceInvariant build)
  .ok state

def applySystemTx (state : LedgerState W) (tx : SystemTransaction W) (tblock : Timestamp) :
    Outcome SystemTransactionError (LedgerState W) :=
  match tx with
  | .overwriteParameters parameters =>
    let points := parameters.cardanoToMidnightBridgeFeeBasisPoints
    if 10000 < points then reject (.invalidBasisPoints points)
    else .ok { state with parameters := parameters }
  | .distributeNight kind outputs => state.distributeNight S build kind outputs tblock
  | .payBlockRewardsToTreasury amount =>
    if state.blockRewardPool < amount then
      reject (.illegalPayout (some amount) state.blockRewardPool none state.lockedPool)
    else checked build
      { state.payTreasury amount with blockRewardPool := state.blockRewardPool - amount }
  | .unlockToTreasury amount =>
    if state.lockedPool < amount then
      reject (.illegalPayout none state.blockRewardPool (some amount) state.lockedPool)
    else checked build
      { state.payTreasury amount with lockedPool := state.lockedPool - amount }
  | .payFromTreasuryShielded | .payFromTreasuryUnshielded => reject .treasuryDisabled
  | .cNightGeneratesDustUpdate actions => do
    let dust ← actions.foldlM (cNightUpdate S build) state.dust
    .ok { state with dust := dust }
  | .distributeReserve amount =>
    if state.reservePool < amount then
      reject (.illegalReserveDistribution amount state.reservePool)
    else do
      let blockRewardPool ← plainAdd build state.blockRewardPool amount
      checked build { state with
        reservePool := state.reservePool - amount
        blockRewardPool := blockRewardPool }
  | .unlockToReserve amount =>
    if state.lockedPool < amount then
      reject (.illegalPayout none state.blockRewardPool (some amount) state.lockedPool)
    else do
      let reservePool ← plainAdd build state.reservePool amount
      checked build { state with
        lockedPool := state.lockedPool - amount
        reservePool := reservePool }

/- The Dust trees are rehashed and their roots recorded; neither changes an entry. -/
def applyPostBlockUpdate (state : LedgerState W) (tblock : Timestamp) (fullness : W.Fullness) :
    LedgerState W :=
  { state with
    parameters := { state.parameters with pricing := S.updatePricing state.parameters fullness }
    replayProtection := state.replayProtection.postBlockUpdate tblock
    zswap := S.zswapPostBlockUpdate state.zswap tblock state.parameters.globalTtl }

def postBlockUpdate (state : LedgerState W) (tblock : Timestamp) (fullness : W.Fullness) :
    Option (LedgerState W) :=
  if S.withinLimits fullness then some (state.applyPostBlockUpdate S tblock fullness) else none

def withGenesisSettings (networkId : String) (parameters : LedgerParameters W)
    (lockedPool reservePool treasury : U128) : Outcome InvariantViolation (LedgerState W) := do
  let result : LedgerState W := {
    networkId := networkId
    parameters := parameters
    lockedPool := lockedPool
    bridgeReceiving := ∅
    reservePool := reservePool
    blockRewardPool := 0
    unclaimedBlockRewards := ∅
    treasury := AList.insert (.unshielded night) treasury ∅
    zswap := S.zswapNew
    contract := ∅
    utxo := ∅
    replayProtection := TimeFilterMap.empty
    dust := DustState.default }
  result.checkNightBalanceInvariant build
  .ok result

end

end LedgerState

variable (W) in
inductive Step where
  | transaction (tx : VerifiedTransaction W) (context : TransactionContext W)
  | system (tx : SystemTransaction W) (tblock : Timestamp)
  | postBlock (tblock : Timestamp) (fullness : W.Fullness)

def step (S : Services W) (build : Build) (state : LedgerState W) :
    Step W → Except Panic (LedgerState W)
  | .transaction tx context => do
    let (next, _) ← state.apply S build tx context
    .ok next
  | .system tx tblock =>
    match state.applySystemTx S build tx tblock with
    | .ok next => .ok next
    | .error (.error _) => .ok state
    | .error .panic => .error .panic
  | .postBlock tblock fullness => .ok ((state.postBlockUpdate S tblock fullness).getD state)

def sampleComponents : Components where
  ZswapOffer := Unit
  ZswapState := Unit
  ChargedState := Unit
  Program := Unit
  Binding := Unit
  Evidence := Unit
  Pricing := Unit
  Fullness := Unit
  Rejection := Unit

/- Hashes that keep what tells the sample values apart; a signature is the key itself. -/
def sampleServices : Services sampleComponents where
  userAddress
    | .schnorr key => ⟨BitVec.ofNat 256 (2 * leNat key)⟩
    | .ecdsa key => ⟨BitVec.ofNat 256 (2 * leNat key + 1)⟩
  schnorrVerify key _ signature := key = signature
  ecdsaVerify key _ signature := key = signature
  updateData _ _ _ := []
  intentHash intent segment := ⟨BitVec.ofNat 256 (intent.ttl.toNat * 65536 + segment.val)⟩
  initialNonce outputNo hash := ⟨BitVec.ofNat 256 (hash.hash.toNat * 2 ^ 32 + outputNo.toNat)⟩
  outputHash _ output := ⟨BitVec.ofNat 256 (2 ^ 100 + output.nonce.toNat)⟩
  deployAddress deploy := ⟨deploy.nonce⟩
  authoritySize _ := 0
  operationSize _ _ := 0
  dustFirstNonce _ _ := 0
  dustCommitment _ _ _ _ := ⟨0⟩
  commitmentHash _ := 0
  generationHash _ := 0
  nullData := ()
  runTranscript _ _ _ _ _ transcript _ := .ok ((), transcript.effects)
  zswapNew := ()
  zswapTryApply _ _ _ := .ok ((), ∅)
  zswapPostBlockUpdate _ _ _ := ()
  minClaimableRewards _ := 0
  updatePricing _ _ := ()
  withinLimits _ := true

def sampleParameters : LedgerParameters sampleComponents where
  pricing := ()
  transactionByteLimit := 1000
  maxContractMetadataSize := 1000
  dust := ⟨5, 1, 0⟩
  globalTtl := 1000
  cardanoToMidnightBridgeFeeBasisPoints := 0
  cToMBridgeMinAmount := 0

def sampleGenesis : LedgerState sampleComponents :=
  value (LedgerState.withGenesisSettings sampleServices .debug "net" sampleParameters 0
    (BitVec.ofNat 128 maxSupply) 0) (by decide +kernel)

def sampleContext : TransactionContext sampleComponents := ⟨sampleGenesis, ⟨5, 0, 0, 0⟩, none⟩

def sampleClaim : ClaimRewardsTransaction := ⟨"net", 100, .schnorr [1], 3, .reward⟩

def samplePayout : List (Step sampleComponents) :=
  [.system (.distributeReserve 100) 5,
    .system (.distributeNight .reward [⟨100, sampleServices.userAddress (.schnorr [1]), 4⟩]) 5,
    .transaction ⟨.claimRewards sampleClaim, 0, 0⟩ sampleContext]

def sampleSpend : UtxoSpend :=
  ⟨100, .schnorr [1], night, (LedgerState.claimedUtxo sampleServices sampleClaim).intentHash, 0⟩

end MidnightLedger.Ledger

import MidnightLedger.Lib.Maps
import MidnightLedger.Lib.MerkleTrees
import MidnightLedger.Crypto.Field

/-! The data of the ledger (ledger/src/structure.rs, ledger/src/dust.rs, coin-structure,
onchain-runtime/src/context.rs) and its replay protection (ledger/src/semantics.rs). A transaction
is modelled after `erase_signatures` and `erase_proofs`; what these drop is one component of its
own. -/
namespace MidnightLedger.Ledger
open ByteString Maps Words AList

abbrev U32 := BitVec 32
abbrev U64 := BitVec 64
abbrev U128 := BitVec 128
abbrev HashOutput := BitVec 256
abbrev Segment := Fin 65536

instance segmentNeZero : NeZero 65536 := ⟨by decide⟩

def guaranteedSegment : Segment := 0

/- Seconds; `Timestamp::MAX` stands for "never". -/
abbrev Timestamp := U64
abbrev Duration := Int

def Timestamp.max : Timestamp := BitVec.allOnes 64

/- `Timestamp + Duration`: the duration is cut to 64 bits, the sum saturates. -/
def Timestamp.add (t : Timestamp) (d : Duration) : Timestamp :=
  if 0 ≤ d then saturatingAdd t (BitVec.ofInt 64 d)
  else saturatingSub t (if d.natAbs < 2 ^ 64 then BitVec.ofNat 64 d.natAbs else BitVec.allOnes 64)

def Timestamp.sub (t : Timestamp) (d : Duration) : Timestamp :=
  if 0 ≤ d then saturatingSub t (BitVec.ofInt 64 d)
  else saturatingAdd t (if d.natAbs < 2 ^ 64 then BitVec.ofNat 64 d.natAbs else BitVec.allOnes 64)

/- An exact number of seconds cut to the range of timestamps. -/
def clampSeconds (seconds : Int) : Int := max 0 (min seconds (2 ^ 64 - 1))

def Clamped (t : Timestamp) (d : Duration) : Prop :=
  (t.add d).toNat = clampSeconds (t.toNat + d) ∧ (t.sub d).toNat = clampSeconds (t.toNat - d)

section
variable (t : Timestamp) {d : Int}

theorem timestampForward (sign : 0 ≤ d) :
    ((t.add d).toNat : Int) = min (t.toNat + d % 2 ^ 64) (2 ^ 64 - 1) ∧
      ((t.sub d).toNat : Int) = max 0 (t.toNat - d % 2 ^ 64) := by
  rw [Timestamp.add, Timestamp.sub, if_pos sign, if_pos sign, saturatingAddToNat,
    saturatingSubToNat, BitVec.toNat_ofInt]
  omega

theorem timestampBackward (sign : d < 0) : ((t.add d).toNat : Int) = max 0 (t.toNat + d) ∧
      ((t.sub d).toNat : Int) = min (t.toNat - d) (2 ^ 64 - 1) := by
  rw [Timestamp.add, Timestamp.sub, if_neg (not_le.mpr sign), if_neg (not_le.mpr sign),
    saturatingAddToNat, saturatingSubToNat]
  split
  · rw [BitVec.toNat_ofNat]
    omega
  · rw [BitVec.toNat_allOnes]
    omega

variable (d)

/- A duration of 2^64 seconds or more is cut to 64 bits by `rhs.0 as u64`, where a negative one is
narrowed with saturation. -/
theorem durationsClamped :
    (Clamped t d ↔ d < 2 ^ 64 ∨ 2 ^ 64 - 1 ≤ t.toNat + d % 2 ^ 64 ∧ t.toNat ≤ d % 2 ^ 64) ∧
    (∀ later, t ≤ later → t.add d ≤ later.add d ∧ t.sub d ≤ later.sub d) ∧
    (∀ longer : Int, d ≤ longer → Clamped t d → Clamped t longer →
      t.add d ≤ t.add longer ∧ t.sub longer ≤ t.sub d) ∧
    (0 ≤ d → (t.add d).sub d ≤ t) ∧ (d < 0 → t ≤ (t.add d).sub d) := by
  have size := t.isLt
  simp only [BitVec.le_def, Clamped, clampSeconds]
  refine ⟨?_, fun later order => ?_, fun longer order exact exactLonger => by omega,
    fun sign => ?_, fun sign => ?_⟩
  · obtain sign | sign := lt_or_ge d 0
    · have values := timestampBackward t sign
      omega
    · have values := timestampForward t sign
      omega
  · obtain sign | sign := lt_or_ge d 0
    · have values := timestampBackward t sign
      have laterValues := timestampBackward later sign
      omega
    · have values := timestampForward t sign
      have laterValues := timestampForward later sign
      omega
  · have values := timestampForward t sign
    have back := timestampForward (t.add d) sign
    omega
  · have values := timestampBackward t sign
    have back := timestampBackward (t.add d) sign
    omega

end

theorem longDurationCut : ¬ Clamped 5 (2 ^ 64) := by
  intro exact
  have sum := exact.1
  revert sum
  decide

structure UserAddress where
  hash : HashOutput
  deriving DecidableEq, Repr

structure ContractAddress where
  hash : HashOutput
  deriving DecidableEq, Repr

/- The contracts that a context tracks, if not all of them. -/
abbrev Whitelist := Option (List ContractAddress)

/- Where new commitments stand in the tree. -/
abbrev ComIndices := Map HashOutput Nat

structure IntentHash where
  hash : HashOutput
  deriving DecidableEq, Repr

structure InitialNonce where
  hash : HashOutput
  deriving DecidableEq, Repr

structure UnshieldedTokenType where
  hash : HashOutput
  deriving DecidableEq, Repr

structure ShieldedTokenType where
  hash : HashOutput
  deriving DecidableEq, Repr

structure DustPublicKey where
  field : Fr
  deriving DecidableEq, Repr

structure DustNullifier where
  field : Fr
  deriving DecidableEq, Repr

structure DustCommitment where
  field : Fr
  deriving DecidableEq, Repr

def night : UnshieldedTokenType := ⟨0⟩

inductive TokenType where
  | unshielded (type : UnshieldedTokenType)
  | shielded (type : ShieldedTokenType)
  | dust
  deriving DecidableEq, Repr

inductive PublicAddress where
  | contract (address : ContractAddress)
  | user (address : UserAddress)
  deriving DecidableEq, Repr

inductive SignatureVerifyingKey where
  | schnorr (key : Bytes)
  | ecdsa (key : Bytes)
  deriving DecidableEq, Repr

inductive Signature where
  | schnorr (signature : Bytes)
  | ecdsa (signature : Bytes)
  deriving DecidableEq, Repr

/- The parts of the ledger that its transitions only pass through. `Program` is what a
transcript holds beside its effects, `Evidence` the signatures and proofs of a
transaction, `Pricing` the cost model and the prices in the parameters, `Rejection` the
reason with which another component refuses. -/
structure Components where
  ZswapOffer : Type
  ZswapState : Type
  ChargedState : Type
  Program : Type
  Binding : Type
  Evidence : Type
  Pricing : Type
  Fullness : Type
  Rejection : Type

variable (W : Components)

structure Utxo where
  value : U128
  owner : UserAddress
  type : UnshieldedTokenType
  intentHash : IntentHash
  outputNo : U32
  deriving DecidableEq, Repr

structure UtxoOutput where
  value : U128
  owner : UserAddress
  type : UnshieldedTokenType
  deriving DecidableEq, Repr

structure UtxoSpend where
  value : U128
  owner : SignatureVerifyingKey
  type : UnshieldedTokenType
  intentHash : IntentHash
  outputNo : U32
  deriving DecidableEq, Repr

structure UtxoMeta where
  ctime : Timestamp
  deriving DecidableEq, Repr

structure UnshieldedOffer where
  inputs : List UtxoSpend
  outputs : List UtxoOutput
  deriving DecidableEq, Repr

structure DustSpend where
  vFee : U128
  oldNullifier : DustNullifier
  newCommitment : DustCommitment
  deriving DecidableEq, Repr

structure DustRegistration where
  nightKey : SignatureVerifyingKey
  dustAddress : Option DustPublicKey
  allowFeePayment : U128
  deriving DecidableEq, Repr

structure DustActions where
  spends : List DustSpend
  registrations : List DustRegistration
  ctime : Timestamp
  deriving DecidableEq, Repr

structure ClaimedContractCallsValue where
  seq : U64
  address : ContractAddress
  entryPoint : HashOutput
  commitment : Fr
  deriving DecidableEq, Repr

structure Effects where
  claimedNullifiers : List HashOutput
  claimedShieldedReceives : List HashOutput
  claimedShieldedSpends : List HashOutput
  claimedContractCalls : List ClaimedContractCallsValue
  shieldedMints : Map HashOutput U64
  unshieldedMints : Map HashOutput U64
  unshieldedInputs : Map TokenType U128
  unshieldedOutputs : Map TokenType U128
  claimedUnshieldedSpends : Map (TokenType × PublicAddress) U128

def Effects.default : Effects := ⟨[], [], [], [], ∅, ∅, ∅, ∅, ∅⟩

structure Transcript where
  effects : Effects
  program : W.Program

structure ContractCall where
  address : ContractAddress
  entryPoint : Bytes
  guaranteedTranscript : Option (Transcript W)
  fallibleTranscript : Option (Transcript W)
  communicationCommitment : Fr

structure ContractMaintenanceAuthority where
  committee : List SignatureVerifyingKey
  threshold : U32
  counter : U32
  deriving DecidableEq, Repr

structure ContractOperation where
  v2 : Option Bytes
  v3 : Option Bytes
  ir : Option Bytes
  deriving DecidableEq, Repr

def ContractOperation.blank : ContractOperation := ⟨none, none, none⟩

structure ContractState where
  data : W.ChargedState
  operations : Map Bytes ContractOperation
  maintenanceAuthority : ContractMaintenanceAuthority
  balance : Map TokenType U128

structure ContractDeploy where
  initialState : ContractState W
  nonce : HashOutput

inductive ContractOperationVersion where
  | v3
  | v4
  deriving DecidableEq, Repr

inductive ContractOperationVersionedVerifierKey where
  | v3 (key : Bytes)
  | v4 (key : Bytes)
  deriving DecidableEq, Repr

inductive SingleUpdate where
  | replaceAuthority (authority : ContractMaintenanceAuthority)
  | verifierKeyRemove (entryPoint : Bytes) (version : ContractOperationVersion)
  | verifierKeyInsert (entryPoint : Bytes) (key : ContractOperationVersionedVerifierKey)
  | irRemove (entryPoint : Bytes)
  | irInsert (entryPoint : Bytes) (ir : Bytes)
  deriving DecidableEq, Repr

structure MaintenanceUpdate where
  address : ContractAddress
  updates : List SingleUpdate
  counter : U32
  signatures : List (U32 × Signature)
  deriving DecidableEq, Repr

inductive ContractAction where
  | call (call : ContractCall W)
  | deploy (deploy : ContractDeploy W)
  | maintain (update : MaintenanceUpdate)

structure Intent where
  guaranteedUnshieldedOffer : Option UnshieldedOffer
  fallibleUnshieldedOffer : Option UnshieldedOffer
  actions : List (ContractAction W)
  dustActions : Option DustActions
  ttl : Timestamp
  bindingCommitment : W.Binding

structure StandardTransaction where
  networkId : String
  intents : Map Segment (Intent W)
  guaranteedCoins : Option W.ZswapOffer
  fallibleCoins : Map Segment W.ZswapOffer

inductive ClaimKind where
  | reward
  | cardanoBridge
  deriving DecidableEq, Repr

structure ClaimRewardsTransaction where
  networkId : String
  value : U128
  owner : SignatureVerifyingKey
  nonce : HashOutput
  kind : ClaimKind
  deriving DecidableEq, Repr

inductive Transaction where
  | standard (tx : StandardTransaction W)
  | claimRewards (tx : ClaimRewardsTransaction)

structure VerifiedTransaction where
  inner : Transaction W
  hash : HashOutput
  fees : U128

structure DustParameters where
  nightDustRatio : U64
  generationDecayRate : U32
  dustGracePeriod : Duration
  deriving DecidableEq, Repr

structure LedgerParameters where
  pricing : W.Pricing
  transactionByteLimit : U64
  maxContractMetadataSize : U64
  dust : DustParameters
  globalTtl : Duration
  cardanoToMidnightBridgeFeeBasisPoints : U32
  cToMBridgeMinAmount : U128

structure OutputInstructionUnshielded where
  amount : U128
  targetAddress : UserAddress
  nonce : HashOutput
  deriving DecidableEq, Repr

inductive CNightGeneratesDustActionType where
  | create
  | destroy
  deriving DecidableEq, Repr

structure CNightGeneratesDustEvent where
  value : U128
  owner : DustPublicKey
  time : Timestamp
  action : CNightGeneratesDustActionType
  nonce : InitialNonce
  deriving DecidableEq, Repr

/- Both payments from the treasury are disabled; their outputs are never read. -/
inductive SystemTransaction where
  | overwriteParameters (parameters : LedgerParameters W)
  | distributeNight (kind : ClaimKind) (outputs : List OutputInstructionUnshielded)
  | payBlockRewardsToTreasury (amount : U128)
  | payFromTreasuryShielded
  | payFromTreasuryUnshielded
  | distributeReserve (amount : U128)
  | cNightGeneratesDustUpdate (events : List CNightGeneratesDustEvent)
  | unlockToTreasury (amount : U128)
  | unlockToReserve (amount : U128)

structure DustGenerationInfo where
  value : U128
  owner : DustPublicKey
  nonce : InitialNonce
  dtime : Timestamp
  deriving DecidableEq, Repr

structure DustGenerationUniquenessInfo where
  value : U128
  owner : DustPublicKey
  nonce : InitialNonce
  deriving DecidableEq, Repr

def DustGenerationInfo.unique (info : DustGenerationInfo) : DustGenerationUniquenessInfo :=
  ⟨info.value, info.owner, info.nonce⟩

/- A Merkle tree of the ledger by its leaves; the ledger never collapses one. -/
structure MerkleTree (A : Type) where
  height : Nat
  leaves : Map Nat (HashOutput × A)

inductive InvalidUpdate where
  | indexOutOfTree (index : Nat)
  deriving DecidableEq, Repr

def MerkleTree.blank {A : Type} (height : Nat) : MerkleTree A := ⟨height, ∅⟩

def MerkleTree.tryUpdateHash {A : Type} (tree : MerkleTree A) (index : Nat) (leaf : HashOutput)
    (aux : A) : Except InvalidUpdate (MerkleTree A) :=
  if index ≥ 2 ^ tree.height then .error (.indexOutOfTree index)
  else .ok { tree with leaves := tree.leaves.insert index (leaf, aux) }

def MerkleTree.index {A : Type} (tree : MerkleTree A) (index : Nat) : Option (HashOutput × A) :=
  tree.leaves.lookup index

def dustCommitmentTreeDepth : Nat := 32
def dustGenerationTreeDepth : Nat := 32

/- The histories of the tree roots are read only when a spend is checked. -/
structure DustUtxoState where
  commitments : MerkleTree Unit
  commitmentsFirstFree : Nat
  nullifiers : List DustNullifier

structure DustGenerationState where
  addressDelegation : Map UserAddress DustPublicKey
  generatingTree : MerkleTree DustGenerationInfo
  generatingTreeFirstFree : Nat
  generatingSet : List DustGenerationUniquenessInfo
  nightIndices : Map InitialNonce Nat

structure DustState where
  utxo : DustUtxoState
  generation : DustGenerationState

def DustState.default : DustState where
  utxo := ⟨.blank dustCommitmentTreeDepth, 0, []⟩
  generation := ⟨∅, .blank dustGenerationTreeDepth, 0, [], ∅⟩

/- `TimeFilterMap<HashSet<_>>`: the values by time, and how often each occurs. -/
structure TimeFilterMap (A : Type) where
  timeMap : Map Timestamp (List A)
  set : Map A Nat

abbrev ReplayProtectionState := TimeFilterMap IntentHash

structure LedgerState where
  networkId : String
  parameters : LedgerParameters W
  lockedPool : U128
  bridgeReceiving : Map UserAddress U128
  reservePool : U128
  blockRewardPool : U128
  unclaimedBlockRewards : Map UserAddress U128
  treasury : Map TokenType U128
  zswap : W.ZswapState
  contract : Map ContractAddress (ContractState W)
  utxo : Map Utxo UtxoMeta
  replayProtection : ReplayProtectionState
  dust : DustState

def starsPerNight : Nat := 1000000
def maxSupply : Nat := 24000000000 * starsPerNight

structure BlockContext where
  tblock : Timestamp
  tblockErr : U32
  parentBlockHash : HashOutput
  lastBlockTime : Timestamp
  deriving DecidableEq, Repr

structure TransactionContext where
  refState : LedgerState W
  blockContext : BlockContext
  whitelist : Whitelist

namespace TimeFilterMap

variable {A : Type} [DecidableEq A]

def empty : TimeFilterMap A := ⟨∅, ∅⟩

def count (m : TimeFilterMap A) (v : A) : Nat := (m.set.lookup v).getD 0

def contains (m : TimeFilterMap A) (v : A) : Bool := (m.set.lookup v).isSome

def upsertOne (m : TimeFilterMap A) (ts : Timestamp) (v : A) : TimeFilterMap A :=
  let xs := (m.timeMap.lookup ts).getD []
  { timeMap := m.timeMap.insert ts (if v ∈ xs then xs else xs ++ [v])
    set := m.set.insert v (m.count v + 1) }

/- `MultiSet::remove`: an element whose count reaches zero leaves the set. -/
def removeOne (set : Map A Nat) (v : A) : Map A Nat :=
  match (set.lookup v).getD 0 - 1 with
  | 0 => set.erase v
  | left + 1 => set.insert v (left + 1)

/- `insert` replaces the bucket of its time by the one value. -/
def insert (m : TimeFilterMap A) (ts : Timestamp) (v : A) : TimeFilterMap A :=
  let set := ((m.timeMap.lookup ts).getD []).foldl removeOne m.set
  { timeMap := m.timeMap.insert ts [v]
    set := set.insert v ((set.lookup v).getD 0 + 1) }

def filter (m : TimeFilterMap A) (cutoff : Timestamp) : TimeFilterMap A :=
  let removed := m.timeMap.entries.filter (fun entry => entry.1 < cutoff)
  { timeMap := removed.foldl (fun kept entry => kept.erase entry.1) m.timeMap
    set := (removed.flatMap (fun entry => entry.2)).foldl removeOne m.set }

variable {w : A} {m : TimeFilterMap A}

theorem removeAllKeeps {vs : List A} {set : Map A Nat}
    (kept : ((vs.foldl removeOne set).lookup w).isSome) : (set.lookup w).isSome := by
  induction vs generalizing set with
  | nil => exact kept
  | cons v vs ih =>
    have before := ih kept
    rw [removeOne] at before
    by_cases same : w = v
    · subst same
      split at before
      · rw [lookup_erase] at before
        cases before
      · rename_i left counted
        cases found : set.lookup w with
        | none =>
          rw [found] at counted
          cases counted
        | some n => rfl
    · split at before
      · rwa [lookup_erase_ne same] at before
      · rwa [lookup_insert_ne same] at before

theorem containsInsert {ts : Timestamp} {v : A} (inside : (m.insert ts v).contains w) :
    w = v ∨ m.contains w := by
  by_cases same : w = v
  · exact .inl same
  · rw [contains, insert, lookup_insert_ne same] at inside
    exact .inr (removeAllKeeps inside)

theorem containsFiltered {cutoff : Timestamp} (inside : (m.filter cutoff).contains w) :
    m.contains w := removeAllKeeps inside

end TimeFilterMap

inductive TransactionApplicationError where
  | intentTtlExpired (ttl tblock : Timestamp)
  | intentTtlTooFarInFuture (ttl limit : Timestamp)
  | intentAlreadyExists
  deriving DecidableEq, Repr

namespace ReplayProtectionState

def applyMember (state : ReplayProtectionState) (hash : IntentHash) (ttl tblock : Timestamp)
    (globalTtl : Duration) : Except TransactionApplicationError ReplayProtectionState :=
  if state.contains hash then .error .intentAlreadyExists
  else if ttl < tblock then .error (.intentTtlExpired ttl tblock)
  else if tblock.add globalTtl < ttl then
    .error (.intentTtlTooFarInFuture ttl (tblock.add globalTtl))
  else .ok (state.upsertOne ttl hash)

def postBlockUpdate (state : ReplayProtectionState) (tblock : Timestamp) : ReplayProtectionState :=
  state.filter tblock

end ReplayProtectionState

/- The tree hashing of the sample runs. -/
abbrev TreeHashing := MerkleTrees.Hashing HashOutput Fr

def sampleHashing : TreeHashing where
  leaf hash := Fr.ofNat hash.toNat
  node left right := left + 2 * right + 1
  empty := 0

end MidnightLedger.Ledger

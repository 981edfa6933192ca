import MidnightLedger.Ledger.MemoInspection
import MidnightLedger.Zswap.Coins
import MidnightLedger.Lib.Journals

/-! The events of the ledger (ledger/src/events.rs) with the transitions that emit them, and the
wallet that replays the Zswap events (`ZswapLocalStateExt::replay_events` in
ledger/src/semantics.rs). A deferred event that cannot be worked out when its section has been
applied is `none` here. -/
namespace MidnightLedger.Ledger
open ByteString Maps Words Loops Zswap

structure EventSource where
  transactionHash : HashOutput
  logicalSegment : Segment
  physicalSegment : Segment
  deriving DecidableEq, Repr

inductive ZswapPreimageEvidence where
  | ciphertext (ciphertext : Bytes)
  | publicPreimage (coin : CoinInfo) (recipient : Recipient)
  | none
  deriving DecidableEq, Repr

inductive EventDetails where
  | zswapInput (nullifier : Nullifier) (contract : Option ContractAddress)
  | zswapOutput (commitment : Commitment) (preimageEvidence : ZswapPreimageEvidence)
      (contract : Option ContractAddress) (mtIndex : Nat)
  deriving DecidableEq, Repr

structure Event where
  source : EventSource
  content : EventDetails
  deriving DecidableEq, Repr

inductive EventReplayError where
  | nonLinearInsertion (expectedNext received : Nat) (treeName : String)
  | eventForPastTime (synced event : Timestamp)
  | merkleTreeError (e : MerkleTrees.InvalidUpdate)
  deriving DecidableEq, Repr

structure ZswapStateChanges where
  receivedCoins : List QualifiedCoinInfo
  spentCoins : List QualifiedCoinInfo
  source : HashOutput
  deriving DecidableEq, Repr

structure WithZswapStateChanges where
  changes : List ZswapStateChanges
  result : LocalState

def addChange (changes : List ZswapStateChanges) (change : ZswapStateChanges) :
    List ZswapStateChanges :=
  match changes.getLast? with
  | some last =>
    if last.source = change.source then
      changes.dropLast ++ [⟨last.receivedCoins ++ change.receivedCoins,
        last.spentCoins ++ change.spentCoins, last.source⟩]
    else changes ++ [change]
  | none => changes ++ [change]

def maybeAddChange (changes : List ZswapStateChanges) :
    Option ZswapStateChanges → List ZswapStateChanges
  | some change => addChange changes change
  | none => changes

section Replay

variable {E : Type} (C : Cryptography E) (H : TreeHashing)
  (keys : SecretKeys E)

def ZswapPreimageEvidence.tryWithKeys : ZswapPreimageEvidence → Option CoinInfo
  | .ciphertext encrypted => keys.tryDecrypt C encrypted
  | .publicPreimage coin (.user publicKey) =>
    if publicKey = keys.coinPublicKey C then some coin else Option.none
  | .publicPreimage _ (.contract _) => Option.none
  | .none => Option.none

def replayInput (source : HashOutput) (state : LocalState) (nullifier : Nullifier) :
    LocalState × Option ZswapStateChanges :=
  (state.spent nullifier, (state.coins.lookup nullifier).map fun coin => ⟨[], [coin], source⟩)

/- The commitment of an opened coin is not compared with the one of the event. -/
def replayOutput (source : HashOutput) (state : LocalState) (commitment : Commitment)
    (preimageEvidence : ZswapPreimageEvidence) (mtIndex : Nat) :
    Except EventReplayError (LocalState × Option ZswapStateChanges) :=
  if mtIndex ≠ state.firstFree then
    .error (.nonLinearInsertion state.firstFree mtIndex "zswap commitment")
  else do
    let merkleTree ← (state.merkleTree.tryUpdateHash _ mtIndex commitment ()).mapError
      .merkleTreeError
    let written := { state with merkleTree := merkleTree, firstFree := state.firstFree + 1 }
    match state.pendingOutputs.lookup commitment with
    | some coin =>
      .ok ((written.settle commitment).receive (coin.nullifier C keys.sender) coin mtIndex,
        some ⟨[coin.qualify mtIndex], [], source⟩)
    | none =>
      match preimageEvidence.tryWithKeys C keys with
      | some coin =>
        .ok (written.receive (coin.nullifier C keys.sender) coin mtIndex,
          some ⟨[coin.qualify mtIndex], [], source⟩)
      | none =>
        .ok ({ written with merkleTree := merkleTree.collapse H _ mtIndex mtIndex }, none)

/- Inputs of contracts are none of the wallet's. -/
def replayEvent (state : LocalState) (event : Event) :
    Except EventReplayError (LocalState × Option ZswapStateChanges) :=
  match event.content with
  | .zswapInput nullifier none =>
    .ok (replayInput event.source.transactionHash state nullifier)
  | .zswapInput _ (some _) => .ok (state, none)
  | .zswapOutput commitment preimageEvidence _ mtIndex =>
    replayOutput C H keys event.source.transactionHash state commitment preimageEvidence mtIndex

def replayStep (acc : WithZswapStateChanges) (event : Event) :
    Except EventReplayError WithZswapStateChanges := do
  let (result, change) ← replayEvent C H keys acc.result event
  .ok ⟨maybeAddChange acc.changes change, result⟩

def replayEventsWithChanges (state : LocalState) (events : List Event) :
    Except EventReplayError WithZswapStateChanges := do
  let res ← events.foldlM (replayStep C H keys) ⟨[], state⟩
  .ok { res with result := { res.result with merkleTree := res.result.merkleTree.rehash H } }

def replayEvents (state : LocalState) (events : List Event) : Except EventReplayError LocalState :=
  (replayEventsWithChanges C H keys state events).map WithZswapStateChanges.result

end Replay

section Emission

variable (H : TreeHashing)

def preimageEvidence (out : Output) : ZswapPreimageEvidence :=
  match out.ciphertext with
  | some encrypted => .ciphertext encrypted
  | none => .none

def inputEvent (source : EventSource) (inp : Input) : Event :=
  ⟨source, .zswapInput inp.nullifier inp.contractAddress⟩

/- The index of a processed coin is expected to be known. -/
def outputEvent (source : EventSource) (comIndices : ComIndices) (out : Output) : Option Event := do
  let mtIndex ← comIndices.lookup out.coinCom
  some ⟨source, .zswapOutput out.coinCom (preimageEvidence out) out.contractAddress mtIndex⟩

def zswapEvents (source : EventSource) (offer : Offer) (comIndices : ComIndices) :
    Option (List Event) := do
  let outputs ← offer.created.mapM (outputEvent source comIndices)
  some ((offer.spent H).map (inputEvent source) ++ outputs)

end Emission

namespace LedgerState

section

variable {W : Components} (S : Services W.shielded) (H : TreeHashing)
  (build : Build)

def offerEvents (state : LedgerState W.shielded) (transactionHash : HashOutput)
    (tx : StandardTransaction W.shielded) (segment : Segment)
    (context : TransactionContext W.shielded) :
    Applied W.shielded (List Event) :=
  match tx.offerAt segment with
  | none => .ok []
  | some offer => do
    let (_, comIndices) ← state.applyZswap S offer context.whitelist
    match zswapEvents H ⟨transactionHash, segment, segment⟩ offer comIndices with
    | some events => .ok events
    | none => .error .panic

def sectionEmitting (vt : VerifiedTransaction W.shielded) (tx : StandardTransaction W.shielded)
    (context : TransactionContext W.shielded) (state : LedgerState W.shielded) (segment : Segment) :
    Applied W.shielded (LedgerState W.shielded × List Event) := do
  let next ← state.applySection S build tx vt.fees segment context
  let events ← state.offerEvents S H vt.hash tx segment context
  .ok (next, events)

def fallibleEmitting (vt : VerifiedTransaction W.shielded) (tx : StandardTransaction W.shielded)
    (context : TransactionContext W.shielded) (acc : LedgerState W.shielded × List Event)
    (segment : Segment) : Except Panic (LedgerState W.shielded × List Event) :=
  match sectionEmitting S H build vt tx context acc.1 segment with
  | .ok (next, events) => .ok (next, acc.2 ++ events)
  | .error (.error _) => .ok acc
  | .error .panic => .error .panic

def applyEmitting (state : LedgerState W.shielded) (vt : VerifiedTransaction W.shielded)
    (context : TransactionContext W.shielded) :
    Except Panic (LedgerState W.shielded × List Event) :=
  match vt.inner with
  | .claimRewards _ => (state.apply S build vt context).map fun applied => (applied.1, [])
  | .standard tx =>
    match sectionEmitting S H build vt tx context state guaranteedSegment with
    | .error (.error _) => .ok (state, [])
    | .error .panic => .error .panic
    | .ok first => tx.fallibleSegments.foldlM (fallibleEmitting S H build vt tx context) first

end

end LedgerState

def stepEmitting {W : Components} (S : Services W.shielded) (H : TreeHashing) (build : Build)
    (acc : LedgerState W.shielded × List Event) (taken : Step W.shielded) :
    Except Panic (LedgerState W.shielded × List Event) :=
  match taken with
  | .transaction vt context => do
    let (next, events) ← acc.1.applyEmitting S H build vt context
    .ok (next, acc.2 ++ events)
  | other => do
    let next ← step S build acc.1 other
    .ok (next, acc.2)

open Journals

structure QualifiedDustOutput where
  initialValue : U128
  owner : DustPublicKey
  nonce : Fr
  seq : U32
  ctime : Timestamp
  backingNight : InitialNonce
  mtIndex : Nat
  deriving DecidableEq, Repr

/- The path goes from the leaf up; each entry has the hash of a node above the leaf and whether
the path went left there. -/
structure TreeInsertionPath (A : Type) where
  leaf : HashOutput × A
  path : List (Option Fr × Bool)

inductive EventContent (W : Components) (L : Type) where
  | zswap (details : EventDetails)
  | contractDeploy (address : ContractAddress) (initialState : ContractState W)
  | contractLog (address : ContractAddress) (entryPoint : Bytes) (loggedItem : L)
  | paramChange (parameters : LedgerParameters W)
  | dustInitialUtxo (output : QualifiedDustOutput) (generation : DustGenerationInfo)
      (generationIndex : Nat) (blockTime : Timestamp)
  | dustGenerationDtimeUpdate (update : TreeInsertionPath DustGenerationInfo)
      (blockTime : Timestamp)
  | dustSpendProcessed (commitment : DustCommitment) (commitmentIndex : Nat)
      (nullifier : DustNullifier) (vFee : U128) (declaredTime blockTime : Timestamp)

structure LedgerEvent (W : Components) (L : Type) where
  source : EventSource
  content : EventContent W L

def LedgerEvent.asZswap {W : Components} {L : Type} (event : LedgerEvent W L) : Option Event :=
  match event.content with
  | .zswap details => some ⟨event.source, details⟩
  | _ => none

abbrev DeferredEvent (W : Components) (L : Type) := Option (LedgerEvent W L)

abbrev Contents (W : Components) (L : Type) := List (Option (EventContent W L))

abbrev Deferring (W : Components) (L : Type) :=
  LedgerState W.shielded × List (DeferredEvent W.shielded L)

abbrev Recorded (W : Components) (L : Type) :=
  LedgerState W.shielded × List (LedgerEvent W.shielded L)

structure Reporting (W : Components) (L : Type) where
  loggedItems : ContractState W → BlockContext → Intent W → ComIndices →
    ContractCall W → Transcript W → W.Pricing → List L
  systemTransactionHash : SystemTransaction W → HashOutput

def silentReporting : Reporting shieldedComponents Unit := ⟨fun _ _ _ _ _ _ _ => [], fun _ => 0⟩

namespace MerkleTree

variable {A : Type}

def place {h : Nat} (entry : Sigma fun _ : Nat => HashOutput × A)
    (filled : MerkleTrees.Tree HashOutput Fr A h) : MerkleTrees.Tree HashOutput Fr A h :=
  match filled.tryUpdateHash h entry.1 entry.2.1 entry.2.2 with
  | .ok next => next
  | .error _ => filled

def filled (tree : MerkleTree A) : MerkleTrees.Tree HashOutput Fr A tree.height :=
  tree.leaves.entries.foldr place (.blank _)

def insertionEvidence (tree : MerkleTree A) (H : TreeHashing) (idx : Nat) :
    Option (TreeInsertionPath A) :=
  ((tree.filled.rehash H).insertionEvidence idx).map fun evidence => ⟨evidence.1, evidence.2⟩

def root (tree : MerkleTree A) (H : TreeHashing) : Fr := tree.filled.digest H

end MerkleTree

variable {W : Components} {L : Type}

namespace DustState

section

variable (S : Services W) (H : TreeHashing) (build : Build)

def initialUtxo (state : DustState) (initialNonce : InitialNonce) (initialValue nightValue : U128)
    (dustAddr : DustPublicKey) (tnow tblock : Timestamp) : EventContent W L :=
  .dustInitialUtxo ⟨initialValue, dustAddr, S.dustFirstNonce initialNonce dustAddr, 0, tnow,
      initialNonce, state.utxo.commitmentsFirstFree⟩
    ⟨nightValue, dustAddr, initialNonce, Timestamp.max⟩ state.generation.generatingTreeFirstFree
    tblock

def freshDustOutputTold (state : DustState) (initialNonce : InitialNonce)
    (initialValue nightValue : U128) (dustAddr : DustPublicKey) (tnow tblock : Timestamp) :
    Outcome DustStateError (DustState × Contents W L) :=
  telling (lift id (state.freshDustOutput S initialNonce initialValue nightValue dustAddr tnow))
    fun _ => [some (state.initialUtxo S initialNonce initialValue nightValue dustAddr tnow tblock)]

/- The evidence is taken from the tree as it is after the update. -/
def setDtimeTold (state : DustState) (idx : Nat) (time tblock : Timestamp) :
    Outcome InvalidUpdate (DustState × Contents W L) :=
  telling (state.setDtime S build idx time) fun next =>
    match state.generation.generatingTree.index idx with
    | none => []
    | some _ => [(next.generation.generatingTree.insertionEvidence H idx).map
        (.dustGenerationDtimeUpdate · tblock)]

def spendNightTold (tblock : Timestamp) (state : DustState) (input : UtxoSpend) :
    Applied W (DustState × Contents W L) :=
  match state.generation.nightIndices.lookup (S.spendNonce input) with
  | none => .ok (state, [])
  | some idx => mapFault .merkleTreeError (state.setDtimeTold S H build idx tblock tblock)

def creditNightTold (parent : Intent W) (segment : Segment) (tblock : Timestamp)
    (state : DustState) (output : UtxoOutput × Nat) :
    Applied W (DustState × Contents W L) :=
  match state.generation.addressDelegation.lookup output.1.owner with
  | none => .ok (state, [])
  | some dustAddr =>
    if handledByRegistration S parent segment output.1.owner then .ok (state, [])
    else
      mapFault .ofDust (state.freshDustOutputTold S
        (S.initialNonce (BitVec.ofNat 32 output.2) (S.intentHash parent segment)) 0
        output.1.value dustAddr tblock tblock)

def applyOfferTold (state : DustState) (offer : UnshieldedOffer) (parent : Intent W)
    (segment : Segment) (tblock : Timestamp) :
    Applied W (DustState × Contents W L) := do
  let (spent, closed) ← tellEach (spendNightTold S H build tblock) offer.nightInputs state
  let (credited, fresh) ←
    tellEach (creditNightTold S parent segment tblock) offer.nightOutputs spent
  .ok (credited, closed ++ fresh)

def applySpendTold (state : DustState) (spend : DustSpend) (time tblock : Timestamp) :
    Applied W (DustState × Contents W L) :=
  telling (state.applySpend S spend) fun _ =>
    [some (.dustSpendProcessed spend.newCommitment state.utxo.commitmentsFirstFree
      spend.oldNullifier spend.vFee time tblock)]

def registerOutputTold (parent : Intent W) (dustAddr : DustPublicKey) (outputSum dustOut : U128)
    (tnow tblock : Timestamp) (state : DustState) (output : UtxoOutput × Nat) :
    Applied W (DustState × Contents W L) :=
  if outputSum = 0 then reject .divideByZero
  else
    let ratio := saturatingMul output.1.value distributionResolution / outputSum
    let initialValue := saturatingMul ratio dustOut / distributionResolution
    mapFault .ofDust (state.freshDustOutputTold S
      (S.initialNonce (BitVec.ofNat 32 output.2) (S.intentHash parent guaranteedSegment))
      initialValue output.1.value dustAddr tnow tblock)

def applyRegistrationTold (state : DustState) (utxos : Map Utxo UtxoMeta) (feesRemaining : U128)
    (parent : Intent W) (registration : DustRegistration) (params : DustParameters)
    (tnow tblock : Timestamp) :
    Applied W ((DustState × U128) × Contents W L) := do
  let delegated ← delegate S state registration
  let owned := ownedOutputs parent (S.userAddress registration.nightKey)
  let dustIn := generationlessFeeAvailability S state utxos parent registration.nightKey params
  let feePaid := smaller feesRemaining (smaller registration.allowFeePayment dustIn)
  let dustOut := dustIn - feePaid
  match registration.dustAddress with
  | none => .ok ((delegated, feesRemaining - feePaid), [])
  | some dustAddr =>
    let outputSum := (owned.map (·.1.value)).foldl saturatingAdd 0
    let (registered, told) ← tellEach
      (registerOutputTold S parent dustAddr outputSum dustOut tnow tblock) owned delegated
    .ok ((registered, feesRemaining - feePaid), told)

end

end DustState

def sourced (source : EventSource) (told : Contents W L) : List (DeferredEvent W L) :=
  told.map fun content => content.map (LedgerEvent.mk source)

def materialize (deferred : List (Option (LedgerEvent W L))) : Option (List (LedgerEvent W L)) :=
  deferred.mapM fun event => event

namespace StandardTransaction

variable (tx : StandardTransaction W)

def spends : List (Segment × Timestamp × DustSpend) :=
  (sortedIter tx.intents).flatMap fun entry =>
    match entry.2.dustActions with
    | some actions => actions.spends.map fun spend => (entry.1, actions.ctime, spend)
    | none => []

def registrations : List (Segment × Intent W × Timestamp × DustRegistration) :=
  (sortedIter tx.intents).flatMap fun entry =>
    match entry.2.dustActions with
    | some actions => actions.registrations.map fun reg => (entry.1, entry.2, actions.ctime, reg)
    | none => []

end StandardTransaction

namespace LedgerState

section

variable (S : Services W.shielded) (H : TreeHashing) (build : Build)
  (R : Reporting W.shielded L)

/- A missing index panics at once. -/
def applyZswapOptionTold (state : LedgerState W.shielded) (offer : Option Zswap.Offer)
    (whitelist : Whitelist) (source : EventSource) :
    Applied W.shielded
      ((LedgerState W.shielded × ComIndices) × List (DeferredEvent W.shielded L)) :=
  match offer with
  | none => .ok ((state, ∅), [])
  | some offer => do
    let (next, comIndices) ← state.applyZswap S offer whitelist
    match zswapEvents H source offer comIndices with
    | some events => .ok ((next, comIndices), events.map fun event =>
        some ⟨event.source, .zswap event.content⟩)
    | none => .error .panic

def applyUnshieldedTold (state : LedgerState W.shielded) (offer : Option UnshieldedOffer)
    (intent : Intent W.shielded) (segment : Segment) (context : TransactionContext W.shielded)
    (source : EventSource) :
    Applied W.shielded (Deferring W L) :=
  match offer with
  | none => .ok (state, [])
  | some offer => do
    let tblock := context.blockContext.tblock
    let utxo ← UtxoState.applyOffer S state.utxo offer intent segment tblock
    let (dust, told) ← state.dust.applyOfferTold S H build offer intent segment tblock
    .ok ({ state with utxo := utxo, dust := dust }, sourced source told)

def actionEvents (params : LedgerParameters W.shielded) (guaranteed : Bool)
    (context : TransactionContext W.shielded) (parent : Intent W.shielded)
    (comIndices : ComIndices) (state : LedgerState W.shielded) :
    ContractAction W.shielded → List (EventContent W.shielded L)
  | .call call =>
    if whitelistMatches context.whitelist call.address then
      match state.contract.lookup call.address, call.transcript guaranteed with
      | some cstate, some transcript =>
        (R.loggedItems cstate context.blockContext parent comIndices call transcript
          params.pricing).map (.contractLog call.address call.entryPoint ·)
      | _, _ => []
    else []
  | .deploy deploy =>
    if whitelistMatches context.whitelist (S.deployAddress deploy) ∧ ¬ guaranteed then
      [.contractDeploy (S.deployAddress deploy) deploy.initialState]
    else []
  | .maintain _ => []

def applyActionsTold (state : LedgerState W.shielded) (actions : List (ContractAction W.shielded))
    (guaranteed : Bool) (context : TransactionContext W.shielded) (parent : Intent W.shielded)
    (comIndices : ComIndices) (source : EventSource) :
    Applied W.shielded (Deferring W L) :=
  tellEach (fun res action =>
    telling (applyAction S state.parameters guaranteed context parent comIndices res action)
      fun _ => sourced source ((actionEvents S R state.parameters guaranteed context parent
        comIndices res action).map some)) actions state

def guaranteedIntentTold (transactionHash : HashOutput) (context : TransactionContext W.shielded)
    (comIndices : ComIndices) (state : LedgerState W.shielded)
    (entry : Segment × Intent W.shielded) :
    Applied W.shielded (Deferring W L) := do
  let intent := entry.2
  let source : EventSource := ⟨transactionHash, guaranteedSegment, entry.1⟩
  let (moved, offered) ← state.applyUnshieldedTold S H build intent.guaranteedUnshieldedOffer
    intent guaranteedSegment context source
  let (next, acted) ←
    moved.applyActionsTold S R intent.actions true context intent comIndices source
  .ok (next, offered ++ acted)

def guaranteedSpendTold (transactionHash : HashOutput) (context : TransactionContext W.shielded)
    (state : LedgerState W.shielded × U128) (entry : Segment × Timestamp × DustSpend) :
    Applied W.shielded ((LedgerState W.shielded × U128) × List (DeferredEvent W.shielded L)) := do
  let (physical, time, spend) := entry
  let (dust, told) ← state.1.dust.applySpendTold S spend time context.blockContext.tblock
  .ok (({ state.1 with dust := dust }, saturatingSub state.2 spend.vFee),
    sourced ⟨transactionHash, guaranteedSegment, physical⟩ told)

def guaranteedRegistrationTold (transactionHash : HashOutput)
    (context : TransactionContext W.shielded) (state : LedgerState W.shielded × U128)
    (entry : Segment × Intent W.shielded × Timestamp × DustRegistration) :
    Applied W.shielded ((LedgerState W.shielded × U128) × List (DeferredEvent W.shielded L)) := do
  let (physical, intent, ctime, registration) := entry
  let ((dust, feesRemaining), told) ← state.1.dust.applyRegistrationTold S context.refState.utxo
    state.2 intent registration state.1.parameters.dust ctime context.blockContext.tblock
  .ok (({ state.1 with dust := dust }, feesRemaining),
    sourced ⟨transactionHash, guaranteedSegment, physical⟩ told)

def applyGuaranteedTold (state : LedgerState W.shielded) (tx : StandardTransaction W.shielded)
    (transactionHash : HashOutput) (fees : U128) (context : TransactionContext W.shielded) :
    Applied W.shielded (Deferring W L) := do
  let replay ← lift .replayProtectionViolation (state.replayProtection.applyTx S tx
    context.blockContext.tblock state.parameters.globalTtl)
  let ((state, comIndices), shielded) ← { state with replayProtection := replay
    }.applyZswapOptionTold S H tx.guaranteedCoins context.whitelist
      ⟨transactionHash, guaranteedSegment, guaranteedSegment⟩
  checkFallibleOffers S state tx context
  let (state, acted) ← tellEach (guaranteedIntentTold S H build R transactionHash context comIndices)
    (sortedIter tx.intents) state
  let ((state, feesRemaining), spent) ← tellEach (guaranteedSpendTold S transactionHash context)
    tx.spends (state, fees)
  let ((state, _), registered) ← tellEach (guaranteedRegistrationTold S transactionHash context)
    tx.registrations (state, feesRemaining)
  .ok (state, shielded ++ acted ++ spent ++ registered)

/- Events of the fallible half name the guaranteed segment as the logical one, Zswap events apart. -/
def applyFallibleTold (state : LedgerState W.shielded) (tx : StandardTransaction W.shielded)
    (transactionHash : HashOutput) (segment : Segment) (context : TransactionContext W.shielded) :
    Applied W.shielded (Deferring W L) := do
  let ((state, comIndices), shielded) ← state.applyZswapOptionTold S H
    (tx.fallibleCoins.lookup segment) context.whitelist ⟨transactionHash, segment, segment⟩
  match tx.intents.lookup segment with
  | none => .ok (state, shielded)
  | some intent => do
    let source : EventSource := ⟨transactionHash, guaranteedSegment, segment⟩
    let (moved, offered) ← state.applyUnshieldedTold S H build intent.fallibleUnshieldedOffer
      intent segment context source
    let (next, acted) ←
      moved.applyActionsTold S R intent.actions false context intent comIndices source
    .ok (next, shielded ++ offered ++ acted)

def applySectionTold (state : LedgerState W.shielded) (tx : StandardTransaction W.shielded)
    (transactionHash : HashOutput) (fees : U128) (segment : Segment)
    (context : TransactionContext W.shielded) :
    Applied W.shielded (Deferring W L) := do
  let (applied, told) ← (if segment = guaranteedSegment then
      state.applyGuaranteedTold S H build R tx transactionHash fees context
    else state.applyFallibleTold S H build R tx transactionHash segment context)
  mapFault .invariantViolation (applied.checkNightBalanceInvariant build)
  .ok (applied, told)

def claimDustTold (state : LedgerState W.shielded) (output : Utxo) (tblock : Timestamp) :
    Outcome DustStateError (DustState × Contents W.shielded L) :=
  match state.dust.generation.addressDelegation.lookup output.owner with
  | none => .ok (state.dust, [])
  | some dustAddr => state.dust.freshDustOutputTold S (S.utxoNonce output) 0 output.value dustAddr
      tblock tblock

def claimUnshieldedTold (state : LedgerState W.shielded) (tx : ClaimRewardsTransaction)
    (transactionHash : HashOutput) (context : BlockContext) :
    Applied W.shielded (Deferring W L) := do
  let output := claimedUtxo S tx
  let claimable := state.claimable tx.kind output.owner
  if claimable < tx.value then
    reject (.insufficientClaimable tx.value claimable output.owner tx.kind)
  else if tx.kind = .reward ∧ tx.value < S.minClaimableRewards state.parameters then
    reject (.rewardTooSmall tx.value (S.minClaimableRewards state.parameters))
  else do
    let ttl := Timestamp.add context.tblock state.parameters.globalTtl
    let replay ← lift .replayProtectionViolation (state.replayProtection.applyMember
      output.intentHash ttl context.tblock state.parameters.globalTtl)
    let (dust, told) ← mapFault .ofDust (state.claimDustTold S output context.tblock)
    let claimed := { state.takeClaim tx.kind output.owner (claimable - tx.value) with
      utxo := state.utxo.insert output ⟨context.tblock⟩
      replayProtection := replay
      dust := dust }
    mapFault .invariantViolation (claimed.checkNightBalanceInvariant build)
    .ok (claimed, sourced ⟨transactionHash, guaranteedSegment, guaranteedSegment⟩ told)

def applyGuaranteedOnlyTold (state : LedgerState W.shielded) (tx : VerifiedTransaction W.shielded)
    (context : TransactionContext W.shielded) :
    Applied W.shielded (Deferring W L) :=
  match tx.inner with
  | .standard stx => state.applySectionTold S H build R stx tx.hash tx.fees guaranteedSegment context
  | .claimRewards rewards =>
    state.claimUnshieldedTold S build rewards tx.hash context.blockContext

def sectionFolded (tx : StandardTransaction W.shielded) (transactionHash : HashOutput)
    (fees : U128) (context : TransactionContext W.shielded)
    (acc : Recorded W L) (segment : Segment) :
    Applied W.shielded (Recorded W L) := do
  let (next, deferred) ← acc.1.applySectionTold S H build R tx transactionHash fees segment context
  match materialize deferred with
  | some events => .ok (next, acc.2 ++ events)
  | none => .error .panic

def fallibleTold (tx : StandardTransaction W.shielded) (transactionHash : HashOutput) (fees : U128)
    (context : TransactionContext W.shielded)
    (acc : Recorded W L × Log W.shielded) (segment : Segment) :
    Except Panic (Recorded W L × Log W.shielded) :=
  match sectionFolded S H build R tx transactionHash fees context acc.1 segment with
  | .ok next => .ok (next, acc.2 ++ [(segment, none)])
  | .error (.error e) => .ok (acc.1, acc.2 ++ [(segment, some e)])
  | .error .panic => .error .panic

def applyTold (state : LedgerState W.shielded) (tx : VerifiedTransaction W.shielded)
    (context : TransactionContext W.shielded) :
    Except Panic (Recorded W L × TransactionResult W.shielded) :=
  match state.applyGuaranteedOnlyTold S H build R tx context with
  | .error (.error e) => .ok ((state, []), .failure e)
  | .error .panic => .error .panic
  | .ok (guaranteed, deferred) =>
    match materialize deferred, tx.inner with
    | none, _ => .error .panic
    | some events, .claimRewards _ => .ok ((guaranteed, events), .success)
    | some events, .standard stx => do
      let (final, segments) ← stx.fallibleSegments.foldlM
        (fallibleTold S H build R stx tx.hash tx.fees context)
        ((guaranteed, events), [(guaranteedSegment, none)])
      if segments.all (fun segment => segment.2.isNone) then .ok (final, .success)
      else .ok (final, .partialSuccess segments)

def atOnce {ε σ α : Type} (told : Outcome ε (σ × List (Option α))) :
    Outcome ε (σ × List (Option α)) := do
  let (next, reports) ← told
  if reports.all Option.isSome then .ok (next, reports) else .error .panic

def cNightUpdateTold (tblock : Timestamp) (dust : DustState) (action : CNightGeneratesDustEvent) :
    Outcome SystemTransactionError (DustState × Contents W.shielded L) :=
  match action.action with
  | .create => mapFault .ofDust
      (dust.freshDustOutputTold S action.nonce 0 action.value action.owner action.time tblock)
  | .destroy =>
    match dust.generation.nightIndices.lookup action.nonce with
    | none => debugAssertFalse build (dust, [])
    | some idx => atOnce
        (mapFault .merkleTreeError (dust.setDtimeTold S H build idx action.time tblock))

def applySystemTxTold (state : LedgerState W.shielded) (tx : SystemTransaction W.shielded)
    (tblock : Timestamp) :
    Outcome SystemTransactionError (Deferring W L) :=
  let source : EventSource := ⟨R.systemTransactionHash tx, guaranteedSegment, guaranteedSegment⟩
  match tx with
  | .cNightGeneratesDustUpdate actions => do
    let (dust, told) ← tellEach (cNightUpdateTold S H build tblock) actions state.dust
    .ok ({ state with dust := dust }, sourced source told)
  | .overwriteParameters parameters =>
    telling (state.applySystemTx S build tx tblock) fun _ =>
      sourced source [some (.paramChange parameters)]
  | _ => telling (state.applySystemTx S build tx tblock) fun _ => []

end

end LedgerState

def stepTold (S : Services W.shielded) (H : TreeHashing) (build : Build)
    (R : Reporting W.shielded L) (acc : Recorded W L) :
    Step W.shielded → Except Panic (Recorded W L)
  | .transaction tx context => do
    let ((next, events), _) ← acc.1.applyTold S H build R tx context
    .ok (next, acc.2 ++ events)
  | .system tx tblock =>
    match acc.1.applySystemTxTold S H build R tx tblock with
    | .ok (next, deferred) =>
      match materialize deferred with
      | some events => .ok (next, acc.2 ++ events)
      | none => .error .panic
    | .error (.error _) => .ok acc
    | .error .panic => .error .panic
  | .postBlock tblock fullness =>
    .ok ((acc.1.postBlockUpdate S tblock fullness).getD acc.1, acc.2)

end MidnightLedger.Ledger

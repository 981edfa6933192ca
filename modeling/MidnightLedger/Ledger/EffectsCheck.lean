import MidnightLedger.Lib.Tallies
import MidnightLedger.Ledger.Conservation

/-! What the transcripts of a transaction claim against what the transaction holds, and the order
of its contract calls (`effects_check` and `sequencing_check` of ledger/src/verify.rs). Calls are
numbered within their intent. -/
namespace MidnightLedger.Zswap

namespace Offer

variable (offer : Offer)

def contractCommitments : List (Commitment × Ledger.ContractAddress) :=
  offer.outputs.filterMap (fun o => o.contractAddress.map fun addr => (o.coinCom, addr)) ++
    offer.transient.filterMap fun t => t.contractAddress.map fun addr => (t.coinCom, addr)

def contractNullifiers : List (Nullifier × Ledger.ContractAddress) :=
  offer.inputs.filterMap (fun i => i.contractAddress.map fun addr => (i.nullifier, addr)) ++
    offer.transient.filterMap fun t => t.contractAddress.map fun addr => (t.nullifier, addr)

def commitments : List Commitment :=
  offer.outputs.map (·.coinCom) ++ offer.transient.map (·.coinCom)

end Offer

end MidnightLedger.Zswap

namespace MidnightLedger.Ledger
open ByteString Maps Words Loops Tallies

variable {W : Components}

structure Execution (W : Components) where
  physical : Segment
  logical : Segment
  call : ContractCall W
  transcript : Transcript W

def Intent.guaranteedOutputs (intent : Intent W) : List UtxoOutput :=
  (intent.guaranteedUnshieldedOffer.map (·.outputs)).getD []

def Intent.fallibleOutputs (intent : Intent W) : List UtxoOutput :=
  (intent.fallibleUnshieldedOffer.map (·.outputs)).getD []

abbrev OwnedCoin := Segment × HashOutput × ContractAddress

abbrev CalledEntry := Segment × ContractAddress × HashOutput × Fr

abbrev Payment := (Segment × Bool) × (TokenType × PublicAddress) × U128

structure SubsetCheckFailure (α : Type) where
  superset : Multiset α
  subset : Multiset α
  deriving DecidableEq

inductive EffectsCheckError where
  | realCallsSubsetCheckFailure (failure : SubsetCheckFailure CalledEntry)
  | allCommitmentsSubsetCheckFailure (failure : SubsetCheckFailure (Segment × HashOutput))
  | realUnshieldedSpendsSubsetCheckFailure (failure : SubsetCheckFailure Payment)
  | claimedUnshieldedSpendsUniquenessFailure
      (repeated : Multiset ((Segment × HashOutput) × Nat))
  | claimedCallsUniquenessFailure (repeated : Multiset (CalledEntry × Nat))
  | nullifiersNEClaimedNullifiers (nullifiers claimedNullifiers : Multiset OwnedCoin)
  | commitmentsNEClaimedShieldedReceives (commitments claimedShieldedReceives : Multiset OwnedCoin)
  deriving DecidableEq

namespace Execution

variable (e : Execution W)

def ownedClaims (claims : Effects → List HashOutput) : List OwnedCoin :=
  (claims e.transcript.effects).map fun coin => (e.logical, coin, e.call.address)

def spendClaims : List (Segment × HashOutput) :=
  e.transcript.effects.claimedShieldedSpends.map fun coin => (e.logical, coin)

def callClaims : List CalledEntry :=
  e.transcript.effects.claimedContractCalls.map fun called =>
    (e.physical, called.address, called.entryPoint, called.commitment)

def half : Segment × Bool := (e.physical, e.logical = guaranteedSegment)

def unshieldedClaims : List Payment :=
  e.transcript.effects.claimedUnshieldedSpends.entries.map fun entry => (e.half, entry.1, entry.2)

def unshieldedReceipts : List Payment :=
  e.transcript.effects.unshieldedInputs.entries.map fun entry =>
    (e.half, (entry.1, .contract e.call.address), entry.2)

end Execution

def outputPayment (half : Segment × Bool) (output : UtxoOutput) : Payment :=
  (half, (.unshielded output.type, .user output.owner), output.value)

namespace StandardTransaction

section

variable (tx : StandardTransaction W)

def calls : List (Segment × ContractCall W) :=
  (sortedIter tx.intents).flatMap fun entry => entry.2.calls.map fun call => (entry.1, call)

def transcripts : List (Execution W) :=
  tx.calls.flatMap fun entry =>
    entry.2.guaranteedTranscript.toList.map (fun t => ⟨entry.1, guaranteedSegment, entry.2, t⟩) ++
      entry.2.fallibleTranscript.toList.map fun t => ⟨entry.1, entry.1, entry.2, t⟩

def claimedNullifiers : Multiset OwnedCoin :=
  ↑(tx.transcripts.flatMap (Execution.ownedClaims · Effects.claimedNullifiers))

def claimedShieldedReceives : Multiset OwnedCoin :=
  ↑(tx.transcripts.flatMap (Execution.ownedClaims · Effects.claimedShieldedReceives))

def claimedShieldedSpends : Multiset (Segment × HashOutput) :=
  ↑(tx.transcripts.flatMap Execution.spendClaims)

def claimedCalls : Multiset CalledEntry := ↑(tx.transcripts.flatMap Execution.callClaims)

def realCalls (epHash : Bytes → HashOutput) : Multiset CalledEntry :=
  ↑(tx.calls.map fun entry =>
    (entry.1, entry.2.address, epHash entry.2.entryPoint, entry.2.communicationCommitment))

def claimedUnshieldedSpends : Multiset Payment :=
  ↑(tx.transcripts.flatMap Execution.unshieldedClaims)

def outputPayments : List Payment :=
  (sortedIter tx.intents).flatMap fun entry =>
    entry.2.guaranteedOutputs.map (outputPayment (entry.1, true)) ++
      entry.2.fallibleOutputs.map (outputPayment (entry.1, false))

def realUnshieldedSpends : Multiset Payment :=
  ↑(tx.transcripts.flatMap Execution.unshieldedReceipts ++ tx.outputPayments)

end

variable (tx : StandardTransaction W.shielded)

/- The offers by segment; a fallible offer under the guaranteed segment would replace the
guaranteed one. -/
def segmentOffers : List (Segment × Zswap.Offer) :=
  (if guaranteedSegment ∈ tx.fallibleCoins.keys then []
    else tx.guaranteedCoins.toList.map fun offer => (guaranteedSegment, offer)) ++
    sortedIter tx.fallibleCoins

def contractNullifiers : Multiset OwnedCoin :=
  ↑(tx.segmentOffers.flatMap fun entry => entry.2.contractNullifiers.map fun coin =>
    (entry.1, coin.1, coin.2))

def contractCommitments : Multiset OwnedCoin :=
  ↑(tx.segmentOffers.flatMap fun entry => entry.2.contractCommitments.map fun coin =>
    (entry.1, coin.1, coin.2))

def allCommitments : Multiset (Segment × HashOutput) :=
  ↑(tx.segmentOffers.flatMap fun entry => entry.2.commitments.map fun coin => (entry.1, coin))

/- Nullifiers and commitments of contracts are claimed one by one; spends and calls are
claimed at most once and must be there; payments are there as often as they are claimed. A
repeated shielded spend is reported under the name of unshielded ones. -/
def effectsCheck (epHash : Bytes → HashOutput) : Except EffectsCheckError Unit :=
  if tx.contractNullifiers ≠ tx.claimedNullifiers then
    .error (.nullifiersNEClaimedNullifiers tx.contractNullifiers.dedup tx.claimedNullifiers.dedup)
  else if tx.contractCommitments ≠ tx.claimedShieldedReceives then
    .error (.commitmentsNEClaimedShieldedReceives tx.contractCommitments.dedup
      tx.claimedShieldedReceives.dedup)
  else if duplicates tx.claimedShieldedSpends ≠ 0 then
    .error (.claimedUnshieldedSpendsUniquenessFailure (duplicates tx.claimedShieldedSpends))
  else if ¬ tx.claimedShieldedSpends ≤ tx.allCommitments then
    .error (.allCommitmentsSubsetCheckFailure
      ⟨tx.allCommitments.dedup, tx.claimedShieldedSpends.dedup⟩)
  else if duplicates tx.claimedCalls ≠ 0 then
    .error (.claimedCallsUniquenessFailure (duplicates tx.claimedCalls))
  else if ¬ tx.claimedCalls ≤ tx.realCalls epHash then
    .error (.realCallsSubsetCheckFailure ⟨(tx.realCalls epHash).dedup, tx.claimedCalls.dedup⟩)
  else if ¬ tx.claimedUnshieldedSpends ≤ tx.realUnshieldedSpends then
    .error (.realUnshieldedSpendsSubsetCheckFailure
      ⟨tx.realUnshieldedSpends.dedup, tx.claimedUnshieldedSpends.dedup⟩)
  else .ok ()

structure Claimed (epHash : Bytes → HashOutput) : Prop where
  nullifiers : tx.contractNullifiers = tx.claimedNullifiers
  commitments : tx.contractCommitments = tx.claimedShieldedReceives
  spendsOnce : tx.claimedShieldedSpends.Nodup
  spends : tx.claimedShieldedSpends ≤ tx.allCommitments
  callsOnce : tx.claimedCalls.Nodup
  calls : tx.claimedCalls ≤ tx.realCalls epHash
  payments : tx.claimedUnshieldedSpends ≤ tx.realUnshieldedSpends

variable {tx}

theorem effectsCheckIff {epHash : Bytes → HashOutput} :
    tx.effectsCheck epHash = .ok () ↔ tx.Claimed epHash := by
  constructor
  · intro ok
    unfold effectsCheck at ok
    obtain ⟨nullifiers, ok⟩ := elseOk.mp ok
    obtain ⟨commitments, ok⟩ := elseOk.mp ok
    obtain ⟨spendsOnce, ok⟩ := elseOk.mp ok
    obtain ⟨spends, ok⟩ := elseOk.mp ok
    obtain ⟨callsOnce, ok⟩ := elseOk.mp ok
    obtain ⟨calls, ok⟩ := elseOk.mp ok
    obtain ⟨payments, ok⟩ := elseOk.mp ok
    exact ⟨not_not.mp nullifiers, not_not.mp commitments, duplicatesZero.mp (not_not.mp spendsOnce),
      not_not.mp spends, duplicatesZero.mp (not_not.mp callsOnce), not_not.mp calls,
      not_not.mp payments⟩
  · intro claimed
    unfold effectsCheck
    rw [if_neg (not_not.mpr claimed.nullifiers), if_neg (not_not.mpr claimed.commitments),
      if_neg (not_not.mpr (duplicatesZero.mpr claimed.spendsOnce)),
      if_neg (not_not.mpr claimed.spends),
      if_neg (not_not.mpr (duplicatesZero.mpr claimed.callsOnce)),
      if_neg (not_not.mpr claimed.calls), if_neg (not_not.mpr claimed.payments)]

end StandardTransaction

def Checks.claiming (C : Checks W.shielded) (epHash : Bytes → HashOutput)
    (reason : EffectsCheckError → W.Rejection) : Checks W.shielded :=
  { C with effectsCheck := fun tx => (tx.effectsCheck epHash).mapError reason }

structure CallNode where
  segmentId : Segment
  addr : ContractAddress
  callIndex : Nat
  deriving DecidableEq, Repr

structure CallKey where
  addr : ContractAddress
  epHash : HashOutput
  commitment : Fr
  deriving DecidableEq, Repr

inductive SequencingCheckError where
  | callSequencingViolation (callPredecessor callSuccessor : Nat)
      (callPredecessorAddress callSuccessorAddress : ContractAddress)
  | sequencingCorrelationViolation (address1 address2 : ContractAddress)
      (callPosition1 callPosition2 : Nat)
  | guaranteedInFallibleContextViolation (caller callee : Nat)
      (callerAddress calleeAddress : ContractAddress)
  | fallibleInGuaranteedContextViolation (caller callee : Nat)
      (callerAddress calleeAddress : ContractAddress)
  | causalityConstraintViolation (callPredecessor callSuccessor : Nat)
      (callPredecessorAddress callSuccessorAddress : ContractAddress)
      (segmentIdPredecessor segmentIdSuccessor : Segment)
  | callHasEmptyTranscripts (segmentId : Segment) (addr : ContractAddress) (callIndex : Nat)
  deriving DecidableEq, Repr

def CallNode.le (a b : CallNode) : Prop :=
  a.segmentId < b.segmentId ∨ a.segmentId = b.segmentId ∧
    (a.addr.hash < b.addr.hash ∨ a.addr.hash = b.addr.hash ∧ a.callIndex ≤ b.callIndex)

instance : DecidableRel CallNode.le := fun _ _ => inferInstanceAs (Decidable (_ ∨ _))

def ClaimedContractCallsValue.key (claimed : ClaimedContractCallsValue) : CallKey :=
  ⟨claimed.address, claimed.entryPoint, claimed.commitment⟩

namespace ContractCall

def claims (call : ContractCall W) : List (ClaimedContractCallsValue × Bool) :=
  call.guaranteedTranscript.toList.flatMap (fun transcript =>
      transcript.effects.claimedContractCalls.map fun claimed => (claimed, true)) ++
    call.fallibleTranscript.toList.flatMap fun transcript =>
      transcript.effects.claimedContractCalls.map fun claimed => (claimed, false)

section

variable (epHash : Bytes → HashOutput)

def key (call : ContractCall W) : CallKey :=
  ⟨call.address, epHash call.entryPoint, call.communicationCommitment⟩

def callsWithSeq (call callee : ContractCall W) : Option (Bool × U64) :=
  call.claims.findSome? fun claimed =>
    if claimed.1.key = callee.key epHash then some (claimed.2, claimed.1.seq) else none

def calls (call callee : ContractCall W) : Bool := (call.callsWithSeq epHash callee).isSome

end

end ContractCall

def asIndexed (calls : List (ContractCall W)) : List (Nat × ContractCall W) :=
  calls.zipIdx.map Prod.swap

abbrev SubCall := Nat × U64 × ContractAddress

def subCall (position : Nat) (call : ContractCall W) (claimed : ClaimedContractCallsValue)
    (subCalls : List SubCall) (callee : Nat) : Except SequencingCheckError (List SubCall) :=
  if position ≥ callee then
    .error (.callSequencingViolation position callee call.address claimed.address)
  else .ok (subCalls ++ [(callee, claimed.seq, claimed.address)])

def callSequencingCheck (position : Nat) (call : ContractCall W)
    (callLookup : Map CallKey (List Nat)) :
    Except SequencingCheckError (List SubCall) :=
  call.claims.foldlM (fun subCalls claimed =>
    (listed callLookup claimed.1.key).foldlM (subCall position call claimed.1) subCalls) []

def SubCall.le (a b : SubCall) : Prop := a.2.1 < b.2.1 ∨ a.2.1 = b.2.1 ∧ a.1 ≤ b.1

instance : DecidableRel SubCall.le := fun _ _ => inferInstanceAs (Decidable (_ ∨ _))

def correlated (address : ContractAddress) : List SubCall → Except SequencingCheckError Unit
  | a :: b :: rest =>
    if a.2.1 < b.2.1 ∧ a.1 < b.1 then correlated address (b :: rest)
    else .error (.sequencingCorrelationViolation address a.2.2 a.1 b.1)
  | _ => .ok ()

def sequencingCorrelationCheck (address : ContractAddress) (subCalls : List SubCall) :
    Except SequencingCheckError Unit :=
  correlated address (subCalls.insertionSort SubCall.le)

structure Relations where
  guaranteedCalls : List CallNode
  fallibleCalls : List CallNode
  callsByAddress : Map ContractAddress (List CallNode)
  adjacencies : Map CallNode (List CallNode)

def Relations.blank : Relations := ⟨[], [], ∅, ∅⟩

def insertIf (condition : Bool) (node : CallNode) (nodes : List CallNode) : List CallNode :=
  if condition then node :: nodes else nodes

section

variable (epHash : Bytes → HashOutput) (segmentId : Segment)

def callNode (entry : Nat × ContractCall W) : CallNode := ⟨segmentId, entry.2.address, entry.1⟩

/- Only the last call to the address is linked with this one. -/
def linkPrevious (relations : Relations) (entry : Nat × ContractCall W) (node : CallNode) :
    Map CallNode (List CallNode) :=
  match (listed relations.callsByAddress entry.2.address).getLast? with
  | some previous => push relations.adjacencies previous node
  | none => relations.adjacencies

def relateNode (state : Relations × Map CallKey (List (CallNode × Bool)))
    (entry : Nat × ContractCall W) :
    Except SequencingCheckError (Relations × Map CallKey (List (CallNode × Bool))) :=
  let (relations, callers) := state
  let node := callNode segmentId entry
  let isGuaranteed := entry.2.guaranteedTranscript.isSome
  let isFallible := entry.2.fallibleTranscript.isSome
  if ¬ (isGuaranteed ∨ isFallible) then
    .error (.callHasEmptyTranscripts segmentId entry.2.address entry.1)
  else
    .ok (⟨insertIf isGuaranteed node relations.guaranteedCalls,
        insertIf isFallible node relations.fallibleCalls,
        push relations.callsByAddress entry.2.address node, linkPrevious relations entry node⟩,
      (entry.2.claims.map fun claimed => (claimed.1.key, (node, claimed.2))).foldl
        (fun callers claimed => push callers claimed.1 claimed.2) callers)

def relateNodes (relations : Relations) (calls : List (Nat × ContractCall W)) :
    Except SequencingCheckError (Relations × Map CallKey (List (CallNode × Bool))) :=
  calls.foldlM (relateNode segmentId) (relations, ∅)

def contextCaller (entry : Nat × ContractCall W) (adjacencies : Map CallNode (List CallNode))
    (caller : CallNode × Bool) : Except SequencingCheckError (Map CallNode (List CallNode)) :=
  if caller.2 ∧ entry.2.fallibleTranscript.isSome then
    .error (.fallibleInGuaranteedContextViolation caller.1.callIndex entry.1 caller.1.addr
      entry.2.address)
  else if ¬ caller.2 ∧ entry.2.guaranteedTranscript.isSome then
    .error (.guaranteedInFallibleContextViolation caller.1.callIndex entry.1 caller.1.addr
      entry.2.address)
  else .ok (push adjacencies caller.1 (callNode segmentId entry))

def sequencingContextCheck (adjacencies : Map CallNode (List CallNode))
    (calls : List (Nat × ContractCall W)) (callers : Map CallKey (List (CallNode × Bool))) :
    Except SequencingCheckError (Map CallNode (List CallNode)) :=
  calls.foldlM (fun adjacencies entry =>
    (listed callers (entry.2.key epHash)).foldlM (contextCaller segmentId entry) adjacencies)
    adjacencies

end

section

variable (epHash : Bytes → HashOutput)

def callLookup (calls : List (Nat × ContractCall W)) : Map CallKey (List Nat) :=
  (calls.map fun entry => (entry.2.key epHash, entry.1)).foldl
    (fun found entry => push found entry.1 entry.2) ∅

def sequencingIntent (relations : Relations) (entry : Segment × Intent W) :
    Except SequencingCheckError Relations := do
  let calls := asIndexed entry.2.calls
  calls.forM fun call => do
    let subCalls ← callSequencingCheck call.1 call.2 (callLookup epHash calls)
    sequencingCorrelationCheck call.2.address subCalls
  let (relations, callers) ← relateNodes entry.1 relations calls
  let adjacencies ←
    sequencingContextCheck epHash entry.1 relations.adjacencies calls callers
  .ok { relations with adjacencies := adjacencies }

end

def causalityCheck (relations : Relations) : Except SequencingCheckError Unit :=
  (relations.fallibleCalls.dedup.insertionSort CallNode.le).forM fun curr =>
    (listed relations.adjacencies curr).forM fun succ =>
      if succ ∈ relations.guaranteedCalls then
        .error (.causalityConstraintViolation curr.callIndex succ.callIndex curr.addr succ.addr
          curr.segmentId succ.segmentId)
      else .ok ()

namespace StandardTransaction

variable (epHash : Bytes → HashOutput) (tx : StandardTransaction W)

def related : Except SequencingCheckError Relations :=
  (sortedIter tx.intents).foldlM (sequencingIntent epHash) Relations.blank

def sequencingCheck : Except SequencingCheckError Unit := do
  let relations ← tx.related epHash
  causalityCheck relations

def callNodes : List (CallNode × ContractCall W) :=
  (sortedIter tx.intents).flatMap fun entry =>
    (asIndexed entry.2.calls).map fun call => (callNode entry.1 call, call.2)

end StandardTransaction

end MidnightLedger.Ledger

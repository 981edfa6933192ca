import Mathlib.Data.Prod.Lex
import Mathlib.Data.List.Lex
import MidnightLedger.Lib.Revalidation
import MidnightLedger.Ledger.WellFormed

/-! Well-formedness against any reference (`StateReference` of ledger/src/verify.rs, with the Dust
actions of ledger/src/dust.rs). Revalidation against a new state accepts exactly what full
validation does. -/
namespace MidnightLedger.Ledger
open ByteString Maps Words Loops Revalidation

variable {W : Components}

instance [DecidableEq W.Pricing] : DecidableEq (LedgerParameters W) := fun a b =>
  decidable_of_iff (a.pricing = b.pricing ∧ a.transactionByteLimit = b.transactionByteLimit ∧
      a.maxContractMetadataSize = b.maxContractMetadataSize ∧ a.dust = b.dust ∧
      a.globalTtl = b.globalTtl ∧ a.cardanoToMidnightBridgeFeeBasisPoints =
        b.cardanoToMidnightBridgeFeeBasisPoints ∧ a.cToMBridgeMinAmount = b.cToMBridgeMinAmount) (by
    cases a
    cases b
    simp)

/- A ledger state with its histories of Dust roots, which only these checks read. -/
structure Reference (W : Components) where
  state : LedgerState W
  commitmentRoots : Timestamp → Option Fr
  generationRoots : Timestamp → Option Fr

inductive ReferenceFailure where
  | verifierKeyNotPresent (address : ContractAddress) (operation : Bytes)
  | outOfDustValidityWindow (dustCtime validityStart validityEnd : Timestamp)
  | multipleDustRegistrationsForKey (key : SignatureVerifyingKey)
  | insufficientDustForRegistrationFee (registration : DustRegistration) (availableDust : U128)
  deriving DecidableEq, Repr

/- The leaves of these checks: the form and proof of a call, proofs of spends, signatures of
registrations, and the prices. -/
structure Verifiers (W : Components) where
  callNormal : ContractCall W → Checked W Unit
  callVerify : ContractOperation → ContractCall W → WellFormedStrictness → Intent W → W.Evidence →
    Checked W Unit
  spendVerify : DustSpend → Segment → W.Binding → DustParameters → Fr → Fr → W.Evidence →
    Checked W Unit
  registrationVerify : DustRegistration → Segment → Intent W → WellFormedStrictness →
    W.Evidence → Checked W Unit
  feesWithImpl : LedgerParameters W → (ContractAddress → Bytes → Option ContractOperation) →
    StandardTransaction W → W.Evidence → Except W.Rejection U128
  reason : ReferenceFailure → W.Rejection

/- The callbacks that run a check on a part of the reference. What a check sets from the
inside is its value; `skipped` is the value where it does not run. -/
structure StateReference (W : Components) where
  statelessCheck : Checked W Unit → Checked W Unit
  paramCheck : {α : Type} → (always : Bool) → (skipped : α) →
    (LedgerParameters W → Checked W α) → Checked W α
  opCheck : ContractAddress → Bytes → (ContractOperation → Checked W Unit) →
    Checked W Unit
  maintenanceCheck : ContractAddress →
    (ContractMaintenanceAuthority → Checked W Unit) →
    Checked W Unit
  generationlessFeeAvailabilityCheck : Intent W → SignatureVerifyingKey →
    (U128 → Checked W Unit) → Checked W Unit
  dustSpendCheck : Timestamp → (DustParameters → Fr → Fr → Checked W Unit) →
    Checked W Unit
  feesCheck : {α : Type} → ((ContractAddress → Bytes → Option ContractOperation) →
    Checked W α) → Checked W α
  networkCheck : String → Checked W Unit

section

variable (S : Services W) (V : Verifiers W)

def getOp (state : LedgerState W) (address : ContractAddress) (entryPoint : Bytes) :
    Checked W ContractOperation := do
  let cstate ← okOr (.contractNotPresent address) (state.contract.lookup address)
  okOr (.elsewhere (V.reason (.verifierKeyNotPresent address entryPoint)))
    (cstate.operations.lookup entryPoint)

def getAuthority (state : LedgerState W) (address : ContractAddress) :
    Checked W ContractMaintenanceAuthority := do
  let cstate ← okOr (.contractNotPresent address) (state.contract.lookup address)
  .ok cstate.maintenanceAuthority

namespace Reference

def availability (ref : Reference W) (parent : Intent W) (nightKey : SignatureVerifyingKey) :
    U128 :=
  ref.state.dust.generationlessFeeAvailability S ref.state.utxo parent nightKey
    ref.state.parameters.dust

def dustRoots (ref : Reference W) (ctime : Timestamp) : DustParameters × Fr × Fr :=
  (ref.state.parameters.dust, (ref.commitmentRoots ctime).getD 0,
    (ref.generationRoots ctime).getD 0)

def operation (ref : Reference W) (address : ContractAddress) (entryPoint : Bytes) :
    Option ContractOperation :=
  (ref.state.contract.lookup address).bind fun cstate => cstate.operations.lookup entryPoint

def network (ref : Reference W) (networkId : String) : Checked W Unit :=
  if ref.state.networkId = networkId then .ok ()
  else .error (.invalidNetworkId ref.state.networkId networkId)

def stateReference (ref : Reference W) : StateReference W where
  statelessCheck check := check
  paramCheck _ _ check := check ref.state.parameters
  opCheck address entryPoint check := do
    let op ← getOp V ref.state address entryPoint
    check op
  maintenanceCheck address check := do
    let authority ← getAuthority ref.state address
    check authority
  generationlessFeeAvailabilityCheck parent nightKey check :=
    check (ref.availability S parent nightKey)
  dustSpendCheck ctime check :=
    let roots := ref.dustRoots ctime
    check roots.1 roots.2.1 roots.2.2
  feesCheck check := check ref.operation
  networkCheck := ref.network

end Reference

structure RevalidationReference (W : Components) where
  previouslyValidatedState : Reference W
  newState : Reference W

def RevalidationReference.stateReference [DecidableEq W.Pricing]
    (ref : RevalidationReference W) : StateReference W where
  statelessCheck _ := .ok ()
  paramCheck always skipped check :=
    if always ∨ ref.previouslyValidatedState.state.parameters ≠ ref.newState.state.parameters then
      check ref.newState.state.parameters
    else .ok skipped
  opCheck address entryPoint check := do
    let oldOp ← getOp V ref.previouslyValidatedState.state address entryPoint
    let newOp ← getOp V ref.newState.state address entryPoint
    if oldOp = newOp then .ok () else check newOp
  maintenanceCheck address check := do
    let authOld ← getAuthority ref.previouslyValidatedState.state address
    let authNew ← getAuthority ref.newState.state address
    if authOld = authNew then .ok () else check authNew
  generationlessFeeAvailabilityCheck parent nightKey check :=
    check (ref.newState.availability S parent nightKey)
  dustSpendCheck ctime check :=
    let roots := ref.newState.dustRoots ctime
    if ref.previouslyValidatedState.dustRoots ctime = roots then .ok ()
    else check roots.1 roots.2.1 roots.2.2
  feesCheck check := check ref.newState.operation
  networkCheck := ref.newState.network

end

section

variable (S : Services W) (C : Checks W) (V : Verifiers W) (ref : StateReference W)
  (strictness : WellFormedStrictness)

def ContractCall.wellFormedAgainst (call : ContractCall W) (parent : Intent W)
    (evidence : W.Evidence) : Checked W Unit := do
  V.callNormal call
  if strictness.verifyContractProofs then
    ref.opCheck call.address call.entryPoint fun op =>
      V.callVerify op call strictness parent evidence
  else .ok ()

def ContractDeploy.metadataWithin (deploy : ContractDeploy W) (params : LedgerParameters W) :
    Checked W Unit :=
  let limit := params.maxContractMetadataSize
  (checkEntryPointMetadataSizes S deploy.initialState limit).mapError
    (MetadataSizeError.malformed limit)

def ContractDeploy.wellFormedAgainst (deploy : ContractDeploy W) : Checked W Unit := do
  deploy.initialState.wellFormed (S.deployAddress deploy)
  let balance := deploy.initialState.balance.entries
  if balance.any (fun entry => 0 < entry.2) then
    .error (.nonZeroBalance (balance.map fun entry => (entry.1, entry.2)))
  else if ¬ C.chargedStateCorrect deploy.initialState.data then .error .incorrectChargedState
  else ref.paramCheck false () (deploy.metadataWithin S)

def ContractAction.wellFormedAgainst (action : ContractAction W) (parent : Intent W)
    (evidence : W.Evidence) : Checked W Unit :=
  match action with
  | .call called => called.wellFormedAgainst V ref strictness parent evidence
  | .deploy deployed => deployed.wellFormedAgainst S C ref
  | .maintain upd => ref.maintenanceCheck upd.address (upd.checkAuthority S strictness)

def DustSpend.wellFormedAgainst (spend : DustSpend) (segment : Segment) (parent : Intent W)
    (ctime : Timestamp) (evidence : W.Evidence) : Checked W Unit :=
  if strictness.verifyNativeProofs then
    ref.dustSpendCheck ctime fun params commitmentRoot generationRoot =>
      V.spendVerify spend segment parent.bindingCommitment params commitmentRoot generationRoot
        evidence
  else .ok ()

namespace DustActions

def keyRank : SignatureVerifyingKey → Lex (Nat × List Nat)
  | .schnorr key => toLex (0, key.map UInt8.toNat)
  | .ecdsa key => toLex (1, key.map UInt8.toNat)

def repeated : List SignatureVerifyingKey → Option SignatureVerifyingKey
  | a :: b :: rest => if a = b then some a else repeated (b :: rest)
  | _ => none

def keysDistinct (actions : DustActions) : Checked W Unit :=
  match repeated ((actions.registrations.map DustRegistration.nightKey).insertionSort
      fun a b => keyRank a ≤ keyRank b) with
  | some key => .error (.elsewhere (V.reason (.multipleDustRegistrationsForKey key)))
  | none => .ok ()

def withinWindow (actions : DustActions) (tblock : Timestamp) (params : LedgerParameters W) :
    Checked W Unit :=
  let gracePeriod := params.dust.dustGracePeriod
  if tblock < actions.ctime ∨ actions.ctime.add gracePeriod < tblock then
    .error (.elsewhere (V.reason
      (.outOfDustValidityWindow actions.ctime (tblock.sub gracePeriod) tblock)))
  else .ok ()

def allowanceCovered (registration : DustRegistration) (available : U128) : Checked W Unit :=
  if available < registration.allowFeePayment then
    .error (.elsewhere (V.reason (.insufficientDustForRegistrationFee registration available)))
  else .ok ()

def wellFormedAgainst (actions : DustActions) (segment : Segment) (parent : Intent W)
    (tblock : Timestamp) (evidence : W.Evidence) : Checked W Unit := do
  if actions.spends = [] ∧ actions.registrations = [] then .error .notNormalized
  actions.spends.forM fun spend =>
    spend.wellFormedAgainst V ref strictness segment parent actions.ctime evidence
  actions.registrations.forM fun reg =>
    ref.statelessCheck (V.registrationVerify reg segment parent strictness evidence)
  ref.paramCheck true () (actions.withinWindow V tblock)
  ref.statelessCheck (actions.keysDistinct V)
  if strictness.enforceBalancing then
    (actions.registrations.filter fun reg => 0 < reg.allowFeePayment).forM fun reg =>
      ref.generationlessFeeAvailabilityCheck parent reg.nightKey (allowanceCovered V reg)
  else .ok ()

end DustActions

def Intent.wellFormedAgainst (intent : Intent W) (segment : Segment) (tblock : Timestamp)
    (evidence : W.Evidence) : Checked W Unit :=
  if segment = guaranteedSegment then .error .intentAtGuaranteedSegmentId
  else do
    let offerCheck := fun offer =>
      (C.offerWellFormed offer segment intent evidence).mapError MalformedTransaction.elsewhere
    ref.statelessCheck do
      optionally intent.guaranteedUnshieldedOffer offerCheck
      optionally intent.fallibleUnshieldedOffer offerCheck
      (C.bindingValid intent segment evidence).mapError .elsewhere
    intent.actions.forM fun action =>
      action.wellFormedAgainst S C V ref strictness intent evidence
    optionally intent.dustActions fun actions =>
      actions.wellFormedAgainst V ref strictness segment intent tblock evidence

namespace StandardTransaction

/- The fee is set inside the check that uses it. -/
def feesBalanced (tx : StandardTransaction W) (evidence : W.Evidence) (params : LedgerParameters W)
    (operation : ContractAddress → Bytes → Option ContractOperation) :
    Checked W U128 := do
  let fees ← match V.feesWithImpl params operation tx evidence with
    | .ok fees => .ok fees
    | .error e => if strictness.enforceBalancing then .error (.feeCalculation e) else .ok 0
  (C.balancingCheck tx strictness fees).mapError .elsewhere
  .ok fees

def wellFormedAgainst (tx : StandardTransaction W) (tblock : Timestamp) (evidence : W.Evidence) :
    Checked W U128 := do
  ref.networkCheck tx.networkId
  ref.paramCheck true () fun params =>
    (tx.ttlCheckWeak tblock params.globalTtl).mapError .transactionApplicationError
  ref.statelessCheck (tx.statelessCheck C evidence)
  let fees ← ref.paramCheck true 0 fun params =>
    ref.feesCheck (tx.feesBalanced C V strictness evidence params)
  (sortedIter tx.intents).forM fun entry =>
    if entry.1 = guaranteedSegment then .error .illegallyDeclaredGuaranteed
    else entry.2.wellFormedAgainst S C V ref strictness entry.1 tblock evidence
  .ok fees

end StandardTransaction

def ClaimRewardsTransaction.wellFormedAgainst (tx : ClaimRewardsTransaction)
    (evidence : W.Evidence) : Checked W U128 := do
  ref.networkCheck tx.networkId
  ref.statelessCheck ((C.claimWellFormed tx evidence).mapError .elsewhere)
  .ok 0

def Transaction.wellFormedAgainst (tx : Transaction W) (tblock : Timestamp)
    (evidence : W.Evidence) : Checked W (VerifiedTransaction W) := do
  ref.paramCheck false () fun params =>
    if strictness.enforceLimits ∧
        params.transactionByteLimit.toNat < C.serializedSize tx evidence then
      .error (.transactionTooLarge (C.serializedSize tx evidence) params.transactionByteLimit)
    else .ok ()
  let fees ← match tx with
    | .standard stx => stx.wellFormedAgainst S C V ref strictness tblock evidence
    | .claimRewards rewards => rewards.wellFormedAgainst C ref evidence
  .ok ⟨tx, C.transactionHash tx evidence, fees⟩

end

variable {strictness : WellFormedStrictness} {tblock earlier : Timestamp} {evidence : W.Evidence}

section

variable (S : Services W) (C : Checks W) (V : Verifiers W)

def Verifiers.checks (ref : Reference W) (reason : MalformedTransaction W → W.Rejection) :
    Checks W :=
  { C with
    fees := fun params contracts tx evidence =>
      V.feesWithImpl params (fun address entryPoint => (contracts.lookup address).bind fun cstate =>
        cstate.operations.lookup entryPoint) tx evidence
    callWellFormed := fun called refState strictness parent evidence =>
      (called.wellFormedAgainst V (Reference.stateReference S V { ref with state := refState })
        strictness parent evidence).mapError reason
    dustWellFormed := fun actions refState strictness segment parent tblock evidence =>
      (actions.wellFormedAgainst V (Reference.stateReference S V { ref with state := refState })
        strictness segment parent tblock evidence).mapError reason }

variable {ref : Reference W} {reason : MalformedTransaction W → W.Rejection}

theorem Verifiers.checksBalancing : (V.checks S C ref reason).balancingCheck = C.balancingCheck := by
  unfold Verifiers.checks
  with_reducible rfl

theorem Verifiers.checksOffers : (V.checks S C ref reason).offerWellFormed = C.offerWellFormed := by
  unfold Verifiers.checks
  with_reducible rfl

theorem ContractAction.wellFormedTogether (action : ContractAction W) (parent : Intent W) :
    Together (action.wellFormedAgainst S C V (ref.stateReference S V) strictness parent evidence)
      (action.wellFormed S (V.checks S C ref reason) ref.state strictness parent evidence) := by
  cases action with
  | call called => exact togetherMapError (togetherMapError (togetherRefl _) _) _
  | deploy deployed => exact togetherRefl _
  | maintain upd =>
    rw [wellFormedAgainst, wellFormed, MaintenanceUpdate.wellFormed]
    simp only [Reference.stateReference, getAuthority]
    cases ref.state.contract.lookup upd.address <;> exact togetherRefl _

theorem Intent.wellFormedTogether (intent : Intent W) (segment : Segment) :
    Together (intent.wellFormedAgainst S C V (ref.stateReference S V) strictness segment tblock
        evidence)
      (intent.wellFormed S (V.checks S C ref reason) segment ref.state strictness tblock
        evidence) := by
  refine togetherIte (fun _ => togetherRefl _) fun _ => ?_
  simp only [Reference.stateReference, bind_assoc]
  refine togetherBind (togetherRefl _) fun _ => togetherBind (togetherRefl _) fun _ =>
    togetherBind (togetherRefl _) fun _ => togetherBind (togetherForM fun action _ => ?_) fun _ => ?_
  · exact action.wellFormedTogether S C V intent
  · cases intent.dustActions with
    | none => exact togetherRefl _
    | some actions => exact togetherMapError (togetherMapError (togetherRefl _) _) _

theorem Reference.networkGuard {α : Type} {networkId : String}
    {rest : Checked W α} {rest' : Unit → Checked W α}
    (together : Together rest (rest' ())) :
    Together (ref.network networkId >>= fun _ => rest) (if ref.state.networkId ≠ networkId then
        .error (.invalidNetworkId ref.state.networkId networkId) >>= rest' else rest' ()) := by
  rw [Reference.network, ← ite_not]
  exact togetherGuard fun _ => together

variable (ref reason) in
theorem StandardTransaction.feesBalancedEq (tx : StandardTransaction W) :
    tx.feesBalanced C V strictness evidence ref.state.parameters ref.operation =
      (do let fees ← tx.feesWith (V.checks S C ref reason) ref.state strictness evidence
          (C.balancingCheck tx strictness fees).mapError .elsewhere
          .ok fees) := by
  have same : (V.checks S C ref reason).fees ref.state.parameters ref.state.contract tx evidence =
      V.feesWithImpl ref.state.parameters ref.operation tx evidence := rfl
  rw [feesBalanced, feesWith, same]
  cases V.feesWithImpl ref.state.parameters ref.operation tx evidence with
  | ok fees => rfl
  | error e => by_cases enforced : strictness.enforceBalancing <;> simp [enforced]

theorem StandardTransaction.wellFormedTogether (tx : StandardTransaction W) :
    Together (tx.wellFormedAgainst S C V (ref.stateReference S V) strictness tblock evidence)
      (tx.wellFormed S (V.checks S C ref reason) ref.state strictness tblock evidence) := by
  rw [wellFormedAgainst, wellFormed]
  refine Reference.networkGuard ?_
  refine togetherBind (togetherRefl _) fun _ => togetherBind (togetherRefl _) fun _ => ?_
  simp only [Reference.stateReference, tx.feesBalancedEq S C V ref reason, bind_assoc]
  refine togetherBind (togetherRefl _) fun _ => togetherBind (togetherRefl _) fun _ =>
    togetherBind (togetherForM fun entry _ => ?_) fun _ => togetherRefl _
  exact togetherIte (fun _ => togetherRefl _) fun _ =>
    entry.2.wellFormedTogether S C V entry.1

/- Against a ledger state, the checks with callbacks are those of `WellFormed`. -/
theorem Transaction.wellFormedTogether (tx : Transaction W) :
    Together (tx.wellFormedAgainst S C V (ref.stateReference S V) strictness tblock evidence)
      (tx.wellFormed S (V.checks S C ref reason) ref.state strictness tblock evidence) := by
  rw [wellFormedAgainst, wellFormed]
  refine togetherGuard fun _ => ?_
  cases tx with
  | standard stx => exact togetherBind (stx.wellFormedTogether S C V) fun _ => togetherRefl _
  | claimRewards rewards =>
    refine togetherBind ?_ fun _ => togetherRefl _
    rw [ClaimRewardsTransaction.wellFormedAgainst, ClaimRewardsTransaction.wellFormed]
    exact Reference.networkGuard (togetherRefl _)

end

def Verifiers.lenient (W : Components) (fees : U128) (rejection : W.Rejection) : Verifiers W where
  callNormal _ := .ok ()
  callVerify _ _ _ _ _ := .ok ()
  spendVerify _ _ _ _ _ _ _ := .ok ()
  registrationVerify _ _ _ _ _ := .ok ()
  feesWithImpl _ _ _ _ := .ok fees
  reason _ := rejection

structure StateReference.Revalidates (old again new : StateReference W) : Prop where
  stateless : ∀ check, Agrees (old.statelessCheck check) (again.statelessCheck check)
    (new.statelessCheck check)
  param : ∀ always check, Agrees (old.paramCheck always () check)
    (again.paramCheck always () check) (new.paramCheck always () check)
  always : ∀ {α : Type} (skipped : α) check, again.paramCheck true skipped check =
    new.paramCheck true skipped check
  op : ∀ address entryPoint check, Agrees (old.opCheck address entryPoint check)
    (again.opCheck address entryPoint check) (new.opCheck address entryPoint check)
  maintenance : ∀ address check, Agrees (old.maintenanceCheck address check)
    (again.maintenanceCheck address check) (new.maintenanceCheck address check)
  availability : again.generationlessFeeAvailabilityCheck = new.generationlessFeeAvailabilityCheck
  dustSpend : ∀ ctime check, Agrees (old.dustSpendCheck ctime check)
    (again.dustSpendCheck ctime check) (new.dustSpendCheck ctime check)
  fees : ∀ {α : Type} (check : _ → Except _ α), again.feesCheck check = new.feesCheck check
  network : again.networkCheck = new.networkCheck

theorem changedAgrees {ε P : Type} [DecidableEq P] (oldPart newPart : Except ε P)
    (check : P → Except ε Unit) :
    Agrees (oldPart >>= check)
      (oldPart >>= fun a => newPart >>= fun b => if a = b then .ok () else check b)
      (newPart >>= check) := by
  intro u whole v
  obtain ⟨a, found, passed⟩ := bindOk.mp whole
  rw [bindOk]
  constructor
  · rintro ⟨a', again, rest⟩
    cases found.symm.trans again
    obtain ⟨b, changed, last⟩ := bindOk.mp rest
    refine bindOk.mpr ⟨b, changed, ?_⟩
    split at last
    · rename_i same
      exact same ▸ passed
    · exact last
  · intro full
    obtain ⟨b, changed, last⟩ := bindOk.mp full
    refine ⟨a, found, bindOk.mpr ⟨b, changed, ?_⟩⟩
    split
    · rfl
    · exact last

theorem revalidationRevalidates [DecidableEq W.Pricing] (S : Services W) (V : Verifiers W)
    (ref : RevalidationReference W) :
    (ref.previouslyValidatedState.stateReference S V).Revalidates (ref.stateReference S V)
      (ref.newState.stateReference S V) where
  stateless check := agreesSkip check
  param always check := by
    intro u passed v
    simp only [Reference.stateReference, RevalidationReference.stateReference] at passed ⊢
    split
    · rfl
    · rename_i unchanged
      have same : ref.previouslyValidatedState.state.parameters =
          ref.newState.state.parameters := by
        by_contra changed
        exact unchanged (.inr changed)
      rw [← same, passed]
  always skipped check := by
    simp only [Reference.stateReference, RevalidationReference.stateReference, true_or, if_true]
  op address entryPoint check := changedAgrees (getOp V _ address entryPoint) _ check
  maintenance address check := changedAgrees (getAuthority _ address) _ check
  availability := rfl
  dustSpend ctime check := by
    intro u passed v
    simp only [Reference.stateReference, RevalidationReference.stateReference] at passed ⊢
    split
    · rename_i same
      rw [← same, passed]
    · rfl
  fees check := rfl
  network := rfl

section

variable {S : Services W} {C : Checks W} {V : Verifiers W} {old again new : StateReference W}
  (revalidates : old.Revalidates again new)

include revalidates

theorem ContractCall.wellFormedAgrees (call : ContractCall W) (parent : Intent W) :
    Agrees (call.wellFormedAgainst V old strictness parent evidence)
      (call.wellFormedAgainst V again strictness parent evidence)
      (call.wellFormedAgainst V new strictness parent evidence) :=
  agreesSeq (agreesRefl _ _) (agreesIte (fun _ => revalidates.op _ _ _) fun _ => agreesRefl _ _)

theorem ContractDeploy.wellFormedAgrees (deploy : ContractDeploy W) :
    Agrees (deploy.wellFormedAgainst S C old) (deploy.wellFormedAgainst S C again)
      (deploy.wellFormedAgainst S C new) :=
  agreesSeq (agreesRefl _ _) (agreesIte (fun _ => agreesRefl _ _) fun _ =>
    agreesIte (fun _ => agreesRefl _ _) fun _ => revalidates.param _ _)

theorem ContractAction.wellFormedAgrees (action : ContractAction W) (parent : Intent W) :
    Agrees (action.wellFormedAgainst S C V old strictness parent evidence)
      (action.wellFormedAgainst S C V again strictness parent evidence)
      (action.wellFormedAgainst S C V new strictness parent evidence) := by
  cases action with
  | call called => exact called.wellFormedAgrees revalidates parent
  | deploy deployed => exact deployed.wellFormedAgrees revalidates
  | maintain upd => exact revalidates.maintenance _ _

theorem DustSpend.wellFormedAgrees (spend : DustSpend) (segment : Segment) (parent : Intent W)
    (ctime : Timestamp) :
    Agrees (spend.wellFormedAgainst V old strictness segment parent ctime evidence)
      (spend.wellFormedAgainst V again strictness segment parent ctime evidence)
      (spend.wellFormedAgainst V new strictness segment parent ctime evidence) :=
  agreesIte (fun _ => revalidates.dustSpend _ _) fun _ => agreesRefl _ _

theorem DustActions.wellFormedAgrees (actions : DustActions) (segment : Segment)
    (parent : Intent W) :
    Agrees (actions.wellFormedAgainst V old strictness segment parent earlier evidence)
      (actions.wellFormedAgainst V again strictness segment parent tblock evidence)
      (actions.wellFormedAgainst V new strictness segment parent tblock evidence) := by
  refine agreesIte (fun _ => agreesRefl _ _) fun _ => ?_
  refine agreesSeq (agreesForM fun spend _ => spend.wellFormedAgrees revalidates _ _ _) ?_
  refine agreesSeq (agreesForM fun reg _ => revalidates.stateless _) ?_
  refine agreesSeq (agreesOfEq (revalidates.always _ _)) (agreesSeq (revalidates.stateless _) ?_)
  rw [revalidates.availability]
  exact agreesRefl _ _

theorem Intent.wellFormedAgrees (intent : Intent W) (segment : Segment) :
    Agrees (intent.wellFormedAgainst S C V old strictness segment earlier evidence)
      (intent.wellFormedAgainst S C V again strictness segment tblock evidence)
      (intent.wellFormedAgainst S C V new strictness segment tblock evidence) := by
  refine agreesIte (fun _ => agreesRefl _ _) fun _ => ?_
  refine agreesSeq (revalidates.stateless _) ?_
  refine agreesSeq (agreesForM fun action _ => action.wellFormedAgrees revalidates intent) ?_
  cases intent.dustActions with
  | none => exact agreesRefl _ _
  | some actions => exact actions.wellFormedAgrees revalidates segment intent

theorem StandardTransaction.wellFormedAgrees (tx : StandardTransaction W) :
    Agrees (tx.wellFormedAgainst S C V old strictness earlier evidence)
      (tx.wellFormedAgainst S C V again strictness tblock evidence)
      (tx.wellFormedAgainst S C V new strictness tblock evidence) := by
  refine agreesSeq (agreesOfEq (by rw [revalidates.network])) ?_
  refine agreesSeq (agreesOfEq (revalidates.always _ _)) (agreesSeq (revalidates.stateless _) ?_)
  -- The fee is computed anew from the new state in both.
  refine agreesBind (agreesOfEq ?_) fun _ _ => ?_
  · rw [revalidates.always]
    congr 1
    funext params
    exact revalidates.fees _
  · refine agreesSeq (agreesForM fun entry _ => ?_) (agreesRefl _ _)
    exact agreesIte (fun _ => agreesRefl _ _) fun _ =>
      entry.2.wellFormedAgrees revalidates entry.1

theorem ClaimRewardsTransaction.wellFormedAgrees (tx : ClaimRewardsTransaction) :
    Agrees (tx.wellFormedAgainst C old evidence) (tx.wellFormedAgainst C again evidence)
      (tx.wellFormedAgainst C new evidence) := by
  refine agreesSeq (agreesOfEq (by rw [revalidates.network])) ?_
  exact agreesSeq (revalidates.stateless _) (agreesRefl _ _)

theorem Transaction.wellFormedAgrees (tx : Transaction W) :
    Agrees (tx.wellFormedAgainst S C V old strictness earlier evidence)
      (tx.wellFormedAgainst S C V again strictness tblock evidence)
      (tx.wellFormedAgainst S C V new strictness tblock evidence) := by
  refine agreesSeq (revalidates.param _ _) ?_
  cases tx with
  | standard stx => exact agreesBind (stx.wellFormedAgrees revalidates) fun _ _ => agreesRefl _ _
  | claimRewards rewards =>
    exact agreesBind (rewards.wellFormedAgrees revalidates) fun _ _ => agreesRefl _ _

end

theorem revalidationExact [DecidableEq W.Pricing] {S : Services W} {C : Checks W}
    {V : Verifiers W} {old new : Reference W} {strictness : WellFormedStrictness}
    {tblock : Timestamp} {evidence : W.Evidence} {tx : Transaction W}
    {validated : VerifiedTransaction W}
    (accepted : tx.wellFormedAgainst S C V (old.stateReference S V) strictness tblock evidence =
      .ok validated) (verified : VerifiedTransaction W) :
    tx.wellFormedAgainst S C V (RevalidationReference.stateReference S V ⟨old, new⟩) strictness
        tblock evidence = .ok verified ↔
      tx.wellFormedAgainst S C V (new.stateReference S V) strictness tblock evidence =
        .ok verified :=
  tx.wellFormedAgrees (revalidationRevalidates S V ⟨old, new⟩) validated accepted verified

def sampleVerifiers : Verifiers sampleComponents :=
  { Verifiers.lenient sampleComponents 0 () with
    callVerify := fun op called _ _ _ =>
      if op.v3.isSome then .ok ()
      else .error (.verifierKeyNotSet called.address called.entryPoint) }

def keyedReference (key : Option Bytes) : Reference sampleComponents where
  state := { sampleGenesis with
    contract := AList.singleton ⟨21⟩ ⟨(), AList.singleton [] ⟨none, key, none⟩, ⟨[], 1, 0⟩, ∅⟩ }
  commitmentRoots _ := none
  generationRoots _ := none

def keyedCall : Transaction sampleComponents :=
  .standard ⟨"net", AList.singleton 1 ⟨none, none, [.call ⟨⟨21⟩, [], none, none, 0⟩], none, 8, ()⟩,
    none, ∅⟩

def keyedCallAgainst (ref : StateReference sampleComponents) :
    Checked sampleComponents (VerifiedTransaction sampleComponents) :=
  keyedCall.wellFormedAgainst sampleServices sampleChecks sampleVerifiers ref .default 6 ()

instance : DecidableEq sampleComponents.Pricing := inferInstanceAs (DecidableEq Unit)

def keyedRevalidation (old new : Option Bytes) : StateReference sampleComponents :=
  RevalidationReference.stateReference sampleServices sampleVerifiers
    ⟨keyedReference old, keyedReference new⟩

def keyedVerified : VerifiedTransaction sampleComponents :=
  value (keyedCallAgainst ((keyedReference (some [1])).stateReference sampleServices
    sampleVerifiers)) (by decide +kernel)

theorem changedKeyRevalidated :
    keyedCallAgainst (keyedRevalidation (some [1]) (some [2])) = .ok keyedVerified ∧
      keyedCallAgainst (keyedRevalidation (some [1]) none) ≠ .ok keyedVerified := by
  have accepted : keyedCallAgainst ((keyedReference (some [1])).stateReference sampleServices
      sampleVerifiers) = .ok keyedVerified := valueOk _
  have refused : ¬ (keyedCallAgainst ((keyedReference none).stateReference sampleServices
      sampleVerifiers)).isOk := by decide +kernel
  constructor
  · exact (revalidationExact accepted _).mpr (by rfl)
  · intro again
    have full : keyedCallAgainst ((keyedReference none).stateReference sampleServices
      sampleVerifiers) = .ok keyedVerified := (revalidationExact accepted _).mp again
    exact refused (by rw [full]; rfl)

/- The transaction was validated once and then any number of times again, each time against the
last state and a new one and at a time of its own. -/
inductive Revalidated [DecidableEq W.Pricing] (S : Services W) (C : Checks W) (V : Verifiers W)
    (strictness : WellFormedStrictness) (evidence : W.Evidence) (tx : Transaction W) :
    Reference W → Timestamp → VerifiedTransaction W → Prop where
  | first {ref : Reference W} {tblock : Timestamp} {verified : VerifiedTransaction W}
      (ok : tx.wellFormedAgainst S C V (ref.stateReference S V) strictness tblock evidence =
        .ok verified) : Revalidated S C V strictness evidence tx ref tblock verified
  | again {old new : Reference W} {earlier tblock : Timestamp}
      {validated verified : VerifiedTransaction W}
      (before : Revalidated S C V strictness evidence tx old earlier validated)
      (ok : tx.wellFormedAgainst S C V (RevalidationReference.stateReference S V ⟨old, new⟩)
        strictness tblock evidence = .ok verified) :
      Revalidated S C V strictness evidence tx new tblock verified

theorem Revalidated.accepted [DecidableEq W.Pricing] {S : Services W} {C : Checks W}
    {V : Verifiers W} {strictness : WellFormedStrictness} {evidence : W.Evidence}
    {tx : Transaction W} {ref : Reference W} {tblock : Timestamp}
    {verified : VerifiedTransaction W}
    (given : Revalidated S C V strictness evidence tx ref tblock verified) :
    tx.wellFormedAgainst S C V (ref.stateReference S V) strictness tblock evidence =
      .ok verified := by
  induction given with
  | first ok => exact ok
  | again _ ok ih => exact (tx.wellFormedAgrees (revalidationRevalidates S V ⟨_, _⟩) _ ih _).mp ok

theorem revalidatedExact [DecidableEq W.Pricing] {S : Services W} {C : Checks W}
    {V : Verifiers W} {strictness : WellFormedStrictness} {evidence : W.Evidence}
    {tx : Transaction W} {old : Reference W} {earlier : Timestamp}
    {validated : VerifiedTransaction W}
    (before : Revalidated S C V strictness evidence tx old earlier validated)
    (new : Reference W) (tblock : Timestamp) (verified : VerifiedTransaction W)
    (reason : MalformedTransaction W → W.Rejection) :
    tx.wellFormedAgainst S C V (RevalidationReference.stateReference S V ⟨old, new⟩) strictness
        tblock evidence = .ok verified ↔
      tx.wellFormed S (V.checks S C new reason) new.state strictness tblock evidence =
        .ok verified := by
  rw [← tx.wellFormedTogether S C V verified]
  exact tx.wellFormedAgrees (revalidationRevalidates S V ⟨old, new⟩) validated before.accepted
    verified

theorem changedKeysRevalidated :
    keyedCallAgainst (keyedRevalidation (some [2]) (some [3])) = .ok keyedVerified ∧
      keyedCallAgainst (keyedRevalidation (some [2]) none) ≠ .ok keyedVerified := by
  -- Validated under one key, and again when the key had changed.
  have first : Revalidated sampleServices sampleChecks sampleVerifiers .default () keyedCall
      (keyedReference (some [1])) 6 keyedVerified := .first (valueOk _)
  have before : Revalidated sampleServices sampleChecks sampleVerifiers .default () keyedCall
      (keyedReference (some [2])) 6 keyedVerified := first.again (by rfl)
  have refused : ¬ (keyedCall.wellFormed sampleServices (sampleVerifiers.checks sampleServices
      sampleChecks (keyedReference none) fun _ => ()) (keyedReference none).state .default 6
      ()).isOk := by decide +kernel
  constructor
  · exact (revalidatedExact before (keyedReference (some [3])) 6 _ fun _ => ()).mpr (by rfl)
  · intro again
    have full := (revalidatedExact before (keyedReference none) 6 _ fun _ => ()).mp again
    exact refused (by rw [full]; rfl)

end MidnightLedger.Ledger

import MidnightLedger.Ledger.Semantics

/-! Well-formedness of a transaction against a reference state (ledger/src/verify.rs):
the order of the checks, with those on deployments and maintenance updates in full. -/
namespace MidnightLedger.Ledger
open ByteString Maps Words Loops

structure WellFormedStrictness where
  enforceBalancing : Bool
  verifyNativeProofs : Bool
  verifyContractProofs : Bool
  verifySignatures : Bool
  enforceLimits : Bool
  deriving DecidableEq, Repr

variable (W : Components)

inductive MalformedTransaction where
  | invalidNetworkId (expected found : String)
  | verifierKeyNotSet (address : ContractAddress) (operation : Bytes)
  | transactionTooLarge (size : Nat) (limit : U64)
  | contractNotPresent (address : ContractAddress)
  | notNormalized
  | illegallyDeclaredGuaranteed
  | intentAtGuaranteedSegmentId
  | feeCalculation (reason : W.Rejection)
  | keyNotInCommittee (address : ContractAddress) (keyId : Nat)
  | invalidCommitteeSignature (address : ContractAddress) (keyId : Nat)
  | thresholdMissed (address : ContractAddress) (signatures threshold : Nat)
  | nonZeroBalance (balance : List (TokenType × U128))
  | incorrectChargedState
  | metadataTooLarge (entryPoint : Bytes) (size : Nat) (limit : U64)
  | authorityMetadataTooLarge (size : Nat) (limit : U64)
  | transactionApplicationError (e : TransactionApplicationError)
  | elsewhere (reason : W.Rejection)

abbrev Checked (α : Type) := Except (MalformedTransaction W) α

/- The checks that read proofs, signatures of offers, prices or the shielded part. -/
structure Checks where
  serializedSize : Transaction W → W.Evidence → Nat
  transactionHash : Transaction W → W.Evidence → HashOutput
  zswapWellFormed : W.ZswapOffer → Segment → W.Evidence → Except W.Rejection Unit
  disjointCheck : StandardTransaction W → Except W.Rejection Unit
  effectsCheck : StandardTransaction W → Except W.Rejection Unit
  sequencingCheck : StandardTransaction W → Except W.Rejection Unit
  pedersenCheck : StandardTransaction W → W.Evidence → Except W.Rejection Unit
  fees : LedgerParameters W → Map ContractAddress (ContractState W) → StandardTransaction W →
    W.Evidence → Except W.Rejection U128
  balancingCheck : StandardTransaction W → WellFormedStrictness → U128 → Except W.Rejection Unit
  offerWellFormed : UnshieldedOffer → Segment → Intent W → W.Evidence → Except W.Rejection Unit
  bindingValid : Intent W → Segment → W.Evidence → Except W.Rejection Unit
  callWellFormed : ContractCall W → LedgerState W → WellFormedStrictness → Intent W →
    W.Evidence → Except W.Rejection Unit
  chargedStateCorrect : W.ChargedState → Bool
  dustWellFormed : DustActions → LedgerState W → WellFormedStrictness → Segment → Intent W →
    Timestamp → W.Evidence → Except W.Rejection Unit
  claimWellFormed : ClaimRewardsTransaction → W.Evidence → Except W.Rejection Unit

variable {W}

def MetadataSizeError.malformed (limit : U64) : MetadataSizeError → MalformedTransaction W
  | .entryPoint ep size => .metadataTooLarge ep size limit
  | .authority size => .authorityMetadataTooLarge size limit

def optionally {ε α : Type} (value : Option α) (check : α → Except ε Unit) : Except ε Unit :=
  match value with
  | some a => check a
  | none => .ok ()

section

variable (S : Services W) (C : Checks W)

def ContractState.wellFormed (state : ContractState W) (address : ContractAddress) :
    Checked W Unit := do
  state.operations.entries.forM fun entry =>
    if entry.2.v2.isNone ∧ entry.2.v3.isNone then .error (.verifierKeyNotSet address entry.1)
    else .ok ()
  if state.maintenanceAuthority.counter ≠ 0 then .error .notNormalized else .ok ()

def ContractDeploy.wellFormed (deploy : ContractDeploy W) (refState : LedgerState W) :
    Checked W Unit := do
  deploy.initialState.wellFormed (S.deployAddress deploy)
  let balance := deploy.initialState.balance.entries
  if balance.any (fun entry => 0 < entry.2) then
    .error (.nonZeroBalance (balance.map fun entry => (entry.1, entry.2)))
  else if ¬ C.chargedStateCorrect deploy.initialState.data then .error .incorrectChargedState
  else
    let limit := refState.parameters.maxContractMetadataSize
    (checkEntryPointMetadataSizes S deploy.initialState limit).mapError
      (MetadataSizeError.malformed limit)

namespace MaintenanceUpdate

def ascending : List (U32 × Signature) → Bool
  | a :: b :: rest => a.1 < b.1 && ascending (b :: rest)
  | _ => true

def newAuthorities (upd : MaintenanceUpdate) : List ContractMaintenanceAuthority :=
  upd.updates.filterMap fun
    | .replaceAuthority authority => some authority
    | _ => none

def checkSignature (upd : MaintenanceUpdate) (strictness : WellFormedStrictness)
    (authority : ContractMaintenanceAuthority) (entry : U32 × Signature) :
    Checked W Unit :=
  match authority.committee[entry.1.toNat]? with
  | none => .error (.keyNotInCommittee upd.address entry.1.toNat)
  | some vk =>
    if strictness.verifySignatures ∧ ¬ S.verify vk (S.dataToSign upd) entry.2 then
      .error (.invalidCommitteeSignature upd.address entry.1.toNat)
    else .ok ()

def checkAuthority (upd : MaintenanceUpdate) (strictness : WellFormedStrictness)
    (authority : ContractMaintenanceAuthority) : Checked W Unit :=
  if ¬ ascending upd.signatures then .error .notNormalized
  else if upd.newAuthorities.any (fun auth => auth.counter ≠ saturatingAdd upd.counter 1) then
    .error .notNormalized
  else do
    upd.signatures.forM (upd.checkSignature S strictness authority)
    if upd.signatures.length < authority.threshold.toNat then
      .error (.thresholdMissed upd.address upd.signatures.length authority.threshold.toNat)
    else .ok ()

def wellFormed (upd : MaintenanceUpdate) (refState : LedgerState W)
    (strictness : WellFormedStrictness) : Checked W Unit :=
  match refState.contract.lookup upd.address with
  | none => .error (.contractNotPresent upd.address)
  | some cstate => upd.checkAuthority S strictness cstate.maintenanceAuthority

end MaintenanceUpdate

def ContractAction.wellFormed (action : ContractAction W) (refState : LedgerState W)
    (strictness : WellFormedStrictness) (parent : Intent W) (evidence : W.Evidence) :
    Checked W Unit :=
  match action with
  | .call called =>
    (C.callWellFormed called refState strictness parent evidence).mapError .elsewhere
  | .deploy deployed => deployed.wellFormed S C refState
  | .maintain upd => upd.wellFormed S refState strictness

def Intent.wellFormed (intent : Intent W) (segment : Segment) (refState : LedgerState W)
    (strictness : WellFormedStrictness) (tblock : Timestamp) (evidence : W.Evidence) :
    Checked W Unit :=
  if segment = guaranteedSegment then .error .intentAtGuaranteedSegmentId
  else do
    let offerCheck := fun offer =>
      (C.offerWellFormed offer segment intent evidence).mapError MalformedTransaction.elsewhere
    optionally intent.guaranteedUnshieldedOffer offerCheck
    optionally intent.fallibleUnshieldedOffer offerCheck
    (C.bindingValid intent segment evidence).mapError .elsewhere
    intent.actions.forM fun action => action.wellFormed S C refState strictness intent evidence
    optionally intent.dustActions fun actions =>
      (C.dustWellFormed actions refState strictness segment intent tblock evidence).mapError
        .elsewhere

namespace StandardTransaction

def ttlCheckWeak (tx : StandardTransaction W) (tblock : Timestamp) (globalTtl : Duration) :
    Except TransactionApplicationError Unit :=
  tx.intents.entries.forM fun entry =>
    if entry.2.ttl < tblock then .error (.intentTtlExpired entry.2.ttl tblock)
    else if tblock.add globalTtl < entry.2.ttl then
      .error (.intentTtlTooFarInFuture entry.2.ttl (tblock.add globalTtl))
    else .ok ()

def statelessCheck (tx : StandardTransaction W) (evidence : W.Evidence) : Checked W Unit := do
  optionally tx.guaranteedCoins fun offer =>
    (C.zswapWellFormed offer guaranteedSegment evidence).mapError .elsewhere
  tx.fallibleCoins.entries.forM fun entry =>
    if entry.1 = guaranteedSegment then .error .illegallyDeclaredGuaranteed
    else (C.zswapWellFormed entry.2 entry.1 evidence).mapError .elsewhere
  (C.disjointCheck tx).mapError .elsewhere
  (C.effectsCheck tx).mapError .elsewhere
  (C.sequencingCheck tx).mapError .elsewhere
  (C.pedersenCheck tx evidence).mapError .elsewhere

/- Fees that cannot be computed count as zero unless balancing is enforced. -/
def feesWith (tx : StandardTransaction W) (refState : LedgerState W)
    (strictness : WellFormedStrictness) (evidence : W.Evidence) :
    Checked W U128 :=
  match C.fees refState.parameters refState.contract tx evidence with
  | .ok fees => .ok fees
  | .error e => if strictness.enforceBalancing then .error (.feeCalculation e) else .ok 0

def wellFormed (tx : StandardTransaction W) (refState : LedgerState W)
    (strictness : WellFormedStrictness) (tblock : Timestamp) (evidence : W.Evidence) :
    Checked W U128 := do
  if refState.networkId ≠ tx.networkId then
    .error (.invalidNetworkId refState.networkId tx.networkId)
  (tx.ttlCheckWeak tblock refState.parameters.globalTtl).mapError .transactionApplicationError
  tx.statelessCheck C evidence
  let fees ← tx.feesWith C refState strictness evidence
  (C.balancingCheck tx strictness fees).mapError .elsewhere
  (sortedIter tx.intents).forM fun entry =>
    if entry.1 = guaranteedSegment then .error .illegallyDeclaredGuaranteed
    else entry.2.wellFormed S C entry.1 refState strictness tblock evidence
  .ok fees

end StandardTransaction

def ClaimRewardsTransaction.wellFormed (tx : ClaimRewardsTransaction) (refState : LedgerState W)
    (evidence : W.Evidence) : Checked W U128 := do
  if refState.networkId ≠ tx.networkId then
    .error (.invalidNetworkId refState.networkId tx.networkId)
  (C.claimWellFormed tx evidence).mapError .elsewhere
  .ok 0

def Transaction.wellFormed (tx : Transaction W) (refState : LedgerState W)
    (strictness : WellFormedStrictness) (tblock : Timestamp) (evidence : W.Evidence) :
    Checked W (VerifiedTransaction W) := do
  let limit := refState.parameters.transactionByteLimit
  if strictness.enforceLimits ∧ limit.toNat < C.serializedSize tx evidence then
    .error (.transactionTooLarge (C.serializedSize tx evidence) limit)
  let fees ← match tx with
    | .standard stx => stx.wellFormed S C refState strictness tblock evidence
    | .claimRewards rewards => rewards.wellFormed C refState evidence
  .ok ⟨tx, C.transactionHash tx evidence, fees⟩

structure Intent.Accepted (intent : Intent W) (segment : Segment) (refState : LedgerState W)
    (strictness : WellFormedStrictness) (tblock : Timestamp) (evidence : W.Evidence) : Prop where
  ownSegment : segment ≠ guaranteedSegment
  guaranteedOffer : ∀ offer, intent.guaranteedUnshieldedOffer = some offer →
    C.offerWellFormed offer segment intent evidence = .ok ()
  fallibleOffer : ∀ offer, intent.fallibleUnshieldedOffer = some offer →
    C.offerWellFormed offer segment intent evidence = .ok ()
  binding : C.bindingValid intent segment evidence = .ok ()
  actions : ∀ action ∈ intent.actions,
    action.wellFormed S C refState strictness intent evidence = .ok ()
  dust : ∀ actions, intent.dustActions = some actions →
    C.dustWellFormed actions refState strictness segment intent tblock evidence = .ok ()

structure StandardTransaction.Accepted (tx : StandardTransaction W) (refState : LedgerState W)
    (strictness : WellFormedStrictness) (tblock : Timestamp) (evidence : W.Evidence) (fees : U128) :
    Prop where
  network : refState.networkId = tx.networkId
  ttl : tx.ttlCheckWeak tblock refState.parameters.globalTtl = .ok ()
  guaranteed : ∀ offer, tx.guaranteedCoins = some offer →
    C.zswapWellFormed offer guaranteedSegment evidence = .ok ()
  fallible : ∀ segment offer, tx.fallibleCoins.lookup segment = some offer →
    segment ≠ guaranteedSegment ∧ C.zswapWellFormed offer segment evidence = .ok ()
  disjoint : C.disjointCheck tx = .ok ()
  effects : C.effectsCheck tx = .ok ()
  sequencing : C.sequencingCheck tx = .ok ()
  pedersen : C.pedersenCheck tx evidence = .ok ()
  charged : tx.feesWith C refState strictness evidence = .ok fees
  balanced : C.balancingCheck tx strictness fees = .ok ()
  intents : ∀ segment intent, tx.intents.lookup segment = some intent →
    intent.Accepted S C segment refState strictness tblock evidence

end

section

variable {S : Services W} {C : Checks W} {refState : LedgerState W}
  {strictness : WellFormedStrictness} {tblock : Timestamp} {evidence : W.Evidence}

theorem optionallyOk {ε α : Type} {value : Option α} {check : α → Except ε Unit} :
    optionally value check = .ok () ↔ ∀ a, value = some a → check a = .ok () := by
  cases value <;> simp [optionally]

theorem Intent.wellFormedOk {intent : Intent W} {segment : Segment}
    (ok : intent.wellFormed S C segment refState strictness tblock evidence = .ok ()) :
    intent.Accepted S C segment refState strictness tblock evidence := by
  rw [Intent.wellFormed] at ok
  obtain ⟨fallible, ok⟩ := elseOk.mp ok
  obtain ⟨⟨⟩, guaranteedOffer, ok⟩ := bindOk.mp ok
  obtain ⟨⟨⟩, fallibleOffer, ok⟩ := bindOk.mp ok
  obtain ⟨⟨⟩, binding, ok⟩ := bindOk.mp ok
  obtain ⟨⟨⟩, actions, dust⟩ := bindOk.mp ok
  exact {
    ownSegment := fallible
    guaranteedOffer := fun offer found => mapErrorOk.mp (optionallyOk.mp guaranteedOffer offer found)
    fallibleOffer := fun offer found => mapErrorOk.mp (optionallyOk.mp fallibleOffer offer found)
    binding := mapErrorOk.mp binding
    actions := forMOk.mp actions
    dust := fun actions found => mapErrorOk.mp (optionallyOk.mp dust actions found) }

theorem StandardTransaction.wellFormedOk {tx : StandardTransaction W} {fees : U128}
    (ok : tx.wellFormed S C refState strictness tblock evidence = .ok fees) :
    tx.Accepted S C refState strictness tblock evidence fees := by
  rw [StandardTransaction.wellFormed] at ok
  obtain ⟨network, ok⟩ := elseOk.mp ok
  obtain ⟨⟨⟩, ttl, ok⟩ := bindOk.mp ok
  obtain ⟨⟨⟩, stateless, ok⟩ := bindOk.mp ok
  obtain ⟨charged, fees', ok⟩ := bindOk.mp ok
  obtain ⟨⟨⟩, balanced, ok⟩ := bindOk.mp ok
  obtain ⟨⟨⟩, intents, rfl⟩ := pureOk.mp ok
  obtain ⟨⟨⟩, guaranteed, stateless⟩ := bindOk.mp stateless
  obtain ⟨⟨⟩, fallible, stateless⟩ := bindOk.mp stateless
  obtain ⟨⟨⟩, disjoint, stateless⟩ := bindOk.mp stateless
  obtain ⟨⟨⟩, effects, stateless⟩ := bindOk.mp stateless
  obtain ⟨⟨⟩, sequencing, pedersen⟩ := bindOk.mp stateless
  refine {
    network := not_not.mp network
    ttl := mapErrorOk.mp ttl
    guaranteed := fun offer found => mapErrorOk.mp (optionallyOk.mp guaranteed offer found)
    fallible := fun segment offer found => ?_
    disjoint := mapErrorOk.mp disjoint
    effects := mapErrorOk.mp effects
    sequencing := mapErrorOk.mp sequencing
    pedersen := mapErrorOk.mp pedersen
    charged := fees'
    balanced := mapErrorOk.mp balanced
    intents := fun segment intent found => ?_ }
  · have checked := forMOk.mp fallible ⟨segment, offer⟩ (AList.mem_lookup_iff.mp found)
    split at checked <;> try contradiction
    exact ⟨by assumption, mapErrorOk.mp checked⟩
  · have checked := forMOk.mp intents (segment, intent) (memSortedIter.mpr found)
    split at checked <;> try contradiction
    exact Intent.wellFormedOk checked

theorem Transaction.wellFormedOk {tx : Transaction W} {vt : VerifiedTransaction W}
    (ok : tx.wellFormed S C refState strictness tblock evidence = .ok vt) :
    vt.inner = tx ∧ ∀ stx, tx = .standard stx →
      stx.Accepted S C refState strictness tblock evidence vt.fees := by
  rw [Transaction.wellFormed] at ok
  split at ok <;> try contradiction
  split at ok
  · obtain ⟨fees, body, rfl⟩ := pureOk.mp ok
    refine ⟨rfl, fun stx same => ?_⟩
    cases same
    exact StandardTransaction.wellFormedOk body
  · obtain ⟨fees, body, rfl⟩ := pureOk.mp ok
    exact ⟨rfl, nofun⟩

end

def WellFormedStrictness.default : WellFormedStrictness := ⟨true, true, true, true, true⟩

def Checks.lenient (W : Components) : Checks W where
  serializedSize _ _ := 0
  transactionHash _ _ := 0
  zswapWellFormed _ _ _ := .ok ()
  disjointCheck _ := .ok ()
  effectsCheck _ := .ok ()
  sequencingCheck _ := .ok ()
  pedersenCheck _ _ := .ok ()
  fees _ _ _ _ := .ok 0
  balancingCheck _ _ _ := .ok ()
  offerWellFormed _ _ _ _ := .ok ()
  bindingValid _ _ _ := .ok ()
  callWellFormed _ _ _ _ _ := .ok ()
  chargedStateCorrect _ := true
  dustWellFormed _ _ _ _ _ _ _ := .ok ()
  claimWellFormed _ _ := .ok ()

def sampleChecks : Checks sampleComponents := .lenient sampleComponents

def accept (reference : LedgerState sampleComponents) (tx : StandardTransaction sampleComponents) :
    Checked sampleComponents (VerifiedTransaction sampleComponents) :=
  (Transaction.standard tx).wellFormed sampleServices sampleChecks reference .default 5 ()

end MidnightLedger.Ledger

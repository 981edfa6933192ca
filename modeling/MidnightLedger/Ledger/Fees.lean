import Mathlib.Algebra.BigOperators.Ring.List
import MidnightLedger.Ledger.Backing
import MidnightLedger.Ledger.Conservation
import MidnightLedger.Ledger.Revalidation
import MidnightLedger.Ledger.Emission

/-! What the guaranteed section takes of the fee. Spends and registrations are charged one after the
other; well-formedness also counts the Dust that guaranteed transcripts pay out of contract
balances. Registrations pay out of Night inputs without a generation entry (`apply_registration` of
ledger/src/dust.rs): shares are quantized and all products saturate. -/
namespace MidnightLedger.Ledger
open ByteString Maps Words Loops Books DustState Simulation List LedgerState Transaction AList Nat
  DustRegistration

variable {nonces : List InitialNonce} {W : Components} {S : Services W} {build : Build}
  {context : TransactionContext W} {fees left : U128} {state : LedgerState W}
  {tx : StandardTransaction W} {dust : DustState} {next : LedgerState W}

namespace LedgerState

section

variable (S : Services W) (build : Build)

end

end LedgerState

def Tracks (start : DustGenerationState) (nonces : List InitialNonce)
    (generation : DustGenerationState) : Prop :=
  ∀ nonce, (generation.nightIndices.lookup nonce).isSome →
    (start.nightIndices.lookup nonce).isSome ∨ nonce ∈ nonces

variable {start : DustGenerationState} {after : DustState} {segment : Segment}
  {tblock tnow : Timestamp}

section

variable (tracks : Tracks start nonces dust.generation)

include tracks

theorem Tracks.fresh {nonce : InitialNonce} {initialValue value : U128} {owner : DustPublicKey}
    (known : nonce ∈ nonces)
    (ok : dust.freshDustOutput S nonce initialValue value owner tnow = .ok after) :
    Tracks start nonces after.generation := by
  obtain ⟨-, -, indices, -⟩ := freshDustOutputOk ok
  intro other found
  rw [indices] at found
  by_cases same : other = nonce
  · exact .inr (same ▸ known)
  · rw [lookup_insert_ne same] at found
    exact tracks other found

theorem Tracks.spends {inputs : List UtxoSpend}
    (ok : inputs.foldlM (spendNight S build tblock) dust = .ok after) :
    Tracks start nonces after.generation := by
  refine runPreserves (fun d : DustState => Tracks start nonces d.generation) ?_ tracks ok
  intro d input next _ before taken
  rw [spendNight] at taken
  split at taken
  · cases taken
    exact before
  · obtain ⟨-, -, indices, -⟩ := setDtimeOk (mapFaultOk.mp taken)
    intro nonce found
    rw [indices] at found
    exact before nonce found

theorem Tracks.credits {parent : Intent W} {outputs : List (UtxoOutput × Nat)}
    (known : ∀ u ∈ atOnce S parent segment outputs, S.utxoNonce u ∈ nonces)
    (ok : outputs.foldlM (creditNight S parent segment tblock) dust = .ok after) :
    Tracks start nonces after.generation := by
  refine runPreserves (fun d : DustState => Tracks start nonces d.generation) ?_ tracks ok
  intro d output next mem before taken
  rw [creditNight] at taken
  split at taken
  · cases taken
    exact before
  · split at taken
    · cases taken
      exact before
    · rename_i free
      refine before.fresh (known (Services.createdUtxo (S.intentHash parent segment) output) ?_)
        (liftOk.mp taken)
      exact mem_map_of_mem (mem_filter.mpr ⟨mem, by simpa using free⟩)

theorem Tracks.register {entry : Intent W × Timestamp × DustRegistration}
    {utxos : Map Utxo UtxoMeta} {fees left : U128} {params : DustParameters}
    (known : ∀ u ∈ awaiting S entry, S.utxoNonce u ∈ nonces)
    (ok : dust.applyRegistration S utxos fees entry.1 entry.2.2 params tnow = .ok (after, left)) :
    Tracks start nonces after.generation := by
  obtain ⟨delegated, given, rest⟩ := bindOk.mp ok
  have moved : Tracks start nonces delegated.generation := by
    obtain ⟨delegation, rfl⟩ := delegateOk given
    exact tracks
  split at rest
  · cases rest
    exact moved
  · rename_i key some
    obtain ⟨made, outputs, last⟩ := bindOk.mp rest
    cases last
    refine runPreserves (fun d : DustState => Tracks start nonces d.generation) ?_ moved outputs
    intro d output next mem before taken
    rw [registerOutput] at taken
    split at taken <;> try contradiction
    refine before.fresh (known
      (Services.createdUtxo (S.intentHash entry.1 guaranteedSegment) output) ?_) (liftOk.mp taken)
    rw [awaiting, some]
    exact mem_map_of_mem mem

end

namespace LedgerState

end LedgerState

variable {registration : DustRegistration}

namespace DustState

variable {parent : Intent W} {params : DustParameters} {utxos : Map Utxo UtxoMeta}

theorem smallerToNat (a b : U128) : (smaller a b).toNat = min a.toNat b.toNat := by
  rw [smaller]
  split
  · rename_i le
    exact (min_eq_left le).symm
  · rename_i less
    have values : ¬ a.toNat ≤ b.toNat := less
    omega

end DustState

namespace StandardTransaction

end StandardTransaction

namespace LedgerState

variable {reference : LedgerState W}

end LedgerState

variable {V : Verifiers W} {ref : Reference W} {strictness : WellFormedStrictness}
  {evidence : W.Evidence}

section

variable {C : Checks W} {reason : MalformedTransaction W → W.Rejection}

end

section

variable {customTokenType : ContractAddress → HashOutput → HashOutput}

/- What a side of the Dust account has from a transcript. -/
def BalanceOperation.moved : BalanceOperation → Effects → Map TokenType U128
  | .addition => Effects.unshieldedOutputs
  | .subtraction => Effects.unshieldedInputs

def DustActions.paid (actions : DustActions) : Nat :=
  (actions.spends.map fun spend => spend.vFee.toNat).sum +
    (actions.registrations.map fun reg => reg.allowFeePayment.toNat).sum

variable (side : BalanceOperation)

namespace StandardTransaction

end StandardTransaction

end

/- `UnshieldedOffer::well_formed` of ledger/src/verify.rs; the closure that it returns verifies the
signatures. -/
inductive MalformedUnshieldedOffer where
  | inputsNotSorted (inputs : List UtxoSpend)
  | outputsNotSorted (outputs : List UtxoOutput)
  | zeroValueUtxo (output : UtxoOutput)
  | duplicateInputs (inputs : List UtxoSpend)
  deriving DecidableEq, Repr

namespace UnshieldedOffer

def inputRank (input : UtxoSpend) :
    Lex (Nat × Lex (Lex (Nat × List Nat) × Lex (Nat × Lex (Nat × Nat)))) :=
  toLex (input.value.toNat, toLex (DustActions.keyRank input.owner,
    toLex (input.type.hash.toNat, toLex (input.intentHash.hash.toNat, input.outputNo.toNat))))

def outputRank (output : UtxoOutput) : Lex (Nat × Lex (Nat × Nat)) :=
  toLex (output.value.toNat, toLex (output.owner.hash.toNat, output.type.hash.toNat))

def wellFormed (offer : UnshieldedOffer) : Except MalformedUnshieldedOffer Unit :=
  if ¬ offer.inputs.Pairwise (fun a b => inputRank a ≤ inputRank b) then
    .error (.inputsNotSorted offer.inputs)
  else if ¬ offer.outputs.Pairwise (fun a b => outputRank a ≤ outputRank b) then
    .error (.outputsNotSorted offer.outputs)
  else
    match offer.outputs.find? fun output => output.value = 0 with
    | some output => .error (.zeroValueUtxo output)
    | none => if offer.inputs.Nodup then .ok () else .error (.duplicateInputs offer.inputs)

theorem wellFormedDistinct {offer : UnshieldedOffer} (ok : offer.wellFormed = .ok ()) :
    offer.inputs.Nodup := by
  rw [wellFormed] at ok
  split at ok <;> try contradiction
  split at ok <;> try contradiction
  split at ok <;> try contradiction
  split at ok <;> try contradiction
  assumption

end UnshieldedOffer

def Checks.offersChecked (C : Checks W) (refused : MalformedUnshieldedOffer → W.Rejection) :
    Checks W :=
  { C with offerWellFormed := fun offer segment parent evidence => do
      offer.wellFormed.mapError refused
      C.offerWellFormed offer segment parent evidence }

/- A contract takes Dust in its guaranteed transcript, from a spend beyond the fee. -/
def dustIntent (offer : Option UnshieldedOffer) (effects : Effects) (actions : Option DustActions)
    (ttl : Timestamp) : Intent shieldedComponents :=
  ⟨offer, none, [.call ⟨⟨21⟩, [], some ⟨effects, ()⟩, none, 0⟩], actions, ttl, ()⟩

def dustDeposit (offer : Option UnshieldedOffer) (actions : DustActions) :
    Intent shieldedComponents :=
  dustIntent offer { Effects.default with unshieldedInputs := singleton .dust 50 } (some actions) 7

def carrying (intent : Intent shieldedComponents) : StandardTransaction shieldedComponents :=
  ⟨"net", singleton 1 intent, none, ∅⟩

def dustChecks (state : LedgerState shieldedComponents) (fees : U128) : Checks shieldedComponents :=
  (Verifiers.lenient shieldedComponents fees ()).checks shieldedServices
    (((Checks.lenient shieldedComponents).offersChecked fun _ => ()).balanced sampleTokenType
      fun _ => ()) ⟨state, fun _ => none, fun _ => none⟩ fun _ => ()

def dustAccepted (state : LedgerState shieldedComponents)
    (tx : StandardTransaction shieldedComponents) (fees : U128) :
    Checked shieldedComponents (VerifiedTransaction shieldedComponents) :=
  (standard tx).wellFormed shieldedServices (dustChecks state fees) state .default 6 ()

def dustContext (state : LedgerState shieldedComponents) : TransactionContext shieldedComponents :=
  ⟨state, ⟨6, 0, 0, 0⟩, none⟩

def dustDeployment : StandardTransaction shieldedComponents :=
  intentOf none
    (.deploy ⟨⟨(), singleton [] ⟨none, some [1], none⟩, ⟨[], 1, 0⟩, ∅⟩, 21⟩) 6

def dustDeployed : LedgerState shieldedComponents :=
  value (run (step shieldedServices .debug) shieldedGenesis
    [.transaction ⟨.standard dustDeployment, 0, 0⟩ shieldedContext]) (by decide +kernel)

def nightDeployed : LedgerState shieldedComponents :=
  { dustDeployed with
    reservePool := dustDeployed.reservePool - 100
    utxo := singleton (shieldedServices.spentUtxo sampleSpend) ⟨0⟩ }

def feeActions : DustActions := ⟨[⟨54, ⟨1⟩, ⟨2⟩⟩], [⟨.schnorr [1], some ⟨9⟩, 6⟩], 6⟩

def feeIntent : Intent shieldedComponents :=
  dustDeposit (some ⟨[sampleSpend],
    [⟨100, shieldedServices.userAddress (.schnorr [1]), night⟩]⟩) feeActions

def feePayment : StandardTransaction shieldedComponents := carrying feeIntent

def feeVerified : VerifiedTransaction shieldedComponents :=
  value (dustAccepted nightDeployed feePayment 10) (by decide +kernel)

def feePaid : LedgerState shieldedComponents :=
  value (nightDeployed.applySection shieldedServices .debug feePayment feeVerified.fees
    guaranteedSegment (dustContext nightDeployed)) (by decide +kernel)

open Journals BitVec

variable {L : Type}

def ratioOf (total value : ℕ) : ℕ := min (value * 10000) (2 ^ 128 - 1) / total

theorem ratiosWithin (values : List ℕ) : (values.map (ratioOf values.sum)).sum ≤ 10000 := by
  obtain zero | positive := Nat.eq_zero_or_pos values.sum
  · have none : values.map (ratioOf values.sum) = values.map fun _ => 0 :=
      map_congr_left fun value _ => by rw [zero, ratioOf, Nat.div_zero]
    simp [none]
  · have each : ∀ value ∈ values, ratioOf values.sum value * values.sum ≤ value * 10000 :=
      fun value _ => (div_mul_le_self ..).trans (min_le_left ..)
    have summed := sum_le_sum each
    rw [sum_map_mul_right, sum_map_mul_right, map_id', mul_comm values.sum] at summed
    exact le_of_mul_le_mul_right summed positive

def shareOf (total out value : U128) : U128 :=
  saturatingMul (saturatingMul value distributionResolution / total) out /
    distributionResolution

theorem sharesWithin (values : List U128) (out : U128)
    (fits : (values.map BitVec.toNat).sum < 2 ^ 128) :
    (values.map fun value => (shareOf (values.foldl saturatingAdd 0) out value).toNat).sum
      ≤ out.toNat := by
  have total := foldSaturatingToNat values 0
  generalize values.foldl saturatingAdd 0 = sum at total ⊢
  rw [show BitVec.toNat (0 : U128) = 0 from rfl, zero_add, min_eq_left (by omega)] at total
  have ratios := total ▸ ratiosWithin (values.map BitVec.toNat)
  have resolution : distributionResolution.toNat = 10000 := rfl
  have each : ∀ value ∈ values, (shareOf sum out value).toNat * 10000
      ≤ ratioOf sum.toNat value.toNat * out.toNat := by
    intro value _
    refine (div_mul_le_self ..).trans ?_
    rw [saturatingMulToNat, toNat_udiv, saturatingMulToNat, resolution]
    exact min_le_left ..
  have summed := sum_le_sum each
  rw [sum_map_mul_right, sum_map_mul_right] at summed
  rw [map_map] at ratios
  refine le_of_mul_le_mul_right (summed.trans ?_) (by decide : 0 < 10000)
  rw [mul_comm out.toNat]
  exact mul_le_mul_right _ ratios

variable {keys : List SignatureVerifyingKey}

namespace DustState

variable (S : Services W)

def inputWorth (utxos : Map Utxo UtxoMeta) (ctime : Timestamp) (params : DustParameters)
    (input : UtxoSpend) : ℕ :=
  match utxos.lookup (S.spentUtxo input) with
  | none => 0
  | some utxoMeta => min (input.value.toNat * params.nightDustRatio.toNat)
      ((ctime.toNat - utxoMeta.ctime.toNat) *
        (input.value.toNat * params.generationDecayRate.toNat))

/- The Night inputs of the guaranteed offer without a generation entry. -/
def generationless (state : DustState) (parent : Intent W) : List UtxoSpend :=
  (inputsOf parent.guaranteedUnshieldedOffer).filter fun i =>
    i.type = night ∧ (state.generation.nightIndices.lookup (S.spendNonce i)).isNone

def worthOf (state : DustState) (utxos : Map Utxo UtxoMeta) (parent : Intent W)
    (actions : DustActions) (params : DustParameters) (owners : List SignatureVerifyingKey) : ℕ :=
  (((state.generationless S parent).filter (·.owner ∈ owners)).map
    (inputWorth S utxos actions.ctime params)).sum

def created (told : Contents W L) : ℕ :=
  (told.map fun
    | some (.dustInitialUtxo output _ _ _) => output.initialValue.toNat
    | _ => 0).sum

def applyRegistrationsTold (state : DustState) (utxos : Map Utxo UtxoMeta) (feesRemaining : U128)
    (parent : Intent W) (registrations : List DustRegistration) (params : DustParameters)
    (tnow tblock : Timestamp) :
    Applied W ((DustState × U128) × Contents W L) :=
  tellEach (fun reached registration => reached.1.applyRegistrationTold S utxos reached.2 parent
    registration params tnow tblock) registrations (state, feesRemaining)

variable {S} {state next : DustState} {utxos : Map Utxo UtxoMeta} {parent : Intent W}
  {actions : DustActions} {params : DustParameters} {told : Contents W L}

variable (S state utxos params) in
theorem availabilityWithin (given : parent.dustActions = some actions) (key : SignatureVerifyingKey) :
    (state.generationlessFeeAvailability S utxos parent key params).toNat
      ≤ state.worthOf S utxos parent actions params [key] := by
  simp only [generationlessFeeAvailability, given]
  rw [foldSaturatingToNat, show BitVec.toNat (0 : U128) = 0 from rfl, zero_add, map_map]
  refine (min_le_left ..).trans ?_
  have same : ((parent.guaranteedUnshieldedOffer.map (·.inputs)).getD []).filter (fun i =>
      i.owner = key ∧ i.type = night ∧
        (state.generation.nightIndices.lookup (S.spendNonce i)).isNone)
      = (state.generationless S parent).filter (·.owner ∈ [key]) := by
    simp only [generationless, inputsOf, filter_filter, mem_singleton, Bool.decide_and]
  rw [same]
  refine sum_le_sum fun input _ => ?_
  simp only [Function.comp_apply, inputWorth]
  cases utxos.lookup (S.spentUtxo input) with
  | none => exact le_refl _
  | some utxoMeta =>
    simp only
    have rated : (saturatingMul (BitVec.ofNat 128 (actions.ctime.toNat - utxoMeta.ctime.toNat))
        (saturatingMul input.value (params.generationDecayRate.setWidth 128))).toNat
        ≤ (actions.ctime.toNat - utxoMeta.ctime.toNat) *
          (input.value.toNat * params.generationDecayRate.toNat) := by
      rw [saturatingMulToNat, saturatingMulToNat, toNat_ofNat, toNat_setWidth]
      exact (Nat.min_le_left ..).trans (Nat.mul_le_mul (Nat.mod_le ..)
        ((min_le_left ..).trans (mul_le_mul_left _ (mod_le ..))))
    have capped : (saturatingMul input.value (params.nightDustRatio.setWidth 128)).toNat
        ≤ input.value.toNat * params.nightDustRatio.toNat := by
      rw [saturatingMulToNat, toNat_setWidth]
      exact (min_le_left ..).trans (mul_le_mul_left _ (mod_le ..))
    split
    · rename_i less
      rw [lt_def] at less
      omega
    · rename_i less
      rw [lt_def] at less
      omega

theorem registerOutputsTold {dustAddr : DustPublicKey} {outputSum dustOut : U128}
    {owned : List (UtxoOutput × Nat)}
    (ok : tellEach (registerOutputTold S parent dustAddr outputSum dustOut tnow tblock) owned state
      = .ok (next, told)) :
    created told = (owned.map fun output => (shareOf outputSum dustOut output.1.value).toNat).sum ∧
      (next.generationless S parent).Sublist (state.generationless S parent) := by
  induction owned generalizing state told with
  | nil =>
    obtain ⟨rfl, rfl⟩ := tellEachNil ok
    exact ⟨rfl, .refl _⟩
  | cons output rest ih =>
    obtain ⟨middle, first, others, taken, left, rfl⟩ := tellEachCons ok
    obtain ⟨sum, kept⟩ := ih left
    rw [registerOutputTold] at taken
    split at taken <;> try contradiction
    obtain ⟨reached, applied, last⟩ := bindOk.mp (mapFaultOk.mp taken)
    cases last
    obtain ⟨-, -, indices, -⟩ := freshDustOutputOk (liftOk.mp applied)
    refine ⟨?_, kept.trans (monotone_filter_right _ fun input free => ?_)⟩
    · simp only [created, map_append, List.sum_append, map_cons, sum_cons] at sum ⊢
      rw [sum]
      rfl
    · simp only [indices, decide_eq_true_eq, Option.isNone_iff_eq_none] at free ⊢
      refine ⟨free.1, ?_⟩
      by_cases same : S.spendNonce input
          = S.initialNonce (BitVec.ofNat 32 output.2) (S.intentHash parent guaranteedSegment)
      · rw [same, lookup_insert] at free
        exact absurd free.2 nofun
      · exact (lookup_insert_ne same).symm.trans free.2

theorem ownedWithin (parent : Intent W) (address : UserAddress) :
    ((ownedOutputs parent address).map (·.1.value.toNat)).sum ≤
      offerGains night parent.guaranteedUnshieldedOffer := by
  rw [ownedOutputs, offerGains]
  cases parent.guaranteedUnshieldedOffer with
  | none => exact le_refl _
  | some offer =>
    have unnumbered : offer.outputs.map (UtxoOutput.amount night) =
        offer.outputs.zipIdx.map fun output => output.1.amount night := by
      rw [← zipIdx_map_fst 0 offer.outputs, map_map, zipIdx_map_fst]
      rfl
    have worth : (offer.nightOutputs.filter fun output => output.1.owner = address).map
        (·.1.value.toNat) = (offer.nightOutputs.filter fun output =>
          output.1.owner = address).map fun output => output.1.amount night := by
      refine map_congr_left fun output mem => ?_
      have isNight := of_decide_eq_true (mem_filter.mp (mem_filter.mp mem).1).2
      exact (if_pos isNight).symm
    simp only [Option.map_some, Option.getD_some]
    rw [unnumbered, worth]
    exact ((filter_sublist.trans filter_sublist).map _).sum_le_sum fun _ _ => zero_le _

theorem applyRegistrationToldWithin (given : parent.dustActions = some actions)
    (fits : offerGains night parent.guaranteedUnshieldedOffer < 2 ^ 128)
    (ok : state.applyRegistrationTold S utxos fees parent registration params tnow tblock
      = .ok ((next, left), told)) :
    created told + fees.toNat
        ≤ left.toNat + state.worthOf S utxos parent actions params [registration.nightKey] ∧
      left.toNat ≤ fees.toNat ∧
      (next.generationless S parent).Sublist (state.generationless S parent) := by
  obtain ⟨delegated, delegates, rest⟩ := bindOk.mp ok
  have within := availabilityWithin S state utxos params given registration.nightKey
  have unmoved : delegated.generation.nightIndices = state.generation.nightIndices := by
    obtain ⟨delegation, rfl⟩ := delegateOk delegates
    rfl
  have frame : delegated.generationless S parent = state.generationless S parent := by
    rw [generationless, unmoved, generationless]
  simp only at rest
  generalize state.generationlessFeeAvailability S utxos parent registration.nightKey params = dustIn
    at within rest
  have paid := smallerToNat fees (smaller registration.allowFeePayment dustIn)
  have allowed := smallerToNat registration.allowFeePayment dustIn
  generalize smaller fees (smaller registration.allowFeePayment dustIn) = feePaid at paid rest
  have charged := toNat_sub_of_le (le_def.mpr (by omega) : feePaid ≤ fees)
  have leftOver := toNat_sub_of_le (le_def.mpr (by omega) : feePaid ≤ dustIn)
  split at rest
  · cases rest
    have nothing : created ([] : Contents W L) = 0 := rfl
    exact ⟨by omega, by omega, frame ▸ .refl _⟩
  · obtain ⟨⟨registered, outputs⟩, given, last⟩ := bindOk.mp rest
    cases last
    obtain ⟨sum, kept⟩ := registerOutputsTold given
    have shares := sharesWithin ((ownedOutputs parent (S.userAddress registration.nightKey)).map
      (·.1.value)) (dustIn - feePaid) (by rw [map_map]; exact (ownedWithin ..).trans_lt fits)
    rw [map_map] at shares
    simp only [Function.comp_def] at shares sum ⊢
    exact ⟨by omega, by omega, frame ▸ kept⟩

variable (S state utxos parent actions params) in
theorem worthOfCons {key : SignatureVerifyingKey} (fresh : key ∉ keys) :
    state.worthOf S utxos parent actions params [key] +
        state.worthOf S utxos parent actions params keys
      = state.worthOf S utxos parent actions params (key :: keys) := by
  simp only [worthOf]
  induction state.generationless S parent with
  | nil => rfl
  | cons input rest ih =>
    by_cases own : input.owner = key
    · simp [own, fresh] at ih ⊢
      omega
    · by_cases other : input.owner ∈ keys
      · simp [own, other] at ih ⊢
        omega
      · simp [own, other] at ih ⊢
        omega

theorem applyRegistrationsToldWithin {registrations : List DustRegistration}
    (given : parent.dustActions = some actions)
    (distinct : (registrations.map nightKey).Nodup)
    (fits : offerGains night parent.guaranteedUnshieldedOffer < 2 ^ 128)
    (ok : state.applyRegistrationsTold S utxos fees parent registrations params tnow tblock
      = .ok ((next, left), told)) :
    created told + fees.toNat ≤ left.toNat + state.worthOf S utxos parent actions params
        (registrations.map nightKey) ∧ left.toNat ≤ fees.toNat := by
  induction registrations generalizing state fees told with
  | nil =>
    obtain ⟨same, rfl⟩ := tellEachNil ok
    cases same
    exact ⟨by simp [created], le_refl _⟩
  | cons registration rest ih =>
    obtain ⟨⟨middle, between⟩, first, others, taken, run, rfl⟩ := tellEachCons ok
    rw [map_cons, nodup_cons] at distinct
    obtain ⟨here, low, kept⟩ := applyRegistrationToldWithin given fits taken
    simp only at here low kept
    obtain ⟨there, lower⟩ := ih distinct.2 run
    have later : middle.worthOf S utxos parent actions params (rest.map nightKey)
        ≤ state.worthOf S utxos parent actions params (rest.map nightKey) :=
      ((kept.filter _).map _).sum_le_sum fun _ _ => zero_le _
    have split := worthOfCons S state utxos parent actions params distinct.1
    have both : created (first ++ others) = created first + created others := by
      simp [created]
    rw [map_cons]
    exact ⟨by omega, by omega⟩

end DustState

namespace DustActions

theorem keyRankInjective {a b : SignatureVerifyingKey} (same : keyRank a = keyRank b) : a = b := by
  have bytes {x y : Bytes} (same : x.map UInt8.toNat = y.map UInt8.toNat) : x = y :=
    map_injective_iff.mpr (fun _ _ => UInt8.toNat_inj.mp) same
  cases a <;> cases b <;> simp only [keyRank, toLex_inj, Prod.mk.injEq] at same
  · exact congrArg _ (bytes same.2)
  · exact absurd same.1 (by decide)
  · exact absurd same.1 (by decide)
  · exact congrArg _ (bytes same.2)

theorem repeatedNone
    (sorted : keys.Pairwise fun a b => keyRank a ≤ keyRank b) (none : repeated keys = none) :
    keys.Nodup := by
  induction keys with
  | nil => exact .nil
  | cons a rest ih =>
    cases rest with
    | nil => exact nodup_singleton a
    | cons b rest =>
      rw [repeated] at none
      split at none <;> try contradiction
      rename_i different
      obtain ⟨least, tail⟩ := pairwise_cons.mp sorted
      refine nodup_cons.mpr ⟨fun mem => ?_, ih tail none⟩
      obtain same | later := mem_cons.mp mem
      · exact different same
      · have above := least b mem_cons_self
        have below := rel_of_pairwise_cons tail later
        exact different (keyRankInjective (le_antisymm above below))

theorem wellFormedDistinct {S : Services W} {actions : DustActions} {parent : Intent W}
    (ok : actions.wellFormedAgainst V (ref.stateReference S V) strictness segment parent tblock
      evidence = .ok ()) : (actions.registrations.map nightKey).Nodup := by
  rw [wellFormedAgainst] at ok
  split at ok <;> try contradiction
  obtain ⟨_, _, verified⟩ := bindOk.mp ok
  obtain ⟨_, _, window⟩ := bindOk.mp verified
  obtain ⟨_, _, keys⟩ := bindOk.mp window
  obtain ⟨_, distinct, _⟩ := bindOk.mp keys
  have checked : actions.keysDistinct V = .ok _ := distinct
  rw [keysDistinct] at checked
  split at checked <;> try contradiction
  rename_i none
  exact (perm_insertionSort _ _).nodup_iff.mp (repeatedNone (pairwise_insertionSort _ _) none)

end DustActions

/- Of the inputs that the registrations of an accepted transaction draw on, none is listed twice;
and its outputs do not exceed the word, since the balance was computed. -/
theorem registrationsCreateNoDust {S : Services W.shielded} {C : Checks W.shielded}
    {V : Verifiers W.shielded} {ref : Reference W.shielded}
    {customTokenType : ContractAddress → HashOutput → HashOutput}
    {refused : MalformedUnshieldedOffer → W.Rejection}
    {overspent : BalanceCheckFailure → W.Rejection}
    {reason : MalformedTransaction W.shielded → W.Rejection} {strictness : WellFormedStrictness}
    {verified tblock : Timestamp} {evidence : W.Evidence} {stx : StandardTransaction W.shielded}
    {vt : VerifiedTransaction W.shielded}
    (accepted : (standard stx).wellFormed S (V.checks S
      ((C.offersChecked refused).balanced customTokenType overspent) ref reason) ref.state strictness
      verified evidence = .ok vt)
    {segment : Segment} {parent : Intent W.shielded} {actions : DustActions}
    (found : stx.intents.lookup segment = some parent) (given : parent.dustActions = some actions)
    {state next : DustState} {utxos : Map Utxo UtxoMeta} {fees left : U128}
    {params : DustParameters} {tnow : Timestamp} {told : Contents W.shielded L}
    (ok : state.applyRegistrationsTold S utxos fees parent actions.registrations params tnow tblock
      = .ok ((next, left), told)) :
    left.toNat ≤ fees.toNat ∧ created told + (fees.toNat - left.toNat) ≤
      ((state.generationless S parent).dedup.map (inputWorth S utxos actions.ctime params)).sum := by
  obtain ⟨-, checks⟩ := wellFormedOk accepted
  have body := checks stx rfl
  have intent := body.intents segment parent found
  have balanced := body.balanced
  rw [Verifiers.checksBalancing, Checks.balancedCheck] at balanced
  obtain ⟨balances, summed, -⟩ := bindOk.mp (mapErrorOk.mp balanced)
  have distinct : (state.generationless S parent).Nodup := by
    refine Nodup.filter _ ?_
    rw [inputsOf]
    cases offered : parent.guaranteedUnshieldedOffer with
    | none => exact nodup_nil
    | some offer =>
      have checked := intent.guaranteedOffer offer offered
      rw [Verifiers.checksOffers, Checks.balancedOffers] at checked
      obtain ⟨⟨⟩, normal, -⟩ := bindOk.mp checked
      exact UnshieldedOffer.wellFormedDistinct (mapErrorOk.mp normal)
  obtain ⟨within, low⟩ := applyRegistrationsToldWithin given
    (DustActions.wellFormedDistinct (mapErrorOk.mp (intent.dust actions given)))
    (StandardTransaction.outputsFit night summed found) ok
  have all : state.worthOf S utxos parent actions params
      (actions.registrations.map nightKey) ≤ ((state.generationless S parent).map
        (inputWorth S utxos actions.ctime params)).sum :=
    (filter_sublist.map _).sum_le_sum fun _ _ => zero_le _
  rw [distinct.dedup]
  exact ⟨low, by omega⟩

def feeRegistering : Applied shieldedComponents
    ((DustState × U128) × List (Option (EventContent shieldedComponents Unit))) :=
  nightDeployed.dust.applyRegistrationsTold shieldedServices nightDeployed.utxo 9 feeIntent
    feeActions.registrations ⟨5, 1, 0⟩ 6 6

def feeRegistered : (DustState × U128) × List (Option (EventContent shieldedComponents Unit)) :=
  value feeRegistering (by decide +kernel)

theorem feeRegisteredWithin : created feeRegistered.2 = 494 ∧
    created feeRegistered.2 + (9 - feeRegistered.1.2.toNat) ≤ 500 := by
  have accepted : dustAccepted nightDeployed feePayment 10 = .ok feeVerified := valueOk _
  have applied : feeRegistering = .ok feeRegistered := valueOk _
  have found : feePayment.intents.lookup 1 = some feeIntent := rfl
  have within := registrationsCreateNoDust accepted found rfl applied
  have worth : ((nightDeployed.dust.generationless shieldedServices feeIntent).dedup.map
      (inputWorth shieldedServices nightDeployed.utxo 6 ⟨5, 1, 0⟩)).sum = 500 := by decide +kernel
  exact ⟨by decide +kernel, within.2.trans (le_of_eq worth)⟩

end MidnightLedger.Ledger

import MidnightLedger.Ledger.Emission

/-! What `apply` folds together: exactly the sections that its result reports as successful, in
ascending order. Then `apply` with each event beside its provenance: the section whose application
emits it, and the segment of the offer or intent that it is an event of. -/
namespace MidnightLedger.Ledger
open ByteString Maps Words Loops Journals LedgerState List DustState Simulation

variable {W : Components} {L : Type}

structure Provenance where
  applied : Segment
  part : Segment
  deriving DecidableEq, Repr

abbrev Labelled (W : Components) (L : Type) :=
  LedgerState W.shielded × List (Segment × DeferredEvent W.shielded L)

abbrev Attributed (W : Components) (L : Type) :=
  LedgerState W.shielded × List (Provenance × LedgerEvent W.shielded L)

def materializeLabelled {κ : Type} (deferred : List (κ × DeferredEvent W L)) :
    Option (List (κ × LedgerEvent W L)) :=
  deferred.mapM fun event => event.2.map (Prod.mk event.1)

namespace LedgerState

section

variable (S : Services W.shielded) (H : TreeHashing) (build : Build)
  (R : Reporting W.shielded L)

/- The parts of the guaranteed section are an offer of its own and the intents. -/
def applyGuaranteedLabelled (state : LedgerState W.shielded) (tx : StandardTransaction W.shielded)
    (transactionHash : HashOutput) (fees : U128) (context : TransactionContext W.shielded) :
    Applied W.shielded (Labelled W L) := do
  let replay ← lift .replayProtectionViolation (state.replayProtection.applyTx S tx
    context.blockContext.tblock state.parameters.globalTtl)
  let ((state, comIndices), shielded) ← labelled guaranteedSegment
    ({ state with replayProtection := replay }.applyZswapOptionTold S H tx.guaranteedCoins
      context.whitelist ⟨transactionHash, guaranteedSegment, guaranteedSegment⟩)
  checkFallibleOffers S state tx context
  let (state, acted) ← tellEach (fun state entry => labelled entry.1
    (guaranteedIntentTold S H build R transactionHash context comIndices state entry))
    (sortedIter tx.intents) state
  let ((state, feesRemaining), spent) ← tellEach (fun state entry => labelled entry.1
    (guaranteedSpendTold S transactionHash context state entry)) tx.spends (state, fees)
  let ((state, _), registered) ← tellEach (fun state entry => labelled entry.1
    (guaranteedRegistrationTold S transactionHash context state entry))
    tx.registrations (state, feesRemaining)
  .ok (state, shielded ++ acted ++ spent ++ registered)

def applySectionLabelled (state : LedgerState W.shielded) (tx : StandardTransaction W.shielded)
    (transactionHash : HashOutput) (fees : U128) (segment : Segment)
    (context : TransactionContext W.shielded) :
    Applied W.shielded (Labelled W L) := do
  let (applied, told) ← (if segment = guaranteedSegment then
      state.applyGuaranteedLabelled S H build R tx transactionHash fees context
    else labelled segment (state.applyFallibleTold S H build R tx transactionHash segment context))
  mapFault .invariantViolation (applied.checkNightBalanceInvariant build)
  .ok (applied, told)

def sectionLabelled (tx : StandardTransaction W.shielded) (transactionHash : HashOutput)
    (fees : U128) (context : TransactionContext W.shielded)
    (acc : Attributed W L)
    (segment : Segment) :
    Applied W.shielded (Attributed W L) := do
  let (next, deferred) ←
    acc.1.applySectionLabelled S H build R tx transactionHash fees segment context
  match materializeLabelled deferred with
  | some events => .ok (next, acc.2 ++ events.map fun event => (⟨segment, event.1⟩, event.2))
  | none => .error .panic

def fallibleLabelled (tx : StandardTransaction W.shielded) (transactionHash : HashOutput)
    (fees : U128) (context : TransactionContext W.shielded)
    (acc : Attributed W L × Log W.shielded) (segment : Segment) :
    Except Panic (Attributed W L × Log W.shielded) :=
  match sectionLabelled S H build R tx transactionHash fees context acc.1 segment with
  | .ok next => .ok (next, acc.2 ++ [(segment, none)])
  | .error (.error e) => .ok (acc.1, acc.2 ++ [(segment, some e)])
  | .error .panic => .error .panic

def applyGuaranteedOnlyLabelled (state : LedgerState W.shielded)
    (tx : VerifiedTransaction W.shielded) (context : TransactionContext W.shielded) :
    Applied W.shielded (Labelled W L) :=
  match tx.inner with
  | .standard stx =>
    state.applySectionLabelled S H build R stx tx.hash tx.fees guaranteedSegment context
  | .claimRewards rewards => labelled guaranteedSegment
      (state.claimUnshieldedTold S build rewards tx.hash context.blockContext)

def applyLabelled (state : LedgerState W.shielded) (tx : VerifiedTransaction W.shielded)
    (context : TransactionContext W.shielded) :
    Except Panic (Attributed W L × TransactionResult W.shielded) :=
  match state.applyGuaranteedOnlyLabelled S H build R tx context with
  | .error (.error e) => .ok ((state, []), .failure e)
  | .error .panic => .error .panic
  | .ok (guaranteed, deferred) =>
    match materializeLabelled deferred, tx.inner with
    | none, _ => .error .panic
    | some events, .claimRewards _ =>
      .ok ((guaranteed, events.map fun event => (⟨guaranteedSegment, event.1⟩, event.2)), .success)
    | some events, .standard stx => do
      let (final, segments) ← stx.fallibleSegments.foldlM
        (fallibleLabelled S H build R stx tx.hash tx.fees context)
        ((guaranteed, events.map fun event => (⟨guaranteedSegment, event.1⟩, event.2)),
          [(guaranteedSegment, none)])
      if segments.all (fun segment => segment.2.isNone) then .ok (final, .success)
      else .ok (final, .partialSuccess segments)

end

def succeeded (log : Log W) : List Segment := (log.filter fun entry => entry.2.isNone).map Prod.fst

/- The sections of the successful entries lead from one pair of state and events to the other,
and each other entry is the refusal of its section on the state reached before it. -/
structure Folds (S : Services W.shielded) (H : TreeHashing) (build : Build)
    (R : Reporting W.shielded L) (tx : StandardTransaction W.shielded)
    (transactionHash : HashOutput) (fees : U128) (context : TransactionContext W.shielded)
    (acc final : Recorded W L)
    (log : Log W.shielded) : Prop where
  folded : (succeeded log).foldlM (sectionFolded S H build R tx transactionHash fees context) acc =
    .ok final
  refused : ∀ front segment e back, log = front ++ (segment, some e) :: back → ∃ reached,
    (succeeded front).foldlM (sectionFolded S H build R tx transactionHash fees context) acc =
        .ok reached ∧
      reached.1.applySectionTold S H build R tx transactionHash fees segment context =
        .error (.error e)

end LedgerState

def unlabelledEvents {κ σ : Type} (acc : σ × List (κ × LedgerEvent W L)) :
    σ × List (LedgerEvent W L) :=
  (acc.1, acc.2.map Prod.snd)

variable {segment : Segment}

namespace DustState

variable {S : Services W} {H : TreeHashing} {build : Build}
  {state : DustState} {tnow tblock : Timestamp} {dustAddr : DustPublicKey} {parent : Intent W}
  {output : UtxoOutput × Nat}

theorem freshDustOutputFollows {initialNonce : InitialNonce} {initialValue nightValue : U128}
    {ε : Type} {wrap : DustStateError → ε} :
    Told (mapFault wrap (state.freshDustOutputTold (L := L) S initialNonce initialValue nightValue
        dustAddr tnow tblock))
      (lift wrap (state.freshDustOutput S initialNonce initialValue nightValue dustAddr tnow)) := by
  have same : lift wrap (state.freshDustOutput S initialNonce initialValue nightValue dustAddr tnow) =
      mapFault wrap
        (lift id (state.freshDustOutput S initialNonce initialValue nightValue dustAddr tnow)) := by
    cases state.freshDustOutput S initialNonce initialValue nightValue dustAddr tnow <;> rfl
  rw [same]
  exact toldMapFault toldTelling

theorem setDtimeFollows {idx : Nat} {time : Timestamp} :
    Told (state.setDtimeTold (W := W) (L := L) S H build idx time tblock)
      (state.setDtime S build idx time) := toldTelling

theorem spendNightFollows {input : UtxoSpend} :
    Told (spendNightTold (L := L) S H build tblock state input)
      (spendNight S build tblock state input) := by
  rw [spendNightTold, spendNight]
  cases state.generation.nightIndices.lookup (S.spendNonce input) with
  | none => exact toldPure
  | some idx => exact toldMapFault setDtimeFollows

theorem creditNightFollows : Told (creditNightTold (L := L) S parent segment tblock state output)
      (creditNight S parent segment tblock state output) := by
  rw [creditNightTold, creditNight]
  cases state.generation.addressDelegation.lookup output.1.owner with
  | none => exact toldPure
  | some dustAddr =>
    by_cases handled : handledByRegistration S parent segment output.1.owner = true
    · simp only [if_pos handled]
      exact toldPure
    · simp only [if_neg handled]
      exact freshDustOutputFollows

theorem applyOfferFollows {offer : UnshieldedOffer} :
    Told (state.applyOfferTold (L := L) S H build offer parent segment tblock)
      (state.applyOffer S build offer parent segment tblock) := by
  refine toldBind (toldEach spendNightFollows) ?_
  exact toldBindLast (toldEach creditNightFollows) toldPure

theorem registerOutputFollows {outputSum dustOut : U128} :
    Told (registerOutputTold (L := L) S parent dustAddr outputSum dustOut tnow tblock state output)
      (registerOutput S parent dustAddr outputSum dustOut tnow state output) := by
  rw [registerOutputTold, registerOutput]
  by_cases nothing : outputSum = 0
  · rw [if_pos nothing, if_pos nothing]
    exact .inr rfl
  · rw [if_neg nothing, if_neg nothing]
    exact freshDustOutputFollows

theorem applyRegistrationFollows {utxos : Map Utxo UtxoMeta} {feesRemaining : U128}
    {registration : DustRegistration} {params : DustParameters} :
    Told (state.applyRegistrationTold (L := L) S utxos feesRemaining parent registration params tnow
        tblock)
      (state.applyRegistration S utxos feesRemaining parent registration params tnow) := by
  refine toldAfter ?_
  cases registration.dustAddress with
  | none => exact toldPure
  | some dustAddr => exact toldBind (toldEach registerOutputFollows) toldPure

end DustState

namespace StandardTransaction

variable (tx : StandardTransaction W)

theorem spendsPlain : tx.spends.map (fun entry => entry.2.2) = dustSpends tx := by
  rw [spends, dustSpends, map_flatMap]
  refine flatMap_congr fun entry _ => ?_
  cases entry.2.dustActions with
  | none => rfl
  | some actions => simp [Function.comp_def]

theorem registrationsPlain :
    tx.registrations.map (fun entry => entry.2) = dustRegistrations tx := by
  rw [registrations, dustRegistrations, map_flatMap]
  refine flatMap_congr fun entry _ => ?_
  cases entry.2.dustActions with
  | none => rfl
  | some actions => simp [Function.comp_def]

end StandardTransaction

variable {S : Services W.shielded} {H : TreeHashing} {build : Build}
  {R : Reporting W.shielded L} {acc final : Recorded W L}

namespace LedgerState

variable {state next : LedgerState W.shielded} {tblock : Timestamp}
  {context : TransactionContext W.shielded} {fees : U128} {tx : StandardTransaction W.shielded}
  {transactionHash : HashOutput} {comIndices : ComIndices} {source : EventSource}

theorem applyZswapOptionFollows {offer : Option Zswap.Offer} {whitelist : Whitelist} :
    Told (state.applyZswapOptionTold (L := L) S H offer whitelist source)
      (state.applyZswapOption S offer whitelist) := by
  cases offer with
  | none => exact toldPure
  | some offer =>
    rw [applyZswapOptionTold, applyZswapOption]
    cases state.applyZswap S offer whitelist with
    | error e => exact .inr rfl
    | ok applied =>
      obtain ⟨next, comIndices⟩ := applied
      cases told : zswapEvents H source offer comIndices with
      | none =>
        refine .inl ?_
        simp [bind, Except.bind, told]
      | some events =>
        refine .inr ?_
        simp [bind, Except.bind, told, Except.map]

theorem applyUnshieldedFollows {offer : Option UnshieldedOffer} {intent : Intent W.shielded} :
    Told (state.applyUnshieldedTold (L := L) S H build offer intent segment context source)
      (state.applyUnshielded S build offer intent segment context) := by
  cases offer with
  | none => exact toldPure
  | some offer => exact toldAfter (toldBind applyOfferFollows toldPure)

theorem applyActionsFollows {actions : List (ContractAction W.shielded)} {guaranteed : Bool}
    {parent : Intent W.shielded} :
    Told (state.applyActionsTold S R actions guaranteed context parent comIndices source)
      (state.applyActions S actions guaranteed context parent comIndices) :=
  toldEach toldTelling

theorem guaranteedIntentFollows {entry : Segment × Intent W.shielded} :
    Told (guaranteedIntentTold S H build R transactionHash context comIndices state entry)
      (guaranteedIntent S build context comIndices state entry) := by
  refine toldBind applyUnshieldedFollows ?_
  exact toldBindLast applyActionsFollows toldPure

theorem applyGuaranteedFollows :
    Told (state.applyGuaranteedTold S H build R tx transactionHash fees context)
      (state.applyGuaranteed S build tx fees context) := by
  refine toldAfter (toldBind applyZswapOptionFollows (toldAfter ?_))
  refine toldBind (toldEach guaranteedIntentFollows) fun {acted told} => ?_
  rw [← tx.spendsPlain, foldlM_map]
  refine toldBind (toldEach (toldBind toldTelling toldPure)) fun {spent told} => ?_
  dsimp only
  rw [← tx.registrationsPlain, foldlM_map]
  exact toldBind (toldEach (toldBind applyRegistrationFollows toldPure)) toldPure

theorem applyFallibleFollows :
    Told (state.applyFallibleTold S H build R tx transactionHash segment context)
      (state.applyFallible S build tx segment context) := by
  rw [applyFallibleTold, applyFallible, applyFallibleOffers, bind_assoc]
  refine toldBind applyZswapOptionFollows fun {started shielded} => ?_
  cases tx.intents.lookup segment with
  | none => exact toldPure
  | some intent =>
    rw [bind_assoc]
    refine toldBind applyUnshieldedFollows ?_
    exact toldBindLast applyActionsFollows toldPure

theorem applySectionFollows :
    Told (state.applySectionTold S H build R tx transactionHash fees segment context)
      (state.applySection S build tx fees segment context) := by
  refine toldBind ?_ (toldAfter toldPure)
  split
  · exact applyGuaranteedFollows
  · exact applyFallibleFollows

theorem claimUnshieldedFollows {tx : ClaimRewardsTransaction} {context : BlockContext} :
    Told (state.claimUnshieldedTold (L := L) S build tx transactionHash context)
      (state.claimUnshielded S build tx context) := by
  have dust {output : Utxo} : Told
      (mapFault .ofDust (state.claimDustTold (L := L) S output context.tblock))
      (lift (TransactionInvalid.ofDust (W := W.shielded)) (state.claimDust S output context.tblock)) := by
    rw [claimDustTold, claimDust]
    cases state.dust.generation.addressDelegation.lookup output.owner with
    | none => exact toldPure
    | some dustAddr => exact freshDustOutputFollows
  rw [claimUnshieldedTold, claimUnshielded]
  split
  · exact .inr rfl
  · split
    · exact .inr rfl
    · exact toldAfter (toldBind dust (toldAfter toldPure))

theorem applyGuaranteedOnlyFollows {tx : VerifiedTransaction W.shielded} :
    Told (state.applyGuaranteedOnlyTold S H build R tx context)
      (state.applyGuaranteedOnly S build tx context) := by
  rw [applyGuaranteedOnlyTold, applyGuaranteedOnly]
  cases tx.inner with
  | standard stx => exact applySectionFollows
  | claimRewards rewards => exact claimUnshieldedFollows

theorem cNightUpdateFollows {dust : DustState} {action : CNightGeneratesDustEvent} :
    Told (cNightUpdateTold (W := W) (L := L) S H build tblock dust action)
      (cNightUpdate S build dust action) := by
  rw [cNightUpdateTold, cNightUpdate]
  cases action.action with
  | create => exact freshDustOutputFollows
  | destroy =>
    cases dust.generation.nightIndices.lookup action.nonce with
    | none =>
      cases build with
      | debug => exact .inr rfl
      | release => exact .inr rfl
    | some idx =>
      refine toldBindLast (toldMapFault setDtimeFollows) ?_
      intro next reports
      dsimp only
      split
      · exact toldPure
      · exact .inl rfl

theorem applySystemTxFollows {tx : SystemTransaction W.shielded} :
    Told (state.applySystemTxTold S H build R tx tblock) (state.applySystemTx S build tx tblock) := by
  cases tx with
  | cNightGeneratesDustUpdate actions => exact toldBind (toldEach cNightUpdateFollows) toldPure
  | _ => exact toldTelling

theorem sectionFoldedOk
    (ok : sectionFolded S H build R tx transactionHash fees context acc segment = .ok final) :
    ∃ deferred events, acc.1.applySectionTold S H build R tx transactionHash fees segment context =
        .ok (final.1, deferred) ∧
      materialize deferred = some events ∧ final.2 = acc.2 ++ events := by
  obtain ⟨⟨applied, deferred⟩, taken, last⟩ := bindOk.mp ok
  dsimp only at last
  split at last <;> try contradiction
  rename_i events made
  cases last
  exact ⟨deferred, events, taken, made, rfl⟩

variable {e : TransactionInvalid W.shielded} {logged : Log W.shielded} {cause : Panic}

theorem sectionFoldedRefused :
    sectionFolded S H build R tx transactionHash fees context acc segment = .error (.error e) ↔
      acc.1.applySectionTold S H build R tx transactionHash fees segment context =
        .error (.error e) := by
  rw [sectionFolded, bindError]
  refine or_iff_left ?_
  rintro ⟨⟨applied, deferred⟩, -, last⟩
  dsimp only at last
  split at last <;> cases last

theorem fallibleToldPlain {before after : Recorded W L × Log W.shielded}
    (ok : fallibleTold S H build R tx transactionHash fees context before segment = .ok after) :
    fallibleStep S build tx fees context (before.1.1, before.2) segment =
      .ok (after.1.1, after.2) := by
  rw [fallibleTold] at ok
  split at ok <;> try contradiction
  · rename_i reached applied
    cases ok
    obtain ⟨deferred, events, taken, -, -⟩ := sectionFoldedOk applied
    rw [fallibleStep, toldOk applySectionFollows taken]
  · rename_i e refused
    cases ok
    rw [fallibleStep, toldRefused applySectionFollows (sectionFoldedRefused.mp refused)]

variable {log : Log W.shielded} {vt : VerifiedTransaction W.shielded}
  {result : TransactionResult W.shielded} {segments : List Segment}

theorem applyToldPlain (ok : state.applyTold S H build R vt context = .ok (final, result)) :
    state.apply S build vt context = .ok (final.1, result) := by
  rw [applyTold] at ok
  split at ok
  · rename_i e refused
    cases ok
    rw [apply, toldRefused applyGuaranteedOnlyFollows refused]
  · contradiction
  · rename_i guaranteed deferred started
    rw [apply, toldOk applyGuaranteedOnlyFollows started]
    split at ok <;> try contradiction
    · rename_i rewards made inner
      cases ok
      rw [inner]
    · rename_i first stx made inner
      obtain ⟨⟨reached, log⟩, run, last⟩ := bindOk.mp ok
      rw [inner]
      have plain := runProjected (Prod.map Prod.fst id) fallibleToldPlain run
      refine bindOk.mpr ⟨(reached.1, log), plain, ?_⟩
      dsimp only at last ⊢
      split at last <;> rename_i every <;> cases last
      · exact if_pos every
      · exact if_neg every

theorem foldsNil : Folds S H build R tx transactionHash fees context acc acc [] where
  folded := rfl
  refused front segment e back split := by cases front <;> cases split

theorem Folds.applied {middle : Recorded W L}
    (ok : sectionFolded S H build R tx transactionHash fees context acc segment = .ok middle)
    (rest : Folds S H build R tx transactionHash fees context middle final log) :
    Folds S H build R tx transactionHash fees context acc final ((segment, none) :: log) where
  folded := runCons.mpr ⟨middle, ok, rest.folded⟩
  refused front other e back split := by
    cases front with
    | nil => cases split
    | cons entry front =>
      cases split
      obtain ⟨reached, run, refused⟩ := rest.refused front other e back rfl
      exact ⟨reached, runCons.mpr ⟨middle, ok, run⟩, refused⟩

theorem Folds.skipped
    (refusal : acc.1.applySectionTold S H build R tx transactionHash fees segment context =
      .error (.error e)) (rest : Folds S H build R tx transactionHash fees context acc final log) :
    Folds S H build R tx transactionHash fees context acc final ((segment, some e) :: log) where
  folded := rest.folded
  refused front other reason back split := by
    cases front with
    | nil =>
      cases split
      exact ⟨acc, rfl, refusal⟩
    | cons entry front =>
      cases split
      exact rest.refused front other reason back rfl

theorem fallibleFolds
    (ok : segments.foldlM (fallibleTold S H build R tx transactionHash fees context) (acc, log) =
      .ok (final, logged)) :
    ∃ entries, logged = log ++ entries ∧ entries.map Prod.fst = segments ∧
      Folds S H build R tx transactionHash fees context acc final entries := by
  induction segments generalizing acc log with
  | nil =>
    cases runNil.mp ok
    exact ⟨[], (append_nil _).symm, rfl, foldsNil⟩
  | cons segment segments ih =>
    obtain ⟨⟨middle, between⟩, taken, rest⟩ := runCons.mp ok
    obtain ⟨entries, rfl, keys, folds⟩ := ih rest
    rw [fallibleTold] at taken
    split at taken <;> try contradiction
    · rename_i reached applied
      cases taken
      exact ⟨(segment, none) :: entries, by simp, by simp [keys], folds.applied applied⟩
    · rename_i e refused
      cases taken
      exact ⟨(segment, some e) :: entries, by simp, by simp [keys],
        folds.skipped (sectionFoldedRefused.mp refused)⟩

theorem fallibleInterrupted
    (ended : segments.foldlM (fallibleTold S H build R tx transactionHash fees context) (acc, log) =
      .error cause) :
    ∃ entries segment back reached, segments = entries.map Prod.fst ++ segment :: back ∧
      Folds S H build R tx transactionHash fees context acc reached entries ∧
      sectionFolded S H build R tx transactionHash fees context reached segment =
        .error .panic := by
  induction segments generalizing acc log with
  | nil => cases ended
  | cons segment segments ih =>
    rw [foldlM_cons, bindError, fallibleTold] at ended
    split at ended
    · rename_i reached applied
      obtain taken | ⟨between, taken, rest⟩ := ended
      · cases taken
      · cases taken
        obtain ⟨entries, other, back, last, rfl, folds, panics⟩ := ih rest
        exact ⟨(segment, none) :: entries, other, back, last, rfl, folds.applied applied, panics⟩
    · rename_i e refused
      obtain taken | ⟨between, taken, rest⟩ := ended
      · cases taken
      · cases taken
        obtain ⟨entries, other, back, last, rfl, folds, panics⟩ := ih rest
        exact ⟨(segment, some e) :: entries, other, back, last, rfl,
          folds.skipped (sectionFoldedRefused.mp refused), panics⟩
    · rename_i panics
      exact ⟨[], segment, segments, acc, rfl, foldsNil, panics⟩

theorem sectionOpened {deferred : List (DeferredEvent W.shielded L)}
    {events : List (LedgerEvent W.shielded L)}
    (applied : state.applySectionTold S H build R tx transactionHash fees segment context =
      .ok (next, deferred))
    (made : materialize deferred = some events) :
    sectionFolded S H build R tx transactionHash fees context (state, []) segment =
      .ok (next, events) := by
  refine bindOk.mpr ⟨(next, deferred), applied, ?_⟩
  dsimp only
  rw [made]
  rfl

theorem segmentsAscending (tx : StandardTransaction W) :
    (guaranteedSegment :: tx.fallibleSegments).Pairwise (· < ·) := by
  refine pairwise_cons.mpr ⟨fun segment mem => ?_, ?_⟩
  · exact Fin.pos_iff_ne_zero.mpr (StandardTransaction.memFallibleSegments.mp mem).2
  · have ordered : tx.fallibleSegments.Pairwise (· ≤ ·) := pairwise_insertionSort _ _
    exact (ordered.and tx.fallibleSegmentsNodup).imp fun both => lt_of_le_of_ne both.1 both.2

theorem applyToldOk (ok : state.applyTold S H build R vt context = .ok (final, result)) :
    (∃ e, final = (state, []) ∧ result = .failure e ∧
      state.applyGuaranteedOnlyTold S H build R vt context = .error (.error e)) ∨
    (∃ rewards deferred, vt.inner = .claimRewards rewards ∧ result = .success ∧
      state.claimUnshieldedTold S build rewards vt.hash context.blockContext =
        .ok (final.1, deferred) ∧ materialize deferred = some final.2) ∨
    ∃ stx log, vt.inner = .standard stx ∧ result = resultOf log ∧
      log.map Prod.fst = guaranteedSegment :: stx.fallibleSegments ∧
      log.head? = some (guaranteedSegment, none) ∧
      Folds S H build R stx vt.hash vt.fees context (state, []) final log := by
  rw [applyTold] at ok
  split at ok
  · rename_i e refused
    cases ok
    exact .inl ⟨e, rfl, rfl, refused⟩
  · contradiction
  · rename_i guaranteed deferred started
    split at ok
    · contradiction
    · rename_i rewards made inner
      cases ok
      rw [applyGuaranteedOnlyTold, inner] at started
      exact .inr (.inl ⟨rewards, deferred, inner, rfl, started, made⟩)
    · rename_i first stx made inner
      rw [applyGuaranteedOnlyTold, inner] at started
      obtain ⟨⟨reached, log⟩, run, last⟩ := bindOk.mp ok
      obtain ⟨entries, rfl, keys, folds⟩ := fallibleFolds run
      have told : reached = final ∧ result = resultOf ((guaranteedSegment, none) :: entries) := by
        dsimp only at last
        split at last <;> rename_i every <;> cases last
        · exact ⟨rfl, (if_pos every).symm⟩
        · exact ⟨rfl, (if_neg every).symm⟩
      obtain ⟨rfl, tells⟩ := told
      refine .inr (.inr ⟨stx, (guaranteedSegment, none) :: entries, inner, tells, ?_, rfl, ?_⟩)
      · rw [map_cons, keys]
      · exact folds.applied (sectionOpened started made)

theorem applyToldPanics (ended : state.applyTold S H build R vt context = .error cause) :
    state.applyGuaranteedOnlyTold S H build R vt context = .error .panic ∨
    (∃ next deferred, state.applyGuaranteedOnlyTold S H build R vt context =
      .ok (next, deferred) ∧ materialize deferred = none) ∨
    ∃ stx log segment back reached, vt.inner = .standard stx ∧
      guaranteedSegment :: stx.fallibleSegments = log.map Prod.fst ++ segment :: back ∧
      Folds S H build R stx vt.hash vt.fees context (state, []) reached log ∧
      sectionFolded S H build R stx vt.hash vt.fees context reached segment = .error .panic := by
  rw [applyTold] at ended
  split at ended
  · contradiction
  · rename_i panics
    exact .inl panics
  · rename_i guaranteed deferred started
    split at ended
    · rename_i made
      exact .inr (.inl ⟨guaranteed, deferred, started, made⟩)
    · contradiction
    · rename_i first stx made inner
      rw [applyGuaranteedOnlyTold, inner] at started
      have run : stx.fallibleSegments.foldlM (fallibleTold S H build R stx vt.hash vt.fees context)
          ((guaranteed, first), [(guaranteedSegment, none)]) = .error cause := by
        rcases bindError.mp ended with stopped | ⟨reached, -, last⟩
        · exact stopped
        · dsimp only at last
          split at last <;> cases last
      obtain ⟨entries, segment, back, reached, split, folds, panics⟩ := fallibleInterrupted run
      refine .inr (.inr ⟨stx, (guaranteedSegment, none) :: entries, segment, back, reached, inner,
        ?_, folds.applied (sectionOpened started made), panics⟩)
      rw [split, map_cons, cons_append]

/- The four ways `apply` ends. A refused transaction leaves the state and emits nothing; a claim is
one step; any other transaction is the fold of the sections its result reports as successful, in
ascending order and from the guaranteed one on; and a panic is that of one section, or of the
guaranteed part. -/
theorem applicationFolded (S : Services W.shielded) (H : TreeHashing)
    (build : Build) (R : Reporting W.shielded L) (state : LedgerState W.shielded)
    (vt : VerifiedTransaction W.shielded) (context : TransactionContext W.shielded) :
    (∃ e, state.applyTold S H build R vt context = .ok ((state, []), .failure e) ∧
      state.applyGuaranteedOnlyTold S H build R vt context = .error (.error e)) ∨
    (∃ rewards next deferred events, vt.inner = .claimRewards rewards ∧
      state.applyTold S H build R vt context = .ok ((next, events), .success) ∧
      state.claimUnshieldedTold S build rewards vt.hash context.blockContext =
        .ok (next, deferred) ∧ materialize deferred = some events) ∨
    (∃ stx final log, vt.inner = .standard stx ∧
      state.applyTold S H build R vt context = .ok (final, resultOf log) ∧
      log.map Prod.fst = guaranteedSegment :: stx.fallibleSegments ∧
      (log.map Prod.fst).Pairwise (· < ·) ∧ log.head? = some (guaranteedSegment, none) ∧
      Folds S H build R stx vt.hash vt.fees context (state, []) final log) ∨
    state.applyTold S H build R vt context = .error .panic ∧
      (state.applyGuaranteedOnlyTold S H build R vt context = .error .panic ∨
       (∃ next deferred, state.applyGuaranteedOnlyTold S H build R vt context =
          .ok (next, deferred) ∧ materialize deferred = none) ∨
       ∃ stx log segment back reached, vt.inner = .standard stx ∧
          guaranteedSegment :: stx.fallibleSegments = log.map Prod.fst ++ segment :: back ∧
          Folds S H build R stx vt.hash vt.fees context (state, []) reached log ∧
          sectionFolded S H build R stx vt.hash vt.fees context reached segment =
            .error .panic) := by
  cases ended : state.applyTold S H build R vt context with
  | error cause => exact .inr (.inr (.inr ⟨rfl, applyToldPanics ended⟩))
  | ok applied =>
    obtain ⟨⟨next, events⟩, result⟩ := applied
    obtain ⟨e, same, rfl, refused⟩ | ⟨rewards, deferred, inner, rfl, claimed, made⟩ |
      ⟨stx, log, inner, rfl, segments, opened, folds⟩ := applyToldOk ended
    · cases same
      exact .inl ⟨e, rfl, refused⟩
    · exact .inr (.inl ⟨rewards, next, deferred, events, inner, rfl, claimed, made⟩)
    · refine .inr (.inr (.inl ⟨stx, (next, events), log, inner, rfl, segments, ?_, opened, folds⟩))
      rw [segments]
      exact segmentsAscending stx

open Option

theorem materializeUnlabelled (deferred : List (κ × DeferredEvent W L)) :
    (materializeLabelled deferred).map (map Prod.snd) = materialize (deferred.map Prod.snd) := by
  induction deferred with
  | nil => rfl
  | cons event deferred ih =>
    obtain ⟨label, event⟩ := event
    rw [materializeLabelled, mapM_cons, map_cons, materialize, mapM_cons]
    rw [materialize] at ih
    cases event with
    | none => rfl
    | some event =>
      simp only [map_some, bind_eq_bind, bind_some, ← ih]
      rw [materializeLabelled]
      cases deferred.mapM fun event => event.2.map (Prod.mk event.1) with
      | none => rfl
      | some events => rfl

theorem materializeLabelledMem {deferred : List (κ × DeferredEvent W L)}
    {events : List (κ × LedgerEvent W L)} (made : materializeLabelled deferred = some events) :
    deferred = events.map fun event => (event.1, some event.2) := by
  rw [← map_id deferred]
  refine (relatedMap (fun {x y} same => ?_) (mapMMade made)).symm
  obtain ⟨event, known, rfl⟩ := map_eq_some_iff.mp same
  exact Prod.ext rfl known.symm

theorem guaranteedUnlabelled :
    unlabelled (state.applyGuaranteedLabelled S H build R tx transactionHash fees context) =
      state.applyGuaranteedTold S H build R tx transactionHash fees context := by
  refine unlabelledAfter fun {replay} => ?_
  nth_rewrite 2 [← unlabelledLabelled guaranteedSegment (applyZswapOptionTold S H _ _ _ _)]
  refine unlabelledBind fun {started shielded} => ?_
  obtain ⟨begun, comIndices⟩ := started
  refine unlabelledAfter fun {checked} => ?_
  rw [← unlabelledEach (fun entry => entry.1)
    (guaranteedIntentTold S H build R transactionHash context comIndices)]
  refine unlabelledBind fun {acting acted} => ?_
  dsimp only
  rw [← unlabelledEach (fun entry => entry.1) (guaranteedSpendTold S transactionHash context)]
  refine unlabelledBind fun {spending spent} => ?_
  rw [← unlabelledEach (fun entry => entry.1) (guaranteedRegistrationTold S transactionHash context)]
  refine unlabelledBind fun {registering registered} => ?_
  simp [unlabelled, Except.map]

theorem sectionUnlabelled :
    unlabelled (state.applySectionLabelled S H build R tx transactionHash fees segment context) =
      state.applySectionTold S H build R tx transactionHash fees segment context := by
  have body : unlabelled (if segment = guaranteedSegment then
      state.applyGuaranteedLabelled S H build R tx transactionHash fees context
    else labelled segment
      (state.applyFallibleTold S H build R tx transactionHash segment context)) =
      if segment = guaranteedSegment then
        state.applyGuaranteedTold S H build R tx transactionHash fees context
      else state.applyFallibleTold S H build R tx transactionHash segment context := by
    split
    · exact guaranteedUnlabelled
    · exact unlabelledLabelled segment _
  rw [applySectionLabelled, applySectionTold, ← body]
  exact unlabelledBind (unlabelledAfter rfl)

theorem sectionLabelledOk {deferred : List (Segment × DeferredEvent W.shielded L)}
    (ok : state.applySectionLabelled S H build R tx transactionHash fees segment context =
      .ok (next, deferred)) : state.applySection S build tx fees segment context = .ok next := by
  have told := congrArg unlabelled ok
  rw [sectionUnlabelled] at told
  exact toldOk applySectionFollows told

theorem sectionLabelledRefused
    (refused : state.applySectionLabelled S H build R tx transactionHash fees segment context =
      .error (.error e)) :
    state.applySection S build tx fees segment context = .error (.error e) := by
  have told := congrArg unlabelled refused
  rw [sectionUnlabelled] at told
  exact toldRefused applySectionFollows told

theorem sectionLabelledPlain {acc : Attributed W L} :
    (sectionLabelled S H build R tx transactionHash fees context acc segment).map unlabelledEvents =
      sectionFolded S H build R tx transactionHash fees context (unlabelledEvents acc) segment := by
  rw [sectionLabelled, sectionFolded, unlabelledEvents, ← sectionUnlabelled]
  cases acc.1.applySectionLabelled S H build R tx transactionHash fees segment context with
  | error e => rfl
  | ok applied =>
    obtain ⟨next, deferred⟩ := applied
    have worked := materializeUnlabelled deferred
    simp only [unlabelled, Except.map, bind, Except.bind, ← worked]
    cases materializeLabelled deferred with
    | none => rfl
    | some events => simp [Function.comp_def, unlabelledEvents]

variable {acc : Attributed W L ×
  Log W.shielded}

theorem fallibleLabelledPlain :
    (fallibleLabelled S H build R tx transactionHash fees context acc segment).map
        (Prod.map unlabelledEvents id) = fallibleTold S H build R tx transactionHash fees context
        (Prod.map unlabelledEvents id acc) segment := by
  rw [fallibleLabelled, fallibleTold, Prod.map_fst, Prod.map_snd, id, ← sectionLabelledPlain]
  rcases sectionLabelled S H build R tx transactionHash fees context acc.1 segment with
    (e | -) | next
  · rfl
  · rfl
  · rfl

theorem fallibleRunLabelledPlain :
    (segments.foldlM (fallibleLabelled S H build R tx transactionHash fees context) acc).map
        (Prod.map unlabelledEvents id) =
      segments.foldlM (fallibleTold S H build R tx transactionHash fees context)
        (Prod.map unlabelledEvents id acc) := by
  induction segments generalizing acc with
  | nil => rfl
  | cons segment segments ih =>
    rw [foldlM_cons, foldlM_cons, ← fallibleLabelledPlain]
    cases fallibleLabelled S H build R tx transactionHash fees context acc segment with
    | error e => rfl
    | ok next => exact ih

theorem applyLabelledPlain :
    (state.applyLabelled S H build R vt context).map (Prod.map unlabelledEvents id) =
      state.applyTold S H build R vt context := by
  have opened : unlabelled (state.applyGuaranteedOnlyLabelled S H build R vt context) =
      state.applyGuaranteedOnlyTold S H build R vt context := by
    rw [applyGuaranteedOnlyLabelled, applyGuaranteedOnlyTold]
    cases vt.inner with
    | standard stx => exact sectionUnlabelled
    | claimRewards rewards => exact unlabelledLabelled guaranteedSegment _
  rw [applyLabelled, applyTold, ← opened]
  rcases state.applyGuaranteedOnlyLabelled S H build R vt context with (e | -) | ⟨next, deferred⟩
  · rfl
  · rfl
  · have worked := materializeUnlabelled deferred
    simp only [unlabelled, Except.map, ← worked]
    cases materializeLabelled deferred with
    | none => rfl
    | some events =>
      cases vt.inner with
      | claimRewards rewards => simp [unlabelledEvents, Function.comp_def]
      | standard stx =>
        have run := @fallibleRunLabelledPlain _ _ S H build R context vt.fees stx vt.hash
          stx.fallibleSegments ((next, events.map fun event => (⟨guaranteedSegment, event.1⟩, event.2)),
            [(guaranteedSegment, none)])
        simp only [unlabelledEvents, Prod.map, id, List.map_map, Function.comp_def] at run
        simp only [map_some, ← run]
        cases stx.fallibleSegments.foldlM
            (fallibleLabelled S H build R stx vt.hash vt.fees context) _ with
        | error e => rfl
        | ok final =>
          obtain ⟨reached, log⟩ := final
          by_cases every : log.all (fun segment => segment.2.isNone) = true
          · simp [bind, Except.bind, Except.map, every]
          · simp [bind, Except.bind, Except.map, every]

end LedgerState

theorem stepToldPlain {input : Step W.shielded} {next : Recorded W L}
    (ok : stepTold S H build R acc input = .ok next) : step S build acc.1 input = .ok next.1 := by
  cases input with
  | transaction tx context =>
    obtain ⟨⟨⟨reached, events⟩, result⟩, applied, rfl⟩ := pureOk.mp ok
    exact bindOk.mpr ⟨(reached, result), applyToldPlain applied, rfl⟩
  | system tx tblock =>
    rw [stepTold] at ok
    rw [step]
    split at ok
    · rename_i reached deferred applied
      rw [toldOk applySystemTxFollows applied]
      split at ok <;> cases ok
      rfl
    · rename_i e refused
      cases ok
      rw [toldRefused applySystemTxFollows refused]
    · contradiction
  | postBlock tblock fullness =>
    cases ok
    rfl

theorem runToldPlain {inputs : List (Step W.shielded)} {final : Recorded W L}
    (ok : inputs.foldlM (stepTold S H build R) acc = .ok final) :
    inputs.foldlM (step S build) acc.1 = .ok final.1 :=
  runProjected Prod.fst stepToldPlain ok

end MidnightLedger.Ledger

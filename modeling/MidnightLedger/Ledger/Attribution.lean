import MidnightLedger.Ledger.Generation
import MidnightLedger.Ledger.SectionFold

/-! What the source of an event tells of its provenance. Logical segments are right in the
guaranteed section and for Zswap events; all other events of fallible sections name the
guaranteed one. -/
namespace MidnightLedger.Ledger
open ByteString Maps Words Loops Journals List Simulation

variable {W : Components} {L : Type}

def Sourced (source : EventSource) (told : List (DeferredEvent W L)) : Prop :=
  ∀ event ∈ told, ∀ made, event = some made → made.source = source

theorem sourcedNil (source : EventSource) : Sourced source ([] : List (DeferredEvent W L)) :=
  forall_mem_nil _

variable {source : EventSource}

theorem sourcedAppend {told more : List (DeferredEvent W L)}
    (first : Sourced source told) (second : Sourced source more) : Sourced source (told ++ more) :=
  forall_mem_append.mpr ⟨first, second⟩

theorem sourcedSourced (source : EventSource) (told : Contents W L) :
    Sourced source (sourced source told) := by
  intro event mem made same
  obtain ⟨content, -, rfl⟩ := mem_map.mp mem
  obtain ⟨inner, -, rfl⟩ := Option.map_eq_some_iff.mp same
  rfl

variable {H : TreeHashing} {segment : Segment}

namespace DustState

def Ends (S : Services W) (state : DustState) (input : UtxoSpend) : Prop :=
  ∃ idx, state.generation.nightIndices.lookup (S.spendNonce input) = some idx ∧
    (state.generation.entry idx).isSome

def Starts (state : DustState) (output : UtxoOutput × Nat) : Prop :=
  (state.generation.addressDelegation.lookup output.1.owner).isSome

variable {S : Services W} {build : Build} {state next : DustState} {tblock : Timestamp}
  {told : Contents W L}

theorem spendNightSilent {input : UtxoSpend}
    (ok : state.spendNightTold S H build tblock input = .ok (next, told)) :
    (told = [] ↔ ¬ state.Ends S input) ∧ (∀ other, next.Ends S other ↔ state.Ends S other) ∧
      next.generation.addressDelegation = state.generation.addressDelegation := by
  rw [spendNightTold] at ok
  split at ok
  · rename_i untracked
    cases ok
    exact ⟨by simp [Ends, untracked], fun _ => Iff.rfl, rfl⟩
  · rename_i idx tracked
    obtain ⟨reached, set, last⟩ := bindOk.mp (mapFaultOk.mp ok)
    cases last
    obtain ⟨delegations, -, indices, entries⟩ := setDtimeOk set
    have kept : ∀ i, (next.generation.entry i).isSome = (state.generation.entry i).isSome := by
      intro i
      rw [entries i]
      split
      · rw [Option.isSome_map]
      · rfl
    refine ⟨?_, fun other => by simp only [Ends, indices, kept], delegations⟩
    have ends : state.Ends S input ↔ (state.generation.generatingTree.index idx).isSome := by
      simp only [Ends, tracked, Option.some.injEq, exists_eq_left', DustGenerationState.entry,
        Option.isSome_map]
    rw [ends]
    cases state.generation.generatingTree.index idx with
    | none => simp
    | some found => simp

section

variable {parent : Intent W} (fallible : segment ≠ guaranteedSegment)

include fallible

theorem creditNightSilent {output : UtxoOutput × Nat}
    (ok : state.creditNightTold S parent segment tblock output = .ok (next, told)) :
    (told = [] ↔ ¬ state.Starts output) ∧ ∀ other, next.Starts other ↔ state.Starts other := by
  rw [creditNightTold] at ok
  split at ok
  · rename_i undelegated
    cases ok
    exact ⟨by simp [Starts, undelegated], fun _ => Iff.rfl⟩
  · rename_i dustAddr delegated
    have unhandled : handledByRegistration S parent segment output.1.owner = false := by
      simp [handledByRegistration, fallible]
    rw [if_neg (by rw [unhandled]; exact Bool.false_ne_true)] at ok
    obtain ⟨reached, fresh, last⟩ := bindOk.mp (mapFaultOk.mp ok)
    cases last
    obtain ⟨delegations, -⟩ := freshDustOutputOk (liftOk.mp fresh)
    exact ⟨by simp [Starts, delegated], fun other => by rw [Starts, delegations]; rfl⟩

theorem applyOfferSilent {offer : UnshieldedOffer}
    (ok : state.applyOfferTold S H build offer parent segment tblock = .ok (next, told)) :
    told = [] ↔ (∀ input ∈ offer.nightInputs, ¬ state.Ends S input) ∧
      ∀ output ∈ offer.nightOutputs, ¬ state.Starts output := by
  obtain ⟨⟨spent, closed⟩, first, rest⟩ := bindOk.mp ok
  obtain ⟨⟨credited, fresh⟩, second, last⟩ := bindOk.mp rest
  cases last
  have spends := tellEachSilent (fun dust input => DustState.Ends S dust input)
    (fun taken => ⟨(spendNightSilent taken).1, (spendNightSilent taken).2.1⟩) first
  have credits := tellEachSilent (fun dust output => DustState.Starts dust output)
    (fun taken => creditNightSilent fallible taken) second
  have delegations : spent.generation.addressDelegation = state.generation.addressDelegation :=
    tellEachKeeps (fun dust => dust.generation.addressDelegation)
      (fun taken => (spendNightSilent taken).2.2) first
  rw [append_eq_nil_iff, spends.1, credits.1]
  simp only [Starts, delegations]

end

end DustState

def VerifiedTransaction.reported (vt : VerifiedTransaction W) : TransactionResult W → List Segment
  | .success =>
    match vt.inner with
    | .standard stx => guaranteedSegment :: stx.fallibleSegments
    | .claimRewards _ => [guaranteedSegment]
  | .partialSuccess log => LedgerState.succeeded log
  | .failure _ => []

namespace LedgerState

/- The fallible part of an intent has no event of its own: its Night neither ends nor starts a
generation, it deploys no contract, and its calls log nothing. -/
structure Quiet (S : Services W.shielded) (build : Build) (R : Reporting W.shielded L)
    (before : LedgerState W.shielded) (tx : StandardTransaction W.shielded) (segment : Segment)
    (context : TransactionContext W.shielded) (intent : Intent W.shielded) : Prop where
  inputs : ∀ offer, intent.fallibleUnshieldedOffer = some offer →
    ∀ input ∈ offer.nightInputs, ¬ before.dust.Ends S input
  outputs : ∀ offer, intent.fallibleUnshieldedOffer = some offer →
    ∀ output ∈ offer.nightOutputs, ¬ before.dust.Starts output
  deploys : ∀ deploy, .deploy deploy ∈ intent.actions →
    whitelistMatches context.whitelist (S.deployAddress deploy) = false
  calls : ∀ offered comIndices front call back reached cstate transcript,
    before.applyFallibleOffers S build tx segment context = .ok (offered, comIndices) →
    intent.actions = front ++ .call call :: back →
    offered.applyActions S front false context intent comIndices = .ok reached →
    whitelistMatches context.whitelist call.address = true →
    reached.contract.lookup call.address = some cstate →
    call.transcript false = some transcript →
    R.loggedItems cstate context.blockContext intent comIndices call transcript
      offered.parameters.pricing = []

variable {comIndices : ComIndices} {S : Services W.shielded} {build : Build}
  {R : Reporting W.shielded L} {state next : LedgerState W.shielded}
  {context : TransactionContext W.shielded} {tx : StandardTransaction W.shielded}
  {transactionHash : HashOutput} {fees : U128} {told : List (DeferredEvent W.shielded L)}

theorem zswapEventsSourced {offer : Zswap.Offer} {events : List Event}
    (made : zswapEvents H source offer comIndices = some events) :
    ∀ event ∈ events, event.source = source := by
  obtain ⟨outputs, each, last⟩ := Option.bind_eq_some_iff.mp made
  cases last
  refine forall_mem_append.mpr ⟨fun event mem => ?_, fun event mem => ?_⟩
  · obtain ⟨input, -, rfl⟩ := mem_map.mp mem
    rfl
  · obtain ⟨output, -, same⟩ := relatedMem (mapMMade each) mem
    obtain ⟨index, -, last⟩ := Option.bind_eq_some_iff.mp same
    cases last
    rfl

theorem zswapOptionSourced {offer : Option Zswap.Offer} {whitelist : Whitelist}
    {started : LedgerState W.shielded × ComIndices}
    (ok : state.applyZswapOptionTold S H offer whitelist source = .ok (started, told)) :
    Sourced source told := by
  cases offer with
  | none =>
    cases ok
    exact sourcedNil source
  | some offer =>
    obtain ⟨⟨reached, comIndices⟩, -, last⟩ := bindOk.mp ok
    dsimp only at last
    split at last <;> try contradiction
    rename_i events made
    cases last
    intro event mem given same
    obtain ⟨inner, inside, rfl⟩ := mem_map.mp mem
    cases same
    exact zswapEventsSourced made inner inside

variable {offer : Option UnshieldedOffer} {intent : Intent W.shielded}

theorem unshieldedSourced
    (ok : state.applyUnshieldedTold S H build offer intent segment context source =
      .ok (next, told)) : Sourced source told := by
  cases offer with
  | none =>
    cases ok
    exact sourcedNil source
  | some offer =>
    obtain ⟨utxo, -, rest⟩ := bindOk.mp ok
    obtain ⟨⟨dust, contents⟩, -, last⟩ := bindOk.mp rest
    cases last
    exact sourcedSourced source contents

variable {actions : List (ContractAction W.shielded)} {parent : Intent W.shielded}

theorem actionsSourced {guaranteed : Bool}
    (ok : state.applyActionsTold S R actions guaranteed context parent comIndices source =
      .ok (next, told)) : Sourced source told := by
  refine tellEachAll (fun {s action t reports} _ taken => ?_) ok
  obtain ⟨reached, -, last⟩ := bindOk.mp taken
  cases last
  exact sourcedSourced source _

theorem guaranteedIntentSourced {entry : Segment × Intent W.shielded}
    (ok : guaranteedIntentTold S H build R transactionHash context comIndices state entry =
      .ok (next, told)) : Sourced ⟨transactionHash, guaranteedSegment, entry.1⟩ told := by
  obtain ⟨⟨moved, offered⟩, first, rest⟩ := bindOk.mp ok
  obtain ⟨⟨reached, acted⟩, second, last⟩ := bindOk.mp rest
  cases last
  exact sourcedAppend (unshieldedSourced first) (actionsSourced second)

theorem claimSourced {rewards : ClaimRewardsTransaction} {block : BlockContext}
    (ok : state.claimUnshieldedTold S build rewards transactionHash block = .ok (next, told)) :
    Sourced ⟨transactionHash, guaranteedSegment, guaranteedSegment⟩ told := by
  rw [claimUnshieldedTold] at ok
  split at ok <;> try contradiction
  split at ok <;> try contradiction
  obtain ⟨replay, -, rest⟩ := bindOk.mp ok
  obtain ⟨⟨dust, contents⟩, -, rest⟩ := bindOk.mp rest
  obtain ⟨passed, -, last⟩ := bindOk.mp rest
  cases last
  exact sourcedSourced _ contents

theorem guaranteedLabelledSourced {reports : List (Segment × DeferredEvent W.shielded L)}
    (ok : state.applyGuaranteedLabelled S H build R tx transactionHash fees context =
      .ok (next, reports)) :
    ∀ event ∈ reports, ∀ made, event.2 = some made →
      made.source = ⟨transactionHash, guaranteedSegment, event.1⟩ := by
  -- What is labelled has the source of its label.
  have labels : ∀ {σ : Type} {outcome : Applied W.shielded
      (σ × List (DeferredEvent W.shielded L))} {reached : σ} {label : Segment}
      {given : List (Segment × DeferredEvent W.shielded L)},
      labelled label outcome = .ok (reached, given) →
      (∀ plain, outcome = .ok (reached, plain) →
        Sourced ⟨transactionHash, guaranteedSegment, label⟩ plain) →
      ∀ event ∈ given, ∀ made, event.2 = some made →
        made.source = ⟨transactionHash, guaranteedSegment, event.1⟩ := by
    intro σ outcome reached label given taken each event mem made same
    obtain ⟨plain, came, rfl⟩ := labelledOk.mp taken
    obtain ⟨inner, inside, rfl⟩ := mem_map.mp mem
    exact each plain came inner inside made same
  obtain ⟨replay, -, rest⟩ := bindOk.mp ok
  obtain ⟨⟨⟨started, comIndices⟩, shielded⟩, first, rest⟩ := bindOk.mp rest
  obtain ⟨checked, -, rest⟩ := bindOk.mp rest
  obtain ⟨⟨acting, acted⟩, second, rest⟩ := bindOk.mp rest
  obtain ⟨⟨⟨spending, left⟩, spent⟩, third, rest⟩ := bindOk.mp rest
  obtain ⟨⟨⟨registering, paid⟩, registered⟩, fourth, last⟩ := bindOk.mp rest
  cases last
  refine forall_mem_append.mpr ⟨forall_mem_append.mpr ⟨forall_mem_append.mpr ⟨?_, ?_⟩, ?_⟩, ?_⟩
  · exact labels first fun plain came => zswapOptionSourced came
  · exact tellEachAll (fun _ taken =>
      labels taken fun plain came => guaranteedIntentSourced came) second
  · refine tellEachAll (fun _ taken => labels taken fun plain came => ?_) third
    obtain ⟨⟨dust, contents⟩, -, last⟩ := bindOk.mp came
    cases last
    exact sourcedSourced _ contents
  · refine tellEachAll (fun _ taken => labels taken fun plain came => ?_) fourth
    obtain ⟨⟨⟨dust, fees⟩, contents⟩, -, last⟩ := bindOk.mp came
    cases last
    exact sourcedSourced _ contents

theorem unshieldedSilent (fallible : segment ≠ guaranteedSegment)
    (ok : state.applyUnshieldedTold S H build offer intent segment context source =
      .ok (next, told)) :
    told = [] ↔ ∀ given, offer = some given →
      (∀ input ∈ given.nightInputs, ¬ state.dust.Ends S input) ∧
        ∀ output ∈ given.nightOutputs, ¬ state.dust.Starts output := by
  cases offer with
  | none =>
    cases ok
    simp
  | some offer =>
    obtain ⟨utxo, -, rest⟩ := bindOk.mp ok
    obtain ⟨⟨dust, contents⟩, moved, last⟩ := bindOk.mp rest
    cases last
    rw [sourced, map_eq_nil_iff, DustState.applyOfferSilent fallible moved]
    simp

theorem actionsSilent
    (ok : state.applyActionsTold S R actions false context parent comIndices source =
      .ok (next, told)) :
    told = [] ↔ (∀ deploy, .deploy deploy ∈ actions →
        whitelistMatches context.whitelist (S.deployAddress deploy) = false) ∧
      ∀ front call back reached cstate transcript, actions = front ++ .call call :: back →
        state.applyActions S front false context parent comIndices = .ok reached →
        whitelistMatches context.whitelist call.address = true →
        reached.contract.lookup call.address = some cstate →
        call.transcript false = some transcript →
        R.loggedItems cstate context.blockContext parent comIndices call transcript
          state.parameters.pricing = [] := by
  have plain := toldOk applyActionsFollows ok
  rw [tellingSilent ok]
  simp only [sourced, map_eq_nil_iff]
  constructor
  · intro silent
    refine ⟨fun deploy mem => ?_, ?_⟩
    · obtain ⟨front, back, order⟩ := append_of_mem mem
      rw [order] at plain
      obtain ⟨reached, run, -⟩ := foldlMAppend.mp plain
      have nothing := silent front _ back reached order run
      by_contra unmatched
      simp [actionEvents, unmatched] at nothing
    · intro front call back reached cstate transcript order run inside present given
      have nothing := silent front _ back reached order run
      simpa [actionEvents, inside, present, given] using nothing
  · rintro ⟨deploys, calls⟩ front action back reached order run
    cases action with
    | call call =>
      rw [actionEvents]
      split
      · rename_i inside
        split
        · rename_i cstate transcript present given
          rw [calls front call back reached cstate transcript order run inside present given]
          rfl
        · rfl
      · rfl
    | deploy deploy =>
      have outside := deploys deploy (order ▸ mem_append_right _ mem_cons_self)
      simp [actionEvents, outside]
    | maintain upd => rfl

theorem fallibleSourced (fallible : segment ≠ guaranteedSegment)
    (ok : state.applyFallibleTold S H build R tx transactionHash segment context =
      .ok (next, told)) :
    ∃ shielded others, told = shielded ++ others ∧
      Sourced ⟨transactionHash, segment, segment⟩ shielded ∧
      Sourced ⟨transactionHash, guaranteedSegment, segment⟩ others ∧
      (others = [] ↔ ∀ intent, tx.intents.lookup segment = some intent →
        Quiet S build R state tx segment context intent) := by
  obtain ⟨⟨⟨started, comIndices⟩, shielded⟩, first, rest⟩ := bindOk.mp ok
  have zswap := toldOk applyZswapOptionFollows first
  have sameDust : started.dust = state.dust := by
    obtain ⟨zswap, rfl, -⟩ := applyZswapOptionOk zswap
    rfl
  dsimp only at rest
  split at rest
  · rename_i absent
    cases rest
    exact ⟨told, [], by simp, zswapOptionSourced first, sourcedNil _, by simp [absent]⟩
  · rename_i intent present
    obtain ⟨⟨moved, offered⟩, second, rest⟩ := bindOk.mp rest
    obtain ⟨⟨reached, acted⟩, third, last⟩ := bindOk.mp rest
    cases last
    have unshielded := toldOk applyUnshieldedFollows second
    have offers : state.applyFallibleOffers S build tx segment context = .ok (moved, comIndices) := by
      refine bindOk.mpr ⟨(started, comIndices), zswap, ?_⟩
      simp only [present]
      exact bindOk.mpr ⟨moved, unshielded, rfl⟩
    refine ⟨shielded, offered ++ acted, append_assoc .., zswapOptionSourced first,
      sourcedAppend (unshieldedSourced second) (actionsSourced third), ?_⟩
    rw [append_eq_nil_iff, unshieldedSilent fallible second, actionsSilent third, sameDust]
    constructor
    · rintro ⟨night, deploys, calls⟩ other same
      cases present.symm.trans same
      refine ⟨fun offer given => (night offer given).1, fun offer given => (night offer given).2,
        deploys, ?_⟩
      intro begun indices front call back reached cstate transcript again order run
      cases again.symm.trans offers
      exact calls front call back reached cstate transcript order run
    · intro quiet
      have here := quiet intent present
      refine ⟨fun offer given => ⟨here.inputs offer given, here.outputs offer given⟩, here.deploys, ?_⟩
      intro front call back reached cstate transcript order run
      exact here.calls moved comIndices front call back reached cstate transcript offers order run

theorem sectionAttributed {deferred : List (Segment × DeferredEvent W.shielded L)}
    {events : List (Segment × LedgerEvent W.shielded L)}
    (ok : state.applySectionLabelled S H build R tx transactionHash fees segment context =
      .ok (next, deferred)) (made : materializeLabelled deferred = some events) :
    (∀ event ∈ events, event.2.source.physicalSegment = event.1 ∧
      (event.2.source.logicalSegment = segment ∨
        event.2.source.logicalSegment = guaranteedSegment)) ∧
    ((∀ event ∈ events, event.2.source.logicalSegment = segment) ↔
      (segment ≠ guaranteedSegment → ∀ intent, tx.intents.lookup segment = some intent →
        Quiet S build R state tx segment context intent)) := by
  obtain ⟨⟨applied, reports⟩, taken, rest⟩ := bindOk.mp ok
  obtain ⟨passed, -, last⟩ := bindOk.mp rest
  cases last
  have worked := materializeLabelledMem made
  have inside : ∀ event ∈ events, (event.1, some event.2) ∈ deferred := by
    intro event mem
    rw [worked]
    exact mem_map.mpr ⟨event, mem, rfl⟩
  by_cases guaranteed : segment = guaranteedSegment
  · subst guaranteed
    have sources : ∀ event ∈ events, event.2.source =
        ⟨transactionHash, guaranteedSegment, event.1⟩ := fun event mem =>
      guaranteedLabelledSourced taken _ (inside event mem) event.2 rfl
    refine ⟨fun event mem => ?_, fun _ same => absurd rfl same, fun _ event mem => ?_⟩
    · rw [sources event mem]
      exact ⟨rfl, .inl rfl⟩
    · rw [sources event mem]
  · rw [if_neg guaranteed] at taken
    obtain ⟨plain, came, labels⟩ := labelledOk.mp taken
    obtain ⟨shielded, others, rfl, first, second, silent⟩ := fallibleSourced guaranteed came
    have each : ∀ event ∈ events, event.1 = segment ∧
        (some event.2 ∈ shielded ∨ some event.2 ∈ others) := by
      intro event mem
      have there := inside event mem
      rw [labels] at there
      obtain ⟨inner, among, same⟩ := mem_map.mp there
      cases same
      exact ⟨rfl, mem_append.mp among⟩
    refine ⟨fun event mem => ?_, ?_⟩
    · obtain ⟨label, among⟩ := each event mem
      rw [label]
      rcases among with here | here
      · rw [first _ here _ rfl]
        exact ⟨rfl, .inl rfl⟩
      · rw [second _ here _ rfl]
        exact ⟨rfl, .inr rfl⟩
    · rw [imp_iff_right guaranteed, ← silent]
      constructor
      · intro right
        by_contra more
        obtain ⟨event, here⟩ := exists_mem_of_ne_nil _ more
        have there : (segment, event) ∈ deferred := by
          rw [labels]
          exact mem_map.mpr ⟨event, mem_append_right _ here, rfl⟩
        rw [worked] at there
        obtain ⟨inner, among, same⟩ := mem_map.mp there
        cases same
        have wrong := right inner among
        rw [second _ here _ rfl] at wrong
        exact guaranteed wrong.symm
      · rintro rfl event mem
        obtain ⟨-, here | none⟩ := each event mem
        · rw [first _ here _ rfl]
        · cases none

def Emits (S : Services W.shielded) (H : TreeHashing) (build : Build)
    (R : Reporting W.shielded L) (tx : StandardTransaction W.shielded)
    (transactionHash : HashOutput) (fees : U128) (context : TransactionContext W.shielded)
    (before : LedgerState W.shielded) (segment : Segment)
    (event : Provenance × LedgerEvent W.shielded L) : Prop :=
  ∃ after deferred events,
    before.applySectionLabelled S H build R tx transactionHash fees segment context =
      .ok (after, deferred) ∧
    materializeLabelled deferred = some events ∧
    ∃ inner ∈ events, event = (⟨segment, inner.1⟩, inner.2)

variable {acc final : Attributed W L}

theorem sectionEmits
    (ok : sectionLabelled S H build R tx transactionHash fees context acc segment = .ok final)
    (event : Provenance × LedgerEvent W.shielded L) :
    event ∈ final.2 ↔ event ∈ acc.2 ∨
      Emits S H build R tx transactionHash fees context acc.1 segment event := by
  obtain ⟨⟨applied, deferred⟩, taken, last⟩ := bindOk.mp ok
  dsimp only at last
  split at last <;> try contradiction
  rename_i events made
  cases last
  rw [mem_append, mem_map]
  refine or_congr_right ⟨?_, ?_⟩
  · rintro ⟨inner, mem, rfl⟩
    exact ⟨applied, deferred, events, taken, made, inner, mem, rfl⟩
  · rintro ⟨after, others, again, taken', made', inner, mem, rfl⟩
    cases taken'.symm.trans taken
    cases made'.symm.trans made
    exact ⟨inner, mem, rfl⟩

theorem fallibleLabelledStep {before after : Attributed W L × Log W.shielded}
    (ok : fallibleLabelled S H build R tx transactionHash fees context before segment = .ok after) :
    fallibleStep S build tx fees context (before.1.1, before.2) segment = .ok (after.1.1, after.2) ∧
      (∀ event, event ∈ after.1.2 ↔ event ∈ before.1.2 ∨
        Emits S H build R tx transactionHash fees context before.1.1 segment event) ∧
      ∀ reached, before.1.1.applySection S build tx fees segment context = .ok reached →
        ∃ deferred events,
          before.1.1.applySectionLabelled S H build R tx transactionHash fees segment context =
            .ok (reached, deferred) ∧ materializeLabelled deferred = some events := by
  refine ⟨?_, fun event => ?_, fun reached applied => ?_⟩
  · have erased := congrArg (Except.map (Prod.map unlabelledEvents id)) ok
    rw [fallibleLabelledPlain] at erased
    obtain ⟨⟨state, events⟩, log⟩ := before
    obtain ⟨⟨reached, more⟩, logged⟩ := after
    have told : fallibleTold S H build R tx transactionHash fees context
        ((state, events.map Prod.snd), log) segment =
          .ok ((reached, more.map Prod.snd), logged) := erased
    have plain := fallibleToldPlain told
    exact plain
  · rw [fallibleLabelled] at ok
    split at ok <;> try contradiction
    · rename_i next applied
      cases ok
      exact sectionEmits applied event
    · rename_i e refused
      cases ok
      refine (or_iff_left ?_).symm
      rintro ⟨after, deferred, events, taken, made, -⟩
      rw [sectionLabelled, taken] at refused
      simp only [bind, Except.bind, made] at refused
      cases refused
  · rw [fallibleLabelled] at ok
    split at ok <;> try contradiction
    · rename_i next taken
      obtain ⟨⟨there, deferred⟩, labels, last⟩ := bindOk.mp taken
      dsimp only at last
      split at last <;> try contradiction
      rename_i events made
      cases (sectionLabelledOk labels).symm.trans applied
      exact ⟨deferred, events, labels, made⟩
    · rename_i e refused
      rw [sectionLabelled, bindError] at refused
      obtain stopped | ⟨⟨there, deferred⟩, -, last⟩ := refused
      · cases (sectionLabelledRefused stopped).symm.trans applied
      · dsimp only at last
        split at last <;> cases last

theorem fallibleRunEmits {segments : List Segment} {log logged : Log W.shielded}
    (ok : segments.foldlM (fallibleLabelled S H build R tx transactionHash fees context) (acc, log) =
      .ok (final, logged)) :
    segments.foldlM (fallibleStep S build tx fees context) (acc.1, log) = .ok (final.1, logged) ∧
      (∀ event, event ∈ final.2 ↔ event ∈ acc.2 ∨ ∃ earlier segment rest before between,
        segments = earlier ++ segment :: rest ∧
        earlier.foldlM (fallibleStep S build tx fees context) (acc.1, log) = .ok (before, between) ∧
        Emits S H build R tx transactionHash fees context before segment event) ∧
      ∀ earlier segment rest before between reached, segments = earlier ++ segment :: rest →
        earlier.foldlM (fallibleStep S build tx fees context) (acc.1, log) = .ok (before, between) →
        before.applySection S build tx fees segment context = .ok reached → ∃ deferred events,
          before.applySectionLabelled S H build R tx transactionHash fees segment context =
            .ok (reached, deferred) ∧ materializeLabelled deferred = some events := by
  induction segments generalizing acc log with
  | nil =>
    cases runNil.mp ok
    refine ⟨rfl, fun event => by simp, fun earlier segment rest _ _ _ order => ?_⟩
    exact absurd order.symm (by simp)
  | cons segment segments ih =>
    obtain ⟨⟨middle, between⟩, taken, rest⟩ := runCons.mp ok
    obtain ⟨stepped, here, worked⟩ := fallibleLabelledStep taken
    obtain ⟨run, later, workedLater⟩ := ih rest
    -- A split of the segments is at the first one or after it.
    have split : ∀ {earlier other others before log'}, segment :: segments = earlier ++ other :: others →
        earlier.foldlM (fallibleStep S build tx fees context) (acc.1, log) = .ok (before, log') →
        (other = segment ∧ before = acc.1) ∨ ∃ front, segments = front ++ other :: others ∧
          front.foldlM (fallibleStep S build tx fees context) (middle.1, between) =
            .ok (before, log') := by
      intro earlier other others before log' order reached
      cases earlier with
      | nil =>
        cases order
        cases runNil.mp reached
        exact .inl ⟨rfl, rfl⟩
      | cons first front =>
        cases order
        obtain ⟨next, again, run'⟩ := runCons.mp reached
        cases again.symm.trans stepped
        exact .inr ⟨front, rfl, run'⟩
    refine ⟨runCons.mpr ⟨_, stepped, run⟩, fun event => ?_, ?_⟩
    · rw [later, here, or_assoc]
      refine or_congr_right ⟨?_, ?_⟩
      · rintro (now | ⟨earlier, other, others, before, log', order, reached, emits⟩)
        · exact ⟨[], segment, segments, acc.1, log, rfl, rfl, now⟩
        · exact ⟨segment :: earlier, other, others, before, log', by rw [order, cons_append],
            runCons.mpr ⟨_, stepped, reached⟩, emits⟩
      · rintro ⟨earlier, other, others, before, log', order, reached, emits⟩
        obtain ⟨rfl, rfl⟩ | ⟨front, order, reached⟩ := split order reached
        · exact .inl emits
        · exact .inr ⟨front, other, others, before, log', order, reached, emits⟩
    · intro earlier other others before log' after order reached applied
      obtain ⟨rfl, rfl⟩ | ⟨front, order, reached⟩ := split order reached
      · exact worked after applied
      · exact workedLater front other others before log' after order reached applied

theorem applyLabelledOk {vt : VerifiedTransaction W.shielded}
    {events : List (Provenance × LedgerEvent W.shielded L)} {result : TransactionResult W.shielded}
    (ok : state.applyLabelled S H build R vt context = .ok ((next, events), result)) :
    (∃ e, state.applyGuaranteedOnlyLabelled S H build R vt context = .error (.error e) ∧
      events = [] ∧ result = .failure e) ∨
    (∃ rewards, vt.inner = .claimRewards rewards ∧ result = .success ∧
      ∀ event ∈ events, event.1 = ⟨guaranteedSegment, guaranteedSegment⟩ ∧
        event.2.source = ⟨vt.hash, guaranteedSegment, guaranteedSegment⟩) ∨
    ∃ stx guaranteed log, vt.inner = .standard stx ∧ result = resultOf log ∧
      state.applySection S build stx vt.fees guaranteedSegment context = .ok guaranteed ∧
      stx.fallibleSegments.foldlM (fallibleStep S build stx vt.fees context)
        (guaranteed, firstLog) = .ok (next, log) ∧
      (∀ event, event ∈ events ↔ ∃ segment before after,
        SectionApplied S build stx vt.fees context state segment before after ∧
        Emits S H build R stx vt.hash vt.fees context before segment event) ∧
      ∀ segment before after,
        SectionApplied S build stx vt.fees context state segment before after → ∃ deferred made,
          before.applySectionLabelled S H build R stx vt.hash vt.fees segment context =
            .ok (after, deferred) ∧ materializeLabelled deferred = some made := by
  rw [applyLabelled] at ok
  split at ok
  · rename_i e refused
    cases ok
    exact .inl ⟨e, refused, rfl, rfl⟩
  · contradiction
  · rename_i guaranteed deferred started
    rw [applyGuaranteedOnlyLabelled] at started
    split at ok
    · contradiction
    · rename_i first rewards made inner
      cases ok
      rw [inner] at started
      refine .inr (.inl ⟨rewards, inner, rfl, fun event mem => ?_⟩)
      obtain ⟨plain, claimed, labels⟩ := labelledOk.mp started
      obtain ⟨labelledEvent, among, rfl⟩ := mem_map.mp mem
      have there : (labelledEvent.1, some labelledEvent.2) ∈ deferred := by
        rw [materializeLabelledMem made]
        exact mem_map.mpr ⟨labelledEvent, among, rfl⟩
      rw [labels] at there
      obtain ⟨given, inside, same⟩ := mem_map.mp there
      obtain ⟨label, rfl⟩ := Prod.mk.inj same
      exact ⟨by rw [← label], claimSourced claimed _ inside _ rfl⟩
    · rename_i first stx made inner
      rw [inner] at started
      obtain ⟨⟨reached, log⟩, run, last⟩ := bindOk.mp ok
      have told : reached = (next, events) ∧ result = resultOf log := by
        dsimp only at last
        split at last <;> rename_i every <;> cases last
        · exact ⟨rfl, (if_pos every).symm⟩
        · exact ⟨rfl, (if_neg every).symm⟩
      obtain ⟨rfl, rfl⟩ := told
      obtain ⟨plain, emitted, worked⟩ := fallibleRunEmits run
      have passed := sectionLabelledOk started
      refine .inr (.inr ⟨stx, guaranteed, log, inner, rfl, passed, plain, fun event => ?_, ?_⟩)
      case refine_2 =>
        intro segment before after applies
        cases applies with
        | guaranteed applied =>
          cases applied.symm.trans passed
          exact ⟨deferred, first, started, made⟩
        | fallible begun order reached applied =>
          cases begun.symm.trans passed
          exact worked _ _ _ _ _ _ order reached applied
      rw [emitted event]
      constructor
      · rintro (mem | ⟨earlier, segment, rest, before, between, order, reached, emits⟩)
        · obtain ⟨labelledEvent, among, rfl⟩ := mem_map.mp mem
          exact ⟨guaranteedSegment, state, guaranteed, .guaranteed passed, guaranteed, deferred, first,
            started, made, labelledEvent, among, rfl⟩
        · obtain ⟨after, others, given, taken, worked, there⟩ := emits
          have applied := sectionLabelledOk taken
          exact ⟨segment, before, after, .fallible passed order reached applied, after, others, given,
            taken, worked, there⟩
      · rintro ⟨segment, before, after, applies, emits⟩
        cases applies with
        | guaranteed applied =>
          obtain ⟨_, _, _, taken, worked, labelledEvent, among, rfl⟩ := emits
          cases taken.symm.trans started
          cases worked.symm.trans made
          exact .inl (mem_map.mpr ⟨labelledEvent, among, rfl⟩)
        | fallible begun order reached applied =>
          cases begun.symm.trans passed
          exact .inr ⟨_, _, _, _, _, order, reached, emits⟩

theorem appliedReported {vt : VerifiedTransaction W} {S : Services W} {state next : LedgerState W}
    {stx : StandardTransaction W} {context : TransactionContext W} {guaranteed : LedgerState W}
    {log : Log W} {before after : LedgerState W}
    (inner : vt.inner = .standard stx)
    (passed : state.applySection S build stx vt.fees guaranteedSegment context = .ok guaranteed)
    (run : stx.fallibleSegments.foldlM (fallibleStep S build stx vt.fees context)
      (guaranteed, firstLog) = .ok (next, log))
    (applies : SectionApplied S build stx vt.fees context state segment before after) :
    segment ∈ vt.reported (resultOf log) := by
  obtain ⟨keys, tells⟩ := logApplied passed run
  have listed : segment ∈ log.map Prod.fst := by
    rw [keys]
    cases applies with
    | guaranteed _ => exact mem_cons_self
    | fallible _ order _ _ =>
      rw [order]
      exact mem_cons_of_mem _ (mem_append_right _ mem_cons_self)
  rw [resultOf]
  split
  · rw [VerifiedTransaction.reported, inner]
    rwa [keys] at listed
  · obtain ⟨⟨key, outcome⟩, mem, rfl⟩ := mem_map.mp listed
    have none := (tells key outcome mem).mpr ⟨before, after, applies⟩
    subst none
    exact mem_map.mpr ⟨(key, none), mem_filter.mpr ⟨mem, rfl⟩, rfl⟩

/- Every event names the segment of its offer or intent, and a section that is reported. It names
the section that emits it for all events exactly if the intents of the fallible sections that are
applied are quiet. -/
theorem applicationAttributed (S : Services W.shielded) (H : TreeHashing)
    (build : Build) (R : Reporting W.shielded L) (state : LedgerState W.shielded)
    (vt : VerifiedTransaction W.shielded) (context : TransactionContext W.shielded) :
    (state.applyLabelled S H build R vt context).map (Prod.map unlabelledEvents id) =
      state.applyTold S H build R vt context ∧ ∀ final events result,
      state.applyLabelled S H build R vt context = .ok ((final, events), result) →
      (∀ event ∈ events, event.1.applied ∈ vt.reported result ∧
        event.2.source.physicalSegment = event.1.part ∧
        event.2.source.logicalSegment ∈ vt.reported result) ∧
      ((∀ event ∈ events, event.2.source.logicalSegment = event.1.applied) ↔
        ∀ stx segment before after intent, vt.inner = .standard stx →
          SectionApplied S build stx vt.fees context state segment before after →
          segment ≠ guaranteedSegment → stx.intents.lookup segment = some intent →
          Quiet S build R before stx segment context intent) := by
  refine ⟨applyLabelledPlain, fun final events result ok => ?_⟩
  obtain ⟨e, refused, rfl, rfl⟩ | ⟨rewards, inner, rfl, claimed⟩ |
    ⟨stx, guaranteed, log, inner, rfl, passed, run, emitted, worked⟩ := applyLabelledOk ok
  · -- Nothing was applied, so nothing was emitted.
    refine ⟨forall_mem_nil _, fun _ stx segment before after intent inner applies => ?_,
      fun _ => forall_mem_nil _⟩
    rw [applyGuaranteedOnlyLabelled, inner] at refused
    dsimp only at refused
    have stopped := sectionLabelledRefused refused
    cases applies with
    | guaranteed applied => cases stopped.symm.trans applied
    | fallible started _ _ _ => cases stopped.symm.trans started
  · have reported : vt.reported .success = [guaranteedSegment] := by
      rw [VerifiedTransaction.reported, inner]
    refine ⟨fun event mem => ?_, fun _ stx _ _ _ _ standard => ?_, fun _ event mem => ?_⟩
    · rw [(claimed event mem).1, (claimed event mem).2, reported]
      exact ⟨mem_singleton_self _, rfl, mem_singleton_self _⟩
    · cases inner.symm.trans standard
    · rw [(claimed event mem).1, (claimed event mem).2]
  · have opening : guaranteedSegment ∈ vt.reported (resultOf log) :=
      appliedReported inner passed run (.guaranteed passed)
    refine ⟨fun event mem => ?_, fun right other segment before after intent standard applies
      fallible present => ?_, fun quiet event mem => ?_⟩
    · obtain ⟨segment, before, after, applies, _, _, _, taken, made, labelledEvent, among, rfl⟩ :=
        (emitted event).mp mem
      have here := appliedReported inner passed run applies
      obtain ⟨physical, same | first⟩ := (sectionAttributed taken made).1 _ among
      · exact ⟨here, physical, by rwa [same]⟩
      · exact ⟨here, physical, by rwa [first]⟩
    · cases inner.symm.trans standard
      obtain ⟨deferred, given, taken, made⟩ := worked segment before after applies
      refine (sectionAttributed taken made).2.mp (fun labelledEvent among => ?_) fallible intent present
      exact right (⟨segment, labelledEvent.1⟩, labelledEvent.2) ((emitted _).mpr
        ⟨segment, before, after, applies, after, deferred, given, taken, made, labelledEvent, among, rfl⟩)
    · obtain ⟨segment, before, after, applies, _, _, _, taken, made, labelledEvent, among, rfl⟩ :=
        (emitted event).mp mem
      refine (sectionAttributed taken made).2.mpr (fun fallible intent present => ?_) _ among
      exact quiet stx segment before after intent inner applies fallible present

end LedgerState

/- The Night of an output goes to an owner without a Dust address. -/
def quietOffers : StandardTransaction shieldedComponents :=
  { twoOffers with
    intents := AList.singleton 1 ⟨none, some ⟨[], [⟨0, ⟨5⟩, night⟩]⟩, [], none, 6, ()⟩ }

def offersLabelled :
    (LedgerState shieldedComponents × List (Provenance × LedgerEvent shieldedComponents Unit)) ×
      TransactionResult shieldedComponents :=
  value (shieldedGenesis.applyLabelled shieldedServices sampleHashing .debug silentReporting
    ⟨.standard quietOffers, 0, 0⟩ shieldedContext) (by decide +kernel)

def quietGuaranteed : LedgerState shieldedComponents :=
  value (shieldedGenesis.applySection shieldedServices .debug quietOffers 0 guaranteedSegment
    shieldedContext) (by decide +kernel)

/- Only the first of the two sections has an intent. -/
theorem quietBefore {before after : LedgerState shieldedComponents}
    (applies : LedgerState.SectionApplied shieldedServices .debug quietOffers 0 shieldedContext
      shieldedGenesis 1 before after) : before = quietGuaranteed := by
  have first : shieldedGenesis.applySection shieldedServices .debug quietOffers 0 guaranteedSegment
      shieldedContext = .ok quietGuaranteed := valueOk _
  have segments : quietOffers.fallibleSegments = [1, 2] := by decide
  generalize named : (1 : Segment) = segment at applies
  cases applies with
  | guaranteed applied => cases named
  | @fallible _ _ _ _ earlier rest _ started order reached applied =>
    subst named
    rw [segments] at order
    match earlier with
    | [] =>
      cases runNil.mp reached
      exact Except.ok.inj (started.symm.trans first)
    | _ :: _ :: _ => simp at order

theorem offersAttributed : offersLabelled.1.2.map (fun event => (event.1, event.2.source)) =
      [(⟨1, 1⟩, ⟨0, 1, 1⟩), (⟨2, 2⟩, ⟨0, 2, 2⟩)] ∧
    ∀ event ∈ offersLabelled.1.2, event.2.source.logicalSegment = event.1.applied := by
  have ran : shieldedGenesis.applyLabelled shieldedServices sampleHashing .debug silentReporting
      ⟨.standard quietOffers, 0, 0⟩ shieldedContext = .ok offersLabelled := valueOk _
  refine ⟨by decide +kernel, ?_⟩
  refine ((LedgerState.applicationAttributed shieldedServices sampleHashing .debug silentReporting
    shieldedGenesis ⟨.standard quietOffers, 0, 0⟩ shieldedContext).2 offersLabelled.1.1
    offersLabelled.1.2 offersLabelled.2 ran).2.mpr ?_
  intro stx segment before after intent inner applies _ present
  cases inner
  have mem : segment ∈ quietOffers.intents.keys :=
    AList.lookup_isSome.mp (Option.isSome_iff_exists.mpr ⟨_, present⟩)
  obtain rfl : segment = 1 := mem_singleton.mp mem
  cases present
  cases quietBefore applies
  refine ⟨fun offer given input mem => ?_, fun offer given output mem => ?_, nofun, ?_⟩
  · cases given
    cases mem
  · cases given
    cases mem_singleton.mp mem
    exact (by decide +kernel :
      ¬ (quietGuaranteed.dust.generation.addressDelegation.lookup ⟨5⟩).isSome = true)
  · intro _ _ front call back _ _ _ _ order
    simp at order

def fallibleDeploy : StandardTransaction shieldedComponents :=
  ⟨"net", AList.singleton 1 ⟨none, none, [.deploy ⟨⟨(), ∅, ⟨[], 0, 0⟩, ∅⟩, 77⟩], none, 6, ()⟩, none, ∅⟩

theorem deployMisattributed :
    (shieldedGenesis.applyLabelled shieldedServices sampleHashing .debug silentReporting
      ⟨.standard fallibleDeploy, 0, 0⟩ shieldedContext).map (fun applied =>
        (applied.1.2.map fun event => (event.1, event.2.source),
          VerifiedTransaction.reported ⟨.standard fallibleDeploy, 0, 0⟩ applied.2)) =
      .ok ([(⟨1, 1⟩, ⟨0, guaranteedSegment, 1⟩)], [guaranteedSegment, 1]) := by
  decide +kernel

end MidnightLedger.Ledger

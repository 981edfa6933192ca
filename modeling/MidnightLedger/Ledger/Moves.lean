import MidnightLedger.Ledger.SectionFold

/-! The steps of the ledger as wallets see them: what a step does to the shielded state and to the
Dust state is a sequence of a few kinds of moves, each with its events. The Zswap events of a run
are those of the offers alone. -/
namespace MidnightLedger.Ledger
open ByteString Maps Words Loops Journals LedgerState List LedgerEvent DustState

variable {W : Components} {L : Type}

structure Followed where
  zswap : Zswap.State
  dust : DustState

def LedgerState.followed (state : LedgerState W.shielded) : Followed := ⟨state.zswap, state.dust⟩

inductive EventContent.Unread : EventContent W L → Prop where
  | contractDeploy (address : ContractAddress) (initialState : ContractState W) :
      Unread (.contractDeploy address initialState)
  | contractLog (address : ContractAddress) (entryPoint : Bytes) (loggedItem : L) :
      Unread (.contractLog address entryPoint loggedItem)

inductive Move (S : Services W.shielded) (H : TreeHashing) (build : Build)
    (shields : Prop) (tblock : Timestamp) :
    Followed → List (EventContent W.shielded L) → Followed → Prop where
  | offer {before : Followed} {next : Zswap.State} {offer : Zswap.Offer}
      {whitelist : Whitelist} {indices : ComIndices}
      {source : EventSource} {events : List Event} (shielded : shields)
      (applied : S.zswapTryApply before.zswap offer whitelist = .ok (next, indices))
      (told : zswapEvents H source offer indices = some events) :
      Move S H build shields tblock before (events.map fun event => .zswap event.content)
        { before with zswap := next }
  | settle {before : Followed} (time : Timestamp) (retention : Duration) :
      Move S H build shields tblock before []
        { before with zswap := S.zswapPostBlockUpdate before.zswap time retention }
  | spend {before : Followed} {next : DustState} {spend : DustSpend} {time : Timestamp}
      (applied : before.dust.applySpend S spend = .ok next) :
      Move S H build shields tblock before
        [.dustSpendProcessed spend.newCommitment before.dust.utxo.commitmentsFirstFree
          spend.oldNullifier spend.vFee time tblock]
        { before with dust := next }
  | generate {before : Followed} {next : DustState} {nonce : InitialNonce}
      {initialValue nightValue : U128} {dustAddr : DustPublicKey} {tnow : Timestamp}
      (applied : before.dust.freshDustOutput S nonce initialValue nightValue dustAddr tnow =
        .ok next) :
      Move S H build shields tblock before
        [before.dust.initialUtxo S nonce initialValue nightValue dustAddr tnow tblock]
        { before with dust := next }
  | close {before : Followed} {next : DustState} {nonce : InitialNonce} {time : Timestamp}
      {idx : Nat} {leaf : HashOutput × DustGenerationInfo}
      {evidence : TreeInsertionPath DustGenerationInfo}
      (tracked : before.dust.generation.nightIndices.lookup nonce = some idx)
      (there : before.dust.generation.generatingTree.index idx = some leaf)
      (applied : before.dust.setDtime S build idx time = .ok next)
      (made : next.generation.generatingTree.insertionEvidence H idx = some evidence) :
      Move S H build shields tblock before [.dustGenerationDtimeUpdate evidence tblock]
        { before with dust := next }
  | delegate {before : Followed} {next : DustState} {registration : DustRegistration}
      (applied : before.dust.delegate S registration = .ok next) :
      Move S H build shields tblock before [] { before with dust := next }
  | report {before : Followed} {content : EventContent W.shielded L} (unread : content.Unread) :
      Move S H build shields tblock before [content] before
  | overwrite {before : Followed} {parameters : LedgerParameters W.shielded} :
      Move S H build shields tblock before [.paramChange parameters] before

abbrev Moves (S : Services W.shielded) (H : TreeHashing) (build : Build)
    (shields : Prop) (tblock : Timestamp) :
    Followed → List (EventContent W.shielded L) → Followed → Prop :=
  Trace (Move S H build shields tblock)

def Step.shields : Step W → Prop
  | .transaction _ _ => True
  | .system _ _ => False
  | .postBlock _ _ => False

def Step.tblock : Step W → Timestamp
  | .transaction _ context => context.blockContext.tblock
  | .system _ tblock => tblock
  | .postBlock tblock _ => tblock

section

variable {S : Services W.shielded} {H : TreeHashing} {build : Build}
  {R : Reporting W.shielded L} {shields : Prop} {tblock : Timestamp}

theorem Move.mono {wider : Prop} {before next : Followed}
    {told : List (EventContent W.shielded L)} (wide : shields → wider)
    (move : Move S H build shields tblock before told next) :
    Move S H build wider tblock before told next := by
  cases move with
  | offer shielded applied told => exact .offer (wide shielded) applied told
  | settle time retention => exact .settle time retention
  | spend applied => exact .spend applied
  | generate applied => exact .generate applied
  | close tracked there applied made => exact .close tracked there applied made
  | delegate applied => exact .delegate applied
  | report unread => exact .report unread
  | overwrite => exact .overwrite

variable {dust : DustState} {parent : Intent W.shielded} {zswap : Zswap.State} {segment : Segment}

namespace DustState

variable {next : DustState} {made : List (EventContent W.shielded L)} {ε : Type}
  {nonce : InitialNonce} {tnow : Timestamp}

theorem freshMoves {wrap : DustStateError → ε} {initialValue nightValue : U128}
    {dustAddr : DustPublicKey} (ok : mapFault wrap (dust.freshDustOutputTold S nonce initialValue
      nightValue dustAddr tnow tblock) = .ok (next, made.map some)) :
    Moves S H build shields tblock ⟨zswap, dust⟩ made ⟨zswap, next⟩ := by
  obtain ⟨reached, applied, last⟩ := bindOk.mp (mapFaultOk.mp ok)
  obtain ⟨rfl, told⟩ := okPair last
  obtain ⟨content, same, rfl⟩ := madeOne told
  cases same
  exact .single (.generate (liftOk.mp applied))

theorem closeMoves {wrap : InvalidUpdate → ε} {time : Timestamp} {idx : Nat}
    (tracked : dust.generation.nightIndices.lookup nonce = some idx)
    (ok : mapFault wrap (dust.setDtimeTold S H build idx time tblock) = .ok (next, made.map some)) :
    Moves S H build shields tblock ⟨zswap, dust⟩ made ⟨zswap, next⟩ := by
  obtain ⟨reached, applied, last⟩ := bindOk.mp (mapFaultOk.mp ok)
  obtain ⟨rfl, told⟩ := okPair last
  split at told
  · rename_i absent
    rw [madeNone told]
    -- Without the leaf nothing was changed: a debug build stops there.
    have same : reached = dust := by
      rw [setDtime, absent] at applied
      cases build <;> cases applied
      rfl
    rw [same]
    exact .done _
  · rename_i leaf there
    obtain ⟨content, same, rfl⟩ := madeOne told
    obtain ⟨evidence, worked, rfl⟩ := Option.map_eq_some_iff.mp same
    exact .single (.close tracked there applied worked)

theorem stillMoves (ok : (.ok (dust, []) : Except ε (DustState ×
      Contents W.shielded L)) = .ok (next, made.map some)) :
    Moves S H build shields tblock ⟨zswap, dust⟩ made ⟨zswap, next⟩ := by
  obtain ⟨rfl, told⟩ := okPair ok
  rw [madeNone told]
  exact .done _

theorem spendNightMoves {input : UtxoSpend}
    (ok : spendNightTold S H build tblock dust input = .ok (next, made.map some)) :
    Moves S H build shields tblock ⟨zswap, dust⟩ made ⟨zswap, next⟩ := by
  rw [spendNightTold] at ok
  split at ok
  · exact stillMoves ok
  · rename_i tracked
    exact closeMoves tracked ok

theorem creditNightMoves {output : UtxoOutput × Nat}
    (ok : creditNightTold S parent segment tblock dust output = .ok (next, made.map some)) :
    Moves S H build shields tblock ⟨zswap, dust⟩ made ⟨zswap, next⟩ := by
  rw [creditNightTold] at ok
  split at ok
  · exact stillMoves ok
  · split at ok
    · exact stillMoves ok
    · exact freshMoves ok

theorem loopMoves {ι : Type} {xs : List ι}
    {body : DustState → ι → Except ε (DustState × Contents W.shielded L)}
    (steps : ∀ {a b : DustState} {i : ι} {made : List (EventContent W.shielded L)},
      body a i = .ok (b, made.map some) → Moves S H build shields tblock ⟨zswap, a⟩ made ⟨zswap, b⟩)
    (ok : tellEach body xs dust = .ok (next, made.map some)) :
    Moves S H build shields tblock ⟨zswap, dust⟩ made ⟨zswap, next⟩ := by
  have trace : Moves S H build shields tblock ⟨zswap, dust⟩ (made.map id) ⟨zswap, next⟩ :=
    Trace.each (Followed.mk zswap) id (fun _ taken => by rw [map_id]; exact steps taken) ok
  rwa [map_id] at trace

theorem applyOfferMoves {offer : UnshieldedOffer}
    (ok : dust.applyOfferTold S H build offer parent segment tblock = .ok (next, made.map some)) :
    Moves S H build shields tblock ⟨zswap, dust⟩ made ⟨zswap, next⟩ := by
  obtain ⟨⟨spent, closed⟩, spends, rest⟩ := bindOk.mp ok
  obtain ⟨⟨credited, fresh⟩, credits, last⟩ := bindOk.mp rest
  obtain ⟨rfl, told⟩ := okPair last
  obtain ⟨early, late, rfl, rfl, rfl⟩ := map_eq_append_iff.mp told.symm
  exact (loopMoves spendNightMoves spends).append (loopMoves creditNightMoves credits)

theorem applyRegistrationMoves {utxos : Map Utxo UtxoMeta} {fees left : U128}
    {registration : DustRegistration} {params : DustParameters}
    (ok : dust.applyRegistrationTold S utxos fees parent registration params tnow tblock =
      .ok ((next, left), made.map some)) :
    Moves S H build shields tblock ⟨zswap, dust⟩ made ⟨zswap, next⟩ := by
  obtain ⟨delegated, given, rest⟩ := bindOk.mp ok
  have first : Moves (L := L) S H build shields tblock ⟨zswap, dust⟩ [] ⟨zswap, delegated⟩ :=
    .single (.delegate given)
  split at rest
  · obtain ⟨same, told⟩ := okPair rest
    obtain ⟨rfl, -⟩ := Prod.mk.inj same
    rw [madeNone told]
    exact first
  · obtain ⟨⟨registered, told⟩, outputs, last⟩ := bindOk.mp rest
    obtain ⟨same, told⟩ := okPair last
    obtain ⟨rfl, -⟩ := Prod.mk.inj same
    subst told
    refine first.append (loopMoves (fun {a b output made} taken => ?_) outputs)
    rw [registerOutputTold] at taken
    split at taken <;> try contradiction
    exact freshMoves taken

end DustState

variable {source : EventSource} {made : List (LedgerEvent W.shielded L)}

theorem sourcedMade {told : Contents W.shielded L} (same : sourced source told = made.map some) :
    told = (made.map content).map some := by
  induction told generalizing made with
  | nil => rw [madeNone same]; rfl
  | cons content told ih =>
    cases made with
    | nil => cases same
    | cons event made =>
      obtain ⟨first, rest⟩ := cons.inj same
      obtain ⟨inner, rfl, rfl⟩ := Option.map_eq_some_iff.mp first
      rw [ih rest]
      rfl

namespace LedgerState

variable {state next : LedgerState W.shielded} {comIndices : ComIndices}
  {context : TransactionContext W.shielded} {contents : List (EventContent W.shielded L)}
  {transactionHash : HashOutput} {tx : StandardTransaction W.shielded} {fees : U128}
  {acc final : Recorded W L}

theorem applyZswapOptionMade {offer : Zswap.Offer} {whitelist : Whitelist}
    (ok : state.applyZswapOptionTold S H (some offer) whitelist source =
      .ok ((next, comIndices), made.map some)) :
    ∃ zswap events, S.zswapTryApply state.zswap offer whitelist = .ok (zswap, comIndices) ∧
      next = { state with zswap := zswap } ∧
      zswapEvents H source offer comIndices = some events ∧
      made = events.map fun event => ⟨event.source, .zswap event.content⟩ := by
  obtain ⟨⟨reached, indices⟩, applied, rest⟩ := bindOk.mp ok
  dsimp only at rest
  split at rest <;> try contradiction
  rename_i events told
  obtain ⟨same, reported⟩ := okPair rest
  obtain ⟨rfl, rfl⟩ := Prod.mk.inj same
  obtain ⟨⟨zswap, inner⟩, tried, last⟩ := bindOk.mp applied
  obtain ⟨rfl, rfl⟩ := okPair last
  refine ⟨zswap, events, liftOk.mp tried, rfl, told, ?_⟩
  refine map_injective_iff.mpr (Option.some_injective _) ?_
  rw [← reported, map_map]
  rfl

theorem applyZswapOptionMoves {offer : Option Zswap.Offer} {whitelist : Whitelist}
    (ok : state.applyZswapOptionTold S H offer whitelist source =
      .ok ((next, comIndices), made.map some)) :
    Moves S H build True tblock state.followed (made.map content) next.followed := by
  cases offer with
  | none =>
    obtain ⟨same, told⟩ := okPair ok
    obtain ⟨rfl, -⟩ := Prod.mk.inj same
    rw [madeNone told]
    exact .done _
  | some offer =>
    obtain ⟨zswap, events, applied, rfl, told, rfl⟩ := applyZswapOptionMade ok
    rw [map_map]
    exact .single (.offer trivial applied told)

theorem applyUnshieldedMoves {offer : Option UnshieldedOffer} {intent : Intent W.shielded}
    (ok : state.applyUnshieldedTold S H build offer intent segment context source =
      .ok (next, made.map some)) :
    Moves S H build shields context.blockContext.tblock state.followed (made.map content)
      next.followed := by
  cases offer with
  | none =>
    obtain ⟨rfl, told⟩ := okPair ok
    rw [madeNone told]
    exact .done _
  | some given =>
    obtain ⟨utxo, -, rest⟩ := bindOk.mp ok
    obtain ⟨⟨dust, told⟩, applied, last⟩ := bindOk.mp rest
    obtain ⟨rfl, reported⟩ := okPair last
    rw [sourcedMade reported] at applied
    exact applyOfferMoves applied

theorem unreadMoves {before : Followed} (unread : ∀ content ∈ contents, content.Unread) :
    Moves S H build shields tblock before contents before := by
  induction contents with
  | nil => exact .done before
  | cons content contents ih =>
    refine Trace.append (.single (.report (unread content mem_cons_self))) (ih ?_)
    exact (forall_mem_cons.mp unread).2

variable {guaranteed : Bool}

theorem actionEventsUnread {params : LedgerParameters W.shielded}
    {action : ContractAction W.shielded} :
    ∀ content ∈ actionEvents S R params guaranteed context parent comIndices state action,
      content.Unread := by
  intro content mem
  cases action with
  | call call =>
    rw [actionEvents] at mem
    split at mem
    · split at mem
      · obtain ⟨item, -, rfl⟩ := mem_map.mp mem
        exact .contractLog _ _ _
      · cases mem
    · cases mem
  | deploy deploy =>
    rw [actionEvents] at mem
    split at mem
    · cases mem_singleton.mp mem
      exact .contractDeploy _ _
    · cases mem
  | maintain update => cases mem

theorem applyActionsMoves {actions : List (ContractAction W.shielded)}
    (ok : state.applyActionsTold S R actions guaranteed context parent comIndices source =
      .ok (next, made.map some)) :
    Moves S H build shields tblock state.followed (made.map content) next.followed := by
  refine Trace.each followed content (fun {a b action made} _ taken => ?_) ok
  obtain ⟨reached, acted, last⟩ := bindOk.mp taken
  obtain ⟨rfl, reported⟩ := okPair last
  have contents : actionEvents S R state.parameters guaranteed context parent comIndices a action =
      made.map content :=
    map_injective_iff.mpr (Option.some_injective _) (sourcedMade reported)
  obtain ⟨contract, rfl⟩ := actedFrame (applyActionActs acted)
  rw [← contents]
  exact unreadMoves actionEventsUnread

theorem guaranteedIntentMoves {entry : Segment × Intent W.shielded}
    (ok : guaranteedIntentTold S H build R transactionHash context comIndices state entry =
      .ok (next, made.map some)) :
    Moves S H build shields context.blockContext.tblock state.followed (made.map content)
      next.followed := by
  obtain ⟨⟨moved, offered⟩, unshielded, rest⟩ := bindOk.mp ok
  obtain ⟨⟨reached, acted⟩, actions, last⟩ := bindOk.mp rest
  obtain ⟨rfl, told⟩ := okPair last
  obtain ⟨early, late, rfl, rfl, rfl⟩ := map_eq_append_iff.mp told.symm
  rw [map_append]
  exact (applyUnshieldedMoves unshielded).append (applyActionsMoves actions)

/- A section starts with its offer, from the shielded state the section is applied to; nothing
after that touches the shielded state. -/
inductive SectionMoves (S : Services W.shielded) (H : TreeHashing)
    (build : Build) (context : TransactionContext W.shielded) (offer : Option Zswap.Offer)
    (source : EventSource) (state next : LedgerState W.shielded) :
    List (LedgerEvent W.shielded L) → Prop where
  | opened {begun started : LedgerState W.shielded} {comIndices : ComIndices}
      {first rest : List (LedgerEvent W.shielded L)} (same : begun.followed = state.followed)
      (offered : begun.applyZswapOptionTold S H offer context.whitelist source =
        .ok ((started, comIndices), first.map some))
      (moves : Moves S H build False context.blockContext.tblock started.followed
        (rest.map content) next.followed) :
      SectionMoves S H build context offer source state next (first ++ rest)

theorem applyGuaranteedMoves
    (ok : state.applyGuaranteedTold S H build R tx transactionHash fees context =
      .ok (next, made.map some)) :
    SectionMoves S H build context tx.guaranteedCoins
      ⟨transactionHash, guaranteedSegment, guaranteedSegment⟩ state next made := by
  obtain ⟨replay, -, rest⟩ := bindOk.mp ok
  obtain ⟨⟨⟨started, comIndices⟩, shielded⟩, offered, rest⟩ := bindOk.mp rest
  obtain ⟨passed, -, rest⟩ := bindOk.mp rest
  obtain ⟨⟨acted, told⟩, intents, rest⟩ := bindOk.mp rest
  obtain ⟨⟨⟨paid, feesRemaining⟩, spent⟩, spends, rest⟩ := bindOk.mp rest
  obtain ⟨⟨⟨registered, left⟩, given⟩, registrations, last⟩ := bindOk.mp rest
  obtain ⟨rfl, reports⟩ := okPair last
  rw [append_assoc, append_assoc] at reports
  obtain ⟨first, others, rfl, rfl, later⟩ := map_eq_append_iff.mp reports.symm
  obtain ⟨second, dusts, rfl, rfl, latest⟩ := map_eq_append_iff.mp later
  obtain ⟨third, fourth, rfl, rfl, rfl⟩ := map_eq_append_iff.mp latest
  have same : { state with replayProtection := replay }.followed = state.followed := rfl
  refine .opened same offered ?_
  rw [map_append, map_append]
  refine (Trace.each followed content (fun _ => guaranteedIntentMoves) intents).append
    (Trace.append (Trace.each (fun s => s.1.followed) content (fun _ taken => ?_) spends)
    (Trace.each (fun s => s.1.followed) content (fun _ taken => ?_) registrations))
  · obtain ⟨⟨dust, told⟩, applied, last⟩ := bindOk.mp taken
    obtain ⟨rfl, reported⟩ := okPair last
    obtain ⟨reached, spends, final⟩ := bindOk.mp applied
    obtain ⟨rfl, rfl⟩ := okPair final
    obtain ⟨content, same, only⟩ := madeOne (sourcedMade reported)
    cases same
    rw [only]
    exact .single (.spend spends)
  · obtain ⟨⟨⟨dust, fees⟩, told⟩, applied, last⟩ := bindOk.mp taken
    obtain ⟨rfl, reported⟩ := okPair last
    rw [sourcedMade reported] at applied
    exact applyRegistrationMoves applied

theorem applyFallibleMoves
    (ok : state.applyFallibleTold S H build R tx transactionHash segment context =
      .ok (next, made.map some)) :
    SectionMoves S H build context (tx.fallibleCoins.lookup segment)
      ⟨transactionHash, segment, segment⟩ state next made := by
  obtain ⟨⟨⟨started, comIndices⟩, shielded⟩, offered, rest⟩ := bindOk.mp ok
  dsimp only at rest
  split at rest
  · obtain ⟨rfl, rfl⟩ := okPair rest
    rw [← append_nil made]
    exact .opened rfl offered (.done _)
  · obtain ⟨⟨moved, unshielded⟩, moves, rest⟩ := bindOk.mp rest
    obtain ⟨⟨reached, acted⟩, actions, last⟩ := bindOk.mp rest
    obtain ⟨rfl, reports⟩ := okPair last
    rw [append_assoc] at reports
    obtain ⟨first, others, rfl, rfl, later⟩ := map_eq_append_iff.mp reports.symm
    obtain ⟨second, third, rfl, rfl, rfl⟩ := map_eq_append_iff.mp later
    refine .opened rfl offered ?_
    rw [map_append]
    exact (applyUnshieldedMoves moves).append (applyActionsMoves actions)

theorem sectionToldMoves
    (ok : state.applySectionTold S H build R tx transactionHash fees segment context =
      .ok (next, made.map some)) :
    SectionMoves S H build context (tx.offerAt segment) ⟨transactionHash, segment, segment⟩ state
      next made := by
  obtain ⟨⟨applied, told⟩, body, rest⟩ := bindOk.mp ok
  obtain ⟨passed, -, last⟩ := bindOk.mp rest
  obtain ⟨rfl, rfl⟩ := okPair last
  rw [StandardTransaction.offerAt]
  split at body
  · rename_i guaranteed
    rw [if_pos guaranteed, guaranteed]
    exact applyGuaranteedMoves body
  · rename_i fallible
    rw [if_neg fallible]
    exact applyFallibleMoves body

theorem SectionMoves.moves {offer : Option Zswap.Offer}
    (parts : SectionMoves S H build context offer source state next made) :
    Moves S H build True context.blockContext.tblock state.followed (made.map content)
      next.followed := by
  obtain ⟨same, offered, moves⟩ := parts
  rw [map_append, ← same]
  exact (applyZswapOptionMoves offered).append (moves.mono fun move => move.mono False.elim)

theorem claimMoves {rewards : ClaimRewardsTransaction} {context : BlockContext}
    (ok : state.claimUnshieldedTold S build rewards transactionHash context =
      .ok (next, made.map some)) :
    Moves S H build shields context.tblock state.followed (made.map content) next.followed := by
  rw [claimUnshieldedTold] at ok
  split at ok <;> try contradiction
  split at ok <;> try contradiction
  obtain ⟨replay, -, rest⟩ := bindOk.mp ok
  obtain ⟨⟨dust, told⟩, generated, rest⟩ := bindOk.mp rest
  obtain ⟨passed, -, last⟩ := bindOk.mp rest
  obtain ⟨rfl, reported⟩ := okPair last
  obtain rfl := sourcedMade reported
  have same (remaining : U128) : (state.takeClaim rewards.kind (claimedUtxo S rewards).owner
      remaining).zswap = state.zswap := by
    cases rewards.kind <;> rfl
  rw [followed, followed, same]
  rw [claimDustTold] at generated
  split at generated
  · exact stillMoves generated
  · exact freshMoves generated

theorem materializeMade {deferred : List (DeferredEvent W.shielded L)}
    {events : List (LedgerEvent W.shielded L)} (ok : materialize deferred = some events) :
    deferred = events.map some := by
  have same : events.map some = deferred.map id := relatedMap Eq.symm (mapMMade ok)
  rw [same, map_id]

theorem sectionFoldedMoves
    (ok : sectionFolded S H build R tx transactionHash fees context acc segment = .ok final) :
    ∃ new, final.2 = acc.2 ++ new ∧ SectionMoves S H build context (tx.offerAt segment)
      ⟨transactionHash, segment, segment⟩ acc.1 final.1 new := by
  obtain ⟨deferred, new, applied, made, grown⟩ := sectionFoldedOk ok
  rw [materializeMade made] at applied
  exact ⟨new, grown, sectionToldMoves applied⟩

theorem foldedMoves {segments : List Segment}
    (ok : segments.foldlM (sectionFolded S H build R tx transactionHash fees context) acc =
      .ok final) :
    ∃ new, final.2 = acc.2 ++ new ∧
      Moves S H build True context.blockContext.tblock acc.1.followed (new.map content)
        final.1.followed := by
  induction segments generalizing acc with
  | nil =>
    cases Simulation.runNil.mp ok
    exact ⟨[], (append_nil _).symm, .done _⟩
  | cons segment segments ih =>
    obtain ⟨middle, taken, rest⟩ := Simulation.runCons.mp ok
    obtain ⟨first, grown, moves⟩ := sectionFoldedMoves taken
    obtain ⟨second, further, others⟩ := ih rest
    refine ⟨first ++ second, by rw [further, grown, append_assoc], ?_⟩
    rw [map_append]
    exact moves.moves.append others

theorem applyMoves {vt : VerifiedTransaction W.shielded} {result : TransactionResult W.shielded}
    (ok : state.applyTold S H build R vt context = .ok (final, result)) :
    Moves S H build True context.blockContext.tblock state.followed (final.2.map content)
      final.1.followed := by
  obtain ⟨e, rfl, -⟩ | ⟨rewards, deferred, inner, -, claimed, made⟩ |
    ⟨stx, log, inner, -, -, -, folds⟩ := applyToldOk ok
  · exact .done _
  · rw [materializeMade made] at claimed
    exact claimMoves claimed
  · obtain ⟨new, grown, moves⟩ := foldedMoves folds.folded
    rw [grown, nil_append]
    exact moves

theorem cNightUpdateMoves {after : DustState} {action : CNightGeneratesDustEvent}
    (ok : cNightUpdateTold S H build tblock dust action = .ok (after, contents.map some)) :
    Moves S H build shields tblock ⟨zswap, dust⟩ contents ⟨zswap, after⟩ := by
  rw [cNightUpdateTold] at ok
  split at ok
  · exact freshMoves ok
  · split at ok
    · cases build with
      | debug => cases ok
      | release => exact stillMoves ok
    · rename_i idx tracked
      obtain ⟨⟨reached, reports⟩, closed, last⟩ := bindOk.mp ok
      dsimp only at last
      split at last <;> try contradiction
      obtain ⟨rfl, rfl⟩ := okPair last
      exact closeMoves tracked closed

theorem applySystemTxMoves {tx : SystemTransaction W.shielded}
    (ok : state.applySystemTxTold S H build R tx tblock = .ok (next, made.map some)) :
    Moves S H build shields tblock state.followed (made.map content) next.followed := by
  have unread (other : (∀ actions, tx ≠ .cNightGeneratesDustUpdate actions))
      (plain : telling (state.applySystemTx S build tx tblock) (fun _ => []) =
        (.ok (next, made.map some) : Outcome SystemTransactionError _)) :
      Moves S H build shields tblock state.followed (made.map content) next.followed := by
    obtain ⟨reached, applied, last⟩ := bindOk.mp plain
    obtain ⟨rfl, nothing⟩ := okPair last
    have frame := applySystemTxFrame applied
    rw [madeNone nothing, followed, followed, frame.zswap]
    rcases frame.dust with ⟨actions, same, -⟩ | ⟨-, same⟩
    · exact absurd same (other actions)
    · rw [same]
      exact .done _
  cases tx with
  | cNightGeneratesDustUpdate actions =>
    obtain ⟨⟨dust, told⟩, updated, last⟩ := bindOk.mp ok
    obtain ⟨rfl, reported⟩ := okPair last
    rw [sourcedMade reported] at updated
    exact loopMoves cNightUpdateMoves updated
  | overwriteParameters parameters =>
    obtain ⟨reached, applied, last⟩ := bindOk.mp ok
    obtain ⟨rfl, reported⟩ := okPair last
    obtain ⟨content, same, only⟩ := madeOne (sourcedMade reported)
    cases same
    rw [only]
    have frame := applySystemTxFrame applied
    rcases frame.dust with ⟨actions, same, -⟩ | ⟨-, same⟩
    · cases same
    · rw [followed, followed, frame.zswap, same]
      exact .single .overwrite
  | _ => exact unread (fun _ same => by cases same) ok

end LedgerState

theorem stepMoves {input : Step W.shielded} {acc next : Recorded W L}
    (ok : stepTold S H build R acc input = .ok next) :
    ∃ new, next.2 = acc.2 ++ new ∧
      Moves S H build input.shields input.tblock acc.1.followed (new.map content)
        next.1.followed := by
  cases input with
  | transaction vt context =>
    obtain ⟨⟨⟨reached, events⟩, result⟩, applied, rfl⟩ := pureOk.mp ok
    exact ⟨events, rfl, applyMoves applied⟩
  | system tx tblock =>
    rw [stepTold] at ok
    split at ok
    · rename_i reached deferred applied
      split at ok <;> try contradiction
      rename_i events made
      cases ok
      rw [materializeMade made] at applied
      exact ⟨events, rfl, applySystemTxMoves applied⟩
    · cases ok
      exact ⟨[], (append_nil _).symm, .done _⟩
    · contradiction
  | postBlock tblock fullness =>
    cases ok
    refine ⟨[], (append_nil _).symm, ?_⟩
    rw [postBlockUpdate]
    split
    · exact .single (.settle _ _)
    · exact .done _

section Emitted

theorem moveUnshielded {before next : Followed} {told : List (EventContent W.shielded L)}
    (move : Move S H build False tblock before told next) :
    ∀ content ∈ told, ∀ details, content ≠ .zswap details := by
  intro content mem details same
  cases move with
  | offer shielded applied told => exact shielded
  | settle time retention => cases mem
  | delegate applied => cases mem
  | report unread =>
    cases mem_singleton.mp mem
    cases unread <;> cases same
  | spend applied | generate applied | close tracked there applied made | overwrite =>
    cases (mem_singleton.mp mem).symm.trans same

theorem movesUnshielded {before next : Followed} {told : List (EventContent W.shielded L)}
    (moves : Moves S H build False tblock before told next) :
    ∀ content ∈ told, ∀ details, content ≠ .zswap details := by
  induction moves with
  | done state => simp
  | next first rest ih => exact forall_mem_append.mpr ⟨moveUnshielded first, ih⟩

theorem unshieldedEvents {before next : Followed}
    (moves : Moves S H build False tblock before (made.map content) next) :
    made.filterMap asZswap = [] := by
  refine filterMap_eq_nil_iff.mpr fun event mem => ?_
  rw [asZswap]
  split
  · rename_i details same
    exact absurd same (movesUnshielded moves _ (mem_map_of_mem mem) details)
  · rfl

namespace LedgerState

variable {state next : LedgerState W.shielded} {context : TransactionContext W.shielded}
  {tx : StandardTransaction W.shielded} {vt : VerifiedTransaction W.shielded}
  {acc final : Recorded W L}

def zswapOnly (acc : Recorded W L) :
    LedgerState W.shielded × List Event := (acc.1, acc.2.filterMap asZswap)

theorem SectionMoves.emitted {transactionHash : HashOutput}
    (parts : SectionMoves S H build context (tx.offerAt segment)
      ⟨transactionHash, segment, segment⟩ state next made) :
    state.offerEvents S H transactionHash tx segment context =
      .ok (made.filterMap asZswap) := by
  obtain ⟨same, offered, moves⟩ := parts
  rw [filterMap_append, unshieldedEvents moves, append_nil, offerEvents]
  cases found : tx.offerAt segment with
  | none =>
    rw [found] at offered
    rw [madeNone (okPair offered).2]
    rfl
  | some offer =>
    rw [found] at offered
    obtain ⟨zswap, events, applied, -, told, rfl⟩ := applyZswapOptionMade offered
    rw [(Followed.mk.inj same).1] at applied
    refine bindOk.mpr ⟨_, bindOk.mpr ⟨_, liftOk.mpr applied, rfl⟩, ?_⟩
    dsimp only
    rw [told, filterMap_map]
    exact congrArg Except.ok filterMap_some.symm

theorem sectionFoldedEmits
    (ok : sectionFolded S H build R tx vt.hash vt.fees context acc segment = .ok final) :
    ∃ events, sectionEmitting S H build vt tx context acc.1 segment = .ok (final.1, events) ∧
      final.2.filterMap asZswap = acc.2.filterMap asZswap ++ events := by
  obtain ⟨deferred, -, applied, -, -⟩ := sectionFoldedOk ok
  obtain ⟨new, grown, moves⟩ := sectionFoldedMoves ok
  refine ⟨new.filterMap asZswap, ?_, by rw [grown, filterMap_append]⟩
  exact bindOk.mpr ⟨_, toldOk applySectionFollows applied, bindOk.mpr ⟨_, moves.emitted, rfl⟩⟩

theorem fallibleEmits {before after : Recorded W L × Log W.shielded}
    (ok : fallibleTold S H build R tx vt.hash vt.fees context before segment = .ok after) :
    fallibleEmitting S H build vt tx context (zswapOnly before.1) segment =
      .ok (zswapOnly after.1) := by
  rw [fallibleTold] at ok
  split at ok <;> try contradiction
  · rename_i reached applied
    cases ok
    obtain ⟨events, emitted, grown⟩ := sectionFoldedEmits applied
    rw [fallibleEmitting, zswapOnly, emitted, zswapOnly, grown]
  · rename_i e refused
    cases ok
    have plain := toldRefused applySectionFollows (sectionFoldedRefused.mp refused)
    rw [fallibleEmitting, sectionEmitting, zswapOnly, plain]
    rfl

theorem applyEmits {result : TransactionResult W.shielded}
    (ok : state.applyTold S H build R vt context = .ok (final, result)) :
    state.applyEmitting S H build vt context = .ok (zswapOnly final) := by
  have plain := applyToldPlain ok
  rw [applyEmitting]
  cases inner : vt.inner with
  | claimRewards rewards =>
    have none : final.2.filterMap asZswap = [] := by
      obtain ⟨e, rfl, -⟩ | ⟨rewards, deferred, -, -, claimed, made⟩ | ⟨stx, log, standard, -⟩ :=
        applyToldOk ok
      · rfl
      · rw [materializeMade made] at claimed
        exact unshieldedEvents (H := H) (claimMoves claimed)
      · cases inner.symm.trans standard
    rw [plain, zswapOnly, none]
    rfl
  | standard tx =>
    rw [applyTold, applyGuaranteedOnlyTold, inner] at ok
    dsimp only at ok ⊢
    split at ok
    · rename_i e refused
      cases ok
      rw [sectionEmitting, toldRefused applySectionFollows refused]
      rfl
    · contradiction
    · rename_i guaranteed deferred started
      split at ok <;> try contradiction
      rename_i events stx made same
      cases same
      obtain ⟨⟨reached, log⟩, runs, last⟩ := bindOk.mp ok
      obtain ⟨told, emitted, grown⟩ := sectionFoldedEmits (sectionOpened started made)
      rw [emitted, show told = events.filterMap asZswap from grown.symm]
      have rest := Simulation.runProjected (fun acc => zswapOnly acc.1) fallibleEmits runs
      split at last <;> cases last <;> exact rest

end LedgerState

theorem stepEmits {input : Step W.shielded} {acc next : Recorded W L}
    (ok : stepTold S H build R acc input = .ok next) :
    stepEmitting S H build (zswapOnly acc) input = .ok (zswapOnly next) := by
  have plain (silent : input.shields = False) :
      (do .ok (← step S build acc.1 input, acc.2.filterMap asZswap)) =
        (.ok (zswapOnly next) : Except Panic _) := by
    obtain ⟨new, grown, moves⟩ := stepMoves ok
    rw [silent] at moves
    rw [zswapOnly, grown, filterMap_append, unshieldedEvents moves, append_nil]
    exact bindOk.mpr ⟨next.1, stepToldPlain ok, rfl⟩
  cases input with
  | transaction vt context =>
    obtain ⟨⟨⟨reached, events⟩, result⟩, applied, rfl⟩ := pureOk.mp ok
    refine bindOk.mpr ⟨_, applyEmits applied, ?_⟩
    exact congrArg (fun told => Except.ok (reached, told)) filterMap_append.symm
  | system tx tblock => exact plain rfl
  | postBlock tblock fullness => exact plain rfl

/- The events of a run that are Zswap events are those that the offers of the run emit. -/
theorem zswapEventsEmitted {inputs : List (Step W.shielded)} {acc final : Recorded W L}
    (ok : Simulation.run (stepTold S H build R) acc inputs = .ok final) :
    Simulation.run (stepEmitting S H build) (zswapOnly acc) inputs = .ok (zswapOnly final) :=
  Simulation.runProjected zswapOnly stepEmits ok

end Emitted

end

end MidnightLedger.Ledger

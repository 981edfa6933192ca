import MidnightLedger.Ledger.Generation
import MidnightLedger.Ledger.WellFormed

/-! Open generation entries over runs of the ledger. The link between entries and Night is carried
through the loops over offers, spends and registrations, which run in different orders. -/
namespace MidnightLedger.Ledger
open ByteString Maps Words Loops LedgerState Simulation List StandardTransaction AList

variable {W : Components}

def inputsOf (offer : Option UnshieldedOffer) : List UtxoSpend :=
  (offer.map UnshieldedOffer.inputs).getD []

section

variable (S : Services W)

def LedgerState.Unused (state : LedgerState W) (nonce : InitialNonce) : Prop :=
  ∀ u ∈ state.utxo.keys, u.type = night → S.utxoNonce u ≠ nonce

instance {state : LedgerState W} {nonce : InitialNonce} : Decidable (state.Unused S nonce) :=
  inferInstanceAs (Decidable (∀ u ∈ state.utxo.keys, u.type = night → S.utxoNonce u ≠ nonce))

def guaranteedAtOnce (entry : Segment × Intent W) : List Utxo :=
  atOnce S entry.2 guaranteedSegment (nightOutputsOf entry.2.guaranteedUnshieldedOffer)

namespace StandardTransaction

def awaitingRegistration (tx : StandardTransaction W) : List Utxo :=
  (dustRegistrations tx).flatMap (awaiting S)

def fallibleAtOnce (tx : StandardTransaction W) (segment : Segment) : List Utxo :=
  match tx.intents.lookup segment with
  | none => []
  | some intent => atOnce S intent segment (nightOutputsOf intent.fallibleUnshieldedOffer)

def generating (tx : StandardTransaction W) : List Utxo :=
  (sortedIter tx.intents).flatMap (guaranteedAtOnce S) ++ (tx.awaitingRegistration S ++
    tx.fallibleSegments.flatMap (tx.fallibleAtOnce S))

def guaranteedInputs (tx : StandardTransaction W) : List UtxoSpend :=
  (sortedIter tx.intents).flatMap fun entry => inputsOf entry.2.guaranteedUnshieldedOffer

def registeredKeys (tx : StandardTransaction W) : List (UserAddress × DustPublicKey) :=
  (dustRegistrations tx).filterMap fun entry => entry.2.2.key S

/- No nonce is used twice, "never" is not a block time, and the guaranteed section leaves
the outputs alone that wait for their registration. -/
structure Steady (tx : StandardTransaction W) (state : LedgerState W)
    (context : TransactionContext W) : Prop where
  finite : context.blockContext.tblock ≠ Timestamp.max
  distinct : ((tx.generating S).map S.utxoNonce).Nodup
  unused : ∀ u ∈ tx.generating S, state.Unused S (S.utxoNonce u)
  kept : ∀ u ∈ tx.awaitingRegistration S, ∀ input ∈ tx.guaranteedInputs, S.spentUtxo input ≠ u

end StandardTransaction

end

variable {origins : List Origin} {S : Services W} {build : Build}
  {registered : List (UserAddress × DustPublicKey)} {rest : List InitialNonce}
  {context : TransactionContext W}

namespace LedgerState

variable {state next : LedgerState W} {tx : StandardTransaction W} {comIndices : ComIndices}
  {entry : Segment × Intent W}

section

variable (finite : context.blockContext.tblock ≠ Timestamp.max)

include finite

theorem guaranteedIntentsMoving {entries : List (Segment × Intent W)}
    (ok : entries.foldlM (guaranteedIntent S build context comIndices) state = .ok next)
    (moving : Moving S origins registered
      ((entries.flatMap (guaranteedAtOnce S)).map S.utxoNonce ++ rest) (· ∈ state.utxo)
      state.dust.generation) :
    Moving S origins registered rest (· ∈ next.utxo) next.dust.generation := by
  refine runConsumes (fun entries s => Moving S origins registered
    ((entries.flatMap (guaranteedAtOnce S)).map S.utxoNonce ++ rest) (· ∈ s.utxo)
    s.dust.generation) ?_ moving ok
  intro s entry entries t before taken
  rw [flatMap_cons, map_append, append_assoc] at before
  obtain ⟨offered, unshielded, acted⟩ := bindOk.mp taken
  have moved := applyUnshieldedMoving finite unshielded before
  obtain ⟨contract, rfl⟩ := applyActionsFrame acted
  exact moved

end

variable {fees : U128}

theorem guaranteedIntentKeeps {u : Utxo}
    (kept : ∀ input ∈ inputsOf entry.2.guaranteedUnshieldedOffer, S.spentUtxo input ≠ u)
    (inside : u ∈ state.utxo ∨ u ∈ (nightOutputsOf entry.2.guaranteedUnshieldedOffer).map
      (Services.createdUtxo (S.intentHash entry.2 guaranteedSegment)))
    (ok : guaranteedIntent S build context comIndices state entry = .ok next) : u ∈ next.utxo := by
  obtain ⟨offered, unshielded, acted⟩ := bindOk.mp ok
  obtain ⟨contract, rfl⟩ := applyActionsFrame acted
  obtain ⟨none, rfl⟩ | ⟨given, utxo, dust, some, moved, -, rfl⟩ := applyUnshieldedOk unshielded
  · simpa [none, nightOutputsOf] using inside
  · rw [some] at kept inside
    refine UtxoState.applyOfferKeeps moved (inside.imp (fun before => ⟨before, kept⟩) ?_)
    intro created
    obtain ⟨output, mem, rfl⟩ := mem_map.mp created
    exact mem_map_of_mem (memNightOutputs.mp mem).1

theorem memDustRegistrations {entry : Intent W × Timestamp × DustRegistration}
    (mem : entry ∈ dustRegistrations tx) : ∃ segment, (segment, entry.1) ∈ sortedIter tx.intents := by
  obtain ⟨⟨segment, intent⟩, inside, made⟩ := mem_flatMap.mp mem
  split at made
  · obtain ⟨registration, -, rfl⟩ := mem_map.mp made
    exact ⟨segment, inside⟩
  · cases made

theorem awaitingPresent
    (kept : ∀ u ∈ tx.awaitingRegistration S, ∀ input ∈ tx.guaranteedInputs, S.spentUtxo input ≠ u)
    (ok : (sortedIter tx.intents).foldlM (guaranteedIntent S build context comIndices) state =
      .ok next) : ∀ u ∈ tx.awaitingRegistration S, u ∈ next.utxo := by
  intro u awaits
  have unspent := kept u awaits
  have final := runConsumes (fun entries s =>
    (∀ entry ∈ entries, ∀ input ∈ inputsOf entry.2.guaranteedUnshieldedOffer,
      S.spentUtxo input ≠ u) ∧
    (u ∈ s.utxo ∨ ∃ entry ∈ entries, u ∈ (nightOutputsOf entry.2.guaranteedUnshieldedOffer).map
      (Services.createdUtxo (S.intentHash entry.2 guaranteedSegment)))) ?_ ⟨?_, ?_⟩ ok
  · exact final.2.resolve_right (by simp)
  · rintro s entry entries t ⟨unspent, inside⟩ taken
    obtain ⟨here, later⟩ := forall_mem_cons.mp unspent
    refine ⟨later, ?_⟩
    rcases inside with before | ⟨maker, mem, made⟩
    · exact .inl (guaranteedIntentKeeps here (.inl before) taken)
    · rcases mem_cons.mp mem with rfl | after
      · exact .inl (guaranteedIntentKeeps here (.inr made) taken)
      · exact .inr ⟨maker, after, made⟩
  · exact fun entry mem input inside => unspent input (mem_flatMap.mpr ⟨entry, mem, inside⟩)
  · obtain ⟨registration, mem, inside⟩ := mem_flatMap.mp awaits
    obtain ⟨segment, intent⟩ := memDustRegistrations mem
    refine .inr ⟨_, intent, ?_⟩
    rw [awaiting] at inside
    split at inside
    · cases inside
    · obtain ⟨output, owned, rfl⟩ := mem_map.mp inside
      exact mem_map_of_mem (memOwnedOutputs owned).1

theorem registrationsMoving {entries : List (Intent W × Timestamp × DustRegistration)} {left : U128}
    (known : ∀ entry ∈ entries, ∀ pair ∈ entry.2.2.key S, pair ∈ registered)
    (created : ∀ entry ∈ entries, ∀ u ∈ awaiting S entry, u ∈ state.utxo)
    (ok : entries.foldlM (guaranteedRegistration S context) (state, fees) = .ok (next, left))
    (moving : Moving S origins registered ((entries.flatMap (awaiting S)).map S.utxoNonce ++ rest)
      (· ∈ state.utxo) state.dust.generation) :
    Moving S origins registered rest (· ∈ next.utxo) next.dust.generation := by
  have final := runConsumes (fun entries s =>
    (∀ entry ∈ entries, ∀ pair ∈ entry.2.2.key S, pair ∈ registered) ∧
    (∀ entry ∈ entries, ∀ u ∈ awaiting S entry, u ∈ s.1.utxo) ∧
    Moving S origins registered ((entries.flatMap (awaiting S)).map S.utxoNonce ++ rest)
      (· ∈ s.1.utxo) s.1.dust.generation) ?_ ⟨known, created, moving⟩ ok
  · exact final.2.2
  · rintro s entry entries t ⟨known, created, before⟩ taken
    obtain ⟨dust, made, same⟩ := guaranteedRegistrationOk taken
    obtain ⟨knownHere, known⟩ := forall_mem_cons.mp known
    obtain ⟨createdHere, created⟩ := forall_mem_cons.mp created
    rw [flatMap_cons, map_append, append_assoc] at before
    rw [same]
    exact ⟨known, created, before.register knownHere createdHere made⟩

section

variable (finite : context.blockContext.tblock ≠ Timestamp.max)
include finite

theorem applyGuaranteedMoving
    (kept : ∀ u ∈ tx.awaitingRegistration S, ∀ input ∈ tx.guaranteedInputs, S.spentUtxo input ≠ u)
    (known : ∀ pair ∈ tx.registeredKeys S, pair ∈ registered) (moving : Moving S origins registered
      (((sortedIter tx.intents).flatMap (guaranteedAtOnce S)).map S.utxoNonce ++
      ((tx.awaitingRegistration S).map S.utxoNonce ++ rest)) (· ∈ state.utxo) state.dust.generation)
    (ok : state.applyGuaranteed S build tx fees context = .ok next) :
    Moving S origins registered rest (· ∈ next.utxo) next.dust.generation := by
  obtain ⟨started, comIndices, moved, utxo, feesRemaining, left, before, intents, -,
    registrations⟩ := applyGuaranteedOk ok
  obtain ⟨replay, zswap, rfl⟩ := before.frame
  have offered := guaranteedIntentsMoving finite intents moving
  have created := awaitingPresent kept intents
  refine registrationsMoving ?_ ?_ registrations offered
  · exact fun entry mem pair key => known pair (mem_filterMap.mpr ⟨entry, mem, key⟩)
  · exact fun entry mem u inside => created u (mem_flatMap.mpr ⟨entry, mem, inside⟩)

theorem applyFallibleMoving {segment : Segment}
    (moving : Moving S origins registered ((tx.fallibleAtOnce S segment).map S.utxoNonce ++ rest)
      (· ∈ state.utxo) state.dust.generation)
    (ok : state.applyFallible S build tx segment context = .ok next) :
    Moving S origins registered rest (· ∈ next.utxo) next.dust.generation := by
  obtain ⟨started, comIndices, zswapped, ⟨absent, rfl⟩ | ⟨intent, moved, found, offered, -, acted⟩⟩ :=
    applyFallibleOk ok <;> obtain ⟨zswap, rfl, -⟩ := applyZswapOptionOk zswapped
  · rw [fallibleAtOnce, absent] at moving
    exact moving
  · rw [fallibleAtOnce, found] at moving
    have after := applyUnshieldedMoving finite offered moving
    obtain ⟨contract, rfl⟩ := applyActionsFrame acted
    exact after

end

theorem fallibleSegmentsMoving {segments : List Segment} {before after : LedgerState W × Log W}
    (fallible : ∀ segment ∈ segments, segment ≠ guaranteedSegment)
    (finite : context.blockContext.tblock ≠ Timestamp.max) (moving : Moving S origins registered
      ((segments.flatMap (tx.fallibleAtOnce S)).map S.utxoNonce) (· ∈ before.1.utxo)
      before.1.dust.generation)
    (ok : segments.foldlM (fallibleStep S build tx fees context) before = .ok after) :
    Moving S origins registered [] (· ∈ after.1.utxo) after.1.dust.generation := by
  have final := runConsumes (fun segments acc =>
    (∀ segment ∈ segments, segment ≠ guaranteedSegment) ∧
    Moving S origins registered ((segments.flatMap (tx.fallibleAtOnce S)).map S.utxoNonce)
      (· ∈ acc.1.utxo) acc.1.dust.generation) ?_ ⟨fallible, moving⟩ ok
  · exact final.2
  · rintro acc segment segments next ⟨fallible, holds⟩ taken
    obtain ⟨here, fallible⟩ := forall_mem_cons.mp fallible
    rw [flatMap_cons, map_append] at holds
    rw [fallibleStep] at taken
    split at taken <;> try contradiction
    · rename_i applied
      cases taken
      obtain ⟨-, ⟨guaranteed, -⟩ | ⟨-, body⟩⟩ := applySectionOk applied
      · exact absurd guaranteed here
      · exact ⟨fallible, applyFallibleMoving finite holds body⟩
    · cases taken
      exact ⟨fallible, holds.weaken (sublist_append_right ..) fun _ inside => inside⟩

end LedgerState

structure Tracked (S : Services W) (origins : List Origin) (state : LedgerState W) : Prop where
  counted : origins.length = state.dust.generation.generatingTreeFirstFree
  linked : Linked S (originIn origins .cNight) [] (· ∈ state.utxo) state.dust.generation

variable {current : Origin}

theorem originInExtended {free i : Nat} (based : origins.length ≤ free) (below : i < free) :
    originIn (origins ++ replicate (free - origins.length) current) .cNight i =
      originIn origins current i := by
  by_cases old : i < origins.length
  · rw [originIn, originIn, getElem?_append_left old, getElem?_eq_getElem old]
    rfl
  · have new := Nat.le_of_not_lt old
    rw [originInNew new, originIn, getElem?_append_right new, getElem?_replicate, if_pos (by omega)]
    rfl

variable {state next : LedgerState W}

def newOrigins (state next : LedgerState W) (current : Origin) : List Origin :=
  replicate (next.dust.generation.generatingTreeFirstFree -
    state.dust.generation.generatingTreeFirstFree) current

theorem Tracked.extend (tracked : Tracked S origins state)
    (based : origins.length ≤ next.dust.generation.generatingTreeFirstFree)
    (linked : Linked S (originIn origins current) [] (· ∈ next.utxo) next.dust.generation) :
    Tracked S (origins ++ newOrigins state next current) next := by
  rw [newOrigins, ← tracked.counted]
  refine ⟨?_, linked.reorigin fun i below => originInExtended based below⟩
  rw [length_append, length_replicate]
  omega

theorem Tracked.start {pending : List InitialNonce}
    (tracked : Tracked S origins state) (distinct : pending.Nodup)
    (unused : ∀ nonce ∈ pending, state.Unused S nonce)
    (delegated : ∀ {address key},
      state.dust.generation.addressDelegation.lookup address = some key →
        (address, key) ∈ registered) :
    Moving S origins registered pending (· ∈ state.utxo) state.dust.generation := by
  have linked := tracked.linked.reorigin fun i below =>
    originInOld (tracked.counted ▸ below) (.night registered) .cNight
  refine ⟨⟨linked.below, distinct, linked.tracked, ?_, linked.backed⟩, tracked.counted.le, delegated⟩
  intro i info others found isOpen made mem
  obtain ⟨utxo, inside, backs⟩ := linked.backed found isOpen made
  exact unused _ mem utxo (mem_keys.mp inside) backs.night backs.nonce

theorem Moving.tracked (tracked : Tracked S origins state)
    (moving : Moving S origins registered [] (· ∈ next.utxo) next.dust.generation) :
    Tracked S (origins ++ newOrigins state next (.night registered)) next :=
  tracked.extend moving.based moving.linked

theorem Tracked.unchanged (tracked : Tracked S origins state)
    (utxos : next.utxo = state.utxo) (dust : next.dust = state.dust) :
    Tracked S (origins ++ newOrigins state next current) next := by
  rw [newOrigins, dust, Nat.sub_self, replicate_zero, append_nil]
  exact ⟨dust ▸ tracked.counted, by rw [utxos, dust]; exact tracked.linked⟩

def LedgerState.delegations (state : LedgerState W) : List (UserAddress × DustPublicKey) :=
  state.dust.generation.addressDelegation.entries.map fun entry => (entry.1, entry.2)

theorem LedgerState.memDelegations {address : UserAddress} {key : DustPublicKey}
    (found : state.dust.generation.addressDelegation.lookup address = some key) :
    (address, key) ∈ state.delegations :=
  mem_map.mpr ⟨⟨address, key⟩, mem_lookup_iff.mp found, rfl⟩

section

variable (S : Services W)

def Step.Steady (state : LedgerState W) : Step W → Prop
  | .transaction tx context =>
    match tx.inner with
    | .standard stx => stx.Steady S state context
    | .claimRewards rewards =>
      state.Unused S (S.utxoNonce (claimedUtxo S rewards))
  | .system (.cNightGeneratesDustUpdate events) _ => ∀ event ∈ events,
    match event.action with
    | .create => state.Unused S event.nonce
    | .destroy => event.time ≠ Timestamp.max
  | .system _ _ | .postBlock _ _ => True

def Step.origin (state : LedgerState W) : Step W → Origin
  | .transaction tx _ =>
    match tx.inner with
    | .standard stx => .night (state.delegations ++ stx.registeredKeys S)
    | .claimRewards _ => .night state.delegations
  | .system (.cNightGeneratesDustUpdate _) _ => .cNight
  | .system _ _ | .postBlock _ _ => .night []

def trackedStep (build : Build) (current : LedgerState W × List Origin) (taken : Step W) :
    Except Panic (LedgerState W × List Origin) := do
  let next ← step S build current.1 taken
  .ok (next, current.2 ++ newOrigins current.1 next (taken.origin S current.1))

end

theorem standardTracked {vt : VerifiedTransaction W} {stx : StandardTransaction W}
    {result : TransactionResult W}
    (standard : vt.inner = .standard stx) (steady : stx.Steady S state context)
    (tracked : Tracked S origins state) (ok : state.apply S build vt context = .ok (next, result)) :
    Tracked S (origins ++ newOrigins state next
      (.night (state.delegations ++ stx.registeredKeys S))) next := by
  obtain ⟨-, -, rfl⟩ | ⟨rewards, claim, -⟩ | ⟨tx, guaranteed, segments, isStandard, -, passed, run⟩ :=
    applyOk ok
  · exact tracked.unchanged rfl rfl
  · rw [standard] at claim
    cases claim
  · rw [standard] at isStandard
    cases isStandard
    have start : Moving S origins (state.delegations ++ stx.registeredKeys S)
        ((stx.generating S).map S.utxoNonce) (· ∈ state.utxo) state.dust.generation := by
      refine tracked.start steady.distinct (fun nonce mem => ?_) fun found =>
        mem_append_left _ (memDelegations found)
      obtain ⟨u, inside, rfl⟩ := mem_map.mp mem
      exact steady.unused u inside
    obtain ⟨-, ⟨-, body⟩ | ⟨fallible, -⟩⟩ := applySectionOk passed
    · rw [generating, map_append, map_append] at start
      have middle := applyGuaranteedMoving steady.finite steady.kept
        (fun pair mem => mem_append_right _ mem) start body
      refine Moving.tracked tracked (fallibleSegmentsMoving ?_ steady.finite middle run)
      exact fun segment mem => fallibleNotGuaranteed mem
    · exact absurd rfl fallible

theorem claimTracked {rewards : ClaimRewardsTransaction} {block : BlockContext}
    (unused : state.Unused S (S.utxoNonce (claimedUtxo S rewards)))
    (tracked : Tracked S origins state)
    (ok : state.claimUnshielded S build rewards block = .ok next) :
    Tracked S (origins ++ newOrigins state next (.night state.delegations)) next := by
  obtain ⟨replay, dust, claimed, -, -, -, generated, -, rfl⟩ := claimUnshieldedOk ok
  have start : Moving S origins state.delegations [S.utxoNonce (claimedUtxo S rewards)]
      (· ∈ state.utxo) state.dust.generation :=
    tracked.start (nodup_singleton _) (fun nonce mem => mem_singleton.mp mem ▸ unused)
      memDelegations
  have created : Moving S origins state.delegations [S.utxoNonce (claimedUtxo S rewards)]
      (· ∈ state.utxo.insert (claimedUtxo S rewards) ⟨block.tblock⟩)
      state.dust.generation :=
    start.weaken (List.Sublist.refl _) fun _ inside => (mem_insert _).mpr (.inr inside)
  refine Moving.tracked tracked ?_
  rw [claimDust] at generated
  split at generated
  · cases generated
    exact created.weaken (nil_sublist _) fun _ inside => inside
  · rename_i key delegation
    exact created.fresh rfl ((mem_insert _).mpr (.inl rfl)) (memDelegations delegation) generated

theorem cNightTracked {events : List CNightGeneratesDustEvent}
    (steady : ∀ event ∈ events, match event.action with
      | .create => state.Unused S event.nonce
      | .destroy => event.time ≠ Timestamp.max)
    (tracked : Tracked S origins state) (utxos : next.utxo = state.utxo)
    (ok : events.foldlM (cNightUpdate S build) state.dust = .ok next.dust) :
    Tracked S (origins ++ newOrigins state next .cNight) next := by
  have final := runPreserves (fun dust : DustState =>
    origins.length ≤ dust.generation.generatingTreeFirstFree ∧
      Linked S (originIn origins .cNight) [] (· ∈ state.utxo) dust.generation) ?_
    ⟨tracked.counted.le, tracked.linked⟩ ok
  · exact tracked.extend final.1 (utxos ▸ final.2)
  · rintro dust event after mem ⟨based, linked⟩ taken
    have steadyHere := steady event mem
    rw [cNightUpdate] at taken
    split at taken
    · rename_i create
      rw [create] at steadyHere
      have made := liftOk.mp taken
      obtain ⟨-, free, -, -⟩ := DustState.freshDustOutputOk made
      refine ⟨by omega, linked.fresh ?_ (List.Sublist.refl _) ?_ made⟩
      · intro i info registered found isOpen night same
        obtain ⟨utxo, inside, backs⟩ := linked.backed found isOpen night
        exact steadyHere utxo (mem_keys.mp inside) backs.night (backs.nonce.trans same)
      · intro registered night
        rw [originInNew based] at night
        cases night
    · rename_i destroy
      rw [destroy] at steadyHere
      split at taken
      · cases build <;> cases taken
        exact ⟨based, linked⟩
      · have closed := mapFaultOk.mp taken
        obtain ⟨-, free, -, -⟩ := DustState.setDtimeOk closed
        refine ⟨by omega, (linked.close steadyHere closed).weaken (List.Sublist.refl _) ?_⟩
        exact fun _ inside => inside.1

theorem stepTracked {taken : Step W} (steady : taken.Steady S state)
    (tracked : Tracked S origins state) (ok : step S build state taken = .ok next) :
    Tracked S (origins ++ newOrigins state next (taken.origin S state)) next := by
  cases taken with
  | transaction tx context =>
    obtain ⟨⟨applied, result⟩, run, rfl⟩ := pureOk.mp ok
    rw [Step.origin]
    rw [Step.Steady] at steady
    cases inner : tx.inner with
    | standard stx =>
      simp only [inner] at steady ⊢
      exact standardTracked inner steady tracked run
    | claimRewards rewards =>
      simp only [inner] at steady ⊢
      obtain ⟨-, -, rfl⟩ | ⟨claimed, same, -, claim⟩ | ⟨stx, -, -, standard, -⟩ :=
        applyOk run
      · exact tracked.unchanged rfl rfl
      · cases inner.symm.trans same
        exact claimTracked steady tracked claim
      · cases inner.symm.trans standard
  | system tx tblock =>
    obtain applied | rfl := systemStepOk ok
    · have frame := applySystemTxFrame applied
      obtain ⟨events, rfl, run⟩ | ⟨other, dust⟩ := frame.dust
      · exact cNightTracked steady tracked frame.utxo run
      · exact tracked.unchanged frame.utxo dust
    · exact tracked.unchanged rfl rfl
  | postBlock tblock fullness =>
    cases ok
    rw [postBlockUpdate]
    split <;> exact tracked.unchanged rfl rfl

theorem runTracked {steps : List (Step W)} (tracked : Tracked S origins state)
    (steady : Along (step S build) (fun s taken => taken.Steady S s) state steps)
    (ok : run (step S build) state steps = .ok next) :
    ∃ history, run (trackedStep S build) (state, origins) steps = .ok (next, history) ∧
      Tracked S history next := by
  induction steps generalizing state origins with
  | nil =>
    cases runNil.mp ok
    exact ⟨origins, rfl, tracked⟩
  | cons taken steps ih =>
    obtain ⟨middle, first, rest⟩ := runCons.mp ok
    obtain ⟨history, run, final⟩ := ih (stepTracked steady.1 tracked first) (steady.2 middle first) rest
    refine ⟨history, runCons.mpr ⟨_, ?_, run⟩, final⟩
    rw [trackedStep, first]
    rfl

theorem openEntriesBacked {networkId : String} {parameters : LedgerParameters W}
    {locked reserve treasury : U128} {genesis : LedgerState W} {steps : List (Step W)}
    (started : withGenesisSettings S build networkId parameters locked reserve
      treasury = .ok genesis) (run : run (step S build) genesis steps = .ok state)
    (steady : Along (step S build) (fun s taken => taken.Steady S s) genesis steps) :
    ∃ origins, Simulation.run (trackedStep S build) (genesis, []) steps = .ok (state, origins) ∧
      ∀ {i info}, state.dust.generation.entry i = some info → info.dtime = Timestamp.max →
        origins[i]? ≠ some .cNight →
        ∃ registered utxo, origins[i]? = some (.night registered) ∧ utxo ∈ state.utxo ∧
          Backs S registered info utxo := by
  have start : Tracked S [] genesis := by
    obtain ⟨-, -, rfl⟩ := pureOk.mp started
    exact ⟨rfl, nofun, nodup_nil, nofun, nofun, nofun⟩
  obtain ⟨origins, history, tracked⟩ := runTracked start steady run
  refine ⟨origins, history, fun {i info} found isOpen ledger => ?_⟩
  have below : i < origins.length := tracked.counted ▸ tracked.linked.below found
  have known : origins[i]? = some (originIn origins .cNight i) := by
    rw [originIn, getElem?_eq_getElem below]
    rfl
  rw [known] at ledger ⊢
  cases made : originIn origins .cNight i with
  | cNight => exact absurd (congrArg some made) ledger
  | night registered =>
    obtain ⟨utxo, inside, backs⟩ := tracked.linked.backed found isOpen made
    exact ⟨registered, utxo, rfl, inside, backs⟩

def registration : StandardTransaction sampleComponents :=
  ⟨"net", singleton 1
    ⟨none, none, [], some ⟨[], [⟨.schnorr [1], some ⟨9⟩, 0⟩], 5⟩, 6, ()⟩, none, ∅⟩

def registeredSteps : List (Step sampleComponents) :=
  .transaction (value (accept sampleGenesis registration) (by decide +kernel)) sampleContext ::
    samplePayout

def registeredState : LedgerState sampleComponents :=
  value (run (step sampleServices .debug) sampleGenesis registeredSteps)
    (by decide +kernel)

def beforeClaim : LedgerState sampleComponents :=
  value (run (step sampleServices .debug) sampleGenesis (registeredSteps.take 3))
    (by decide +kernel)

theorem registeredSteady : Along (step sampleServices .debug)
    (fun s taken => taken.Steady sampleServices s) sampleGenesis registeredSteps := by
  refine ⟨⟨by decide, by decide +kernel, by decide +kernel, by decide +kernel⟩, fun s1 first => ?_⟩
  refine ⟨trivial, fun s2 second => ⟨trivial, fun s3 third => ⟨?_, fun _ _ => trivial⟩⟩⟩
  have reached : run (step sampleServices .debug) sampleGenesis (registeredSteps.take 3) = .ok s3 :=
    runCons.mpr ⟨s1, first, runCons.mpr ⟨s2, second, runCons.mpr ⟨s3, third, rfl⟩⟩⟩
  have same : s3 = beforeClaim := Except.ok.inj (reached.symm.trans (valueOk _))
  rw [same]
  show beforeClaim.Unused sampleServices _
  decide +kernel

def registeredHistory : LedgerState sampleComponents × List Origin :=
  value (run (trackedStep sampleServices .debug) (sampleGenesis, []) registeredSteps)
    (by decide +kernel)

def registeredEntry : DustGenerationInfo :=
  ⟨100, ⟨9⟩, sampleServices.spendNonce sampleSpend, Timestamp.max⟩

theorem registeredBacked : registeredState.dust.generation.entry 0 = some registeredEntry ∧
    ∃ registered utxo, registeredHistory.2[0]? = some (.night registered) ∧
      utxo ∈ registeredState.utxo ∧ Backs sampleServices registered registeredEntry utxo := by
  have started : withGenesisSettings sampleServices .debug "net" sampleParameters 0
    (BitVec.ofNat 128 maxSupply) 0 = .ok sampleGenesis := valueOk _
  have run : run (step sampleServices .debug) sampleGenesis registeredSteps =
    .ok registeredState := valueOk _
  have isOpen : registeredState.dust.generation.entry 0 = some registeredEntry := by
    decide +kernel
  refine ⟨isOpen, ?_⟩
  obtain ⟨origins, history, backed⟩ := openEntriesBacked started run registeredSteady
  have same : (registeredState, origins) = registeredHistory :=
    Except.ok.inj (history.symm.trans (valueOk _))
  rw [← same]
  refine backed isOpen rfl ?_
  have known : registeredHistory.2[0]? ≠ some .cNight := by decide +kernel
  rw [← same] at known
  exact known

/- The claimed Night goes to a user who registers in the same intent, and the next intent
spends it before the registration has run. -/
def forwarded : Intent sampleComponents :=
  ⟨some ⟨[sampleSpend], [⟨100, sampleServices.userAddress (.schnorr [2]), night⟩]⟩, none, [],
    some ⟨[], [⟨.schnorr [2], some ⟨9⟩, 0⟩], 5⟩, 10, ()⟩

def forwarding : Intent sampleComponents :=
  ⟨some ⟨[⟨100, .schnorr [2], night, sampleServices.intentHash forwarded guaranteedSegment, 0⟩],
    [⟨100, ⟨8⟩, night⟩]⟩, none, [], none, 11, ()⟩

def forwardTransaction : StandardTransaction sampleComponents :=
  ⟨"net", insert 2 forwarding (singleton 1 forwarded), none, ∅⟩

def claimedState : LedgerState sampleComponents :=
  value (run (step sampleServices .debug) sampleGenesis samplePayout) (by decide +kernel)

def forwardVerified : VerifiedTransaction sampleComponents :=
  value (accept claimedState forwardTransaction) (by decide +kernel)

def forwardSteps : List (Step sampleComponents) :=
  samplePayout ++ [.transaction forwardVerified sampleContext]

def forwardHistory : LedgerState sampleComponents × List Origin :=
  value (run (trackedStep sampleServices .debug) (sampleGenesis, []) forwardSteps)
    (by decide +kernel)

def forwardEntry : DustGenerationInfo :=
  ⟨100, ⟨9⟩, sampleServices.initialNonce 0
    (sampleServices.intentHash forwarded guaranteedSegment), Timestamp.max⟩

theorem spentNightGenerates :
    accept claimedState forwardTransaction = .ok forwardVerified ∧
      run (step sampleServices .debug) sampleGenesis samplePayout = .ok claimedState ∧
      run (trackedStep sampleServices .debug) (sampleGenesis, []) forwardSteps =
        .ok forwardHistory ∧ forwardHistory.1.dust.generation.entry 0 = some forwardEntry ∧
      forwardEntry.dtime = Timestamp.max ∧ forwardHistory.2[0]? ≠ some .cNight ∧
      ∀ utxo ∈ forwardHistory.1.utxo.keys, sampleServices.utxoNonce utxo ≠ forwardEntry.nonce := by
  refine ⟨valueOk _, valueOk _, valueOk _, ?_, rfl, ?_, ?_⟩
  · decide +kernel
  · decide +kernel
  · decide +kernel

end MidnightLedger.Ledger

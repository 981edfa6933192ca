import MidnightLedger.Ledger.Frames

/-! Dust generation entries and the Night behind them: the link between an open entry and a Night
UTXO through one unshielded offer and one registration. Over runs the leaves of both trees of the
Dust state stand exactly below the first free indices, and a nonce is tracked only where its entry
stands. -/
namespace MidnightLedger.Ledger
open ByteString Maps Words Loops AList DustState List Simulation Option List.Sublist Services
  MerkleTree Timestamp

variable {W : Components}

/- Who made an entry: an observation of cNIGHT, or the ledger for a Night UTXO, with the
Dust keys that were registered for addresses at that time. -/
inductive Origin where
  | cNight
  | night (registered : List (UserAddress × DustPublicKey))
  deriving DecidableEq, Repr

def DustGenerationState.entry (generation : DustGenerationState) (i : Nat) :
    Option DustGenerationInfo :=
  (generation.generatingTree.index i).map Prod.snd

structure Backs (S : Services W) (registered : List (UserAddress × DustPublicKey))
    (info : DustGenerationInfo) (utxo : Utxo) : Prop where
  night : utxo.type = night
  nonce : S.utxoNonce utxo = info.nonce
  value : utxo.value = info.value
  owner : (utxo.owner, info.owner) ∈ registered

/- Every open entry of the ledger's own is tracked under its nonce, is backed by a present
UTXO, and has none of the nonces for which entries are still to be made. -/
structure Linked (S : Services W) (origin : Nat → Origin) (pending : List InitialNonce)
    (present : Utxo → Prop) (generation : DustGenerationState) : Prop where
  below : ∀ {i info}, generation.entry i = some info → i < generation.generatingTreeFirstFree
  distinct : pending.Nodup
  tracked : ∀ {i info registered}, generation.entry i = some info → info.dtime = Timestamp.max →
    origin i = .night registered → generation.nightIndices.lookup info.nonce = some i
  waiting : ∀ {i info registered}, generation.entry i = some info → info.dtime = Timestamp.max →
    origin i = .night registered → info.nonce ∉ pending
  backed : ∀ {i info registered}, generation.entry i = some info → info.dtime = Timestamp.max →
    origin i = .night registered → ∃ utxo, present utxo ∧ Backs S registered info utxo

variable {initialValue fees : U128} {owner : DustPublicKey} {tnow tblock : Timestamp}
  {parent : Intent W} {input : UtxoSpend} {inputs : List UtxoSpend} {segment : Segment}
  {output : UtxoOutput × Nat} {offer : Option UnshieldedOffer} {utxos : Map Utxo UtxoMeta}
  {context : TransactionContext W} {registration : DustRegistration} {params : DustParameters}
  {time : Timestamp} {nonce : InitialNonce} {idx i : Nat}

section

variable {S : Services W} {build : Build} {origin : Nat → Origin} {pending rest : List InitialNonce}
  {present kept : Utxo → Prop} {generation : DustGenerationState} {dust next : DustState}

theorem Linked.weaken (linked : Linked S origin pending present generation)
    (fewer : rest.Sublist pending) (more : ∀ {u}, u.type = night → present u → kept u) :
    Linked S origin rest kept generation where
  below := linked.below
  distinct := fewer.nodup linked.distinct
  tracked := linked.tracked
  waiting found isOpen made mem := linked.waiting found isOpen made (fewer.subset mem)
  backed found isOpen made := by
    obtain ⟨utxo, inside, backs⟩ := linked.backed found isOpen made
    exact ⟨utxo, more backs.night inside, backs⟩

theorem Linked.reorigin {origin' : Nat → Origin}
    (linked : Linked S origin pending present generation)
    (same : ∀ i < generation.generatingTreeFirstFree, origin' i = origin i) :
    Linked S origin' pending present generation where
  below := linked.below
  distinct := linked.distinct
  tracked found isOpen made :=
    linked.tracked found isOpen ((same _ (linked.below found)).symm.trans made)
  waiting found isOpen made :=
    linked.waiting found isOpen ((same _ (linked.below found)).symm.trans made)
  backed found isOpen made :=
    linked.backed found isOpen ((same _ (linked.below found)).symm.trans made)

namespace DustState

theorem freshDustOutputOk {value : U128}
    (ok : dust.freshDustOutput S nonce initialValue value owner tnow = .ok next) :
    let free := dust.generation.generatingTreeFirstFree
    next.generation.addressDelegation = dust.generation.addressDelegation ∧
      next.generation.generatingTreeFirstFree = free + 1 ∧
      next.generation.nightIndices = dust.generation.nightIndices.insert nonce free ∧
      ∀ i, next.generation.entry i = if i = free then some ⟨value, owner, nonce, max⟩
        else dust.generation.entry i := by
  obtain ⟨commitments, -, rest⟩ := bindOk.mp ok
  simp only at rest
  split at rest <;> try contradiction
  obtain ⟨tree, updated, rfl⟩ := pureOk.mp rest
  refine ⟨rfl, rfl, rfl, fun i => ?_⟩
  have inserted := mapErrorOk.mp updated
  rw [tryUpdateHash] at inserted
  split at inserted <;> try contradiction
  cases inserted
  simp only [DustGenerationState.entry, index]
  split
  · rename_i same
    rw [same, lookup_insert]
    rfl
  · rename_i other
    rw [lookup_insert_ne other]

theorem setDtimeOk (ok : dust.setDtime S build idx time = .ok next) :
    next.generation.addressDelegation = dust.generation.addressDelegation ∧
      next.generation.generatingTreeFirstFree = dust.generation.generatingTreeFirstFree ∧
      next.generation.nightIndices = dust.generation.nightIndices ∧ ∀ i, next.generation.entry i =
        if i = idx then (dust.generation.entry i).map (fun info => { info with dtime := time })
        else dust.generation.entry i := by
  rw [setDtime] at ok
  split at ok
  · rename_i absent
    cases build <;> cases ok
    refine ⟨rfl, rfl, rfl, fun i => ?_⟩
    split
    · rename_i same
      rw [same, DustGenerationState.entry, absent]
      rfl
    · rfl
  · rename_i leaf found present
    obtain ⟨tree, updated, rfl⟩ := pureOk.mp ok
    refine ⟨rfl, rfl, rfl, fun i => ?_⟩
    have inserted := liftOk.mp updated
    rw [tryUpdateHash] at inserted
    split at inserted <;> try contradiction
    cases inserted
    simp only [DustGenerationState.entry, index] at present ⊢
    split
    · rename_i same
      rw [same, lookup_insert, present]
      rfl
    · rename_i other
      rw [lookup_insert_ne other]

end DustState

theorem Linked.close (finite : time ≠ max)
    (linked : Linked S origin pending present dust.generation)
    (ok : dust.setDtime S build idx time = .ok next) :
    Linked S origin pending
      (fun u => present u ∧ dust.generation.nightIndices.lookup (S.utxoNonce u) ≠ some idx)
      next.generation := by
  obtain ⟨-, free, indices, entries⟩ := setDtimeOk ok
  -- An entry that is open afterwards is another one, and was there before.
  have before {i info} (found : next.generation.entry i = some info)
      (isOpen : info.dtime = max) : i ≠ idx ∧ dust.generation.entry i = some info := by
    rw [entries] at found
    split at found
    · obtain ⟨old, -, rfl⟩ := map_eq_some_iff.mp found
      exact absurd isOpen finite
    · exact ⟨by assumption, found⟩
  constructor
  · intro i info found
    rw [free]
    rw [entries] at found
    split at found
    · obtain ⟨old, was, -⟩ := map_eq_some_iff.mp found
      exact linked.below was
    · exact linked.below found
  · exact linked.distinct
  · intro i info registered found isOpen made
    rw [indices]
    exact linked.tracked (before found isOpen).2 isOpen made
  · intro i info registered found isOpen made
    exact linked.waiting (before found isOpen).2 isOpen made
  · intro i info registered found isOpen made
    obtain ⟨other, was⟩ := before found isOpen
    obtain ⟨utxo, inside, backs⟩ := linked.backed was isOpen made
    refine ⟨utxo, ⟨inside, ?_⟩, backs⟩
    rw [backs.nonce, linked.tracked was isOpen made]
    exact fun same => other (some.inj same)

variable {address : UserAddress}

theorem Linked.fresh {value : U128} (linked : Linked S origin pending present dust.generation)
    (unused : ∀ {i info registered}, dust.generation.entry i = some info →
      info.dtime = max → origin i = .night registered → info.nonce ≠ nonce)
    (fewer : rest.Sublist pending)
    (backing : ∀ {registered}, origin dust.generation.generatingTreeFirstFree = .night registered →
      nonce ∉ rest ∧ ∃ utxo, present utxo ∧
      Backs S registered ⟨value, owner, nonce, max⟩ utxo)
    (ok : dust.freshDustOutput S nonce initialValue value owner tnow = .ok next) :
    Linked S origin rest present next.generation := by
  obtain ⟨-, free, indices, entries⟩ := freshDustOutputOk ok
  constructor
  · intro i info found
    rw [entries] at found
    rw [free]
    split at found
    · omega
    · exact Nat.lt_succ_of_lt (linked.below found)
  · exact fewer.nodup linked.distinct
  · intro i info registered found isOpen made
    rw [entries] at found
    rw [indices]
    split at found
    · cases found
      rw [lookup_insert]
      exact congrArg some (by symm; assumption)
    · rw [lookup_insert_ne (unused found isOpen made)]
      exact linked.tracked found isOpen made
  · intro i info registered found isOpen made
    rw [entries] at found
    split at found
    · rename_i last
      cases found
      exact (backing (last ▸ made)).1
    · exact fun mem => linked.waiting found isOpen made (fewer.subset mem)
  · intro i info registered found isOpen made
    rw [entries] at found
    split at found
    · rename_i last
      cases found
      exact (backing (last ▸ made)).2
    · exact linked.backed found isOpen made

def originIn (origins : List Origin) (current : Origin) (i : Nat) : Origin :=
  origins[i]?.getD current

variable {origins : List Origin}

theorem originInNew {current : Origin}
    (new : origins.length ≤ i) : originIn origins current i = current := by
  rw [originIn, getElem?_eq_none new]
  rfl

theorem originInOld (old : i < origins.length)
    (current other : Origin) : originIn origins current i = originIn origins other i := by
  rw [originIn, originIn, getElem?_eq_getElem old]
  rfl

structure Moving (S : Services W) (origins : List Origin)
    (registered : List (UserAddress × DustPublicKey)) (pending : List InitialNonce)
    (present : Utxo → Prop) (generation : DustGenerationState) : Prop where
  linked : Linked S (originIn origins (.night registered)) pending present generation
  based : origins.length ≤ generation.generatingTreeFirstFree
  delegated : ∀ {address key}, generation.addressDelegation.lookup address = some key →
    (address, key) ∈ registered

variable {registered : List (UserAddress × DustPublicKey)}

theorem Moving.weaken (moving : Moving S origins registered pending present generation)
    (fewer : rest.Sublist pending) (more : ∀ {u}, u.type = night → present u → kept u) :
    Moving S origins registered rest kept generation :=
  ⟨moving.linked.weaken fewer more, moving.based, moving.delegated⟩

theorem Moving.fresh {utxo : Utxo}
    (moving : Moving S origins registered (S.utxoNonce utxo :: rest) present dust.generation)
    (isNight : utxo.type = night) (inside : present utxo) (known : (utxo.owner, owner) ∈ registered)
    (ok : dust.freshDustOutput S (S.utxoNonce utxo) initialValue utxo.value owner tnow = .ok next) :
    Moving S origins registered rest present next.generation := by
  obtain ⟨delegation, free, -, -⟩ := freshDustOutputOk ok
  refine ⟨moving.linked.fresh ?_ (sublist_cons_self ..) ?_ ok, ?_, ?_⟩
  · intro i info others found isOpen made same
    exact moving.linked.waiting found isOpen made (same ▸ mem_cons_self)
  · intro others made
    rw [originInNew moving.based] at made
    cases made
    exact ⟨(nodup_cons.mp moving.linked.distinct).1, utxo, inside, isNight, rfl, rfl, known⟩
  · rw [free]
    exact Nat.le_succ_of_le moving.based
  · rw [delegation]
    exact moving.delegated

section

variable (finite : tblock ≠ Timestamp.max)
  (moving : Moving S origins registered pending present dust.generation)

include finite moving

theorem Moving.spend (ok : dust.spendNight S build tblock input = .ok next) :
    Moving S origins registered pending (fun u => present u ∧ S.spentUtxo input ≠ u)
      next.generation := by
  have nonce : S.utxoNonce (S.spentUtxo input) = S.spendNonce input := rfl
  rw [spendNight] at ok
  split at ok
  · rename_i untracked
    cases ok
    refine ⟨⟨moving.linked.below, moving.linked.distinct, moving.linked.tracked,
      moving.linked.waiting, ?_⟩, moving.based, moving.delegated⟩
    intro i info others found isOpen made
    obtain ⟨utxo, inside, backs⟩ := moving.linked.backed found isOpen made
    refine ⟨utxo, ⟨inside, fun same => ?_⟩, backs⟩
    have tracked := moving.linked.tracked found isOpen made
    rw [← backs.nonce, ← same, nonce, untracked] at tracked
    cases tracked
  · rename_i idx tracked
    have closed := mapFaultOk.mp ok
    obtain ⟨delegation, free, -, -⟩ := setDtimeOk closed
    refine ⟨(moving.linked.close finite closed).weaken (refl _) ?_, ?_, ?_⟩
    · rintro u - ⟨inside, elsewhere⟩
      exact ⟨inside, fun same => elsewhere (by rw [← same, nonce, tracked])⟩
    · rw [free]
      exact moving.based
    · rw [delegation]
      exact moving.delegated

theorem Moving.spends (ok : inputs.foldlM (spendNight S build tblock) dust = .ok next) :
    Moving S origins registered pending
      (fun u => present u ∧ ∀ input ∈ inputs, S.spentUtxo input ≠ u) next.generation := by
  induction inputs generalizing dust present with
  | nil =>
    cases ok
    exact moving.weaken (refl _) fun _ inside => ⟨inside, by simp⟩
  | cons input inputs ih =>
    obtain ⟨spent, head, tail⟩ := runCons.mp ok
    refine (ih (moving.spend finite head) tail).weaken (refl _) ?_
    rintro u - ⟨⟨inside, first⟩, others⟩
    exact ⟨inside, forall_mem_cons.mpr ⟨first, others⟩⟩

end

def atOnce (S : Services W) (parent : Intent W) (segment : Segment)
    (outputs : List (UtxoOutput × Nat)) : List Utxo :=
  (outputs.filter fun output =>
    ¬ handledByRegistration S parent segment output.1.owner).map
    (Services.createdUtxo (S.intentHash parent segment))

variable {outputs : List (UtxoOutput × Nat)}

theorem Moving.credits
    (nights : ∀ output ∈ outputs, output.1.type = night) (created : ∀ output ∈ outputs,
      present (createdUtxo (S.intentHash parent segment) output))
    (moving : Moving S origins registered
      ((atOnce S parent segment outputs).map S.utxoNonce ++ rest) present dust.generation)
    (ok : outputs.foldlM (creditNight S parent segment tblock) dust = .ok next) :
    Moving S origins registered rest present next.generation := by
  induction outputs generalizing dust with
  | nil =>
    cases ok
    exact moving
  | cons output outputs ih =>
    obtain ⟨credited, head, tail⟩ := runCons.mp ok
    obtain ⟨isNight, nights⟩ := forall_mem_cons.mp nights
    obtain ⟨inside, created⟩ := forall_mem_cons.mp created
    refine ih nights created ?_ tail
    rw [creditNight] at head
    have later : ((atOnce S parent segment outputs).map S.utxoNonce ++ rest).Sublist
        ((atOnce S parent segment (output :: outputs)).map S.utxoNonce ++ rest) := by
      refine List.Sublist.append_right (List.Sublist.map _ ?_) _
      exact List.Sublist.map _ (List.Sublist.filter _ (sublist_cons_self ..))
    split at head
    · cases head
      exact moving.weaken later fun _ inside => inside
    · rename_i key delegation
      split at head
      · cases head
        exact moving.weaken later fun _ inside => inside
      · rename_i free
        have here : atOnce S parent segment (output :: outputs) =
            createdUtxo (S.intentHash parent segment) output ::
              atOnce S parent segment outputs := by
          simp [atOnce, free]
        rw [here] at moving
        exact moving.fresh isNight inside (moving.delegated delegation) (liftOk.mp head)

namespace UtxoState

variable {after : Map Utxo UtxoMeta} {u : Utxo}

theorem spendKeeps (kept : ∀ input ∈ inputs, S.spentUtxo input ≠ u)
    (inside : u ∈ utxos) (ok : inputs.foldlM (spend S) utxos = .ok after) : u ∈ after := by
  refine runPreserves (fun m => u ∈ m) ?_ inside ok
  intro m input m' mem before taken
  rw [spend] at taken
  split at taken <;> try contradiction
  cases taken
  exact mem_erase.mpr ⟨(kept input mem).symm, before⟩

theorem createKeeps {hash : IntentHash} (inside : u ∈ utxos ∨ u ∈ outputs.map (createdUtxo hash)) :
    u ∈ outputs.foldl (create hash tblock) utxos := by
  induction outputs generalizing utxos with
  | nil => simpa using inside
  | cons output outputs ih =>
    refine ih ?_
    rcases inside with before | created
    · exact .inl ((mem_insert _).mpr (.inr before))
    · rcases mem_cons.mp created with rfl | later
      · exact .inl ((mem_insert _).mpr (.inl rfl))
      · exact .inr later

theorem applyOfferKeeps {offer : UnshieldedOffer}
    (ok : applyOffer S utxos offer parent segment tblock = .ok after)
    (inside : (u ∈ utxos ∧ ∀ input ∈ offer.inputs, S.spentUtxo input ≠ u) ∨
      u ∈ offer.outputs.zipIdx.map (createdUtxo (S.intentHash parent segment))) :
    u ∈ after := by
  obtain ⟨spent, spends, rfl⟩ := pureOk.mp ok
  exact createKeeps (inside.imp_left fun ⟨before, kept⟩ => spendKeeps kept before spends)

end UtxoState

theorem memNightOutputs {offer : UnshieldedOffer} :
    output ∈ offer.nightOutputs ↔ output ∈ offer.outputs.zipIdx ∧ output.1.type = night := by
  simp [UnshieldedOffer.nightOutputs]

def nightOutputsOf (offer : Option UnshieldedOffer) : List (UtxoOutput × Nat) :=
  (offer.map UnshieldedOffer.nightOutputs).getD []

theorem LedgerState.applyUnshieldedMoving {state next : LedgerState W}
    (finite : context.blockContext.tblock ≠ max)
    (ok : state.applyUnshielded S build offer parent segment context = .ok next)
    (moving : Moving S origins registered
      ((atOnce S parent segment (nightOutputsOf offer)).map S.utxoNonce ++ rest)
      (· ∈ state.utxo) state.dust.generation) :
    Moving S origins registered rest (· ∈ next.utxo) next.dust.generation := by
  obtain ⟨rfl, rfl⟩ | ⟨given, utxo, dust, rfl, moved, followed, rfl⟩ := applyUnshieldedOk ok
  · exact moving
  obtain ⟨spent, spends, credits⟩ := bindOk.mp followed
  have unspent := moving.spends finite spends
  refine Moving.credits ?_ ?_ (unspent.weaken (refl _) ?_) credits
  · exact fun output mem => (memNightOutputs.mp mem).2
  · intro output mem
    refine UtxoState.applyOfferKeeps moved (.inr (mem_map_of_mem ?_))
    exact (memNightOutputs.mp mem).1
  · rintro u isNight ⟨inside, kept⟩
    refine UtxoState.applyOfferKeeps moved (.inl ⟨inside, fun input mem same => ?_⟩)
    -- Only Night inputs reach the Dust state; others cannot be this UTXO.
    refine kept input (mem_filter.mpr ⟨mem, ?_⟩) same
    rw [← same] at isNight
    exact decide_eq_true isNight

def DustRegistration.key (S : Services W) (registration : DustRegistration) :
    Option (UserAddress × DustPublicKey) :=
  registration.dustAddress.map fun key => (S.userAddress registration.nightKey, key)

theorem Moving.delegate (known : ∀ pair ∈ registration.key S, pair ∈ registered)
    (moving : Moving S origins registered pending present dust.generation)
    (ok : dust.delegate S registration = .ok next) :
    Moving S origins registered pending present next.generation := by
  rw [DustState.delegate] at ok
  split at ok
  · split at ok <;> try contradiction
    cases ok
    refine ⟨⟨moving.linked.below, moving.linked.distinct, moving.linked.tracked,
      moving.linked.waiting, moving.linked.backed⟩, moving.based, ?_⟩
    intro address key found
    by_cases same : address = S.userAddress registration.nightKey
    · rw [same, lookup_erase] at found
      cases found
    · rw [lookup_erase_ne same] at found
      exact moving.delegated found
  · rename_i dustAddress given
    cases ok
    refine ⟨⟨moving.linked.below, moving.linked.distinct, moving.linked.tracked,
      moving.linked.waiting, moving.linked.backed⟩, moving.based, ?_⟩
    intro address key found
    by_cases same : address = S.userAddress registration.nightKey
    · rw [same, lookup_insert] at found
      cases found
      exact known _ (by rw [same, DustRegistration.key, given]; rfl)
    · rw [lookup_insert_ne same] at found
      exact moving.delegated found

def awaiting (S : Services W) (entry : Intent W × Timestamp × DustRegistration) : List Utxo :=
  match entry.2.2.dustAddress with
  | none => []
  | some _ => (ownedOutputs entry.1 (S.userAddress entry.2.2.nightKey)).map
      (Services.createdUtxo (S.intentHash entry.1 guaranteedSegment))

theorem memOwnedOutputs (mem : output ∈ ownedOutputs parent address) :
    output ∈ nightOutputsOf parent.guaranteedUnshieldedOffer ∧ output.1.owner = address := by
  simpa [ownedOutputs, nightOutputsOf] using mem

theorem nightOutputsNight (mem : output ∈ nightOutputsOf offer) : output.1.type = night := by
  cases offer with
  | none => cases mem
  | some given => exact (memNightOutputs.mp mem).2

theorem Moving.registerOutputs {key : DustPublicKey} {outputSum dustOut : U128}
    {owned : List (UtxoOutput × Nat)} (known : (address, key) ∈ registered)
    (mine : ∀ output ∈ owned, output.1.type = night ∧ output.1.owner = address ∧
      present (createdUtxo (S.intentHash parent guaranteedSegment) output))
    (moving : Moving S origins registered ((owned.map
      (createdUtxo (S.intentHash parent guaranteedSegment))).map S.utxoNonce ++ rest)
      present dust.generation)
    (ok : owned.foldlM (registerOutput S parent key outputSum dustOut tnow) dust = .ok next) :
    Moving S origins registered rest present next.generation := by
  induction owned generalizing dust with
  | nil =>
    cases ok
    exact moving
  | cons output owned ih =>
    obtain ⟨made, head, tail⟩ := runCons.mp ok
    obtain ⟨⟨isNight, owner, inside⟩, mine⟩ := forall_mem_cons.mp mine
    refine ih mine ?_ tail
    rw [registerOutput] at head
    split at head <;> try contradiction
    have mineToo : ((createdUtxo (S.intentHash parent guaranteedSegment) output).owner, key) ∈
        registered := by
      have same : (createdUtxo (S.intentHash parent guaranteedSegment) output).owner =
        output.1.owner := rfl
      rw [same, owner]
      exact known
    exact moving.fresh isNight inside mineToo (liftOk.mp head)

theorem Moving.register {entry : Intent W × Timestamp × DustRegistration} {left : U128}
    (known : ∀ pair ∈ entry.2.2.key S, pair ∈ registered)
    (created : ∀ u ∈ awaiting S entry, present u)
    (moving : Moving S origins registered ((awaiting S entry).map S.utxoNonce ++ rest) present
      dust.generation)
    (ok : dust.applyRegistration S utxos fees entry.1 entry.2.2 params tnow = .ok (next, left)) :
    Moving S origins registered rest present next.generation := by
  obtain ⟨delegated, given, rest⟩ := bindOk.mp ok
  have moved := moving.delegate known given
  split at rest
  · rename_i none
    cases rest
    rw [awaiting, none] at moved
    exact moved
  · rename_i key some
    obtain ⟨made, outputs, last⟩ := bindOk.mp rest
    cases last
    rw [awaiting, some] at moved
    refine Moving.registerOutputs (known _ (by rw [DustRegistration.key, some]; rfl)) ?_ moved outputs
    intro output mem
    obtain ⟨inside, owner⟩ := memOwnedOutputs mem
    refine ⟨nightOutputsNight inside, owner, created _ ?_⟩
    rw [awaiting, some]
    exact mem_map_of_mem mem

end

open LedgerState

variable {S : Services W} {build : Build}

structure DustState.Kept (S : Services W) (build : Build) (P : DustState → Prop) : Prop where
  spend : ∀ ⦃dust spend next⦄, P dust → dust.applySpend S spend = .ok next → P next
  fresh : ∀ ⦃dust nonce initialValue value owner tnow next⦄, P dust →
    dust.freshDustOutput S nonce initialValue value owner tnow = .ok next → P next
  close : ∀ ⦃dust nonce idx time next⦄, P dust →
    dust.generation.nightIndices.lookup nonce = some idx →
    dust.setDtime S build idx time = .ok next → P next
  delegate : ∀ ⦃dust registration next⦄, P dust → dust.delegate S registration = .ok next → P next

variable {P : DustState → Prop} {dust : DustState} {state : LedgerState W}

namespace DustState.Kept

variable (kept : Kept S build P) {next : DustState}
include kept

theorem spendNight (before : P dust)
    (ok : dust.spendNight S build tblock input = .ok next) : P next := by
  rw [DustState.spendNight] at ok
  split at ok
  · cases ok
    exact before
  · rename_i tracked
    exact kept.close before tracked (mapFaultOk.mp ok)

theorem spendNights (before : P dust)
    (ok : inputs.foldlM (DustState.spendNight S build tblock) dust = .ok next) : P next :=
  Simulation.runPreserves P (fun _ => kept.spendNight) before ok

theorem creditNight (before : P dust)
    (ok : dust.creditNight S parent segment tblock output = .ok next) : P next := by
  rw [DustState.creditNight] at ok
  split at ok
  · cases ok
    exact before
  · split at ok
    · cases ok
      exact before
    · exact kept.fresh before (liftOk.mp ok)

theorem applyOffer {offer : UnshieldedOffer} (before : P dust)
    (ok : dust.applyOffer S build offer parent segment tblock = .ok next) : P next := by
  obtain ⟨spent, spends, credits⟩ := bindOk.mp ok
  exact Simulation.runPreserves P (fun _ => kept.creditNight) (kept.spendNights before spends) credits

theorem registerOutput {dustAddr : DustPublicKey} {outputSum dustOut : U128} (before : P dust)
    (ok : dust.registerOutput S parent dustAddr outputSum dustOut tnow output = .ok next) :
    P next := by
  rw [DustState.registerOutput] at ok
  split at ok <;> try contradiction
  exact kept.fresh before (liftOk.mp ok)

theorem applyRegistration {left : U128} (before : P dust)
    (ok : dust.applyRegistration S utxos fees parent registration params tnow = .ok (next, left)) :
    P next := by
  obtain ⟨delegated, given, rest⟩ := bindOk.mp ok
  have moved := kept.delegate before given
  split at rest
  · cases rest
    exact moved
  · obtain ⟨made, outputs, last⟩ := bindOk.mp rest
    cases last
    exact runPreserves P (fun _ => kept.registerOutput) moved outputs

theorem cNightUpdate {action : CNightGeneratesDustEvent} (before : P dust)
    (ok : cNightUpdate S build dust action = .ok next) : P next := by
  rw [LedgerState.cNightUpdate] at ok
  split at ok
  · exact kept.fresh before (liftOk.mp ok)
  · split at ok
    · cases build with
      | debug => cases ok
      | release =>
        cases ok
        exact before
    · rename_i tracked
      exact kept.close before tracked (mapFaultOk.mp ok)

end DustState.Kept

variable {tx : StandardTransaction W}

namespace LedgerState

variable {next : LedgerState W} {comIndices : ComIndices}

theorem applyZswapOptionDust {offer : Option W.ZswapOffer} {whitelist : Whitelist}
    (ok : state.applyZswapOption S offer whitelist = .ok (next, comIndices)) :
    next.dust = state.dust := by
  obtain ⟨zswap, rfl, -⟩ := applyZswapOptionOk ok
  rfl

variable (kept : Kept S build P)
include kept

theorem applyUnshieldedKeepsDust {intent : Intent W} (before : P state.dust)
    (ok : state.applyUnshielded S build offer intent segment context = .ok next) : P next.dust := by
  obtain ⟨-, rfl⟩ | ⟨given, utxo, dust, -, -, followed, rfl⟩ := applyUnshieldedOk ok
  · exact before
  · exact kept.applyOffer before followed

theorem guaranteedIntentKeepsDust {entry : Segment × Intent W} (before : P state.dust)
    (ok : state.guaranteedIntent S build context comIndices entry = .ok next) : P next.dust := by
  obtain ⟨offered, unshielded, acted⟩ := bindOk.mp ok
  have moved := applyUnshieldedKeepsDust kept before unshielded
  obtain ⟨contract, rfl⟩ := applyActionsFrame acted
  exact moved

theorem applySectionKeepsDust (before : P state.dust)
    (ok : state.applySection S build tx fees segment context = .ok next) : P next.dust := by
  obtain ⟨-, ⟨-, body⟩ | ⟨-, body⟩⟩ := applySectionOk ok
  · obtain ⟨started, comIndices, moved, utxo, feesRemaining, left, starts, intents, spends,
      registrations⟩ := applyGuaranteedOk body
    obtain ⟨replay, zswap, same⟩ := starts.frame
    have start : P started.dust := by
      rw [show started = _ from same]
      exact before
    have offered := runPreserves (fun s : LedgerState W => P s.dust)
      (fun _ => guaranteedIntentKeepsDust kept) start intents
    have spent := runPreserves (fun s : LedgerState W × U128 => P s.1.dust) (fun _ holds taken => by
        obtain ⟨dust, applied, rfl⟩ := pureOk.mp taken
        exact kept.spend holds applied) offered spends
    refine runPreserves (fun s : LedgerState W × U128 => P s.1.dust) ?_ spent registrations
    intro s entry t _ holds taken
    obtain ⟨dust, registered, same⟩ := guaranteedRegistrationOk taken
    rw [same]
    exact kept.applyRegistration holds registered
  · obtain ⟨started, comIndices, zswapped, ⟨-, rfl⟩ | ⟨intent, moved, found, offered, -, acted⟩⟩ :=
      applyFallibleOk body <;> rw [← applyZswapOptionDust zswapped] at before
    · exact before
    · have after := applyUnshieldedKeepsDust kept before offered
      obtain ⟨contract, rfl⟩ := applyActionsFrame acted
      exact after

theorem claimUnshieldedKeepsDust {rewards : ClaimRewardsTransaction} {block : BlockContext}
    (before : P state.dust) (ok : state.claimUnshielded S build rewards block = .ok next) :
    P next.dust := by
  obtain ⟨replay, dust, claimed, -, -, -, generated, -, same⟩ := claimUnshieldedOk ok
  rw [same]
  rw [claimDust] at generated
  split at generated
  · cases generated
    exact before
  · exact kept.fresh before generated

end LedgerState

theorem stepKeepsDust (kept : Kept S build P)
    {state next : LedgerState W} {taken : Step W} (before : P state.dust)
    (ok : step S build state taken = .ok next) : P next.dust := by
  cases taken with
  | transaction vt context =>
    obtain ⟨⟨applied, result⟩, run, rfl⟩ := pureOk.mp ok
    refine applyPreserves (P := fun s => P s.dust) before ?_ ?_ run
    · intro rewards t _ claimed
      exact claimUnshieldedKeepsDust kept before claimed
    · intro stx s t segment _ holds applied
      exact applySectionKeepsDust kept holds applied
  | system system tblock =>
    obtain applied | rfl := systemStepOk ok
    · rcases (applySystemTxFrame applied).dust with ⟨actions, -, updated⟩ | ⟨-, same⟩
      · exact runPreserves P (fun _ => kept.cNightUpdate) before updated
      · rw [same]
        exact before
    · exact before
  | postBlock tblock fullness =>
    cases ok
    rw [postBlockUpdate]
    split <;> exact before

namespace MerkleTree

variable {A : Type} {tree updated : MerkleTree A} {firstFree : Nat} {leaf : HashOutput} {aux : A}

theorem tryUpdateHashIndex (ok : tree.tryUpdateHash i leaf aux = .ok updated) (j : Nat) :
    updated.index j = if j = i then some (leaf, aux) else tree.index j := by
  rw [tryUpdateHash] at ok
  split at ok <;> try contradiction
  cases ok
  rw [index]
  split
  · rename_i same
    rw [same, lookup_insert]
  · rename_i other
    rw [lookup_insert_ne other]
    rfl

def Filled (tree : MerkleTree A) (firstFree : Nat) : Prop :=
  ∀ i, (tree.index i).isSome ↔ i < firstFree

theorem blankFilled (height : Nat) : (blank height : MerkleTree A).Filled 0 := by
  intro i
  rw [index, blank, lookup_empty]
  simp

theorem Filled.append (filled : tree.Filled firstFree)
    (ok : tree.tryUpdateHash firstFree leaf aux = .ok updated) : updated.Filled (firstFree + 1) := by
  intro i
  have before := filled i
  rw [tryUpdateHashIndex ok]
  split
  · rename_i same
    simp [same]
  · rw [before]
    omega

theorem Filled.replace (filled : tree.Filled firstFree) (inside : i < firstFree)
    (ok : tree.tryUpdateHash i leaf aux = .ok updated) : updated.Filled firstFree := by
  intro j
  rw [tryUpdateHashIndex ok]
  split
  · rename_i same
    simp [same, inside]
  · exact filled j

theorem Filled.keeps {held : HashOutput × A} (filled : tree.Filled firstFree)
    (ok : tree.tryUpdateHash firstFree leaf aux = .ok updated) (found : tree.index i = some held) :
    updated.index i = some held := by
  have old : i < firstFree := (filled i).mp (by rw [found]; rfl)
  rw [tryUpdateHashIndex ok, if_neg old.ne, found]

end MerkleTree

namespace DustState

structure Indexed (dust : DustState) : Prop where
  commitments : dust.utxo.commitments.Filled dust.utxo.commitmentsFirstFree
  entries : dust.generation.generatingTree.Filled dust.generation.generatingTreeFirstFree
  tracked : ∀ {nonce i}, dust.generation.nightIndices.lookup nonce = some i → ∃ info,
    dust.generation.entry i = some info ∧ info.nonce = nonce ∧
      info.unique ∈ dust.generation.generatingSet

variable {next : DustState}

theorem Indexed.below (indexed : dust.Indexed)
    (found : dust.generation.nightIndices.lookup nonce = some i) :
    i < dust.generation.generatingTreeFirstFree := by
  obtain ⟨info, entry, -⟩ := indexed.tracked found
  obtain ⟨leaf, there, -⟩ := map_eq_some_iff.mp entry
  exact (indexed.entries i).mp (by rw [there]; rfl)

theorem defaultIndexed : default.Indexed where
  commitments := blankFilled _
  entries := blankFilled _
  tracked found := by cases found

theorem Indexed.spend {spend : DustSpend} (indexed : dust.Indexed)
    (ok : (dust.applySpend S spend : Applied W DustState) = .ok next) :
    next.Indexed := by
  rw [applySpend] at ok
  split at ok <;> try contradiction
  obtain ⟨commitments, updated, rfl⟩ := pureOk.mp ok
  exact ⟨indexed.commitments.append (liftOk.mp updated), indexed.entries, indexed.tracked⟩

theorem Indexed.fresh {value : U128} (indexed : dust.Indexed)
    (ok : dust.freshDustOutput S nonce initialValue value owner tnow = .ok next) :
    next.Indexed := by
  obtain ⟨-, -, -, entries⟩ := freshDustOutputOk ok
  obtain ⟨commitments, committed, rest⟩ := bindOk.mp ok
  simp only at rest
  split at rest <;> try contradiction
  obtain ⟨tree, updated, rfl⟩ := pureOk.mp rest
  refine ⟨indexed.commitments.append (mapErrorOk.mp committed),
    indexed.entries.append (mapErrorOk.mp updated), ?_⟩
  intro other i found
  rw [entries]
  by_cases same : other = nonce
  · rw [same, lookup_insert] at found
    cases found
    exact ⟨_, if_pos rfl, same.symm, List.mem_cons_self⟩
  · rw [lookup_insert_ne same] at found
    obtain ⟨info, entry, named, recorded⟩ := indexed.tracked found
    have old : i ≠ dust.generation.generatingTreeFirstFree := (indexed.below found).ne
    exact ⟨info, by rw [if_neg old, entry], named, List.mem_cons_of_mem _ recorded⟩

theorem Indexed.leaf (indexed : dust.Indexed)
    (tracked : dust.generation.nightIndices.lookup nonce = some idx) :
    ∃ leaf info, dust.generation.generatingTree.index idx = some (leaf, info) ∧
      info.nonce = nonce := by
  obtain ⟨info, entry, named, -⟩ := indexed.tracked tracked
  obtain ⟨⟨leaf, found⟩, there, rfl⟩ := map_eq_some_iff.mp entry
  exact ⟨leaf, found, there, named⟩

theorem setDtimeFound {leaf : HashOutput} {info : DustGenerationInfo}
    (there : dust.generation.generatingTree.index idx = some (leaf, info))
    (ok : dust.setDtime S build idx time = .ok next) : ∃ tree,
      dust.generation.generatingTree.tryUpdateHash idx
        (S.generationHash { info with dtime := time }) { info with dtime := time } = .ok tree ∧
      next = { dust with generation := { dust.generation with generatingTree := tree } } := by
  rw [setDtime, there] at ok
  obtain ⟨tree, updated, rfl⟩ := pureOk.mp ok
  exact ⟨tree, liftOk.mp updated, rfl⟩

theorem Indexed.close (indexed : dust.Indexed)
    (tracked : dust.generation.nightIndices.lookup nonce = some idx)
    (ok : dust.setDtime S build idx time = .ok next) : next.Indexed := by
  obtain ⟨leaf, info, there, -⟩ := indexed.leaf tracked
  obtain ⟨-, -, -, entries⟩ := setDtimeOk ok
  obtain ⟨tree, updated, rfl⟩ := setDtimeFound there ok
  refine ⟨indexed.commitments, indexed.entries.replace (indexed.below tracked) updated, ?_⟩
  intro other i found
  obtain ⟨held, entry, named, recorded⟩ := indexed.tracked found
  rw [entries, entry]
  split
  · exact ⟨_, rfl, named, recorded⟩
  · exact ⟨held, rfl, named, recorded⟩

theorem delegateOk (ok : (dust.delegate S registration : Applied W DustState) = .ok next) :
    ∃ delegation, next = { dust with
      generation := { dust.generation with addressDelegation := delegation } } := by
  rw [DustState.delegate] at ok
  split at ok
  · split at ok <;> cases ok
    exact ⟨_, rfl⟩
  · cases ok
    exact ⟨_, rfl⟩

theorem Indexed.delegate (indexed : dust.Indexed)
    (ok : (dust.delegate S registration : Applied W DustState) = .ok next) :
    next.Indexed := by
  obtain ⟨delegation, rfl⟩ := delegateOk ok
  exact ⟨indexed.commitments, indexed.entries, indexed.tracked⟩

theorem indexedKept : Kept S build Indexed where
  spend _ _ _ indexed ok := indexed.spend ok
  fresh _ _ _ _ _ _ _ indexed ok := indexed.fresh ok
  close _ _ _ _ _ indexed tracked ok := indexed.close tracked ok
  delegate _ _ _ indexed ok := indexed.delegate ok

/- What is spent, committed or generating stays so; only the end of a generation may move. -/
structure Extends (old dust : DustState) : Prop where
  indexed : dust.Indexed
  spentOnce : dust.utxo.nullifiers.Nodup
  nullifiers : old.utxo.nullifiers <:+ dust.utxo.nullifiers
  commitments : ∀ {i leaf}, old.utxo.commitments.index i = some leaf →
    dust.utxo.commitments.index i = some leaf
  entries : ∀ {i info}, old.generation.entry i = some info →
    ∃ dtime, dust.generation.entry i = some { info with dtime := dtime }

theorem extendsKept {old : DustState} : Kept S build (Extends old) where
  spend dust spend next before ok := by
    have indexed := before.indexed.spend ok
    rw [applySpend] at ok
    obtain ⟨fresh, ok⟩ := elseOk.mp ok
    obtain ⟨commitments, updated, rfl⟩ := pureOk.mp ok
    exact ⟨indexed, nodup_cons.mpr ⟨fresh, before.spentOnce⟩,
      before.nullifiers.trans (suffix_cons ..), fun found =>
        before.indexed.commitments.keeps (liftOk.mp updated) (before.commitments found),
      before.entries⟩
  fresh dust nonce initialValue value owner tnow next before ok := by
    have indexed := before.indexed.fresh ok
    obtain ⟨commitments, committed, rest⟩ := bindOk.mp ok
    simp only at rest
    split at rest <;> try contradiction
    obtain ⟨tree, updated, rfl⟩ := pureOk.mp rest
    refine ⟨indexed, before.spentOnce, before.nullifiers, fun found =>
      before.indexed.commitments.keeps (mapErrorOk.mp committed) (before.commitments found),
      fun found => ?_⟩
    obtain ⟨dtime, there⟩ := before.entries found
    obtain ⟨held, stored, same⟩ := map_eq_some_iff.mp there
    exact ⟨dtime, map_eq_some_iff.mpr
      ⟨held, before.indexed.entries.keeps (mapErrorOk.mp updated) stored, same⟩⟩
  close dust nonce idx time next before tracked ok := by
    obtain ⟨leaf, info, there, -⟩ := before.indexed.leaf tracked
    obtain ⟨-, -, -, entries⟩ := setDtimeOk ok
    have indexed := before.indexed.close tracked ok
    obtain ⟨tree, updated, rfl⟩ := setDtimeFound there ok
    refine ⟨indexed, before.spentOnce, before.nullifiers, before.commitments, fun found => ?_⟩
    obtain ⟨dtime, was⟩ := before.entries found
    rw [entries, was]
    split
    · exact ⟨time, rfl⟩
    · exact ⟨dtime, rfl⟩
  delegate dust registration next before ok := by
    have indexed := before.indexed.delegate ok
    obtain ⟨delegation, rfl⟩ := delegateOk ok
    exact ⟨indexed, before.spentOnce, before.nullifiers, before.commitments, before.entries⟩

theorem Extends.self {old : DustState} (grown : old.Extends dust) : dust.Extends dust :=
  ⟨grown.indexed, grown.spentOnce, suffix_refl _, id, fun found => ⟨_, found⟩⟩

end DustState

section

variable (S build)

inductive LedgerState.Handles (tx : StandardTransaction W) (context : TransactionContext W) :
    LedgerState W → Segment → DustState → InitialNonce → Prop where
  | guaranteed {state started moved : LedgerState W} {replay : ReplayProtectionState}
      {comIndices : ComIndices} {entry : Segment × Intent W} {offer : UnshieldedOffer}
      {dust : DustState} {input : UtxoSpend}
      (zswapped : { state with replayProtection := replay }.applyZswapOption S tx.guaranteedCoins
        context.whitelist = .ok (started, comIndices))
      (reached : Calls (guaranteedIntent S build context comIndices) started
        (sortedIter tx.intents) moved entry)
      (offered : entry.2.guaranteedUnshieldedOffer = some offer)
      (spends : Calls (spendNight (W := W) S build context.blockContext.tblock) moved.dust
        offer.nightInputs dust input) :
      Handles tx context state guaranteedSegment dust (S.spendNonce input)
  | fallible {state started : LedgerState W} {comIndices : ComIndices} {segment : Segment}
      {intent : Intent W} {offer : UnshieldedOffer} {dust : DustState} {input : UtxoSpend}
      (zswapped : state.applyZswapOption S (tx.fallibleCoins.lookup segment) context.whitelist =
        .ok (started, comIndices))
      (found : tx.intents.lookup segment = some intent)
      (offered : intent.fallibleUnshieldedOffer = some offer)
      (spends : Calls (spendNight (W := W) S build context.blockContext.tblock)
        started.dust offer.nightInputs dust input) :
      Handles tx context state segment dust (S.spendNonce input)

inductive Step.Handles (state : LedgerState W) : Step W → DustState → InitialNonce → Prop where
  | guaranteed {vt : VerifiedTransaction W} {context : TransactionContext W}
      {tx : StandardTransaction W} {dust : DustState} {nonce : InitialNonce}
      (standard : vt.inner = .standard tx)
      (handled : LedgerState.Handles S build tx context state guaranteedSegment dust nonce) :
      Handles state (.transaction vt context) dust nonce
  | fallible {vt : VerifiedTransaction W} {context : TransactionContext W}
      {tx : StandardTransaction W} {dust : DustState} {nonce : InitialNonce}
      {passed : LedgerState W} {segment : Segment}
      {reached : LedgerState W × Log W}
      (standard : vt.inner = .standard tx)
      (guaranteed : state.applySection S build tx vt.fees guaranteedSegment context = .ok passed)
      (loops : Calls (fallibleStep S build tx vt.fees context)
        (passed, [(guaranteedSegment, none)]) tx.fallibleSegments reached segment)
      (handled : LedgerState.Handles S build tx context reached.1 segment dust nonce) :
      Handles state (.transaction vt context) dust nonce
  | destroyed {actions : List CNightGeneratesDustEvent} {tblock : Timestamp} {dust : DustState}
      {action : CNightGeneratesDustEvent}
      (loops : Calls (cNightUpdate S build) state.dust actions dust action)
      (destroys : action.action = .destroy) :
      Handles state (.system (.cNightGeneratesDustUpdate actions) tblock) dust action.nonce

end

theorem spendsIndexed {before : DustState} (indexed : before.Indexed)
    (spends : Calls (spendNight (W := W) S build tblock) before inputs dust input) :
    dust.Indexed := by
  obtain ⟨first, last, -, ran⟩ := spends
  exact DustState.indexedKept.spendNights indexed ran

theorem LedgerState.handlesIndexed (indexed : state.dust.Indexed)
    (handled : Handles S build tx context state segment dust nonce) : dust.Indexed := by
  cases handled with
  | guaranteed zswapped reached offered spends =>
    obtain ⟨first, last, -, ran⟩ := reached
    refine spendsIndexed ?_ spends
    refine runPreserves (fun s : LedgerState W => s.dust.Indexed)
      (fun _ => guaranteedIntentKeepsDust indexedKept) ?_ ran
    rw [applyZswapOptionDust zswapped]
    exact indexed
  | fallible zswapped found offered spends =>
    rw [applyZswapOptionDust zswapped] at spends
    exact spendsIndexed indexed spends

theorem Step.handlesIndexed {taken : Step W} (indexed : state.dust.Indexed)
    (handled : taken.Handles S build state dust nonce) : dust.Indexed := by
  cases handled with
  | guaranteed standard handled => exact LedgerState.handlesIndexed indexed handled
  | fallible standard guaranteed loops handled =>
    obtain ⟨first, last, -, ran⟩ := loops
    refine LedgerState.handlesIndexed ?_ handled
    refine LedgerState.fallibleSegmentsPreserve (P := fun s => s.dust.Indexed) ?_ ?_ ran
    · intro s t segment holds applied
      exact applySectionKeepsDust indexedKept holds applied
    · exact applySectionKeepsDust indexedKept indexed guaranteed
  | destroyed loops destroys =>
    obtain ⟨first, last, -, ran⟩ := loops
    exact runPreserves Indexed (fun _ => indexedKept.cNightUpdate) indexed ran

theorem dustIndicesConsistent {networkId : String} {parameters : LedgerParameters W}
    {locked reserve treasury : U128} {genesis state : LedgerState W} {steps : List (Step W)}
    (started : withGenesisSettings S build networkId parameters locked reserve
      treasury = .ok genesis) (run : run (step S build) genesis steps = .ok state) :
    state.dust.Indexed ∧
    (∀ nonce i, state.dust.generation.nightIndices.lookup nonce = some i →
      i < state.dust.generation.generatingTreeFirstFree) ∧
    (∀ nonce other i, state.dust.generation.nightIndices.lookup nonce = some i →
      state.dust.generation.nightIndices.lookup other = some i → nonce = other) ∧
    ∀ (taken : Step W) dust nonce idx, taken.Handles S build state dust nonce →
      dust.generation.nightIndices.lookup nonce = some idx →
      ∃ leaf info, dust.generation.generatingTree.index idx = some (leaf, info) ∧
        info.nonce = nonce := by
  obtain ⟨⟨⟩, -, rfl⟩ := pureOk.mp started
  have indexed : state.dust.Indexed := runPreserves
    (fun s : LedgerState W => s.dust.Indexed) (fun _ => stepKeepsDust indexedKept)
    defaultIndexed run
  refine ⟨indexed, fun nonce i => indexed.below, ?_, ?_⟩
  · intro nonce other i found again
    obtain ⟨info, entry, named, -⟩ := indexed.tracked found
    obtain ⟨info', entry', named', -⟩ := indexed.tracked again
    cases entry.symm.trans entry'
    exact named.symm.trans named'
  · intro taken dust nonce idx handled tracked
    exact (Step.handlesIndexed indexed handled).leaf tracked

def bridgedNight (action : CNightGeneratesDustActionType) : CNightGeneratesDustEvent :=
  ⟨7, ⟨9⟩, 5, action, ⟨3⟩⟩

def bridgedState : LedgerState sampleComponents :=
  value (run (step sampleServices .debug) sampleGenesis
    [.system (.cNightGeneratesDustUpdate [bridgedNight .create]) 5]) (by decide +kernel)

theorem destroyedFound : ∃ leaf info,
    bridgedState.dust.generation.generatingTree.index 0 = some (leaf, info) ∧ info.nonce = ⟨3⟩ := by
  have started : withGenesisSettings sampleServices .debug "net" sampleParameters 0
    (BitVec.ofNat 128 maxSupply) 0 = .ok sampleGenesis := valueOk _
  have run : run (step sampleServices .debug) sampleGenesis
    [.system (.cNightGeneratesDustUpdate [bridgedNight .create]) 5] = .ok bridgedState := valueOk _
  obtain ⟨-, -, -, found⟩ := dustIndicesConsistent started run
  have tracked : bridgedState.dust.generation.nightIndices.lookup ⟨3⟩ = some 0 := by decide +kernel
  exact found (.system (.cNightGeneratesDustUpdate [bridgedNight .destroy]) 6) _ _ 0
    (.destroyed ⟨[], [], rfl, rfl⟩ rfl) tracked

theorem dustAppendOnly {networkId : String} {parameters : LedgerParameters W}
    {locked reserve treasury : U128} {genesis state final : LedgerState W}
    {steps more : List (Step W)}
    (started : withGenesisSettings S build networkId parameters locked reserve
      treasury = .ok genesis) (reached : run (step S build) genesis steps = .ok state)
    (continued : run (step S build) state more = .ok final) : state.dust.Extends final.dust := by
  have keeps : ∀ {old : DustState} {s t : LedgerState W} {steps}, old.Extends s.dust →
      run (step S build) s steps = .ok t → old.Extends t.dust := fun {old _ _ _} =>
    runPreserves (fun s : LedgerState W => old.Extends s.dust) fun _ => stepKeepsDust extendsKept
  obtain ⟨⟨⟩, -, rfl⟩ := pureOk.mp started
  have start : DustState.default.Extends .default :=
    ⟨defaultIndexed, nodup_nil, suffix_refl _, id, fun found => ⟨_, found⟩⟩
  exact keeps (keeps start reached).self continued

theorem destroyedExtends : ∃ final, run (step sampleServices .debug) bridgedState
      [.system (.cNightGeneratesDustUpdate [bridgedNight .destroy]) 6] = .ok final ∧
    bridgedState.dust.Extends final.dust := by
  have ran := valueOk (x := run (step sampleServices .debug) bridgedState
    [.system (.cNightGeneratesDustUpdate [bridgedNight .destroy]) 6]) (by decide +kernel)
  have started : withGenesisSettings sampleServices .debug "net" sampleParameters 0
    (BitVec.ofNat 128 maxSupply) 0 = .ok sampleGenesis := valueOk _
  exact ⟨_, ran, dustAppendOnly started (valueOk _) ran⟩

end MidnightLedger.Ledger

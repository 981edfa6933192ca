import MidnightLedger.Ledger.Emission

/-! A wallet that replays the Zswap events of a run from the beginning holds exactly the coins it
could open and the ledger has not seen spent, as long as no coin is opened from a transient or
from the ciphertext of another coin. -/
namespace MidnightLedger.Ledger
open ByteString Maps Words Loops Zswap MerkleTrees Simulation List Zswap.State LedgerState Option

variable {E : Type} {C : Cryptography E} {H : TreeHashing} {keys : SecretKeys E}
  {wallet : LocalState} {source : EventSource} {indices : ComIndices}

section

variable (C H keys)

def replayed (wallet : LocalState) (event : Event) : Except EventReplayError LocalState :=
  (replayEvent C H keys wallet event).map Prod.fst

def Event.Reveals (event : Event) (coin : CoinInfo) : Prop :=
  ∃ commitment evidence contract mtIndex,
    event.content = .zswapOutput commitment evidence contract mtIndex ∧
      ZswapPreimageEvidence.tryWithKeys C keys evidence = some coin

def Holds (wallet : LocalState) (coin : CoinInfo) : Prop :=
  ∃ index, wallet.coins.lookup (keys.nullifierOf C coin) = some (coin.qualify index)

end

variable {events : List Event}

theorem replayEventsOk {last : LocalState} (ok : run (replayed C H keys) wallet events = .ok last) :
    replayEvents C H keys wallet events =
      .ok { last with merkleTree := last.merkleTree.rehash H } := by
  have follows : ∀ (events : List Event) (changes : List ZswapStateChanges) (start : LocalState),
      run (replayed C H keys) start events = .ok last → ∃ reported,
        events.foldlM (replayStep C H keys) ⟨changes, start⟩ = .ok ⟨reported, last⟩ := by
    intro events
    induction events with
    | nil =>
      intro changes start run
      cases runNil.mp run
      exact ⟨changes, rfl⟩
    | cons event events ih =>
      intro changes start run
      obtain ⟨reached, taken, rest⟩ := runCons.mp run
      obtain ⟨⟨_, change⟩, replays, rfl⟩ := mapOk.mp taken
      obtain ⟨reported, others⟩ := ih (maybeAddChange changes change) _ rest
      exact ⟨reported, runCons.mpr ⟨_, bindOk.mpr ⟨_, replays, rfl⟩, others⟩⟩
  obtain ⟨reported, runs⟩ := follows events [] wallet ok
  exact mapOk.mpr ⟨_, bindOk.mpr ⟨_, runs, rfl⟩, rfl⟩

structure Ready (index : Nat) (wallet : LocalState) : Prop where
  next : wallet.firstFree = index
  free : ∀ i, index ≤ i → i < 2 ^ zswapTreeHeight → wallet.merkleTree.IsOpen _ i
  settled : wallet.pendingOutputs = ∅

theorem newReady : Ready 0 LocalState.new := ⟨rfl, fun _ _ inside => Tree.blankOpen inside, rfl⟩

theorem preimageEvidenceOpened (out : Output) :
    (preimageEvidence out).tryWithKeys C keys = keys.opened C out := by
  rw [preimageEvidence, SecretKeys.opened]
  cases out.ciphertext <;> rfl

variable (C H keys source) in
theorem outputReplayed {index : Nat} {out : Output} (ready : Ready index wallet)
    (inside : index < 2 ^ zswapTreeHeight) (found : indices.lookup out.coinCom = some index) :
    ∃ event next, outputEvent source indices out = some event ∧
      replayed C H keys wallet event = .ok next ∧ Ready (index + 1) next ∧
      (∀ coin, event.Reveals C keys coin ↔ keys.opened C out = some coin) ∧
      ((keys.opened C out = none ∧ next.coins = wallet.coins) ∨ ∃ coin,
        keys.opened C out = some coin ∧
          next.coins = wallet.coins.insert (keys.nullifierOf C coin) (coin.qualify index)) := by
  obtain ⟨rfl, free, settled⟩ := ready
  obtain ⟨tree, written⟩ :=
    (Tree.tryUpdateHashIff out.coinCom ()).mpr (free _ (Nat.le_refl _) inside)
  have still : ∀ i, wallet.firstFree + 1 ≤ i → i < 2 ^ zswapTreeHeight → tree.IsOpen _ i :=
    fun i low high => (Tree.tryUpdateHashOpen written i).mpr (free i (by omega) high)
  refine ⟨⟨source, .zswapOutput out.coinCom (preimageEvidence out) out.contractAddress
    wallet.firstFree⟩, ?_⟩
  have emitted : outputEvent source indices out = some ⟨source, .zswapOutput out.coinCom
      (preimageEvidence out) out.contractAddress wallet.firstFree⟩ := by
    rw [outputEvent, found]
    rfl
  have reveals : ∀ coin, Event.Reveals C keys ⟨source, .zswapOutput out.coinCom
      (preimageEvidence out) out.contractAddress wallet.firstFree⟩ coin ↔
        keys.opened C out = some coin := by
    intro coin
    rw [← preimageEvidenceOpened]
    constructor
    · rintro ⟨commitment, evidence, contract, mtIndex, content, opens⟩
      cases content
      exact opens
    · exact fun opens => ⟨_, _, _, _, rfl, opens⟩
  have replays : replayOutput C H keys source.transactionHash wallet out.coinCom
      (preimageEvidence out) wallet.firstFree =
        let written := { wallet with merkleTree := tree, firstFree := wallet.firstFree + 1 }
        (keys.opened C out).elim (.ok ({ written with
            merkleTree := tree.collapse H _ wallet.firstFree wallet.firstFree }, none))
          fun coin => .ok (written.receive (keys.nullifierOf C coin) coin wallet.firstFree,
            some ⟨[coin.qualify wallet.firstFree], [], source.transactionHash⟩) := by
    have absent : wallet.pendingOutputs.lookup out.coinCom = none := by rw [settled]; rfl
    rw [replayOutput, if_neg (fun differ => differ rfl), written]
    simp only [Except.mapError, bind, Except.bind, absent, preimageEvidenceOpened]
    cases keys.opened C out <;> rfl
  cases opens : keys.opened C out with
  | none =>
    rw [opens] at replays reveals
    refine ⟨_, emitted, mapOk.mpr ⟨_, replays, rfl⟩, ⟨rfl, ?_, settled⟩, reveals, .inl ⟨rfl, rfl⟩⟩
    intro i low high
    exact (Tree.collapseOpen (Nat.le_succ _) inside inside).mpr ⟨still i low high, by omega⟩
  | some coin =>
    rw [opens] at replays reveals
    exact ⟨_, emitted, mapOk.mpr ⟨_, replays, rfl⟩, ⟨rfl, still, settled⟩, reveals,
      .inr ⟨coin, rfl, rfl⟩⟩

theorem spentLookup {nullifier other : Nullifier} {coin : QualifiedCoinInfo} :
    (wallet.spent nullifier).coins.lookup other = some coin ↔
      wallet.coins.lookup other = some coin ∧ other ≠ nullifier := by
  rw [LocalState.spent]
  by_cases same : other = nullifier
  · subst same
    simp [AList.lookup_erase]
  · simp [AList.lookup_erase_ne same, same]

variable (C H keys source) in
theorem inputsReplayed {index : Nat} (ready : Ready index wallet) (inputs : List Input) :
    ∃ next, run (replayed C H keys) wallet (inputs.map (inputEvent source)) = .ok next ∧
      Ready index next ∧ ∀ nullifier coin, next.coins.lookup nullifier = some coin ↔
        wallet.coins.lookup nullifier = some coin ∧
          ∀ inp ∈ inputs, inp.contractAddress = none → nullifier ≠ inp.nullifier := by
  induction inputs generalizing wallet with
  | nil => exact ⟨wallet, rfl, ready, by simp⟩
  | cons inp inputs ih =>
    cases owner : inp.contractAddress with
    | none =>
      have ready' : Ready index (wallet.spent inp.nullifier) := ⟨ready.next, ready.free, ready.settled⟩
      obtain ⟨next, runs, still, lookup⟩ := ih ready'
      have taken : replayed C H keys wallet (inputEvent source inp) =
          .ok (wallet.spent inp.nullifier) := by
        rw [replayed, inputEvent, owner]
        rfl
      refine ⟨next, runCons.mpr ⟨_, taken, runs⟩, still, fun nullifier coin => ?_⟩
      rw [lookup, spentLookup, forall_mem_cons, and_assoc]
      simp only [owner, forall_const]
    | some contract =>
      obtain ⟨next, runs, still, lookup⟩ := ih ready
      have taken : replayed C H keys wallet (inputEvent source inp) = .ok wallet := by
        rw [replayed, inputEvent, owner]
        rfl
      refine ⟨next, runCons.mpr ⟨_, taken, runs⟩, still, fun nullifier coin => ?_⟩
      rw [lookup, forall_mem_cons]
      simp [owner]

section

variable {next : LocalState} {coin other : CoinInfo} {index : Nat}
  (received : next.coins = wallet.coins.insert (keys.nullifierOf C other) (other.qualify index))

include received

theorem holdsReceived : Holds C keys next other := ⟨index, by rw [received, AList.lookup_insert]⟩

theorem holdsKept (unrivalled : keys.Unrivalled C other) (holds : Holds C keys wallet coin) :
    Holds C keys next coin := by
  obtain ⟨before, found⟩ := holds
  by_cases same : keys.nullifierOf C coin = keys.nullifierOf C other
  · rw [(unrivalled.determines same).1]
    exact holdsReceived received
  · exact ⟨before, by rw [received, AList.lookup_insert_ne same, found]⟩

end

structure Receipt (C : Cryptography E) (keys : SecretKeys E) (outs : List Output)
    (events : List Event) (wallet next : LocalState) : Prop where
  origin : ∀ nullifier held, next.coins.lookup nullifier = some held →
    wallet.coins.lookup nullifier = some held ∨ ∃ out ∈ outs, ∃ coin mtIndex,
      keys.opened C out = some coin ∧ nullifier = keys.nullifierOf C coin ∧
        held = coin.qualify mtIndex
  kept : ∀ coin, Holds C keys wallet coin → Holds C keys next coin
  received : ∀ out ∈ outs, ∀ coin, keys.opened C out = some coin → Holds C keys next coin
  revealed : ∀ coin, (∃ event ∈ events, event.Reveals C keys coin) ↔
    ∃ out ∈ outs, keys.opened C out = some coin

variable (C H keys source) in
theorem outputsReplayed {index : Nat} {outs : List Output} (ready : Ready index wallet)
    (room : index + outs.length ≤ 2 ^ zswapTreeHeight)
    (indexed : Indexed indices index (outs.map Output.coinCom))
    (unrivalled : ∀ out ∈ outs, ∀ coin, keys.opened C out = some coin → keys.Unrivalled C coin) :
    ∃ events next, outs.mapM (outputEvent source indices) = some events ∧
      run (replayed C H keys) wallet events = .ok next ∧
      Ready (index + outs.length) next ∧ Receipt C keys outs events wallet next := by
  induction outs generalizing index wallet with
  | nil =>
    refine ⟨[], wallet, rfl, rfl, ready, fun _ _ => .inl, fun _ => id, ?_, ?_⟩ <;> simp
  | cons out outs ih =>
    rw [length_cons] at room
    obtain ⟨event, middle, emitted, taken, ready', reveals, change⟩ :=
      outputReplayed C H keys source ready (by omega) indexed.1
    obtain ⟨events, next, others, runs, final, receipt⟩ := ih ready' (by omega) indexed.2
      (forall_mem_cons.mp unrivalled).2
    have first : (∀ coin, Holds C keys wallet coin → Holds C keys middle coin) ∧
        (∀ coin, keys.opened C out = some coin → Holds C keys middle coin) ∧
        ∀ nullifier held, middle.coins.lookup nullifier = some held →
          wallet.coins.lookup nullifier = some held ∨ ∃ coin, keys.opened C out = some coin ∧
            nullifier = keys.nullifierOf C coin ∧ held = coin.qualify index := by
      obtain ⟨closed, same⟩ | ⟨coin, opens, received⟩ := change
      · refine ⟨fun coin holds => ?_, fun coin opens => ?_, fun nullifier held found => .inl ?_⟩
        · rwa [Holds, same]
        · cases closed.symm.trans opens
        · rwa [← same]
      · have unique := unrivalled out mem_cons_self coin opens
        refine ⟨fun other => holdsKept received unique, fun other again => ?_, ?_⟩
        · cases opens.symm.trans again
          exact holdsReceived received
        · intro nullifier held found
          by_cases same : nullifier = keys.nullifierOf C coin
          · subst same
            rw [received, AList.lookup_insert] at found
            exact .inr ⟨coin, opens, rfl, (some.inj found).symm⟩
          · rw [received, AList.lookup_insert_ne same] at found
            exact .inl found
    obtain ⟨keeps, receives, origin⟩ := first
    refine ⟨event :: events, next, ?_, runCons.mpr ⟨middle, taken, runs⟩, ?_, ?_, ?_, ?_, ?_⟩
    · rw [mapM_cons, emitted, others]
      rfl
    · rwa [length_cons, Nat.add_comm outs.length, ← Nat.add_assoc]
    · intro nullifier held found
      obtain before | ⟨other, mem, coin, mtIndex, facts⟩ := receipt.origin nullifier held found
      · obtain old | ⟨coin, facts⟩ := origin nullifier held before
        · exact .inl old
        · exact .inr ⟨out, mem_cons_self, coin, index, facts⟩
      · exact .inr ⟨other, mem_cons_of_mem _ mem, coin, mtIndex, facts⟩
    · exact fun coin holds => receipt.kept coin (keeps coin holds)
    · intro other mem coin opens
      rcases mem_cons.mp mem with rfl | inside
      · exact receipt.kept coin (receives coin opens)
      · exact receipt.received other inside coin opens
    · intro coin
      simp only [mem_cons, exists_eq_or_imp, reveals, receipt.revealed]

/- The wallet is where the events have brought it: it has what it could open and the shielded
state has not recorded as spent. -/
structure Follows (C : Cryptography E) (H : TreeHashing) (keys : SecretKeys E)
    (events : List Event) (zswap : Zswap.State) (wallet : LocalState) : Prop where
  backed : zswap.Backed H C
  room : zswap.firstFree ≤ 2 ^ zswapTreeHeight
  replays : run (replayed C H keys) LocalState.new events = .ok wallet
  ready : Ready zswap.firstFree wallet
  unspent : ∀ nullifier held, wallet.coins.lookup nullifier = some held → ∃ coin index,
    keys.Unrivalled C coin ∧ nullifier = keys.nullifierOf C coin ∧ held = coin.qualify index ∧
      nullifier ∉ zswap.nullifiers
  kept : ∀ coin, (∃ event ∈ events, event.Reveals C keys coin) →
    keys.nullifierOf C coin ∉ zswap.nullifiers → Holds C keys wallet coin

theorem newFollows : Follows C H keys [] new LocalState.new where
  backed := newBacked
  room := Nat.zero_le _
  replays := rfl
  ready := newReady
  unspent _ _ found := by cases found
  kept _ revealed := absurd revealed (by simp)

/- The keys open no transient, and an output only to the coin it commits to. -/
structure Addressed (C : Cryptography E) (keys : SecretKeys E) (offer : Offer) : Prop where
  own : ∀ out ∈ offer.outputs, ∀ coin, keys.opened C out = some coin →
    out.coinCom = keys.commitmentOf C coin
  transient : ∀ io ∈ offer.transient, keys.opened C io.asOutput = none

structure Trusted (C : Cryptography E) (H : TreeHashing) (keys : SecretKeys E)
    (offer : Offer) : Prop where
  proven : Proven H C offer
  unrivalled : ∀ out ∈ offer.created, ∀ coin, keys.opened C out = some coin →
    keys.Unrivalled C coin

variable {W : Components} {build : Build} {offer : Offer}

section Offers

variable {zswap next : Zswap.State} {out : Output} {coin : CoinInfo}

theorem Addressed.output (addressed : Addressed C keys offer) (mem : out ∈ offer.created)
    (opens : keys.opened C out = some coin) :
    out ∈ offer.outputs ∧ out.coinCom = keys.commitmentOf C coin := by
  rcases mem_append.mp mem with plain | ephemeral
  · exact ⟨plain, addressed.own out plain coin opens⟩
  · obtain ⟨io, inside, rfl⟩ := mem_map.mp ephemeral
    cases (addressed.transient io inside).symm.trans opens

theorem receivedUnspent (backed : zswap.Backed H C) (trusted : Trusted C H keys offer)
    (addressed : Addressed C keys offer)
    (applied : zswap.tryApply H none offer = .ok (next, indices)) (mem : out ∈ offer.created)
    (opens : keys.opened C out = some coin) : keys.nullifierOf C coin ∉ next.nullifiers := by
  obtain ⟨plain, same⟩ := addressed.output mem opens
  have unique := trusted.unrivalled out mem coin opens
  obtain ⟨nodup, fresh⟩ := createdNodup applied
  have new : keys.commitmentOf C coin ∉ zswap.coinComsSet := same ▸ fresh _ (mem_map_of_mem mem)
  intro spent
  rcases (tryApplyNullifiers applied _).mp spent with now | before
  · obtain ⟨inp, inside, nullifier⟩ := mem_map.mp now
    obtain ⟨other, sender, spends⟩ := trusted.proven.spends inp inside
    obtain ⟨rfl, rfl⟩ := unique.determines (spends.nullifier.symm.trans nullifier)
    rcases spendCommitted backed trusted.proven applied inside spends with
      old | ⟨io, transient, twice⟩
    · exact new old
    -- The transient would have to commit to the coin of the output once more.
    · rw [Offer.created, map_append, nodup_append] at nodup
      refine nodup.2.2 out.coinCom (mem_map_of_mem plain) io.coinCom ?_ (same.trans twice)
      exact mem_map.mpr ⟨io.asOutput, mem_map_of_mem transient, rfl⟩
  · obtain ⟨other, sender, nullifier, committed⟩ := backed.spent _ before
    obtain ⟨rfl, rfl⟩ := unique.determines nullifier.symm
    exact new committed

theorem spentByUser (trusted : Trusted C H keys offer) {inp : Input}
    (unique : keys.Unrivalled C coin) (mem : inp ∈ offer.spent H)
    (same : inp.nullifier = keys.nullifierOf C coin) : inp.contractAddress = none := by
  obtain ⟨other, sender, spends⟩ := trusted.proven.spends inp mem
  obtain ⟨-, rfl⟩ := unique.determines (spends.nullifier.symm.trans same)
  exact spends.contract

theorem inputsRevealNothing (inputs : List Input) (coin : CoinInfo) :
    ¬ ∃ event ∈ inputs.map (inputEvent source), event.Reveals C keys coin := by
  rintro ⟨event, mem, commitment, evidence, contract, mtIndex, content, -⟩
  obtain ⟨inp, -, rfl⟩ := mem_map.mp mem
  cases content

variable (source) in
theorem offerFollows (follows : Follows C H keys events zswap wallet)
    (trusted : Trusted C H keys offer) (addressed : Addressed C keys offer)
    (applied : zswap.tryApply H none offer = .ok (next, indices)) :
    ∃ more last, zswapEvents H source offer indices = some more ∧
      Follows C H keys (events ++ more) next last ∧
      ∀ out ∈ offer.created, ∀ coin, keys.opened C out = some coin →
        ∃ event ∈ more, event.Reveals C keys coin := by
  obtain ⟨indexed, count, room, -⟩ := tryApplyIndexed follows.room applied
  obtain ⟨middle, inputs, ready, left⟩ :=
    inputsReplayed C H keys source follows.ready (offer.spent H)
  obtain ⟨outputs, last, emitted, runs, final, receipt⟩ :=
    outputsReplayed C H keys source ready (count ▸ room) indexed trusted.unrivalled
  have spent := tryApplyNullifiers applied
  refine ⟨(offer.spent H).map (inputEvent source) ++ outputs, last, ?_, ⟨?_, room, ?_, ?_, ?_, ?_⟩, ?_⟩
  · rw [zswapEvents, emitted]
    rfl
  · exact tryApplyBacked follows.backed trusted.proven applied
  · exact foldlMAppend.mpr ⟨wallet, follows.replays, foldlMAppend.mpr ⟨middle, inputs, runs⟩⟩
  · exact count ▸ final
  · intro nullifier held found
    obtain before | ⟨out, mem, coin, mtIndex, opens, rfl, rfl⟩ := receipt.origin nullifier held found
    · obtain ⟨inside, untouched⟩ := (left nullifier held).mp before
      obtain ⟨coin, index, unique, rfl, rfl, absent⟩ := follows.unspent nullifier held inside
      refine ⟨coin, index, unique, rfl, rfl, fun now => ?_⟩
      obtain ⟨inp, mem, same⟩ := mem_map.mp (((spent _).mp now).resolve_right absent)
      exact untouched inp mem (spentByUser trusted unique mem same) same.symm
    · exact ⟨coin, mtIndex, trusted.unrivalled out mem coin opens, rfl, rfl,
        receivedUnspent follows.backed trusted addressed applied mem opens⟩
  · intro coin revealed unspent
    simp only [mem_append, or_and_right, exists_or] at revealed
    obtain old | none | new := revealed
    · obtain ⟨index, found⟩ := follows.kept coin old fun mem => unspent ((spent _).mpr (.inr mem))
      refine receipt.kept coin ⟨index, (left _ _).mpr ⟨found, fun inp mem _ same => ?_⟩⟩
      exact unspent ((spent _).mpr (.inl (same ▸ mem_map_of_mem mem)))
    · exact absurd none (inputsRevealNothing _ coin)
    · obtain ⟨out, mem, opens⟩ := (receipt.revealed coin).mp new
      exact receipt.received out mem coin opens
  · intro out mem coin opens
    obtain ⟨event, inside, reveals⟩ := (receipt.revealed coin).mpr ⟨out, mem, opens⟩
    exact ⟨event, mem_append_right _ inside, reveals⟩

end Offers

variable {reason : Zswap.TransactionInvalid → W.Rejection} {S : Services W.shielded}

section Sections

variable {state next : LedgerState W.shielded} {vt : VerifiedTransaction W.shielded}
  {tx : StandardTransaction W.shielded} {context : TransactionContext W.shielded}
  {segment : Segment}

def Tells (C : Cryptography E) (keys : SecretKeys E) (events : List Event) (offer : Offer) : Prop :=
  ∀ out ∈ offer.created, ∀ coin, keys.opened C out = some coin →
    ∃ event ∈ events, event.Reveals C keys coin

theorem Tells.mono {more : List Event} (tells : Tells C keys events offer)
    (sub : events ⊆ more) : Tells C keys more offer := by
  intro out mem coin opens
  obtain ⟨event, inside, reveals⟩ := tells out mem coin opens
  exact ⟨event, sub inside, reveals⟩

variable (vt) in
theorem sectionFollows (follows : Follows C H keys events state.zswap wallet)
    (unlisted : context.whitelist = none)
    (trusted : ∀ segment offer, tx.offerAt segment = some offer →
      Trusted C H keys offer ∧ Addressed C keys offer)
    (ok : state.applySection (S.shielded H reason) build tx vt.fees segment context = .ok next) :
    ∃ more last, sectionEmitting (S.shielded H reason) H build vt tx context state segment =
        .ok (next, more) ∧ Follows C H keys (events ++ more) next.zswap last ∧
      ∀ offer, tx.offerAt segment = some offer → Tells C keys more offer := by
  obtain ⟨absent, same⟩ | ⟨offer, present, applied⟩ := sectionOffer ok
  · refine ⟨[], wallet, bindOk.mpr ⟨next, ok, bindOk.mpr ⟨[], ?_, rfl⟩⟩, ?_, ?_⟩
    · rw [offerEvents, absent]
    · rwa [append_nil, same]
    · intro offer found
      cases absent.symm.trans found
  · rw [unlisted] at applied
    obtain ⟨⟨reached, indices⟩, tried, rfl⟩ := mapOk.mp applied
    obtain ⟨sound, addressed⟩ := trusted segment offer present
    obtain ⟨more, last, emitted, after, tells⟩ :=
      offerFollows ⟨vt.hash, segment, segment⟩ follows sound addressed tried
    refine ⟨more, last, bindOk.mpr ⟨next, ok, bindOk.mpr ⟨more, ?_, rfl⟩⟩, after, ?_⟩
    · rw [offerEvents, present]
      refine bindOk.mpr ⟨({ state with zswap := next.zswap }, indices), ?_, ?_⟩
      · rw [unlisted]
        exact bindOk.mpr ⟨(next.zswap, indices), liftOk.mpr (mapErrorOk.mpr tried), rfl⟩
      · simp only [emitted]
    · intro other found
      cases present.symm.trans found
      exact tells

theorem fallibleFollows {segments : List Segment} {acc : List Event} {log final : Log W.shielded}
    (follows : Follows C H keys (events ++ acc) state.zswap wallet)
    (unlisted : context.whitelist = none)
    (trusted : ∀ segment offer, tx.offerAt segment = some offer →
      Trusted C H keys offer ∧ Addressed C keys offer)
    (ok : segments.foldlM (fallibleStep (S.shielded H reason) build tx vt.fees context)
      (state, log) = .ok (next, final)) :
    ∃ told last, segments.foldlM
        (fallibleEmitting (S.shielded H reason) H build vt tx context) (state, acc) =
          .ok (next, told) ∧ acc ⊆ told ∧ Follows C H keys (events ++ told) next.zswap last ∧
      ∀ earlier segment rest reached between after offer, segments = earlier ++ segment :: rest →
        earlier.foldlM (fallibleStep (S.shielded H reason) build tx vt.fees context)
          (state, log) = .ok (reached, between) →
        reached.applySection (S.shielded H reason) build tx vt.fees segment context = .ok after →
        tx.offerAt segment = some offer → Tells C keys told offer := by
  induction segments generalizing state acc log wallet with
  | nil =>
    cases runNil.mp ok
    refine ⟨acc, wallet, rfl, List.Subset.refl _, follows, ?_⟩
    intro earlier segment rest _ _ _ _ order
    cases earlier <;> cases order
  | cons first segments ih =>
    obtain ⟨⟨middle, logged⟩, taken, others⟩ := runCons.mp ok
    have head : ∃ more last, fallibleEmitting (S.shielded H reason) H build vt tx context
          (state, acc) first = .ok (middle, acc ++ more) ∧
        Follows C H keys (events ++ (acc ++ more)) middle.zswap last ∧
        ∀ after offer, state.applySection (S.shielded H reason) build tx vt.fees first context =
          .ok after → tx.offerAt first = some offer → Tells C keys more offer := by
      cases applied : state.applySection (S.shielded H reason) build tx vt.fees first context with
      | ok after =>
        rw [fallibleStep, applied] at taken
        cases taken
        obtain ⟨more, last, emitted, further, tells⟩ :=
          sectionFollows vt follows unlisted trusted applied
        refine ⟨more, last, ?_, by rwa [← append_assoc], fun _ offer _ => tells offer⟩
        rw [fallibleEmitting, emitted]
      | error e =>
        rw [fallibleStep, applied] at taken
        cases e with
        | panic => cases taken
        | error e =>
          cases taken
          refine ⟨[], wallet, ?_, by rwa [append_nil], by simp⟩
          rw [fallibleEmitting, sectionEmitting, applied, append_nil]
          rfl
    obtain ⟨more, last, emitted, further, tells⟩ := head
    obtain ⟨told, final, runs, grows, after, rest⟩ := ih further others
    have kept : acc ⊆ told := List.Subset.trans (subset_append_left ..) grows
    refine ⟨told, final, runCons.mpr ⟨_, emitted, runs⟩, kept, after, ?_⟩
    intro earlier segment later reached between applied offer order run labelled found
    cases earlier with
    | nil =>
      cases order
      cases runNil.mp run
      exact (tells applied offer labelled found).mono
        (List.Subset.trans (subset_append_right ..) grows)
    | cons head earlier =>
      cases order
      obtain ⟨_, again, onward⟩ := runCons.mp run
      cases again.symm.trans taken
      exact rest earlier segment later reached between applied offer rfl onward labelled found

def OfferApplied (S : Services W.shielded) (build : Build) (state : LedgerState W.shielded)
    (vt : VerifiedTransaction W.shielded) (context : TransactionContext W.shielded)
    (offer : Offer) : Prop :=
  ∃ tx segment before after, vt.inner = .standard tx ∧
    SectionApplied S build tx vt.fees context state segment before after ∧
      tx.offerAt segment = some offer

theorem applyFollows {result : TransactionResult W.shielded}
    (follows : Follows C H keys events state.zswap wallet) (unlisted : context.whitelist = none)
    (trusted : ∀ tx segment offer, vt.inner = .standard tx → tx.offerAt segment = some offer →
      Trusted C H keys offer ∧ Addressed C keys offer)
    (ok : state.apply (S.shielded H reason) build vt context = .ok (next, result)) :
    ∃ more last, state.applyEmitting (S.shielded H reason) H build vt context = .ok (next, more) ∧
      Follows C H keys (events ++ more) next.zswap last ∧
      ∀ offer, OfferApplied (S.shielded H reason) build state vt context offer →
        Tells C keys more offer := by
  cases inner : vt.inner with
  | claimRewards rewards =>
    have same : next.zswap = state.zswap := by
      obtain ⟨-, -, rfl⟩ | ⟨other, -, -, claimed⟩ | ⟨other, guaranteed, log, standard, -⟩ :=
        applyOk ok
      · rfl
      · obtain ⟨replay, dust, claimable, -, -, -, -, -, rfl⟩ := claimUnshieldedOk claimed
        cases other.kind <;> rfl
      · cases inner.symm.trans standard
    refine ⟨[], wallet, ?_, by rwa [append_nil, same], ?_⟩
    · rw [applyEmitting, inner]
      exact mapOk.mpr ⟨_, ok, rfl⟩
    · rintro offer ⟨tx, segment, before, after, standard, -⟩
      cases inner.symm.trans standard
  | standard tx =>
    have sections : ∀ segment offer, tx.offerAt segment = some offer →
        Trusted C H keys offer ∧ Addressed C keys offer :=
      fun segment offer => trusted tx segment offer inner
    obtain ⟨e, started, rfl, -⟩ | ⟨guaranteed, log, started, segments, -⟩ :=
      applyStandardOk inner ok
    · refine ⟨[], wallet, ?_, by rwa [append_nil], ?_⟩
      · rw [applyEmitting, inner]
        simp only [sectionEmitting, started]
        rfl
      · rintro offer ⟨other, segment, before, after, standard, applies, -⟩
        cases inner.symm.trans standard
        cases applies with
        | guaranteed applied => cases started.symm.trans applied
        | fallible first _ _ _ => cases started.symm.trans first
    · obtain ⟨first, middle, emitted, further, tells⟩ :=
        sectionFollows vt follows unlisted sections started
      obtain ⟨told, last, runs, grows, after, rest⟩ :=
        fallibleFollows further unlisted sections segments
      refine ⟨told, last, ?_, after, ?_⟩
      · rw [applyEmitting, inner]
        simp only [emitted, runs]
      · rintro offer ⟨other, segment, before, reached, standard, applies, found⟩
        cases inner.symm.trans standard
        cases applies with
        | guaranteed applied => exact (tells offer found).mono grows
        | fallible again order reaches applied =>
          cases again.symm.trans started
          exact rest _ _ _ _ _ _ offer order reaches applied found

end Sections

section Runs

variable {state next final genesis : LedgerState W.shielded} {taken : Step W.shielded}
  {steps : List (Step W.shielded)}

def Carries (taken : Step W.shielded) (offer : Offer) : Prop :=
  ∃ vt context tx segment, taken = .transaction vt context ∧ vt.inner = .standard tx ∧
    tx.offerAt segment = some offer

def OnChain (S : Services W.shielded) (build : Build) (state : LedgerState W.shielded)
    (steps : List (Step W.shielded)) (offer : Offer) : Prop :=
  ∃ earlier vt context rest reached, steps = earlier ++ .transaction vt context :: rest ∧
    run (step S build) state earlier = .ok reached ∧
      OfferApplied S build reached vt context offer

/- The tree that a post-block update takes the root of binds to its leaves. -/
def RootBinds (H : TreeHashing) (state : LedgerState W.shielded) (taken : Step W.shielded) : Prop :=
  ∀ tblock fullness, taken = .postBlock tblock fullness → state.zswap.coinComs.Binding H

theorem stepFollows (follows : Follows C H keys events state.zswap wallet)
    (unlisted : ∀ vt context, taken = .transaction vt context → context.whitelist = none)
    (trusted : ∀ offer, Carries taken offer → Trusted C H keys offer ∧ Addressed C keys offer)
    (binds : RootBinds H state taken)
    (ok : step (S.shielded H reason) build state taken = .ok next) :
    ∃ more last, stepEmitting (S.shielded H reason) H build (state, events) taken =
        .ok (next, events ++ more) ∧ Follows C H keys (events ++ more) next.zswap last ∧
      ∀ vt context offer, taken = .transaction vt context →
        OfferApplied (S.shielded H reason) build state vt context offer →
          Tells C keys more offer := by
  cases taken with
  | transaction vt context =>
    obtain ⟨⟨reached, result⟩, applied, rfl⟩ := pureOk.mp ok
    obtain ⟨more, last, emitted, after, tells⟩ := applyFollows follows (unlisted vt context rfl)
      (fun tx segment offer inner found => trusted offer ⟨vt, context, tx, segment, rfl, inner, found⟩)
      applied
    refine ⟨more, last, bindOk.mpr ⟨_, emitted, rfl⟩, after, fun _ _ offer same => ?_⟩
    cases same
    exact tells offer
  | system tx tblock =>
    have same : next.zswap = state.zswap := by
      obtain applied | rfl := systemStepOk ok
      · exact (applySystemTxFrame applied).zswap
      · rfl
    refine ⟨[], wallet, bindOk.mpr ⟨next, ok, by rw [append_nil]⟩, ?_, nofun⟩
    rwa [append_nil, same]
  | postBlock tblock fullness =>
    refine ⟨[], wallet, bindOk.mpr ⟨next, ok, by rw [append_nil]⟩, ?_, nofun⟩
    cases ok
    rw [List.append_nil, LedgerState.postBlockUpdate]
    split
    · exact ⟨postBlockBacked follows.backed (binds tblock fullness rfl) _ _, follows.room,
        follows.replays, follows.ready, follows.unspent, follows.kept⟩
    · exact follows

theorem runFollows (follows : Follows C H keys events state.zswap wallet)
    (unlisted : ∀ vt context, .transaction vt context ∈ steps → context.whitelist = none)
    (trusted : ∀ taken ∈ steps, ∀ offer, Carries taken offer →
      Trusted C H keys offer ∧ Addressed C keys offer)
    (binds : Along (step (S.shielded H reason) build) (RootBinds H) state steps)
    (ok : run (step (S.shielded H reason) build) state steps = .ok final) :
    ∃ told last, run (stepEmitting (S.shielded H reason) H build) (state, events) steps =
        .ok (final, told) ∧ events ⊆ told ∧ Follows C H keys told final.zswap last ∧
      ∀ offer, OnChain (S.shielded H reason) build state steps offer → Tells C keys told offer := by
  induction steps generalizing state events wallet with
  | nil =>
    cases runNil.mp ok
    refine ⟨events, wallet, rfl, List.Subset.refl _, follows, ?_⟩
    rintro offer ⟨earlier, vt, context, rest, reached, order, -⟩
    cases earlier <;> cases order
  | cons taken steps ih =>
    obtain ⟨middle, first, others⟩ := runCons.mp ok
    obtain ⟨more, between, emitted, further, tells⟩ := stepFollows follows
      (fun vt context same => unlisted vt context (same ▸ mem_cons_self))
      (trusted taken mem_cons_self) binds.1 first
    obtain ⟨told, last, runs, grows, after, rest⟩ := ih further
      (fun vt context mem => unlisted vt context (mem_cons_of_mem _ mem))
      (forall_mem_cons.mp trusted).2 (binds.2 middle first) others
    have kept : events ⊆ told := List.Subset.trans (subset_append_left ..) grows
    refine ⟨told, last, runCons.mpr ⟨_, emitted, runs⟩, kept, after, ?_⟩
    rintro offer ⟨earlier, vt, context, later, reached, order, run, applied⟩
    cases earlier with
    | nil =>
      cases order
      cases runNil.mp run
      exact (tells vt context offer rfl applied).mono
        (List.Subset.trans (subset_append_right ..) grows)
    | cons head earlier =>
      cases order
      obtain ⟨_, again, onward⟩ := runCons.mp run
      cases again.symm.trans first
      exact rest offer ⟨earlier, vt, context, later, reached, rfl, onward, applied⟩

theorem walletHoldsUnspent {networkId : String} {parameters : LedgerParameters W.shielded}
    {lockedPool reservePool treasury : U128}
    (started : withGenesisSettings (S.shielded H reason) build networkId parameters
      lockedPool reservePool treasury = .ok genesis)
    (ran : run (step (S.shielded H reason) build) genesis steps = .ok final)
    (trusted : ∀ taken ∈ steps, ∀ offer, Carries taken offer → Trusted C H keys offer)
    (binds : Along (step (S.shielded H reason) build) (RootBinds H) genesis steps)
    (unlisted : ∀ vt context, .transaction vt context ∈ steps → context.whitelist = none)
    (addressed : ∀ taken ∈ steps, ∀ offer, Carries taken offer → Addressed C keys offer) :
    ∃ events wallet, run (stepEmitting (S.shielded H reason) H build) (genesis, []) steps =
        .ok (final, events) ∧ replayEvents C H keys LocalState.new events = .ok wallet ∧
      (∀ nullifier held, wallet.coins.lookup nullifier = some held →
        (∃ coin index, nullifier = keys.nullifierOf C coin ∧ held = coin.qualify index) ∧
          nullifier ∉ final.zswap.nullifiers) ∧
      ∀ offer, OnChain (S.shielded H reason) build genesis steps offer → ∀ out ∈ offer.created,
        ∀ coin, keys.opened C out = some coin →
          keys.nullifierOf C coin ∉ final.zswap.nullifiers → Holds C keys wallet coin := by
  have empty : genesis.zswap = new := by
    obtain ⟨⟨⟩, -, rfl⟩ := pureOk.mp started
    rfl
  have start : Follows C H keys [] genesis.zswap LocalState.new := by
    rw [empty]
    exact newFollows
  obtain ⟨events, last, emitted, -, follows, tells⟩ := runFollows start unlisted
    (fun taken mem offer carries => ⟨trusted taken mem offer carries, addressed taken mem offer carries⟩)
    binds ran
  refine ⟨events, _, emitted, replayEventsOk follows.replays, ?_, ?_⟩
  · intro nullifier held found
    obtain ⟨coin, index, -, same, qualified, absent⟩ := follows.unspent nullifier held found
    exact ⟨⟨coin, index, same, qualified⟩, absent⟩
  · intro offer applied out mem coin opens unspent
    exact follows.kept coin (tells offer applied out mem coin opens) unspent

end Runs

def walletCoin : CoinInfo := ⟨1, ⟨0⟩, 100⟩

def walletKeys : SecretKeys Unit := ⟨0, ()⟩

def walletCryptography : Cryptography Unit where
  persistentHash bytes :=
    if bytes = walletCoin.nullifierPreimage walletKeys.sender then 1
    else if bytes = walletCoin.commitmentPreimage (.user 0) then 2
    else 0
  decrypt _ ciphertext := if ciphertext = [1] then some walletCoin else none

variable {bytes : Bytes}

theorem walletHashNullifier (hashed : walletCryptography.persistentHash bytes = 1) :
    bytes = walletCoin.nullifierPreimage walletKeys.sender := by
  simp only [walletCryptography] at hashed
  split at hashed
  · assumption
  · split at hashed <;> cases hashed

def receivedOutput : Output := ⟨2, ⟨0, 0⟩, none, some [1]⟩

def receivingOffer : Offer := ⟨[], [receivedOutput], [], []⟩

def withOffer (offer : Offer) : VerifiedTransaction shieldedComponents :=
  ⟨.standard ⟨"net", ∅, some offer, ∅⟩, 0, 0⟩

def receivingRun : List (Step shieldedComponents) :=
  [.transaction (withOffer receivingOffer) shieldedContext]

def receivedState : LedgerState shieldedComponents :=
  value (run (step shieldedServices .debug) shieldedGenesis receivingRun) (by decide +kernel)

theorem withOfferCarries {other : Offer} {context : TransactionContext shieldedComponents}
    (carries : Carries (.transaction (withOffer offer) context) other) : other = offer := by
  obtain ⟨vt, context, tx, segment, same, inner, found⟩ := carries
  cases same
  cases inner
  rw [StandardTransaction.offerAt] at found
  split at found
  · exact (some.inj found).symm
  · cases found

theorem receivingTrusted : Trusted walletCryptography sampleHashing walletKeys receivingOffer where
  proven := ⟨fun _ mem => absurd mem not_mem_nil, fun _ mem => absurd mem not_mem_nil⟩
  unrivalled := by
    intro out mem coin opens
    cases mem_singleton.mp mem
    have same : coin = walletCoin := by
      have found : walletKeys.opened walletCryptography receivedOutput = some walletCoin := by decide
      exact some.inj (opens.symm.trans found)
    subst same
    intro bytes hashed
    have nullifier : walletKeys.nullifierOf walletCryptography walletCoin = 1 := by decide +kernel
    exact walletHashNullifier (hashed.trans nullifier)

theorem receivingAddressed : Addressed walletCryptography walletKeys receivingOffer where
  own := by
    intro out mem coin opens
    cases mem_singleton.mp mem
    have found : walletKeys.opened walletCryptography receivedOutput = some walletCoin := by decide
    cases opens.symm.trans found
    decide +kernel
  transient := fun _ mem => absurd mem not_mem_nil

theorem receivedHeld : ∃ events wallet,
    run (stepEmitting shieldedServices sampleHashing .debug) (shieldedGenesis, [])
        receivingRun = .ok (receivedState, events) ∧
      replayEvents walletCryptography sampleHashing walletKeys LocalState.new events = .ok wallet ∧
      Holds walletCryptography walletKeys wallet walletCoin := by
  have ran : run (step shieldedServices .debug) shieldedGenesis receivingRun =
      .ok receivedState := valueOk _
  have carried : ∀ taken ∈ receivingRun, ∀ offer, Carries taken offer → offer = receivingOffer := by
    intro taken mem offer carries
    cases mem_singleton.mp mem
    exact withOfferCarries carries
  have trusted : ∀ taken ∈ receivingRun, ∀ offer, Carries taken offer →
      Trusted walletCryptography sampleHashing walletKeys offer :=
    fun taken mem offer carries => carried taken mem offer carries ▸ receivingTrusted
  have addressed : ∀ taken ∈ receivingRun, ∀ offer, Carries taken offer →
      Addressed walletCryptography walletKeys offer :=
    fun taken mem offer carries => carried taken mem offer carries ▸ receivingAddressed
  have unlisted : ∀ vt context, .transaction vt context ∈ receivingRun → context.whitelist = none := by
    intro vt context mem
    cases mem_singleton.mp mem
    rfl
  have started : withGenesisSettings shieldedServices .debug "net" shieldedParameters 0
      (BitVec.ofNat 128 maxSupply) 0 = .ok shieldedGenesis := valueOk _
  obtain ⟨events, wallet, emitted, replays, -, keeps⟩ := walletHoldsUnspent started ran trusted
    ⟨nofun, fun _ _ => trivial⟩ unlisted addressed
  have applied : OnChain shieldedServices .debug shieldedGenesis receivingRun receivingOffer := by
    refine ⟨[], _, _, [], shieldedGenesis, rfl, rfl, _, guaranteedSegment, shieldedGenesis, _, rfl,
      .guaranteed (valueOk (by decide +kernel)), rfl⟩
  refine ⟨events, wallet, emitted, replays, keeps receivingOffer applied receivedOutput
    mem_cons_self walletCoin (by decide) ?_⟩
  decide +kernel

/- A ledger that tracks no contract does not record the nullifier of the user's coin. -/
def trackingContext : TransactionContext shieldedComponents := ⟨shieldedGenesis, ⟨5, 0, 0, 0⟩, some []⟩

def trackedRoot : Fr :=
  (value (run (step shieldedServices .debug) shieldedGenesis
    [.transaction (withOffer receivingOffer) trackingContext]) (by decide +kernel)).zswap.coinComs.digest
      sampleHashing

def trackedSpend : List (Step shieldedComponents) :=
  [.transaction (withOffer receivingOffer) trackingContext, .postBlock 6 (),
    .transaction (withOffer ⟨[⟨1, ⟨0, 0⟩, none, trackedRoot, none⟩], [], [], []⟩) trackingContext]

def replayedRun (steps : List (Step shieldedComponents)) :
    Option (LedgerState shieldedComponents × LocalState) := do
  let (final, events) ← (run (stepEmitting shieldedServices sampleHashing .debug)
    (shieldedGenesis, []) steps).toOption
  let wallet ←
    (replayEvents walletCryptography sampleHashing walletKeys LocalState.new events).toOption
  some (final, wallet)

/- Where contracts alone are tracked the wallet lacks a coin that the ledger does not know to be
spent. -/
theorem walletDiffers :
    OnChain shieldedServices .debug shieldedGenesis trackedSpend receivingOffer ∧
    (replayedRun trackedSpend).map (fun reached => (reached.1.zswap.nullifiers, reached.2.coins.lookup
      (walletKeys.nullifierOf walletCryptography walletCoin))) = some ([], none) := by
  refine ⟨⟨[], _, _, _, shieldedGenesis, rfl, rfl, _, guaranteedSegment, shieldedGenesis, _, rfl,
    .guaranteed (valueOk (by decide +kernel)), rfl⟩, ?_⟩
  decide +kernel

end MidnightLedger.Ledger

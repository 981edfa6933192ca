import MidnightLedger.Ledger.Books
import MidnightLedger.Ledger.WalletReplay

/-! Wallets that replay all events of a run, in batches cut anywhere. Their trees and those of the
ledger track the rolls that the events describe. -/
namespace MidnightLedger.Ledger
open ByteString Maps Words Loops Journals MerkleTrees Zswap LedgerEvent Simulation List Option AList

variable {W : Components} {L : Type}

def replayBatch {E : Type} (C : Cryptography E) (H : TreeHashing) (keys : SecretKeys E)
    (wallet : LocalState) (batch : List (LedgerEvent W L)) : Except EventReplayError LocalState :=
  replayEvents C H keys wallet (batch.filterMap asZswap)

variable {H : TreeHashing} {S : Services W} {book : Book} {roll : Roll HashOutput}
  {event : LedgerEvent W L}

section Shielded

variable {E : Type} {C : Cryptography E} {keys : SecretKeys E} {wallet : LocalState} {after : Book}

theorem replayedOutput {source : EventSource} {commitment : Commitment}
    {evidence : ZswapPreimageEvidence} {contract : Option ContractAddress}
    (tracks : wallet.merkleTree.Tracks H wallet.firstFree roll)
    (room : roll.count < 2 ^ zswapTreeHeight) :
    ∃ next, replayed C H keys wallet
        ⟨source, .zswapOutput commitment evidence contract roll.count⟩ = .ok next ∧
      next.merkleTree.Tracks H next.firstFree (roll.append commitment) := by
  obtain ⟨tree, written, follows⟩ := tracks.append room commitment ()
  have outcome : replayOutput C H keys source.transactionHash wallet commitment evidence
      roll.count =
        let written := { wallet with merkleTree := tree, firstFree := wallet.firstFree + 1 }
        (wallet.pendingOutputs.lookup commitment).elim ((evidence.tryWithKeys C keys).elim
            (.ok ({ written with merkleTree := tree.collapse H _ roll.count roll.count }, none))
            fun coin => .ok (written.receive (coin.nullifier C keys.sender) coin roll.count,
              some ⟨[coin.qualify roll.count], [], source.transactionHash⟩))
          fun coin => .ok ((written.settle commitment).receive (coin.nullifier C keys.sender) coin
            roll.count, some ⟨[coin.qualify roll.count], [], source.transactionHash⟩) := by
    rw [replayOutput, ← tracks.next, if_neg (fun differ => differ rfl), written]
    cases wallet.pendingOutputs.lookup commitment <;> cases evidence.tryWithKeys C keys <;> rfl
  change ∃ next, (replayOutput C H keys source.transactionHash wallet commitment evidence
    roll.count).map Prod.fst = .ok next ∧ _
  rw [outcome]
  -- Whether the coin is kept or collapsed, the tree goes on tracking the roll.
  cases wallet.pendingOutputs.lookup commitment with
  | some coin => exact ⟨_, rfl, follows⟩
  | none =>
    cases evidence.tryWithKeys C keys with
    | some coin => exact ⟨_, rfl, follows⟩
    | none => exact ⟨_, rfl, follows.collapse (Nat.lt_succ_self _) room⟩

section

variable (tracks : wallet.merkleTree.Tracks H wallet.firstFree book.shielded)
include tracks

theorem eventReplayed (described : Describes S H book event.content after) :
    ∃ next, run (replayed C H keys) wallet event.asZswap.toList = .ok next ∧
      next.merkleTree.Tracks H next.firstFree after.shielded := by
  obtain ⟨source, content⟩ := event
  cases described with
  | zswapInput nullifier contract =>
    cases contract with
    | none => exact ⟨wallet.spent nullifier, rfl, tracks⟩
    | some address => exact ⟨wallet, rfl, tracks⟩
  | zswapOutput commitment evidence contract room =>
    obtain ⟨next, taken, follows⟩ := replayedOutput tracks room
    exact ⟨next, runCons.mpr ⟨next, taken, rfl⟩, follows⟩
  | unread unread =>
    cases unread <;> exact ⟨wallet, rfl, tracks⟩
  | _ => exact ⟨wallet, rfl, tracks⟩

theorem eventsReplayed {events : List (LedgerEvent W L)}
    (record : Record (Describes S H) book (events.map content) after) :
    ∃ next, run (replayed C H keys) wallet (events.filterMap asZswap) =
        .ok next ∧ next.merkleTree.Tracks H next.firstFree after.shielded := by
  induction events generalizing wallet book with
  | nil =>
    cases record
    exact ⟨wallet, rfl, tracks⟩
  | cons event events ih =>
    cases record with
    | cons described rest =>
      obtain ⟨middle, first, follows⟩ := eventReplayed tracks described
      obtain ⟨next, others, further⟩ := ih follows rest
      refine ⟨next, ?_, further⟩
      cases zswap : event.asZswap with
      | none =>
        rw [zswap] at first
        cases runNil.mp first
        rwa [filterMap_cons_none zswap]
      | some read =>
        rw [zswap] at first
        obtain ⟨_, taken, last⟩ := runCons.mp first
        cases runNil.mp last
        rw [filterMap_cons_some zswap]
        exact runCons.mpr ⟨middle, taken, others⟩

theorem batchesReplayed {batches : List (List (LedgerEvent W L))}
    (record : Record (Describes S H) book (batches.flatten.map content) after) :
    ∃ next, run (replayBatch C H keys) wallet batches = .ok next ∧
      next.merkleTree.Tracks H next.firstFree after.shielded := by
  induction batches generalizing wallet book with
  | nil =>
    cases record
    exact ⟨wallet, rfl, tracks⟩
  | cons batch batches ih =>
    rw [flatten_cons, map_append] at record
    obtain ⟨between, first, rest⟩ := record.split
    obtain ⟨last, run, follows⟩ := eventsReplayed tracks first
    let middle : LocalState := { last with merkleTree := last.merkleTree.rehash H }
    have rehashed : middle.merkleTree.Tracks H middle.firstFree between.shielded := follows.rehash
    obtain ⟨next, others, further⟩ := ih rehashed rest
    exact ⟨next, runCons.mpr ⟨middle, replayEventsOk run, others⟩, further⟩

end

end Shielded

namespace DustLocalState

def Numbered (count : Nat) (utxos : Map DustNullifier DustWalletUtxoState) : Prop :=
  ∀ nullifier held, utxos.lookup nullifier = some held →
    held.utxo.seq.toNat ≤ held.utxo.mtIndex ∧ held.utxo.mtIndex < count

variable {nullifier : DustNullifier}

section

variable {count : Nat} {utxos : Map DustNullifier DustWalletUtxoState}

section

variable (numbered : Numbered count utxos)
include numbered

theorem Numbered.grown : Numbered (count + 1) utxos := by
  intro other held found
  obtain ⟨behind, placed⟩ := numbered other held found
  exact ⟨behind, by omega⟩

theorem Numbered.insert {entry : DustWalletUtxoState}
    (behind : entry.utxo.seq.toNat ≤ entry.utxo.mtIndex) (placed : entry.utxo.mtIndex < count) :
    Numbered count (utxos.insert nullifier entry) := by
  intro other held found
  by_cases same : other = nullifier
  · rw [same, lookup_insert] at found
    cases found
    exact ⟨behind, placed⟩
  · rw [lookup_insert_ne same] at found
    exact numbered other held found

theorem Numbered.erase : Numbered count (utxos.erase nullifier) := by
  intro other held found
  by_cases same : other = nullifier
  · rw [same, lookup_erase] at found
    cases found
  · rw [lookup_erase_ne same] at found
    exact numbered other held found

end

end

structure Tracks (H : TreeHashing) (wallet : DustLocalState) (book : Book) : Prop where
  generations : wallet.generatingTree.Tracks H wallet.generatingTreeFirstFree book.generations
  commitments : wallet.commitmentTree.Tracks H wallet.commitmentTreeFirstFree book.commitments
  space : book.generations.count ≤ 2 ^ dustGenerationTreeDepth
  numbered : Numbered book.commitments.count wallet.dustUtxos

variable {D : DustHashes} {build : Build} {sk : DustSecretKey} {wallet : DustLocalState}
  {after : Book}

theorem newTracks (params : DustParameters) : (new params).Tracks H Book.empty where
  generations := Tree.tracksBlank
  commitments := Tree.tracksBlank
  space := Nat.zero_le _
  numbered _ _ found := by cases found

variable (S) in
theorem appendCommitmentOk {idx : Nat}
    (tracks : wallet.commitmentTree.Tracks H wallet.commitmentTreeFirstFree roll)
    (placed : idx = roll.count) (room : roll.count < 2 ^ dustCommitmentTreeDepth)
    (commitment : DustCommitment) :
    ∃ tree, wallet.appendCommitment S idx commitment = .ok { wallet with
        commitmentTree := tree
        commitmentTreeFirstFree := wallet.commitmentTreeFirstFree + 1 } ∧
      tree.Tracks H (wallet.commitmentTreeFirstFree + 1)
        (roll.append (S.commitmentHash commitment)) := by
  obtain ⟨tree, written, follows⟩ := tracks.append room (S.commitmentHash commitment) ()
  refine ⟨tree, ?_, follows⟩
  rw [appendCommitment, placed, ← tracks.next, if_neg (fun differ => differ rfl), written]
  rfl

def Lands (H : TreeHashing) (wallet : DustLocalState) (blockTime : Option Timestamp) (after : Book)
    (outcome : Outcome EventReplayError (DustLocalState × Option DustStateChanges × List Nat)) :
    Prop :=
  (∃ next change collapses, outcome = .ok (next, change, collapses) ∧ next.Tracks H after ∧
    (∀ idx ∈ collapses, idx < after.generations.count) ∧
    next.syncTime = blockTime.getD wallet.syncTime) ∨
  ∃ time, blockTime = some time ∧ time < wallet.syncTime ∧
    outcome = .error (.error (.eventForPastTime wallet.syncTime time))

variable {collapses : List Nat} {source : HashOutput} {vFee : U128}
  {events batch done : List (LedgerEvent W L)} {utxo : QualifiedDustOutput} {ctime : Timestamp}
  {params : DustParameters}

theorem syncLands {reached : DustLocalState} {change : Option DustStateChanges}
    (blockTime : Timestamp) (tracks : reached.Tracks H after)
    (same : reached.syncTime = wallet.syncTime)
    (below : ∀ idx ∈ collapses, idx < after.generations.count) :
    Lands H wallet (some blockTime) after (do
      let passed ← reached.syncTo blockTime
      .ok (passed, change, collapses)) := by
  rw [syncTo, same]
  by_cases past : blockTime < wallet.syncTime
  · rw [if_pos past]
    exact .inr ⟨blockTime, rfl, past, rfl⟩
  · rw [if_neg past]
    exact .inl ⟨_, change, collapses, rfl, ⟨tracks.generations, tracks.commitments, tracks.space,
      tracks.numbered⟩, below, rfl⟩

theorem replayInitialUtxoLands {output : QualifiedDustOutput} {generation : DustGenerationInfo}
    {idx : Nat} (blockTime : Timestamp) (tracks : wallet.Tracks H book) (first : output.seq = 0)
    (placed : output.mtIndex = book.commitments.count) (numbers : idx = book.generations.count)
    (room : book.commitments.count < 2 ^ dustCommitmentTreeDepth)
    (space : book.generations.count < 2 ^ dustGenerationTreeDepth) :
    Lands H wallet (some blockTime) { book with
        commitments := book.commitments.append (S.commitmentHash (output.commitment S))
        generations := book.generations.append (S.generationHash generation) }
      (wallet.replayInitialUtxo S H D sk source output generation idx blockTime) := by
  obtain ⟨tree, written, entries⟩ :=
    tracks.generations.append space (S.generationHash generation) generation
  let entered := { wallet with
    generatingTree := tree
    generatingTreeFirstFree := wallet.generatingTreeFirstFree + 1 }
  have generated : wallet.appendGeneration S idx generation = .ok entered := by
    rw [appendGeneration, numbers, ← tracks.generations.next, if_neg (fun differ => differ rfl),
      written]
    rfl
  have before : entered.commitmentTree.Tracks H entered.commitmentTreeFirstFree book.commitments :=
    tracks.commitments
  obtain ⟨coms, committed, listed⟩ := appendCommitmentOk S before placed room (output.commitment S)
  rw [replayInitialUtxo, generated, okBind, committed, okBind]
  split
  · refine syncLands blockTime ⟨entries, listed, space, ?_⟩ rfl (by simp)
    refine tracks.numbered.grown.insert ?_ ?_
    · rw [first]
      exact Nat.zero_le _
    · rw [placed]
      exact Nat.lt_succ_self _
  · refine syncLands blockTime ⟨entries, ?_, space, tracks.numbered.grown⟩ rfl ?_
    · rw [placed]
      exact listed.collapse (Nat.lt_succ_self _) room
    · intro other mem
      rw [mem_singleton.mp mem, numbers]
      exact Nat.lt_succ_self _

theorem replaySpentLands (D : DustHashes) (build : Build) (sk : DustSecretKey)
    (wallet : DustLocalState) (source : HashOutput) {spent : QualifiedDustOutput}
    (nullifier : DustNullifier) (vFee : U128) (declaredTime : Timestamp) {idx : Nat}
    (behind : spent.seq.toNat < idx) (inside : idx < 2 ^ 32) :
    ∃ next change, wallet.replaySpent D build sk source spent nullifier vFee declaredTime idx =
        .ok (next, change) ∧ ∃ utxos, next = { wallet with dustUtxos := utxos } ∧
        (Numbered (idx + 1) wallet.dustUtxos → Numbered (idx + 1) utxos) := by
  rw [replaySpent]
  split
  · exact ⟨wallet, none, rfl, wallet.dustUtxos, rfl, id⟩
  · rename_i genInfo found
    have fits : spent.seq.toNat + (1 : U32).toNat < 2 ^ 32 := by
      change spent.seq.toNat + 1 < 2 ^ 32
      omega
    obtain ⟨seq, added, value⟩ : ∃ c, (plainAdd build spent.seq 1 : Outcome EventReplayError U32) =
        .ok c ∧ c.toNat = spent.seq.toNat + (1 : U32).toNat := plainAddFits fits
    rw [QualifiedDustOutput.successorUtxo, added, okBind, okBind]
    refine ⟨_, _, rfl, _, rfl, fun numbered => numbered.erase.insert ?_ (Nat.lt_succ_self _)⟩
    rw [value]
    exact behind

theorem replaySpendProcessedLands {commitment : DustCommitment} {idx : Nat}
    {declaredTime : Timestamp} (blockTime : Timestamp)
    (tracks : wallet.Tracks H book) (placed : idx = book.commitments.count)
    (room : book.commitments.count < 2 ^ dustCommitmentTreeDepth) :
    Lands H wallet (some blockTime)
      { book with commitments := book.commitments.append (S.commitmentHash commitment) }
      (wallet.replaySpendProcessed S H D build sk source commitment idx nullifier vFee declaredTime
        blockTime) := by
  obtain ⟨coms, committed, listed⟩ := appendCommitmentOk S tracks.commitments placed room commitment
  rw [replaySpendProcessed, committed, okBind]
  split
  · rename_i held found
    obtain ⟨behind, below⟩ := tracks.numbered nullifier held found
    have earlier : held.utxo.seq.toNat < idx := by omega
    obtain ⟨next, change, replayed, utxos, rfl, keeps⟩ := replaySpentLands D build sk { wallet with
        commitmentTree := coms
        commitmentTreeFirstFree := wallet.commitmentTreeFirstFree + 1 }
      source nullifier vFee declaredTime earlier (placed ▸ room)
    rw [replayed, okBind]
    refine syncLands blockTime ⟨tracks.generations, listed, tracks.space, ?_⟩ rfl (by simp)
    rw [placed] at keeps
    exact keeps tracks.numbered.grown
  · refine syncLands blockTime ⟨tracks.generations, ?_, tracks.space, tracks.numbered.grown⟩ rfl
      (by simp)
    rw [placed]
    exact listed.collapse (Nat.lt_succ_self _) room

theorem replayDtimeUpdateLands {idx : Nat} {info : DustGenerationInfo} (blockTime : Timestamp)
    (tracks : wallet.Tracks H book) (inside : idx < 2 ^ dustGenerationTreeDepth)
    (taken : book.generations.leaves idx ≠ none) :
    Lands H wallet (some blockTime)
      { book with generations := book.generations.rewrite idx (S.generationHash info) }
      (wallet.replayDtimeUpdate H build ⟨(S.generationHash info, info), ancestry H
        dustGenerationTreeDepth (write book.generations.leaves idx (S.generationHash info)) idx⟩
        blockTime) := by
  obtain ⟨tree, updated, follows⟩ :=
    tracks.generations.rewrite inside taken (S.generationHash info, info)
  rw [replayDtimeUpdate, if_pos (ancestryHashed _ _ _), okBind, updated]
  refine syncLands blockTime ⟨follows, tracks.commitments, tracks.space, tracks.numbered⟩ rfl
    (by simp)

theorem replayEventLands (tracks : wallet.Tracks H book)
    (described : Describes S H book event.content after) :
    Lands H wallet event.content.blockTime after (wallet.replayEvent S H D build sk event) := by
  obtain ⟨source, content⟩ := event
  have passes {next : DustLocalState} (kept : next.Tracks H after)
      (same : next.syncTime = wallet.syncTime) :
      Lands H wallet none after (.ok (next, none, [])) :=
    .inl ⟨next, none, [], rfl, kept, by simp, same⟩
  cases described with
  | zswapInput nullifier contract => exact passes tracks rfl
  | zswapOutput commitment evidence contract room | paramChange parameters =>
    exact passes ⟨tracks.generations, tracks.commitments, tracks.space, tracks.numbered⟩ rfl
  | initialUtxo output generation blockTime first placed numbers room space =>
    exact replayInitialUtxoLands blockTime tracks first placed numbers room space
  | spendProcessed commitment nullifier vFee declaredTime blockTime placed room =>
    exact replaySpendProcessedLands blockTime tracks placed room
  | dtimeUpdate idx info blockTime inside below taken =>
    exact replayDtimeUpdateLands blockTime tracks inside taken
  | unread unread => cases unread <;> exact passes tracks rfl

theorem describedGrows {content : EventContent W L} (described : Describes S H book content after) :
    book.generations.count ≤ after.generations.count := by
  cases described with
  | initialUtxo => exact Nat.le_succ _
  | _ => exact Nat.le_refl _

theorem timesFollow {synced : Timestamp}
    (sorted : (synced :: blockTimes (event :: events)).Pairwise (· ≤ ·)) :
    (event.content.blockTime.getD synced :: blockTimes events).Pairwise (· ≤ ·) := by
  rw [blockTimesCons] at sorted
  cases timed : event.content.blockTime with
  | none => rwa [timed] at sorted
  | some time =>
    rw [timed] at sorted
    exact (pairwise_cons.mp sorted).2

theorem replayStepsLand {acc : Replay} (tracks : acc.result.Tracks H book)
    (below : ∀ idx ∈ acc.genCollapses, idx < book.generations.count)
    (record : Record (Describes S H) book (events.map content) after) :
    (∃ res, events.foldlM (replayStep S H D build sk) acc = .ok res ∧ res.result.Tracks H after ∧
      (∀ idx ∈ res.genCollapses, idx < after.generations.count) ∧
      (res.result.syncTime = acc.result.syncTime ∨ res.result.syncTime ∈ blockTimes events)) ∨
    (∃ synced time, events.foldlM (replayStep S H D build sk) acc =
        .error (.error (.eventForPastTime synced time))) ∧
      ¬ (acc.result.syncTime :: blockTimes events).Pairwise (· ≤ ·) := by
  induction events generalizing acc book with
  | nil =>
    cases record
    exact .inl ⟨acc, rfl, tracks, below, .inl rfl⟩
  | cons event events ih =>
    cases record with
    | @cons _ between _ _ _ described rest =>
      have lands : Lands H acc.result event.content.blockTime between
          (acc.result.replayEvent S H D build sk event) := replayEventLands tracks described
      rw [foldlM_cons, replayStep]
      rcases lands with
        ⟨next, change, collapses, replayed, follows, fresh, synced⟩ | ⟨time, timed, past, refused⟩
      · rw [replayed, okBind, okBind]
        have grows := describedGrows described
        have listed : ∀ idx ∈ acc.genCollapses ++ collapses, idx < between.generations.count := by
          intro idx mem
          rcases mem_append.mp mem with old | new
          · exact lt_of_lt_of_le (below idx old) grows
          · exact fresh idx new
        let reached : Replay :=
          ⟨next, maybeAddDustChange acc.changes change, acc.genCollapses ++ collapses⟩
        have onward : reached.result.Tracks H between := follows
        rcases ih onward listed rest with ⟨res, run, further, collapsed, times⟩ | ⟨stopped, late⟩
        · refine .inl ⟨res, run, further, collapsed, ?_⟩
          rw [blockTimesCons]
          rcases times with same | inside
          · rw [same, synced]
            cases event.content.blockTime with
            | none => exact .inl rfl
            | some time => exact .inr mem_cons_self
          · exact .inr (mem_append_right _ inside)
        · refine .inr ⟨stopped, fun sorted => late ?_⟩
          have follow := timesFollow sorted
          rwa [← synced] at follow
      · rw [refused]
        refine .inr ⟨⟨_, time, rfl⟩, fun sorted => ?_⟩
        rw [blockTimesCons, timed] at sorted
        have least := (pairwise_cons.mp sorted).1 time mem_cons_self
        exact absurd past (BitVec.not_lt.mpr least)

theorem forgetGenerationsTracks (tracks : wallet.Tracks H book)
    (below : ∀ idx ∈ collapses, idx < book.generations.count) :
    (wallet.forgetGenerations H collapses).Tracks H book := by
  refine ⟨?_, tracks.commitments, tracks.space, tracks.numbered⟩
  have through (tree : MerkleTrees.Tree HashOutput Fr DustGenerationInfo dustGenerationTreeDepth)
      (holds : tree.Tracks H wallet.generatingTreeFirstFree book.generations) :
      (collapses.foldl (fun tree idx => tree.collapse H _ idx idx) tree).Tracks H
        wallet.generatingTreeFirstFree book.generations := by
    induction collapses generalizing tree with
    | nil => exact holds
    | cons idx collapses ih =>
      have here := below idx mem_cons_self
      refine ih (forall_mem_cons.mp below).2 _ ?_
      exact holds.collapse here (lt_of_lt_of_le here tracks.space)
  exact through wallet.generatingTree tracks.generations

theorem rehashedTracks (tracks : wallet.Tracks H book) : (wallet.rehashed H).Tracks H book :=
  ⟨tracks.generations.rehash, tracks.commitments.rehash, tracks.space, tracks.numbered⟩

theorem replayEventsLand (tracks : wallet.Tracks H book)
    (record : Record (Describes S H) book (batch.map content) after) :
    (∃ next, wallet.replayEvents S H D build sk batch = .ok next ∧ next.Tracks H after ∧
      (next.syncTime = wallet.syncTime ∨ next.syncTime ∈ blockTimes batch)) ∨
    (∃ synced time, wallet.replayEvents S H D build sk batch =
        .error (.error (.eventForPastTime synced time))) ∧
      ¬ (wallet.syncTime :: blockTimes batch).Pairwise (· ≤ ·) := by
  let start : Replay := ⟨wallet, [], []⟩
  have before : start.result.Tracks H book := tracks
  rw [replayEvents, replayEventsWithChanges]
  rcases replayStepsLand (D := D) before nofun record with
    ⟨res, run, follows, below, times⟩ | ⟨⟨synced, time, stopped⟩, late⟩
  · rw [run, okBind]
    exact .inl ⟨_, rfl, rehashedTracks (forgetGenerationsTracks follows below), times⟩
  · rw [stopped]
    exact .inr ⟨⟨synced, time, rfl⟩, late⟩

theorem survivingHeld {time : Timestamp} {entry : DustNullifier × DustWalletUtxoState × Nat}
    (mem : entry ∈ wallet.surviving time) :
    ∃ held, wallet.dustUtxos.lookup entry.1 = some held ∧ entry.2.1.utxo = held.utxo := by
  obtain ⟨⟨nullifier, held⟩, inside, kept⟩ := mem_filterMap.mp mem
  obtain ⟨genIdx, -, rest⟩ := bind_eq_some_iff.mp kept
  obtain ⟨leaf, -, last⟩ := bind_eq_some_iff.mp rest
  dsimp only at last
  split at last
  · cases last
  · cases last
    exact ⟨held, mem_lookup_iff.mpr inside, rfl⟩

theorem processTtlsTracks (time : Timestamp) (tracks : wallet.Tracks H book) :
    (wallet.processTtls time).Tracks H book := by
  refine ⟨tracks.generations, tracks.commitments, tracks.space, ?_⟩
  -- The map is made anew from what is left of the old one.
  have through (kept : List (DustNullifier × DustWalletUtxoState × Nat))
      (utxos : Map DustNullifier DustWalletUtxoState)
      (held : ∀ entry ∈ kept, entry ∈ wallet.surviving time)
      (numbered : Numbered book.commitments.count utxos) :
      Numbered book.commitments.count
        (kept.foldl (fun utxos entry => utxos.insert entry.1 entry.2.1) utxos) := by
    induction kept generalizing utxos with
    | nil => exact numbered
    | cons entry kept ih =>
      obtain ⟨old, found, same⟩ := survivingHeld (held entry mem_cons_self)
      obtain ⟨behind, placed⟩ := tracks.numbered entry.1 old found
      rw [← same] at behind placed
      exact ih _ (forall_mem_cons.mp held).2 (numbered.insert behind placed)
  exact through _ ∅ (fun _ mem => mem) fun _ _ found => by cases found

variable {spend : DustSpend}

theorem spendOk {next : DustLocalState}
    (ok : wallet.spend S H D build sk utxo vFee ctime = .ok (next, spend)) :
    ∃ genInfo entry seq, wallet.generationInfo utxo = some genInfo ∧
      wallet.dustUtxos.lookup (utxo.nullifier D sk) = some entry ∧
      vFee ≤ utxo.output.updatedValue genInfo ctime wallet.params ∧
      (plainAdd build utxo.seq 1 : Outcome DustSpendError U32) = .ok seq ∧
      spend = ⟨vFee, utxo.nullifier D sk, S.dustCommitment
        (utxo.output.updatedValue genInfo ctime wallet.params - vFee) utxo.owner
        (D.dustNonce utxo.backingNight seq sk) ctime⟩ ∧
      next = { wallet with dustUtxos := wallet.dustUtxos.insert (utxo.nullifier D sk) { entry with
        pendingUntil := some (Timestamp.add ctime wallet.params.dustGracePeriod) } } := by
  obtain ⟨genIdx, indexed, ok⟩ := bindOk.mp ok
  obtain ⟨leaf, there, ok⟩ := bindOk.mp ok
  obtain ⟨-, -, ok⟩ := bindOk.mp ok
  obtain ⟨-, -, ok⟩ := bindOk.mp ok
  dsimp only at ok
  split at ok
  · cases ok
  · rename_i enough
    obtain ⟨seq, added, ok⟩ := bindOk.mp ok
    obtain ⟨entry, held, ok⟩ := bindOk.mp ok
    obtain ⟨-, -, ok⟩ := bindOk.mp ok
    obtain ⟨-, -, ok⟩ := bindOk.mp ok
    cases ok
    have known : wallet.generationInfo utxo = some leaf.2 := bind_eq_some_iff.mpr
      ⟨genIdx, okOrOk.mp (liftOk.mp indexed), bind_eq_some_iff.mpr
        ⟨leaf, okOrOk.mp (liftOk.mp there), rfl⟩⟩
    exact ⟨leaf.2, entry, seq, known, okOrOk.mp (liftOk.mp held), BitVec.not_lt.mp enough, added, rfl,
      rfl⟩

theorem spendTracks {next : DustLocalState} (tracks : wallet.Tracks H book)
    (ok : wallet.spend S H D build sk utxo vFee ctime = .ok (next, spend)) :
    next.Tracks H book ∧ next.syncTime = wallet.syncTime := by
  obtain ⟨genInfo, entry, seq, -, held, -, -, -, rfl⟩ := spendOk ok
  obtain ⟨behind, placed⟩ := tracks.numbered _ entry held
  exact ⟨⟨tracks.generations, tracks.commitments, tracks.space,
    tracks.numbered.insert behind placed⟩, rfl⟩

/- A wallet that has replayed events in batches, and in between dropped what had run out or built
spends. -/
inductive Replayed (S : Services W) (H : TreeHashing) (D : DustHashes) (build : Build)
    (sk : DustSecretKey) (start : DustLocalState) :
    List (LedgerEvent W L) → DustLocalState → Prop where
  | start : Replayed S H D build sk start [] start
  | batch {done batch : List (LedgerEvent W L)} {wallet next : DustLocalState}
      (before : Replayed S H D build sk start done wallet)
      (ok : wallet.replayEvents S H D build sk batch = .ok next) :
      Replayed S H D build sk start (done ++ batch) next
  | processTtls {done : List (LedgerEvent W L)} {wallet : DustLocalState} (time : Timestamp)
      (before : Replayed S H D build sk start done wallet) :
      Replayed S H D build sk start done (wallet.processTtls time)
  | spend {done : List (LedgerEvent W L)} {wallet next : DustLocalState} {utxo : QualifiedDustOutput}
      {vFee : U128} {ctime : Timestamp} {spend : DustSpend}
      (before : Replayed S H D build sk start done wallet)
      (ok : wallet.spend S H D build sk utxo vFee ctime = .ok (next, spend)) :
      Replayed S H D build sk start done next

theorem Replayed.tracks (replayed : Replayed S H D build sk (new params) done wallet)
    (record : Record (Describes S H) Book.empty (done.map content) book) :
    wallet.Tracks H book ∧ (wallet.syncTime = 0 ∨ wallet.syncTime ∈ blockTimes done) := by
  induction replayed generalizing book with
  | start =>
    cases record
    exact ⟨newTracks params, .inl rfl⟩
  | @batch done batch wallet next before ok ih =>
    rw [map_append] at record
    obtain ⟨middle, first, rest⟩ := record.split
    obtain ⟨tracks, synced⟩ := ih first
    rw [blockTimesAppend]
    rcases replayEventsLand tracks rest with ⟨other, again, follows, times⟩ | ⟨⟨_, _, refused⟩, -⟩
    · cases ok.symm.trans again
      refine ⟨follows, ?_⟩
      rcases times with same | late
      · rw [same]
        exact synced.imp_right (mem_append_left _)
      · exact .inr (mem_append_right _ late)
    · cases ok.symm.trans refused
  | processTtls time before ih =>
    obtain ⟨tracks, synced⟩ := ih record
    exact ⟨processTtlsTracks time tracks, synced⟩
  | spend before ok ih =>
    obtain ⟨tracks, synced⟩ := ih record
    obtain ⟨follows, same⟩ := spendTracks tracks ok
    exact ⟨follows, same ▸ synced⟩

theorem Replayed.next (replayed : Replayed S H D build sk (new params) done wallet)
    (record : Record (Describes S H) Book.empty ((done ++ batch).map content) book)
    (sorted : (blockTimes (done ++ batch)).Pairwise (· ≤ ·)) :
    ∃ next, wallet.replayEvents S H D build sk batch = .ok next := by
  rw [map_append] at record
  obtain ⟨middle, first, rest⟩ := record.split
  obtain ⟨tracks, synced⟩ := replayed.tracks first
  rcases replayEventsLand tracks rest with ⟨next, ok, -⟩ | ⟨-, late⟩
  · exact ⟨next, ok⟩
  · rw [blockTimesAppend, pairwise_append] at sorted
    refine absurd (pairwise_cons.mpr ⟨fun time mem => ?_, sorted.2.1⟩) late
    rcases synced with none | past
    · rw [none]
      exact BitVec.le_def.mpr (Nat.zero_le _)
    · exact sorted.2.2 _ past time mem

theorem Tracks.agrees {state : Followed} (tracks : wallet.Tracks H book)
    (stands : Stands H state book) :
    wallet.commitmentTreeFirstFree = state.dust.utxo.commitmentsFirstFree ∧
      wallet.generatingTreeFirstFree = state.dust.generation.generatingTreeFirstFree ∧
      (wallet.commitmentTree.rehash H).root H = some (state.dust.utxo.commitments.root H) ∧
      (wallet.generatingTree.rehash H).root H =
        some (state.dust.generation.generatingTree.root H) := by
  refine ⟨tracks.commitments.next.trans stands.commitments.next.symm,
    tracks.generations.next.trans stands.generations.next.symm, ?_, ?_⟩
  · rw [Tree.holdsRoot tracks.commitments.holds, stands.commitments.root]
  · rw [Tree.holdsRoot tracks.generations.holds, stands.generations.root]

end DustLocalState

/- After all events of a run a wallet has the next free indices and the roots of the ledger. Only
a block time that goes back can keep a Dust wallet from replaying the next batch. -/
theorem walletTreesAgree {S : Services W.shielded} {H : TreeHashing} {build : Build}
    {reason : Zswap.TransactionInvalid → W.Rejection} {R : Reporting W.shielded L}
    {networkId : String} {parameters : LedgerParameters W.shielded} {locked reserve treasury : U128}
    {genesis final : LedgerState W.shielded} {steps : List (Step W.shielded)}
    {events : List (LedgerEvent W.shielded L)}
    (started : LedgerState.withGenesisSettings (S.shielded H reason) build networkId parameters
      locked reserve treasury = .ok genesis)
    (ran : run (stepTold (S.shielded H reason) H build R) (genesis, []) steps =
      .ok (final, events)) :
    (∀ (E : Type) (C : Cryptography E) (keys : SecretKeys E)
        (batches : List (List (LedgerEvent W.shielded L))), batches.flatten = events →
      ∃ wallet, run (replayBatch C H keys) LocalState.new batches = .ok wallet ∧
        wallet.firstFree = final.zswap.firstFree ∧
        (wallet.merkleTree.rehash H).root H = (final.zswap.coinComs.rehash H).root H) ∧
    ∀ (D : DustHashes) (sk : DustSecretKey) (params : DustParameters),
      (∀ wallet, DustLocalState.Replayed (S.shielded H reason) H D build sk (.new params) events
          wallet → wallet.commitmentTreeFirstFree = final.dust.utxo.commitmentsFirstFree ∧
        wallet.generatingTreeFirstFree = final.dust.generation.generatingTreeFirstFree ∧
        (wallet.commitmentTree.rehash H).root H = some (final.dust.utxo.commitments.root H) ∧
        (wallet.generatingTree.rehash H).root H =
          some (final.dust.generation.generatingTree.root H)) ∧
      ((steps.map Step.tblock).Pairwise (· ≤ ·) → ∀ done batch later wallet,
        done ++ batch ++ later = events →
        DustLocalState.Replayed (S.shielded H reason) H D build sk (.new params) done wallet →
        ∃ next, wallet.replayEvents (S.shielded H reason) H D build sk batch = .ok next) := by
  have stands : Stands H genesis.followed Book.empty := by
    obtain ⟨⟨⟩, -, rfl⟩ := pureOk.mp started
    exact genesisStands
  obtain ⟨new, after, told, record, standing, ordered, -⟩ := runDescribed stands ran
  obtain rfl : events = new := told
  refine ⟨fun E C keys batches cut => ?_, fun D sk params => ⟨fun wallet replayed => ?_, ?_⟩⟩
  · rw [← cut] at record
    have blank : LocalState.new.merkleTree.Tracks H LocalState.new.firstFree Book.empty.shielded :=
      Tree.tracksBlank
    obtain ⟨wallet, run, tracks⟩ := batchesReplayed (C := C) blank record
    exact ⟨wallet, run, tracks.sameRoot standing.shielded⟩
  · exact (replayed.tracks record).1.agrees standing
  · intro sorted done batch later wallet cut replayed
    rw [← cut, map_append] at record
    obtain ⟨middle, first, -⟩ := record.split
    have times := ordered sorted
    rw [← cut, blockTimesAppend, pairwise_append] at times
    exact replayed.next first times.1

def bridgedSteps : List (Step shieldedComponents) :=
  [.system (.cNightGeneratesDustUpdate [bridgedNight .create]) 5,
    .transaction (withOffer receivingOffer) shieldedContext, .postBlock 6 (),
    .system (.cNightGeneratesDustUpdate [bridgedNight .destroy]) 7]

def bridgedRun : LedgerState shieldedComponents × List (LedgerEvent shieldedComponents Unit) :=
  value (run (stepTold shieldedServices sampleHashing .debug silentReporting)
    (shieldedGenesis, []) bridgedSteps) (by decide +kernel)

theorem bridgedTreesAgree : ∃ shielded early late,
    run (replayBatch walletCryptography sampleHashing walletKeys) LocalState.new
        [bridgedRun.2.take 1, bridgedRun.2.drop 1] = .ok shielded ∧
      shielded.firstFree = bridgedRun.1.zswap.firstFree ∧
      (DustLocalState.new ⟨5, 1, 0⟩).replayEvents shieldedServices sampleHashing sampleDustHashes
        .debug ⟨9⟩ (bridgedRun.2.take 1) = .ok early ∧
      early.replayEvents shieldedServices sampleHashing sampleDustHashes .debug ⟨9⟩
        (bridgedRun.2.drop 1) = .ok late ∧
      (late.generatingTree.rehash sampleHashing).root sampleHashing =
        some (bridgedRun.1.dust.generation.generatingTree.root sampleHashing) := by
  have started : LedgerState.withGenesisSettings shieldedServices .debug "net" shieldedParameters 0
      (BitVec.ofNat 128 maxSupply) 0 = .ok shieldedGenesis := valueOk _
  have run : run (stepTold shieldedServices sampleHashing .debug silentReporting)
      (shieldedGenesis, []) bridgedSteps = .ok bridgedRun := valueOk _
  have ran : Simulation.run (stepTold shieldedServices sampleHashing .debug silentReporting)
      (shieldedGenesis, []) bridgedSteps = .ok (bridgedRun.1, bridgedRun.2) := run
  have sorted : (bridgedSteps.map Step.tblock).Pairwise (· ≤ ·) := by decide
  have cut : bridgedRun.2.take 1 ++ bridgedRun.2.drop 1 = bridgedRun.2 := take_append_drop ..
  obtain ⟨zswap, dust⟩ := walletTreesAgree started ran
  obtain ⟨shielded, replayed, first, -⟩ := zswap Unit walletCryptography walletKeys
    [bridgedRun.2.take 1, bridgedRun.2.drop 1] (by rw [flatten_cons, flatten_singleton, cut])
  obtain ⟨agree, taken⟩ := dust sampleDustHashes ⟨9⟩ ⟨5, 1, 0⟩
  obtain ⟨early, one⟩ := taken sorted [] _ (bridgedRun.2.drop 1) _ cut .start
  obtain ⟨late, two⟩ := taken sorted (bridgedRun.2.take 1) (bridgedRun.2.drop 1) [] early
    (by rw [append_nil, cut]) (.batch .start one)
  have all := agree late (cut ▸ .batch (.batch .start one) two)
  exact ⟨shielded, early, late, replayed, first, one, two, all.2.2.2⟩

end MidnightLedger.Ledger

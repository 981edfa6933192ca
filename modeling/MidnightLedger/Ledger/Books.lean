import MidnightLedger.Ledger.Generation
import MidnightLedger.Ledger.DustWallet
import MidnightLedger.Ledger.Moves

/-! The rolls of the three trees that wallets follow, and what each event says about them. -/
namespace MidnightLedger.Ledger
open ByteString Maps Words Loops Journals MerkleTrees Zswap List Option Tree Zswap.State Simulation

variable {W : Components} {L A : Type}

structure Book where
  shielded : Roll HashOutput
  commitments : Roll HashOutput
  generations : Roll HashOutput

def Book.empty : Book := ⟨.empty, .empty, .empty⟩

/- An event is for the next free index of its tree; an update of a generation entry has the
digests above it as they are afterwards. -/
inductive Describes (S : Services W) (H : TreeHashing) :
    Book → EventContent W L → Book → Prop where
  | zswapInput {book : Book} (nullifier : Nullifier) (contract : Option ContractAddress) :
      Describes S H book (.zswap (.zswapInput nullifier contract)) book
  | zswapOutput {book : Book} (commitment : Commitment) (evidence : ZswapPreimageEvidence)
      (contract : Option ContractAddress) (room : book.shielded.count < 2 ^ zswapTreeHeight) :
      Describes S H book
        (.zswap (.zswapOutput commitment evidence contract book.shielded.count))
        { book with shielded := book.shielded.append commitment }
  | initialUtxo {book : Book} {idx : Nat} (output : QualifiedDustOutput)
      (generation : DustGenerationInfo) (blockTime : Timestamp) (first : output.seq = 0)
      (placed : output.mtIndex = book.commitments.count) (entered : idx = book.generations.count)
      (room : book.commitments.count < 2 ^ dustCommitmentTreeDepth)
      (space : book.generations.count < 2 ^ dustGenerationTreeDepth) :
      Describes S H book
        (.dustInitialUtxo output generation idx blockTime)
        { book with
          commitments := book.commitments.append (S.commitmentHash (output.commitment S))
          generations := book.generations.append (S.generationHash generation) }
  | spendProcessed {book : Book} {idx : Nat} (commitment : DustCommitment)
      (nullifier : DustNullifier) (vFee : U128) (declaredTime blockTime : Timestamp)
      (placed : idx = book.commitments.count)
      (room : book.commitments.count < 2 ^ dustCommitmentTreeDepth) :
      Describes S H book
        (.dustSpendProcessed commitment idx nullifier vFee declaredTime blockTime)
        { book with commitments := book.commitments.append (S.commitmentHash commitment) }
  | dtimeUpdate {book : Book} (idx : Nat) (info : DustGenerationInfo) (blockTime : Timestamp)
      (inside : idx < 2 ^ dustGenerationTreeDepth) (below : idx < book.generations.count)
      (taken : book.generations.leaves idx ≠ none) :
      Describes S H book
        (.dustGenerationDtimeUpdate ⟨(S.generationHash info, info), ancestry H
          dustGenerationTreeDepth (write book.generations.leaves idx (S.generationHash info)) idx⟩
          blockTime)
        { book with generations := book.generations.rewrite idx (S.generationHash info) }
  | paramChange {book : Book} (parameters : LedgerParameters W) :
      Describes S H book (.paramChange parameters) book
  | unread {book : Book} {content : EventContent W L} (unread : content.Unread) :
      Describes S H book content book

def EventContent.blockTime : EventContent W L → Option Timestamp
  | .dustInitialUtxo _ _ _ blockTime => some blockTime
  | .dustSpendProcessed _ _ _ _ _ blockTime => some blockTime
  | .dustGenerationDtimeUpdate _ blockTime => some blockTime
  | _ => none

def blockTimes (events : List (LedgerEvent W L)) : List Timestamp :=
  (events.map LedgerEvent.content).filterMap EventContent.blockTime

theorem blockTimesCons (event : LedgerEvent W L) (events : List (LedgerEvent W L)) :
    blockTimes (event :: events) = event.content.blockTime.toList ++ blockTimes events := by
  rw [blockTimes, map_cons, filterMap_cons]
  cases event.content.blockTime <;> rfl

theorem blockTimesAppend (first second : List (LedgerEvent W L)) :
    blockTimes (first ++ second) = blockTimes first ++ blockTimes second := by
  rw [blockTimes, map_append, filterMap_append, blockTimes, blockTimes]

variable {H : TreeHashing} {roll : Roll HashOutput}

namespace MerkleTree

structure Lists (tree : MerkleTree A) (depth firstFree : Nat) (roll : Roll HashOutput) : Prop where
  height : tree.height = depth
  next : firstFree = roll.count
  room : roll.count ≤ 2 ^ depth
  leaves : ∀ i, (tree.index i).map Prod.fst = roll.leaves i
  below : ∀ i, roll.leaves i ≠ none → i < roll.count

variable {tree updated : MerkleTree A} {depth firstFree i : Nat} {leaf : HashOutput} {aux : A}

theorem blankLists (depth : Nat) : (blank depth : MerkleTree A).Lists depth 0 .empty where
  height := rfl
  next := rfl
  room := Nat.zero_le _
  leaves i := by
    rfl
  below _ taken := absurd rfl taken

theorem tryUpdateHashInside (ok : tree.tryUpdateHash i leaf aux = .ok updated) :
    i < 2 ^ tree.height ∧ updated.height = tree.height := by
  rw [tryUpdateHash] at ok
  split at ok <;> try contradiction
  cases ok
  exact ⟨by omega, rfl⟩

theorem writtenLeaves (leaves : ∀ j, (tree.index j).map Prod.fst = roll.leaves j)
    (ok : tree.tryUpdateHash i leaf aux = .ok updated) (j : Nat) :
    (updated.index j).map Prod.fst = write roll.leaves i leaf j := by
  rw [tryUpdateHashIndex ok, write]
  split
  · rfl
  · exact leaves j

theorem Lists.append (lists : tree.Lists depth firstFree roll)
    (ok : tree.tryUpdateHash firstFree leaf aux = .ok updated) :
    roll.count < 2 ^ depth ∧ updated.Lists depth (firstFree + 1) (roll.append leaf) := by
  obtain ⟨rfl, rfl, room, leaves, below⟩ := lists
  obtain ⟨inside, same⟩ := tryUpdateHashInside ok
  refine ⟨inside, same, rfl, inside, writtenLeaves leaves ok, fun j taken => ?_⟩
  change (if j = roll.count then some leaf else roll.leaves j) ≠ none at taken
  split at taken
  · rename_i here
    exact here ▸ Nat.lt_succ_self _
  · exact Nat.lt_succ_of_lt (below j taken)

variable {old : HashOutput × A}

theorem Lists.rewrite (lists : tree.Lists depth firstFree roll)
    (there : tree.index i = some old) (ok : tree.tryUpdateHash i leaf aux = .ok updated) :
    i < 2 ^ depth ∧ i < roll.count ∧ roll.leaves i ≠ none ∧
      updated.Lists depth firstFree (roll.rewrite i leaf) := by
  obtain ⟨rfl, rfl, room, leaves, below⟩ := lists
  obtain ⟨inside, same⟩ := tryUpdateHashInside ok
  have taken : roll.leaves i ≠ none := by
    rw [← leaves, there]
    exact some_ne_none _
  refine ⟨inside, below i taken, taken, same, rfl, room, writtenLeaves leaves ok, fun j held => ?_⟩
  change (if j = i then some leaf else roll.leaves j) ≠ none at held
  split at held
  · rename_i here
    exact here ▸ below i taken
  · exact below j held

theorem filledBy {h : Nat} {entries : List (Sigma fun _ : Nat => HashOutput × A)}
    (inside : ∀ entry ∈ entries, entry.1 < 2 ^ h) :
    let filled := entries.foldr place (.blank h : Tree HashOutput Fr A h)
    filled.Holds H (fun i => (entries.dlookup i).map Prod.fst) ∧
      (∀ i < 2 ^ h, filled.IsOpen h i) ∧ ∀ i < 2 ^ h, filled.index h i = entries.dlookup i := by
  induction entries with
  | nil => exact ⟨holdsBlank, fun i bound => blankOpen bound, fun i _ => blankIndex i⟩
  | cons entry entries ih =>
    obtain ⟨idx, leaf, aux⟩ := entry
    obtain ⟨holds, isOpen, index⟩ := ih (forall_mem_cons.mp inside).2
    have here : idx < 2 ^ h := inside _ mem_cons_self
    obtain ⟨next, written⟩ := (tryUpdateHashIff leaf aux).mpr (isOpen idx here)
    have lookup (i : Nat) : List.dlookup i (⟨idx, leaf, aux⟩ :: entries) =
        if i = idx then some (leaf, aux) else List.dlookup i entries := by
      split
      · rename_i same
        rw [same, dlookup_cons_eq]
      · rename_i other
        rw [dlookup_cons_ne _ _ other]
    have placed : place ⟨idx, leaf, aux⟩ (entries.foldr place (.blank h)) = next := by
      rw [place, written]
    simp only [foldr_cons, placed]
    refine ⟨?_, fun i bound => (tryUpdateHashOpen written i).mpr (isOpen i bound),
      fun i bound => ?_⟩
    · refine holdsSame (fun i _ => ?_) (holdsWritten holds written)
      rw [lookup, write]
      split <;> rfl
    · rw [Tree.tryUpdateHashIndex written bound, index i bound, lookup]

variable (tree) in
theorem filledHolds (inside : ∀ i, tree.index i ≠ none → i < 2 ^ tree.height) :
    tree.filled.Holds H (fun i => (tree.index i).map Prod.fst) ∧
      ∀ i < 2 ^ tree.height, tree.filled.index _ i = tree.index i := by
  have keys : ∀ entry ∈ tree.leaves.entries, entry.1 < 2 ^ tree.height := by
    intro entry mem
    refine inside entry.1 ?_
    have found : tree.index entry.1 = some entry.2 :=
      mem_dlookup_iff tree.leaves.nodupKeys |>.mpr mem
    rw [found]
    exact some_ne_none _
  obtain ⟨holds, -, index⟩ := filledBy (H := H) keys
  exact ⟨holds, index⟩

section

variable (lists : tree.Lists depth firstFree roll)
include lists

theorem Lists.filled : tree.filled.Holds H roll.leaves ∧
      ∀ i < 2 ^ tree.height, tree.filled.index _ i = tree.index i := by
  obtain ⟨rfl, rfl, room, leaves, below⟩ := lists
  have inside : ∀ i, tree.index i ≠ none → i < 2 ^ tree.height := by
    intro i present
    refine lt_of_lt_of_le (below i ?_) room
    rw [← leaves]
    exact fun absent => present (map_eq_none_iff.mp absent)
  obtain ⟨holds, index⟩ := filledHolds (H := H) tree inside
  exact ⟨holdsSame (fun i _ => leaves i) holds, index⟩

theorem Lists.root : tree.root H = digestOf H depth roll.leaves := by
  rw [MerkleTree.root, holdsDigest lists.filled.1, lists.height]

theorem Lists.evidence (above : depth ≠ 0) (there : tree.index i = some old) :
    tree.insertionEvidence H i = some ⟨old, ancestry H depth roll.leaves i⟩ := by
  obtain ⟨holds, index⟩ := lists.filled (H := H)
  obtain ⟨rfl, rfl, room, leaves, below⟩ := lists
  have inside : i < 2 ^ tree.height := by
    refine lt_of_lt_of_le (below i ?_) room
    rw [← leaves, there]
    exact some_ne_none _
  have present := index i inside
  rw [there] at present
  rw [insertionEvidence, insertionEvidenceHolds above holds present]
  rfl

end

end MerkleTree

structure Stands (H : TreeHashing) (state : Followed) (book : Book) : Prop where
  shielded : state.zswap.coinComs.Tracks H state.zswap.firstFree book.shielded
  space : state.zswap.firstFree ≤ 2 ^ zswapTreeHeight
  commitments : state.dust.utxo.commitments.Lists dustCommitmentTreeDepth
    state.dust.utxo.commitmentsFirstFree book.commitments
  generations : state.dust.generation.generatingTree.Lists dustGenerationTreeDepth
    state.dust.generation.generatingTreeFirstFree book.generations

section

variable {S : Services W.shielded} {build : Build} {reason : Zswap.TransactionInvalid → W.Rejection}

theorem genesisStands : Stands H ⟨new, DustState.default⟩ Book.empty where
  shielded := tracksBlank
  space := Nat.zero_le _
  commitments := MerkleTree.blankLists _
  generations := MerkleTree.blankLists _

variable {whitelist : Whitelist} {offer : Offer} {indices : ComIndices}
  {source : EventSource} {book : Book} {events : List Event}

section Shielded

variable {zswap next : Zswap.State}

section

variable (tracks : zswap.coinComs.Tracks H zswap.firstFree roll)
include tracks

theorem writeCommitmentTracked {coinCom : Commitment} {contract : Option ContractAddress}
    {tree : CommitmentTree (Option ContractAddress)}
    (ok : zswap.writeCommitment H whitelist coinCom contract = .ok tree) :
    tree.Tracks H (zswap.firstFree + 1) (roll.append coinCom) := by
  obtain ⟨written, updated, last⟩ := bindOk.mp ok
  have after := tracks.written updated
  have inside := openInside ((tryUpdateHashIff coinCom contract).mp ⟨_, updated⟩)
  split at last <;> cases last
  · exact after
  · refine after.collapse ?_ inside
    rw [tracks.next]
    exact Nat.lt_succ_self _

theorem applyItemTracked {item : Item} (ok : zswap.applyItem H whitelist item = .ok next) :
    next.coinComs.Tracks H next.firstFree (roll.appendAll item.commitments) := by
  obtain ⟨-, tree, grown, rfl⟩ := applyItemIff.mp ok
  rw [itemTree] at grown
  split at grown
  · rename_i coinCom contract creates
    rw [Zswap.State.grown, Item.commitments, creates]
    exact writeCommitmentTracked tracks grown
  · rename_i creates
    cases grown
    rw [grown, Item.commitments, creates]
    exact tracks

theorem itemsTracked {items : List Item}
    (run : run (applyItem H whitelist) zswap items = .ok next) :
    next.coinComs.Tracks H next.firstFree (roll.appendAll (items.flatMap Item.commitments)) := by
  induction items generalizing zswap roll with
  | nil =>
    cases runNil.mp run
    exact tracks
  | cons item items ih =>
    obtain ⟨middle, taken, rest⟩ := runCons.mp run
    rw [flatMap_cons, Roll.appendAll, foldl_append]
    exact ih (applyItemTracked tracks taken) rest

theorem tryApplyTracked (ok : zswap.tryApply H whitelist offer = .ok (next, indices)) :
    next.coinComs.Tracks H next.firstFree (roll.appendAll (offer.created.map Output.coinCom)) := by
  rw [← itemsCommitments]
  exact itemsTracked tracks (tryApplyIff.mp ⟨indices, ok⟩)

end

theorem outputsDescribed {outs : List Output}
    (room : book.shielded.count + outs.length ≤ 2 ^ zswapTreeHeight)
    (indexed : Indexed indices book.shielded.count (outs.map Output.coinCom))
    (told : outs.mapM (outputEvent source indices) = some events) :
    Record (Describes (L := L) S H) book (events.map fun event => .zswap event.content)
      { book with shielded := book.shielded.appendAll (outs.map Output.coinCom) } := by
  induction outs generalizing book events with
  | nil =>
    cases told
    exact .nil _
  | cons out outs ih =>
    rw [mapM_cons] at told
    obtain ⟨event, first, rest⟩ := bind_eq_some_iff.mp told
    obtain ⟨others, more, last⟩ := bind_eq_some_iff.mp rest
    cases last
    obtain ⟨mtIndex, found, same⟩ := bind_eq_some_iff.mp first
    cases same
    obtain ⟨here, later⟩ := indexed
    cases found.symm.trans here
    rw [length_cons] at room
    refine .cons (.zswapOutput _ _ _ (by omega)) (ih ?_ later more)
    change book.shielded.count + 1 + outs.length ≤ 2 ^ zswapTreeHeight
    omega

theorem inputsDescribed (inputs : List Input) : Record (Describes (L := L) S H) book
      ((inputs.map (inputEvent source)).map fun event => .zswap event.content) book := by
  induction inputs with
  | nil => exact .nil _
  | cons inp inputs ih => exact .cons (.zswapInput _ _) ih

end Shielded

variable {state : Followed} {shields : Prop} {told : List (EventContent W.shielded L)}

theorem offerDescribed {next : Zswap.State} (stands : Stands H state book)
    (tried : state.zswap.tryApply H whitelist offer = .ok (next, indices))
    (told : zswapEvents H source offer indices = some events) :
    ∃ after, Record (Describes (L := L) S H) book (events.map fun event => .zswap event.content)
        after ∧ Stands H { state with zswap := next } after := by
  obtain ⟨outputs, listed, last⟩ := bind_eq_some_iff.mp told
  cases last
  obtain ⟨indexed, count, bound, -⟩ := tryApplyIndexed stands.space tried
  rw [stands.shielded.next] at indexed count
  refine ⟨{ book with shielded := book.shielded.appendAll (offer.created.map Output.coinCom) }, ?_,
    tryApplyTracked stands.shielded tried, bound, stands.commitments, stands.generations⟩
  rw [map_append]
  exact (inputsDescribed _).append (outputsDescribed (by omega) indexed listed)

variable {tblock : Timestamp}

section Dust

variable {next : DustState} {time : Timestamp}

theorem spendDescribed {spend : DustSpend} (stands : Stands H state book)
    (ok : (state.dust.applySpend S spend : Applied W.shielded DustState) =
      .ok next) :
    ∃ after, Describes (L := L) S H book (.dustSpendProcessed spend.newCommitment
        state.dust.utxo.commitmentsFirstFree spend.oldNullifier spend.vFee time tblock) after ∧
      Stands H { state with dust := next } after := by
  rw [DustState.applySpend] at ok
  split at ok <;> try contradiction
  obtain ⟨commitments, updated, rfl⟩ := pureOk.mp ok
  obtain ⟨room, lists⟩ := stands.commitments.append (liftOk.mp updated)
  exact ⟨_, .spendProcessed _ _ _ _ _ stands.commitments.next room, stands.shielded, stands.space,
    lists, stands.generations⟩

theorem generateDescribed {nonce : InitialNonce} {initialValue nightValue : U128}
    {dustAddr : DustPublicKey} {tnow : Timestamp} (stands : Stands H state book)
    (ok : state.dust.freshDustOutput S nonce initialValue nightValue dustAddr tnow = .ok next) :
    ∃ after, Describes (L := L) S H book
        (state.dust.initialUtxo S nonce initialValue nightValue dustAddr tnow tblock) after ∧
      Stands H { state with dust := next } after := by
  obtain ⟨commitments, committed, rest⟩ := bindOk.mp ok
  simp only at rest
  split at rest <;> try contradiction
  obtain ⟨tree, updated, rfl⟩ := pureOk.mp rest
  obtain ⟨room, lists⟩ := stands.commitments.append (mapErrorOk.mp committed)
  obtain ⟨space, entries⟩ := stands.generations.append (mapErrorOk.mp updated)
  exact ⟨_, .initialUtxo _ _ _ rfl stands.commitments.next stands.generations.next room space,
    stands.shielded, stands.space, lists, entries⟩

section

variable {idx : Nat} {leaf : HashOutput × DustGenerationInfo}
  {evidence : TreeInsertionPath DustGenerationInfo} (stands : Stands H state book)
  (there : state.dust.generation.generatingTree.index idx = some leaf)
  (ok : state.dust.setDtime S build idx time = .ok next)
  (made : next.generation.generatingTree.insertionEvidence H idx = some evidence)

include stands there ok made

theorem closeEvidence : let closed : DustGenerationInfo := { leaf.2 with dtime := time }
    evidence = ⟨(S.generationHash closed, closed), ancestry H dustGenerationTreeDepth
        (write book.generations.leaves idx (S.generationHash closed)) idx⟩ ∧
      idx < 2 ^ dustGenerationTreeDepth ∧ idx < book.generations.count ∧
      book.generations.leaves idx ≠ none ∧
      Stands H { state with dust := next }
        { book with generations := book.generations.rewrite idx (S.generationHash closed) } := by
  obtain ⟨tree, updated, rfl⟩ := DustState.setDtimeFound there ok
  obtain ⟨inside, below, taken, lists⟩ := stands.generations.rewrite there updated
  have present := MerkleTree.tryUpdateHashIndex updated idx
  rw [if_pos rfl] at present
  obtain rfl := Option.some.inj ((lists.evidence (by decide) present).symm.trans made)
  exact ⟨rfl, inside, below, taken, stands.shielded, stands.space, stands.commitments, lists⟩

theorem closeDescribed :
    ∃ after, Describes (L := L) S H book (.dustGenerationDtimeUpdate evidence tblock) after ∧
      Stands H { state with dust := next } after := by
  obtain ⟨rfl, inside, below, taken, standing⟩ := closeEvidence stands there ok made
  exact ⟨_, .dtimeUpdate idx _ tblock inside below taken, standing⟩

end

end Dust

variable {next : Followed}

theorem moveDescribed (stands : Stands H state book)
    (move : Move (S.shielded H reason) H build shields tblock state told next) :
    ∃ after, Record (Describes (S.shielded H reason) H) book told after ∧ Stands H next after := by
  cases move with
  | offer shielded applied told =>
    exact offerDescribed stands (mapErrorOk.mp applied) told
  | settle time retention =>
    exact ⟨book, .nil _, stands.shielded.rehash, stands.space, stands.commitments,
      stands.generations⟩
  | spend applied =>
    obtain ⟨after, described, standing⟩ := spendDescribed stands applied
    exact ⟨after, .single described, standing⟩
  | generate applied =>
    obtain ⟨after, described, standing⟩ := generateDescribed stands applied
    exact ⟨after, .single described, standing⟩
  | close tracked there applied made =>
    obtain ⟨after, described, standing⟩ := closeDescribed stands there applied made
    exact ⟨after, .single described, standing⟩
  | delegate applied =>
    refine ⟨book, .nil _, ?_⟩
    obtain ⟨delegation, rfl⟩ := DustState.delegateOk applied
    exact ⟨stands.shielded, stands.space, stands.commitments, stands.generations⟩
  | report unread => exact ⟨book, .single (.unread unread), stands⟩
  | overwrite => exact ⟨book, .single (.paramChange _), stands⟩

theorem moveTimes (move : Move S H build shields tblock state told next) :
    ∀ time ∈ told.filterMap EventContent.blockTime, time = tblock := by
  intro time mem
  obtain ⟨content, inside, timed⟩ := mem_filterMap.mp mem
  cases move with
  | offer shielded applied told =>
    obtain ⟨event, -, rfl⟩ := mem_map.mp inside
    cases timed
  | settle time retention => cases inside
  | spend applied | generate applied | close tracked there applied made =>
    cases mem_singleton.mp inside
    exact (Option.some.inj timed).symm
  | delegate applied => cases inside
  | report unread =>
    cases mem_singleton.mp inside
    cases unread <;> cases timed
  | overwrite =>
    cases mem_singleton.mp inside
    cases timed

theorem movesDescribed (stands : Stands H state book)
    (moves : Moves (S.shielded H reason) H build shields tblock state told next) :
    (∃ after, Record (Describes (S.shielded H reason) H) book told after ∧ Stands H next after) ∧
      ∀ time ∈ told.filterMap EventContent.blockTime, time = tblock := by
  induction moves generalizing book with
  | done state => exact ⟨⟨book, .nil _, stands⟩, by simp⟩
  | next first rest ih =>
    obtain ⟨middle, described, standing⟩ := moveDescribed stands first
    obtain ⟨⟨after, others, final⟩, later⟩ := ih standing
    refine ⟨⟨after, described.append others, final⟩, fun time mem => ?_⟩
    rw [filterMap_append] at mem
    rcases mem_append.mp mem with early | late
    · exact moveTimes first time early
    · exact later time late

theorem runDescribed {R : Reporting W.shielded L} {steps : List (Step W.shielded)}
    {acc final : Recorded W L}
    (stands : Stands H acc.1.followed book)
    (ran : run (stepTold (S.shielded H reason) H build R) acc steps = .ok final) :
    ∃ new after, final.2 = acc.2 ++ new ∧
      Record (Describes (S.shielded H reason) H) book (new.map LedgerEvent.content) after ∧
      Stands H final.1.followed after ∧
      ((steps.map Step.tblock).Pairwise (· ≤ ·) → (blockTimes new).Pairwise (· ≤ ·)) ∧
      ∀ time ∈ blockTimes new, time ∈ steps.map Step.tblock := by
  induction steps generalizing acc book with
  | nil =>
    cases runNil.mp ran
    exact ⟨[], book, (append_nil _).symm, .nil _, stands, fun _ => .nil, nofun⟩
  | cons input steps ih =>
    obtain ⟨middle, taken, rest⟩ := runCons.mp ran
    obtain ⟨first, grown, moves⟩ := stepMoves taken
    obtain ⟨⟨between, described, standing⟩, times⟩ := movesDescribed stands moves
    obtain ⟨new, after, further, others, stood, ordered, listed⟩ := ih standing rest
    refine ⟨first ++ new, after, by rw [further, grown, append_assoc], ?_, stood, ?_, ?_⟩
    · rw [map_append]
      exact described.append others
    · intro sorted
      obtain ⟨least, later⟩ := pairwise_cons.mp sorted
      rw [blockTimesAppend, pairwise_append]
      refine ⟨?_, ordered later, fun early here late there => ?_⟩
      · refine pairwise_of_forall_mem_list fun a mem b other => ?_
        rw [times a mem, times b other]
        exact BitVec.le_refl _
      · rw [times early here]
        exact least late (listed late there)
    · intro time mem
      rw [blockTimesAppend] at mem
      rcases mem_append.mp mem with early | late
      · rw [times time early]
        exact mem_cons_self
      · exact mem_cons_of_mem _ (listed time late)

end

end MidnightLedger.Ledger

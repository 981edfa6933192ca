import MidnightLedger.Lib.Simulation
import MidnightLedger.Ledger.Structure

/-! Zswap offers and the shielded state (zswap/src/structure.rs, zswap/src/ledger.rs). An offer
spends coins by their nullifiers and adds commitments to the tree; proofs are erased and a
ciphertext is kept as bytes. Applying an offer is the run of its parts, and what a part can be
refused for only grows with the parts applied before it. -/
namespace MidnightLedger.Zswap
open ByteString Maps Loops MidnightLedger.Ledger List.Subset

abbrev Nullifier := HashOutput
abbrev Commitment := HashOutput

/- The affine coordinates of a point of the embedded curve, zero for the identity. -/
structure Pedersen where
  x : Fr
  y : Fr
  deriving DecidableEq, Repr

structure Input where
  nullifier : Nullifier
  valueCommitment : Pedersen
  contractAddress : Option ContractAddress
  merkleTreeRoot : Fr
  memo : Option Bytes
  deriving DecidableEq, Repr

structure Output where
  coinCom : Commitment
  valueCommitment : Pedersen
  contractAddress : Option ContractAddress
  ciphertext : Option Bytes
  deriving DecidableEq, Repr

structure Transient where
  nullifier : Nullifier
  coinCom : Commitment
  valueCommitmentInput : Pedersen
  valueCommitmentOutput : Pedersen
  contractAddress : Option ContractAddress
  ciphertext : Option Bytes
  deriving DecidableEq, Repr

structure Delta where
  tokenType : ShieldedTokenType
  value : Int
  deriving DecidableEq, Repr

structure Offer where
  inputs : List Input
  outputs : List Output
  transient : List Transient
  deltas : List Delta
  deriving DecidableEq, Repr

inductive TransactionInvalid where
  | nullifierAlreadyPresent (nullifier : Nullifier)
  | commitmentAlreadyPresent (commitment : Commitment)
  | unknownMerkleRoot (root : Fr)
  | merkleTreeError (e : MerkleTrees.InvalidUpdate)
  deriving DecidableEq, Repr

def zswapTreeHeight : Nat := 32

abbrev CommitmentTree (A : Type) := MerkleTrees.Tree HashOutput Fr A zswapTreeHeight

structure State where
  coinComs : CommitmentTree (Option ContractAddress)
  coinComsSet : List Commitment
  firstFree : Nat
  nullifiers : List Nullifier
  pastRoots : TimeFilterMap Fr

def State.new : State where
  coinComs := .blank zswapTreeHeight
  coinComsSet := []
  firstFree := 0
  nullifiers := []
  pastRoots := .empty

/- A contract whitelist says that a contract is tracked and no user. -/
def onWhitelist (whitelist : Whitelist) (contract : Option ContractAddress) : Bool :=
  match whitelist, contract with
  | some list, some addr => addr ∈ list
  | some _, none => false
  | none, _ => true

namespace State

variable (H : TreeHashing) (whitelist : Whitelist)

def applyInput (state : State) (inp : Input) : Except TransactionInvalid State :=
  if ¬ state.pastRoots.contains inp.merkleTreeRoot then
    .error (.unknownMerkleRoot inp.merkleTreeRoot)
  else if inp.nullifier ∈ state.nullifiers then .error (.nullifierAlreadyPresent inp.nullifier)
  else if onWhitelist whitelist inp.contractAddress then
    .ok { state with nullifiers := inp.nullifier :: state.nullifiers }
  else .ok state

def writeCommitment (state : State) (coinCom : Commitment) (contract : Option ContractAddress) :
    Except MerkleTrees.InvalidUpdate (CommitmentTree (Option ContractAddress)) := do
  let coinComs ← state.coinComs.tryUpdateHash _ state.firstFree coinCom contract
  if onWhitelist whitelist contract then .ok coinComs
  else .ok (coinComs.collapse H _ state.firstFree state.firstFree)

def appendCommitment (state : State) (coinCom : Commitment) (contract : Option ContractAddress) :
    Except TransactionInvalid (State × Commitment × Nat) := do
  let coinComs ← (state.writeCommitment H whitelist coinCom contract).mapError .merkleTreeError
  .ok ({ state with
    coinComs := coinComs
    coinComsSet := coinCom :: state.coinComsSet
    firstFree := state.firstFree + 1 }, coinCom, state.firstFree)

def applyOutput (state : State) (out : Output) :
    Except TransactionInvalid (State × Commitment × Nat) :=
  if out.coinCom ∈ state.coinComsSet then .error (.commitmentAlreadyPresent out.coinCom)
  else state.appendCommitment H whitelist out.coinCom out.contractAddress

def applyTransient (state : State) (trans : Transient) :
    Except TransactionInvalid (State × Commitment × Nat) :=
  if trans.coinCom ∈ state.coinComsSet then .error (.commitmentAlreadyPresent trans.coinCom)
  else if trans.nullifier ∈ state.nullifiers then
    .error (.nullifierAlreadyPresent trans.nullifier)
  else
    let spent := if onWhitelist whitelist trans.contractAddress then
      { state with nullifiers := trans.nullifier :: state.nullifiers } else state
    spent.appendCommitment H whitelist trans.coinCom trans.contractAddress

def collect {X : Type} (step : State → X → Except TransactionInvalid (State × Commitment × Nat))
    (acc : State × ComIndices) (x : X) :
    Except TransactionInvalid (State × ComIndices) := do
  let (state, com, index) ← step acc.1 x
  .ok (state, acc.2.insert com index)

def tryApply (state : State) (offer : Offer) : Except TransactionInvalid (State × ComIndices) := do
  let spent ← offer.inputs.foldlM (applyInput whitelist) state
  let created ← offer.outputs.foldlM (collect (applyOutput H whitelist)) (spent, ∅)
  offer.transient.foldlM (collect (applyTransient H whitelist)) created

def postBlockUpdate (state : State) (tblock : Timestamp) (retention : Duration) : State :=
  { state with
    coinComs := state.coinComs.rehash H
    pastRoots := (state.pastRoots.insert tblock (state.coinComs.digest H)).filter
      (tblock.sub retention) }

end State

inductive Item where
  | input (inp : Input)
  | output (out : Output)
  | transient (io : Transient)

def Offer.items (offer : Offer) : List Item :=
  offer.inputs.map .input ++ (offer.outputs.map .output ++ offer.transient.map .transient)

namespace Item

def root : Item → Option Fr
  | .input inp => some inp.merkleTreeRoot
  | _ => none

def spends : Item → Option (Nullifier × Option ContractAddress)
  | .input inp => some (inp.nullifier, inp.contractAddress)
  | .output _ => none
  | .transient io => some (io.nullifier, io.contractAddress)

def creates : Item → Option (Commitment × Option ContractAddress)
  | .input _ => none
  | .output out => some (out.coinCom, out.contractAddress)
  | .transient io => some (io.coinCom, io.contractAddress)

def recorded (whitelist : Whitelist) (item : Item) : List Nullifier :=
  match item.spends with
  | some (nullifier, contract) => if onWhitelist whitelist contract then [nullifier] else []
  | none => []

def commitments (item : Item) : List Commitment := item.creates.toList.map Prod.fst

structure Admissible (state : State) (item : Item) : Prop where
  known : ∀ r ∈ item.root, state.pastRoots.contains r
  unspent : ∀ s ∈ item.spends, s.1 ∉ state.nullifiers
  fresh : ∀ c ∈ item.creates, c.1 ∉ state.coinComsSet

end Item

variable {contract : Option ContractAddress} {coinCom : Commitment}

namespace State

variable {H : TreeHashing} {whitelist : Whitelist}
  {state next s t : State} {item : Item} {offer : Offer}

section

variable (H whitelist)

def applyItem (state : State) : Item → Except TransactionInvalid State
  | .input inp => state.applyInput whitelist inp
  | .output out => (state.applyOutput H whitelist out).map Prod.fst
  | .transient io => (state.applyTransient H whitelist io).map Prod.fst

def itemTree (state : State) (item : Item) :
    Except MerkleTrees.InvalidUpdate (CommitmentTree (Option ContractAddress)) :=
  match item.creates with
  | some (coinCom, contract) => state.writeCommitment H whitelist coinCom contract
  | none => .ok state.coinComs

def grown (state : State) (item : Item) (tree : CommitmentTree (Option ContractAddress)) : State where
  coinComs := tree
  coinComsSet := item.commitments ++ state.coinComsSet
  firstFree := state.firstFree + item.commitments.length
  nullifiers := item.recorded whitelist ++ state.nullifiers
  pastRoots := state.pastRoots

end

theorem appendCommitmentOk :
    (state.appendCommitment H whitelist coinCom contract).map Prod.fst = .ok next ↔
      ∃ tree, state.writeCommitment H whitelist coinCom contract = .ok tree ∧ { state with
          coinComs := tree
          coinComsSet := coinCom :: state.coinComsSet
          firstFree := state.firstFree + 1 } = next := by
  rw [mapOk]
  constructor
  · rintro ⟨appended, ok, rfl⟩
    obtain ⟨tree, written, rfl⟩ := pureOk.mp ok
    exact ⟨tree, mapErrorOk.mp written, rfl⟩
  · rintro ⟨tree, written, rfl⟩
    exact ⟨_, bindOk.mpr ⟨tree, mapErrorOk.mpr written, rfl⟩, rfl⟩

theorem recordedState (nullifier : Nullifier) : (if onWhitelist whitelist contract then
      { state with nullifiers := nullifier :: state.nullifiers } else state) = { state with
        nullifiers := (if onWhitelist whitelist contract then [nullifier] else []) ++
          state.nullifiers } := by
  split <;> rfl

theorem admissibleIff : item.Admissible state ↔ (∀ r ∈ item.root, state.pastRoots.contains r) ∧
    (∀ s ∈ item.spends, s.1 ∉ state.nullifiers) ∧ ∀ c ∈ item.creates, c.1 ∉ state.coinComsSet :=
  ⟨fun ⟨known, unspent, fresh⟩ => ⟨known, unspent, fresh⟩,
    fun ⟨known, unspent, fresh⟩ => ⟨known, unspent, fresh⟩⟩

theorem applyItemIff : state.applyItem H whitelist item = .ok next ↔
    item.Admissible state ∧ ∃ tree, state.itemTree H whitelist item = .ok tree ∧
      state.grown whitelist item tree = next := by
  cases item with
  | input inp =>
    rw [applyItem, applyInput, elseOk, elseOk, ← apply_ite, recordedState, Except.ok.injEq]
    simp [admissibleIff, Item.root, Item.spends, Item.creates, itemTree, grown, Item.recorded,
      Item.commitments, and_assoc]
  | output out =>
    simp only [applyItem, applyOutput, elseMapOk, appendCommitmentOk]
    simp [admissibleIff, Item.root, Item.spends, Item.creates, itemTree, grown, Item.recorded,
      Item.commitments]
  | transient io =>
    simp only [applyItem, applyTransient, elseMapOk, appendCommitmentOk, recordedState]
    simp only [admissibleIff, Item.root, Item.spends, Item.creates, itemTree, grown, Item.recorded,
      Item.commitments, Option.mem_def, Option.some.injEq, forall_eq', reduceCtorEq,
      IsEmpty.forall_iff, implies_true, true_and]
    -- The nullifier is recorded before the commitment is written to the same tree.
    constructor
    · rintro ⟨fresh, unspent, wrote⟩
      exact ⟨⟨unspent, fresh⟩, wrote⟩
    · rintro ⟨⟨unspent, fresh⟩, wrote⟩
      exact ⟨fresh, unspent, wrote⟩

variable {items : List Item}

theorem runGrowing (ok : Simulation.run (applyItem H whitelist) state items = .ok next) :
    state.nullifiers ⊆ next.nullifiers ∧ state.coinComsSet ⊆ next.coinComsSet := by
  refine Simulation.runGrows (fun s t : State => s.nullifiers ⊆ t.nullifiers ∧
    s.coinComsSet ⊆ t.coinComsSet) (fun s => ⟨refl _, refl _⟩)
    (fun first second => ⟨List.Subset.trans first.1 second.1, List.Subset.trans first.2 second.2⟩) ?_ ok
  intro s item t _ taken
  obtain ⟨-, tree, -, rfl⟩ := applyItemIff.mp taken
  exact ⟨List.subset_append_right .., List.subset_append_right ..⟩

theorem runMember (mem : item ∈ items)
    (ok : Simulation.run (applyItem H whitelist) state items = .ok next) :
    (∀ s ∈ item.spends, s.1 ∉ state.nullifiers) ∧ item.recorded whitelist ⊆ next.nullifiers ∧
      (∀ c ∈ item.creates, c.1 ∉ state.coinComsSet) ∧ item.commitments ⊆ next.coinComsSet := by
  obtain ⟨earlier, later, rfl⟩ := List.append_of_mem mem
  obtain ⟨middle, first, rest⟩ := foldlMAppend.mp ok
  obtain ⟨reached, taken, others⟩ := Simulation.runCons.mp rest
  obtain ⟨admissible, tree, -, rfl⟩ := applyItemIff.mp taken
  have before := runGrowing first
  have after := runGrowing others
  refine ⟨fun s found inside => admissible.unspent s found (before.1 inside),
    List.Subset.trans (List.subset_append_left ..) after.1,
    fun c found inside => admissible.fresh c found (before.2 inside),
    List.Subset.trans (List.subset_append_left ..) after.2⟩

theorem runAdds (kept : State → List HashOutput) (added : Item → List HashOutput)
    (adds : ∀ {s item t}, s.applyItem H whitelist item = .ok t → kept t = added item ++ kept s ∧
      (added item).Nodup ∧ ∀ x ∈ added item, x ∉ kept s)
    (ok : Simulation.run (applyItem H whitelist) state items = .ok next) :
    (∀ x, x ∈ kept next ↔ x ∈ items.flatMap added ∨ x ∈ kept state) ∧
      (items.flatMap added).Nodup ∧ ∀ x ∈ items.flatMap added, x ∉ kept state := by
  induction items generalizing state with
  | nil =>
    cases Simulation.runNil.mp ok
    simp
  | cons item items ih =>
    obtain ⟨reached, taken, rest⟩ := Simulation.runCons.mp ok
    obtain ⟨grows, once, new⟩ := adds taken
    obtain ⟨members, nodup, fresh⟩ := ih rest
    rw [grows] at members fresh
    rw [List.flatMap_cons]
    refine ⟨fun x => ?_, List.nodup_append.mpr ⟨once, nodup, ?_⟩, ?_⟩
    · rw [members, List.mem_append, List.mem_append]
      tauto
    · rintro x here y there rfl
      exact fresh x there (List.mem_append_left _ here)
    · intro x mem
      rcases List.mem_append.mp mem with here | there
      · exact new x here
      · exact fun before => fresh x there (List.mem_append_right _ before)

section

variable (ok : Simulation.run (applyItem H whitelist) state items = .ok next)

include ok

theorem runRecorded : (∀ x, x ∈ next.nullifiers ↔ x ∈ items.flatMap (Item.recorded whitelist) ∨
        x ∈ state.nullifiers) ∧
      (items.flatMap (Item.recorded whitelist)).Nodup ∧
      ∀ x ∈ items.flatMap (Item.recorded whitelist), x ∉ state.nullifiers := by
  refine runAdds State.nullifiers _ (fun {s item t} taken => ?_) ok
  obtain ⟨admissible, tree, -, rfl⟩ := applyItemIff.mp taken
  refine ⟨rfl, ?_, ?_⟩
  · unfold Item.recorded
    split <;> try split
    all_goals simp
  · intro x mem
    unfold Item.recorded at mem
    split at mem
    · rename_i nullifier contract spent
      split at mem
      · cases List.mem_singleton.mp mem
        exact admissible.unspent _ spent
      · cases mem
    · cases mem

theorem runCommitted :
    (∀ x, x ∈ next.coinComsSet ↔ x ∈ items.flatMap Item.commitments ∨ x ∈ state.coinComsSet) ∧
      (items.flatMap Item.commitments).Nodup ∧
      ∀ x ∈ items.flatMap Item.commitments, x ∉ state.coinComsSet := by
  refine runAdds State.coinComsSet _ (fun {s item t} taken => ?_) ok
  obtain ⟨admissible, tree, -, rfl⟩ := applyItemIff.mp taken
  refine ⟨rfl, ?_, ?_⟩
  · cases item <;> simp [Item.commitments, Item.creates]
  · intro x mem
    obtain ⟨made, found, rfl⟩ := List.mem_map.mp mem
    exact admissible.fresh made (Option.mem_toList.mp found)

end

theorem collectFst {X : Type}
    {step : State → X → Except TransactionInvalid (State × Commitment × Nat)} {xs : List X}
    (acc : State × ComIndices) :
    (∃ indices, xs.foldlM (collect step) acc = .ok (next, indices)) ↔
      xs.foldlM (fun state x => (step state x).map Prod.fst) acc.1 = .ok next := by
  induction xs generalizing acc with
  | nil =>
    constructor
    · rintro ⟨indices, ok⟩
      cases ok
      rfl
    · intro ok
      cases ok
      exact ⟨acc.2, rfl⟩
  | cons x xs ih =>
    simp only [List.foldlM_cons, bindOk, mapOk, collect]
    constructor
    · rintro ⟨indices, middle, ⟨⟨stepped, com, index⟩, taken, last⟩, rest⟩
      cases last
      exact ⟨stepped, ⟨_, taken, rfl⟩, (ih _).mp ⟨indices, rest⟩⟩
    · rintro ⟨stepped, ⟨⟨same, com, index⟩, taken, rfl⟩, rest⟩
      have others := (ih (same, acc.2.insert com index)).mpr rest
      exact ⟨others.choose, _, ⟨_, taken, rfl⟩, others.choose_spec⟩

theorem tryApplyIff : (∃ indices, state.tryApply H whitelist offer = .ok (next, indices)) ↔
    Simulation.run (applyItem H whitelist) state offer.items = .ok next := by
  rw [Simulation.run, Offer.items, foldlMAppend]
  simp only [foldlMAppend, List.foldlM_map]
  constructor
  · rintro ⟨indices, ok⟩
    obtain ⟨spent, inputs, rest⟩ := bindOk.mp ok
    obtain ⟨⟨created, collected⟩, outputs, transients⟩ := bindOk.mp rest
    exact ⟨spent, inputs, created, (collectFst _).mp ⟨collected, outputs⟩,
      (collectFst _).mp ⟨indices, transients⟩⟩
  · rintro ⟨spent, inputs, created, outputs, transients⟩
    obtain ⟨collected, first⟩ := (collectFst (spent, ∅)).mpr outputs
    obtain ⟨indices, second⟩ := (collectFst (created, collected)).mpr transients
    exact ⟨indices, bindOk.mpr ⟨spent, inputs, bindOk.mpr ⟨(created, collected), first, second⟩⟩⟩

end State

open MerkleTrees List Simulation

namespace State

variable {H : TreeHashing} {whitelist : Whitelist}
  {state next s t : State} {item : Item} {offer : Offer}
  {tree : CommitmentTree (Option ContractAddress)}

def Free (state : State) (index : Nat) : Prop := state.coinComs.IsOpen _ index

theorem writeCommitmentFree :
    (∃ tree, state.writeCommitment H whitelist coinCom contract = .ok tree) ↔
      state.Free state.firstFree := by
  rw [Free, ← Tree.tryUpdateHashIff coinCom contract]
  simp only [writeCommitment, bindOk]
  constructor
  · rintro ⟨-, written, ok, -⟩
    exact ⟨written, ok⟩
  · rintro ⟨written, ok⟩
    by_cases listed : onWhitelist whitelist contract
    · exact ⟨written, written, ok, by rw [if_pos listed]⟩
    · exact ⟨_, written, ok, by rw [if_neg listed]⟩

theorem writeCommitmentOpen (ok : state.writeCommitment H whitelist coinCom contract = .ok tree)
    (index : Nat) :
    (tree.IsOpen _ index → state.Free index) ∧
      (state.Free index → index ≠ state.firstFree → tree.IsOpen _ index) := by
  have inside := Tree.openInside (writeCommitmentFree.mp ⟨tree, ok⟩)
  obtain ⟨written, updated, last⟩ := bindOk.mp ok
  have same := Tree.tryUpdateHashOpen updated index
  split at last <;> cases last
  · exact ⟨same.mp, fun free _ => same.mpr free⟩
  · rw [Tree.collapseOpen (Nat.le_succ _) inside inside, same]
    exact ⟨And.left, fun free other => ⟨free, by omega⟩⟩

theorem itemTreeOpen (ok : state.itemTree H whitelist item = .ok tree) (index : Nat) :
    (tree.IsOpen _ index → state.Free index) ∧
      (state.Free index → index ≠ state.firstFree ∨ item.commitments = [] →
        tree.IsOpen _ index) := by
  rw [itemTree] at ok
  split at ok
  · rename_i coinCom contract made
    obtain ⟨closes, keeps⟩ := writeCommitmentOpen ok index
    refine ⟨closes, fun free other => keeps free (other.resolve_right ?_)⟩
    simp [Item.commitments, made]
  · cases ok
    exact ⟨id, fun free _ => free⟩

variable (H whitelist) in
theorem itemTreeExists (free : item.commitments ≠ [] → state.Free state.firstFree) :
    ∃ tree, state.itemTree H whitelist item = .ok tree := by
  rw [itemTree]
  split
  · rename_i coinCom contract made
    exact writeCommitmentFree.mpr (free (by simp [Item.commitments, made]))
  · exact ⟨_, rfl⟩

theorem itemTreeFree (ok : state.itemTree H whitelist item = .ok tree)
    (made : item.commitments ≠ []) : state.Free state.firstFree := by
  rw [itemTree] at ok
  split at ok
  · exact writeCommitmentFree.mp ⟨tree, ok⟩
  · rename_i nothing
    simp [Item.commitments, nothing] at made

/- The first state has taken some of the parts that the second has taken. -/
structure Behind (s t : State) : Prop where
  roots : s.pastRoots = t.pastRoots
  nullifiers : s.nullifiers ⊆ t.nullifiers
  commitments : s.coinComsSet ⊆ t.coinComsSet
  count : s.firstFree ≤ t.firstFree
  spare : ∀ index, s.firstFree ≤ index → index < t.firstFree → s.Free index
  further : ∀ index, t.firstFree ≤ index → t.Free index → s.Free index

theorem behindSelf (s : State) : Behind s s where
  roots := rfl
  nullifiers := refl _
  commitments := refl _
  count := Nat.le_refl _
  spare index low high := absurd high (by omega)
  further index _ free := free

theorem Behind.admissible (behind : Behind s t) (admissible : item.Admissible t) :
    item.Admissible s where
  known r found := behind.roots ▸ admissible.known r found
  unspent spent found inside := admissible.unspent spent found (behind.nullifiers inside)
  fresh made found inside := admissible.fresh made found (behind.commitments inside)

theorem Behind.free (behind : Behind s t) (ahead : t.Free t.firstFree) : s.Free s.firstFree := by
  rcases Nat.lt_or_ge s.firstFree t.firstFree with less | same
  · exact behind.spare _ (Nat.le_refl _) less
  · have equal : s.firstFree = t.firstFree := Nat.le_antisymm behind.count same
    rw [equal]
    exact behind.further _ (Nat.le_refl _) ahead

theorem commitmentsAtMostOne (item : Item) : item.commitments.length ≤ 1 := by
  cases item <;> simp [Item.commitments, Item.creates]

section

variable (behind : Behind s t) (ok : t.applyItem H whitelist item = .ok next)
include behind ok

theorem Behind.skip : Behind s next := by
  obtain ⟨-, tree, written, rfl⟩ := applyItemIff.mp ok
  have one := commitmentsAtMostOne item
  refine ⟨behind.roots, ?_, ?_, ?_, ?_, ?_⟩
  · exact subset_append_of_subset_right _ behind.nullifiers
  · exact subset_append_of_subset_right _ behind.commitments
  · exact Nat.le_trans behind.count (Nat.le_add_right ..)
  · intro index low high
    simp only [grown] at high
    rcases Nat.lt_or_ge index t.firstFree with before | here
    · exact behind.spare index low before
    · have equal : index = t.firstFree := by omega
      have made : item.commitments ≠ [] := by
        rintro empty
        simp [empty] at high
        omega
      subst equal
      exact behind.further _ here (itemTreeFree written made)
  · intro index low free
    simp only [grown] at low
    exact behind.further index (by omega) ((itemTreeOpen written index).1 free)

theorem Behind.follow : ∃ s', s.applyItem H whitelist item = .ok s' ∧ Behind s' next := by
  obtain ⟨admissible, tree, written, rfl⟩ := applyItemIff.mp ok
  obtain ⟨mine, wrote⟩ := itemTreeExists H whitelist
    (fun made => behind.free (itemTreeFree written made))
  refine ⟨_, applyItemIff.mpr ⟨behind.admissible admissible, mine, wrote, rfl⟩, ?_⟩
  have one := commitmentsAtMostOne item
  -- Beyond the index that is written now, everything that was free stays free.
  have kept : ∀ index, s.firstFree + item.commitments.length ≤ index → s.Free index →
      mine.IsOpen _ index := by
    intro index low free
    refine (itemTreeOpen wrote index).2 free ?_
    cases shape : item.commitments with
    | nil => exact .inr rfl
    | cons coinCom rest =>
      rw [shape, length_cons] at low
      exact .inl (by omega)
  refine ⟨behind.roots, ?_, ?_, ?_, ?_, ?_⟩
  · exact append_subset.mpr ⟨subset_append_left .., subset_append_of_subset_right _
      behind.nullifiers⟩
  · exact append_subset.mpr ⟨subset_append_left .., subset_append_of_subset_right _
      behind.commitments⟩
  · exact Nat.add_le_add_right behind.count _
  · intro index low high
    simp only [grown] at low high
    refine kept index low ?_
    rcases Nat.lt_or_ge index t.firstFree with before | here
    · exact behind.spare index (by omega) before
    · have equal : index = t.firstFree := by omega
      have made : item.commitments ≠ [] := by
        rintro empty
        simp [empty] at high
        omega
      subst equal
      exact behind.further _ here (itemTreeFree written made)
  · intro index low free
    simp only [grown] at low
    refine kept index ?_ (behind.further index (by omega) ((itemTreeOpen written index).1 free))
    have := behind.count
    omega

end

theorem partsApply {parts items : List Item} (sub : parts.Sublist items) (behind : Behind s t)
    (ok : run (applyItem H whitelist) t items = .ok next) :
    ∃ s', run (applyItem H whitelist) s parts = .ok s' ∧ Behind s' next :=
  runSublist Behind.skip Behind.follow sub behind ok

section

variable (behind : Behind s t) {indices : ComIndices}
  (ok : t.tryApply H whitelist offer = .ok (next, indices))
include behind ok

theorem offerSkip : Behind s next := by
  obtain ⟨same, runs, kept⟩ := partsApply (nil_sublist _) behind (tryApplyIff.mp ⟨indices, ok⟩)
  exact runNil.mp runs ▸ kept

theorem offerFollow :
    ∃ s' mine, s.tryApply H whitelist offer = .ok (s', mine) ∧ Behind s' next := by
  obtain ⟨s', runs, kept⟩ := partsApply (List.Sublist.refl _) behind (tryApplyIff.mp ⟨indices, ok⟩)
  obtain ⟨mine, applied⟩ := tryApplyIff.mpr runs
  exact ⟨s', mine, applied, kept⟩

end

end State

end MidnightLedger.Zswap

import MidnightLedger.Ledger.Books
import MidnightLedger.Crypto.TreeSearch

/-! The commitment tree for a list of contracts (zswap/src/ledger.rs): everything between the
leaves of these contracts is collapsed. -/
namespace MidnightLedger.Zswap
open Loops MidnightLedger.Ledger MerkleTrees Crypto Tree List State

section

variable {h : Nat} {A : Type} (H : TreeHashing)

/- The gap before a retained leaf is collapsed; an empty gap is a range that ends before it
starts. -/
def collapseGap (acc : Tree HashOutput Fr A h × Nat) (i : Nat) : Tree HashOutput Fr A h × Nat :=
  (if 0 < i then acc.1.collapse H h acc.2 (i - 1) else acc.1, if i < u64Max then i + 1 else acc.2)

def State.retainedIndices (state : State) (filter : List ContractAddress) : List Nat :=
  ((iterAux state.coinComs).filter fun entry =>
    match entry.2.2 with
    | some aux => decide (aux ∈ filter)
    | none => false).map Prod.fst

def State.filter (state : State) (filter : List ContractAddress) :
    CommitmentTree (Option ContractAddress) :=
  let (tree, p) := (state.retainedIndices filter).foldl (collapseGap H) (state.coinComs, 0)
  if 0 < state.firstFree then tree.collapse H _ p (state.firstFree - 1) else tree

end

variable {h : Nat} {A : Type} {H : TreeHashing} {tree next last : Tree HashOutput Fr A h}

structure Cleared (H : TreeHashing) (gone : Nat → Prop) (tree next : Tree HashOutput Fr A h) :
    Prop where
  covered : ∀ j < 2 ^ h, gone j → ¬ next.IsOpen h j
  shrinks : ∀ j, next.IsOpen h j → tree.IsOpen h j
  kept : ∀ j < 2 ^ h, ¬ gone j → next.index h j = tree.index h j
  holds : ∀ leaves, tree.Holds H leaves → next.Holds H leaves

theorem clearedNone : Cleared H (fun _ => False) tree tree :=
  ⟨fun _ _ => False.elim, fun _ => id, fun _ _ _ => rfl, fun _ => id⟩

theorem Cleared.trans {gone more both : Nat → Prop} (first : Cleared H gone tree next)
    (second : Cleared H more next last) (all : ∀ j, both j ↔ gone j ∨ more j) :
    Cleared H both tree last := by
  refine ⟨fun j inside out => ?_, fun j still => first.shrinks j (second.shrinks j still),
    fun j inside here => ?_, fun leaves held => second.holds leaves (first.holds leaves held)⟩
  · rcases (all j).mp out with before | after
    · exact fun still => first.covered j inside before (second.shrinks j still)
    · exact second.covered j inside after
  · obtain ⟨before, after⟩ := not_or.mp (mt (all j).mpr here)
    rw [second.kept j inside after, first.kept j inside before]

theorem clearedCollapse {start stop : Nat} (range : start ≤ stop + 1) (first : start < 2 ^ h)
    (final : stop < 2 ^ h) :
    Cleared H (fun j => start ≤ j ∧ j ≤ stop) tree (tree.collapse H h start stop) where
  covered j inside out still := ((collapseOpen range first final).mp still).2 out
  shrinks j still := ((collapseOpen range first final).mp still).1
  kept j inside here := by rw [collapseIndex range first final inside, if_neg here]
  holds leaves held := holdsCollapse held

/- Between where the loop starts and where it has come to, all but the retained leaves are gone. -/
theorem gapsCleared {retained : List Nat} {p free : Nat} (tree : Tree HashOutput Fr A h)
    (sorted : retained.Pairwise (· < ·)) (ahead : ∀ i ∈ retained, p ≤ i ∧ i < free) (start : p ≤ free)
    (room : free ≤ 2 ^ h) (height : h < 64) :
    let reached := retained.foldl (collapseGap H) (tree, p)
    reached.2 ≤ free ∧ p ≤ reached.2 ∧ (∀ i ∈ retained, i < reached.2) ∧
      Cleared H (fun j => p ≤ j ∧ j < reached.2 ∧ j ∉ retained) tree reached.1 := by
  induction retained generalizing tree p with
  | nil =>
    refine ⟨start, Nat.le_refl _, nofun, clearedNone.trans clearedNone fun j => ?_⟩
    simp only [foldl_nil, or_self, iff_false]
    omega
  | cons i retained ih =>
    obtain ⟨later, rest⟩ := pairwise_cons.mp sorted
    obtain ⟨above, below⟩ := ahead i mem_cons_self
    have small : i < u64Max := by
      have : 2 ^ h ≤ 2 ^ 63 := Nat.pow_le_pow_right (by decide) (by omega)
      unfold u64Max
      omega
    have gap : Cleared H (fun j => p ≤ j ∧ j < i) tree (collapseGap H (tree, p) i).1 := by
      rw [collapseGap]
      split
      · refine (clearedCollapse (by omega) (by omega) (by omega)).trans clearedNone fun j => ?_
        rw [or_false]
        omega
      · refine clearedNone.trans clearedNone fun j => ?_
        rw [or_self, iff_false]
        omega
    obtain ⟨bound, grown, passed, cleared⟩ := ih (collapseGap H (tree, p) i).1 rest
        (fun k inside => ⟨later k inside, (ahead k (mem_cons_of_mem _ inside)).2⟩) (by omega)
    have next : collapseGap H (tree, p) i = ((collapseGap H (tree, p) i).1, i + 1) :=
      Prod.ext rfl (if_pos small)
    rw [← next] at bound grown passed cleared
    rw [foldl_cons]
    refine ⟨bound, by omega, forall_mem_cons.mpr ⟨grown, passed⟩, gap.trans cleared fun j => ?_⟩
    rw [mem_cons, not_or]
    have apart : j < i → j ∉ retained := fun less inside => by
      have := later j inside
      omega
    constructor
    · rintro ⟨from', upto, other, absent⟩
      rcases Nat.lt_or_gt_of_ne other with less | more
      · exact .inl ⟨from', less⟩
      · exact .inr ⟨more, upto, absent⟩
    · rintro (⟨from', less⟩ | ⟨more, upto, absent⟩)
      · exact ⟨from', by omega, by omega, apart less⟩
      · exact ⟨by omega, upto, by omega, absent⟩

variable {state : State} {filter : List ContractAddress}

theorem retainedMem {i : Nat} : i ∈ state.retainedIndices filter ↔
    i < 2 ^ zswapTreeHeight ∧ ∃ com owner, owner ∈ filter ∧
      state.coinComs.index _ i = some (com, some owner) := by
  rw [retainedIndices, iterAuxEntries (by decide), mem_map]
  constructor
  · rintro ⟨⟨i, com, owner⟩, inside, rfl⟩
    obtain ⟨entry, listed⟩ := mem_filter.mp inside
    cases owner with
    | none => cases listed
    | some owner =>
      obtain ⟨small, found⟩ := entriesMem.mp entry
      exact ⟨small, com, owner, of_decide_eq_true listed, found⟩
  · rintro ⟨small, com, owner, listed, found⟩
    exact ⟨(i, com, some owner),
      mem_filter.mpr ⟨entriesMem.mpr ⟨small, found⟩, decide_eq_true listed⟩, rfl⟩

theorem retainedSorted : (state.retainedIndices filter).Pairwise (· < ·) := by
  rw [retainedIndices, iterAuxEntries (by decide), pairwise_map]
  exact (entriesSorted state.coinComs).filter _

theorem filterCleared (room : state.firstFree < 2 ^ zswapTreeHeight)
    (taken : ∀ i ∈ state.retainedIndices filter, i < state.firstFree) :
    Cleared H (fun j => j < state.firstFree ∧ j ∉ state.retainedIndices filter) state.coinComs
      (state.filter H filter) := by
  obtain ⟨bound, -, passed, cleared⟩ := gapsCleared (H := H) state.coinComs
    retainedSorted (fun i inside => ⟨Nat.zero_le i, taken i inside⟩) (Nat.zero_le _)
    (Nat.le_of_lt room) (by decide)
  rw [State.filter]
  dsimp only
  split
  · refine cleared.trans (clearedCollapse (by omega) (by omega) (by omega)) fun j => ?_
    have here := passed j
    constructor
    · rintro ⟨below, absent⟩
      rcases Nat.lt_or_ge j _ with before | after
      · exact .inl ⟨Nat.zero_le j, before, absent⟩
      · exact .inr ⟨after, by omega⟩
    · rintro (⟨-, before, absent⟩ | ⟨after, below⟩)
      · exact ⟨by omega, absent⟩
      · exact ⟨by omega, fun inside => by have := here inside; omega⟩
  · refine cleared.trans clearedNone fun j => ?_
    rw [or_false]
    omega

theorem afterTracked (H : TreeHashing) (calls : List Call) :
    ∃ roll, (new.after H calls).coinComs.Tracks H (new.after H calls).firstFree roll := by
  induction calls using List.reverseRecOn with
  | nil => exact ⟨_, tracksBlank⟩
  | append_singleton calls call ih =>
    obtain ⟨roll, tracks⟩ := ih
    rw [afterAppend]
    obtain runs | ⟨tblock, retention, rfl⟩ := takeApplies H (new.after H calls) call
    · exact ⟨_, itemsTracked tracks runs⟩
    · exact ⟨roll, tracks.rehash⟩

/- The tree of a reachable state that has room left, for any list of contracts. -/
theorem filterKeepsListed (H : TreeHashing) (calls : List Call)
    (filter : List ContractAddress)
    (room : (new.after H calls).firstFree < 2 ^ zswapTreeHeight) :
    let state := new.after H calls
    let tree := state.filter H filter
    (tree.rehash H).root H = (state.coinComs.rehash H).root H ∧
    (∀ i < 2 ^ zswapTreeHeight, ∀ com owner, owner ∈ filter →
      state.coinComs.index _ i = some (com, some owner) →
      tree.index _ i = some (com, some owner) ∧ ∃ path, (tree.rehash H).pathForLeaf H i = .ok path ∧
        (tree.rehash H).root H = some (pathRoot H com path)) ∧
    ∀ i < state.firstFree, (∀ com owner, owner ∈ filter →
      state.coinComs.index _ i ≠ some (com, some owner)) → ¬ tree.IsOpen _ i := by
  intro state tree
  have placed := runPlaced (H := H) newPlaced calls
  obtain ⟨roll, tracks⟩ := afterTracked H calls
  have taken : ∀ i ∈ state.retainedIndices filter, i < state.firstFree := by
    intro i inside
    obtain ⟨small, com, owner, -, found⟩ := retainedMem.mp inside
    rw [← placed.count]
    exact (List.getElem?_eq_some_iff.mp ((placed.leaves i small com _).mp found)).1
  have cleared := filterCleared (H := H) room taken
  have holds := cleared.holds _ tracks.holds
  refine ⟨?_, fun i inside com owner listed found => ?_, fun i below unlisted => ?_⟩
  · rw [holdsRoot holds, holdsRoot tracks.holds]
  · have same := cleared.kept i inside fun gone =>
      gone.2 (retainedMem.mpr ⟨inside, com, owner, listed, found⟩)
    rw [found] at same
    have there : (tree.rehash H).index _ i = some (com, some owner) := by rwa [rehashIndex]
    obtain ⟨path, walked, rooted⟩ := pathForLeafOk
      (holdsRehashed (holdsRehash holds) (rehashHashed holds)) (by decide)
      inside (branchesOfPresent there)
    exact ⟨same, path, walked, rooted _ there⟩
  · refine cleared.covered i (Nat.lt_trans below room) ⟨below, fun inside => ?_⟩
    obtain ⟨-, com, owner, listed, found⟩ := retainedMem.mp inside
    exact unlisted com owner listed found

def ownedCalls : List Call :=
  [.tryApply none ⟨[], [⟨7, ⟨0, 0⟩, none, none⟩, ⟨8, ⟨0, 0⟩, some ⟨3⟩, none⟩], [], []⟩]

def ownedState : State := new.after sampleHashing ownedCalls

theorem ownedKept : ¬ (ownedState.filter sampleHashing [⟨3⟩]).IsOpen _ 0 ∧
    (ownedState.filter sampleHashing [⟨3⟩]).index _ 1 = some (8, some ⟨3⟩) := by
  obtain ⟨-, kept, gone⟩ := filterKeepsListed sampleHashing ownedCalls [⟨3⟩] (by decide +kernel)
  have first : ownedState.coinComs.index _ 0 = some (7, none) := by decide +kernel
  refine ⟨gone 0 (by decide +kernel) fun com owner _ found => ?_,
    (kept 1 (by decide) 8 ⟨3⟩ (by decide) (by decide +kernel)).1⟩
  cases first.symm.trans found

end MidnightLedger.Zswap

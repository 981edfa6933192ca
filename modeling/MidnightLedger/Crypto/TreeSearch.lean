import Mathlib.Data.Nat.Bitwise
import MidnightLedger.Lib.MerkleParts
import MidnightLedger.Ledger.Structure
import MidnightLedger.Lib.Simulation

/-! Collapsed updates of Merkle trees, runs of operations on a tree, the evidence of an insertion,
paths, and the search for a leaf within a range of indices (transient-crypto/src/merkle_tree.rs).
Ranges to collapse lie inside of the tree. Indices and bounds of ranges are 64-bit numbers, which
address trees up to height 64; overflowing arithmetic counts as a panic in every build. -/
namespace MidnightLedger.Crypto
open MerkleTrees Loops Nat
open Ledger (U64 HashOutput TreeHashing sampleHashing)

variable {A : Type} {h : Nat}

inductive TreeOp (A : Type) where
  | update (index : U64) (leaf : HashOutput) (aux : A)
  | collapse (start stop : U64)
  | rehash
  deriving DecidableEq, Repr

def TreeOp.isUpdate : TreeOp A → Bool
  | .update _ _ _ => true
  | _ => false

section

variable (H : TreeHashing)

def TreeOp.apply (tree : Tree HashOutput Fr A h) :
    TreeOp A → Except InvalidUpdate (Tree HashOutput Fr A h)
  | .update index leaf aux => tree.tryUpdateHash h index.toNat leaf aux
  | .collapse start stop => .ok (tree.collapse H h start.toNat stop.toNat)
  | .rehash => .ok (tree.rehash H)

def runTree (h : Nat) (ops : List (TreeOp A)) : Except InvalidUpdate (Tree HashOutput Fr A h) :=
  ops.foldlM (TreeOp.apply H) (.blank h)

end

variable {ops : List (TreeOp A)} {tree : Tree HashOutput Fr A h} {leaves : Nat → Option HashOutput}

section

variable {H : TreeHashing}

theorem updatesFollow {plain after : Tree HashOutput Fr A h} (holds : tree.Holds H leaves)
    (stands : plain.Holds H leaves)
    (free : ∀ i < 2 ^ h, plain.IsOpen h i) (ran : ops.foldlM (TreeOp.apply H) tree = .ok after) :
    ∃ alone, (ops.filter TreeOp.isUpdate).foldlM (TreeOp.apply H) plain = .ok alone ∧
      (after.rehash H).root H = (alone.rehash H).root H := by
  induction ops generalizing tree plain leaves with
  | nil =>
    cases ran
    exact ⟨plain, rfl, by rw [Tree.holdsRoot holds, Tree.holdsRoot stands]⟩
  | cons op ops ih =>
    obtain ⟨next, done, rest⟩ := bindOk.mp ran
    cases op with
    | update index leaf aux =>
      have inside := Tree.openInside ((Tree.tryUpdateHashIff leaf aux).mp ⟨next, done⟩)
      obtain ⟨other, written⟩ := (Tree.tryUpdateHashIff leaf aux).mpr (free _ inside)
      obtain ⟨alone, others, same⟩ := ih (Tree.holdsWritten holds done)
        (Tree.holdsWritten stands written)
        (fun i small => (Tree.tryUpdateHashOpen written i).mpr (free i small)) rest
      refine ⟨alone, ?_, same⟩
      rw [List.filter_cons_of_pos rfl, List.foldlM_cons, TreeOp.apply, written]
      exact others
    | collapse start stop =>
      cases done
      exact ih (Tree.holdsCollapse holds) stands free rest
    | rehash =>
      cases done
      exact ih (Tree.holdsRehash holds) stands free rest

theorem collapsingKeepsRoot {ops : List (TreeOp A)} {tree : Tree HashOutput Fr A h}
    (ran : runTree H h ops = .ok tree) :
    ∃ plain, runTree H h (ops.filter TreeOp.isUpdate) = .ok plain ∧
      (tree.rehash H).root H = (plain.rehash H).root H :=
  updatesFollow Tree.holdsBlank Tree.holdsBlank (fun _ inside => Tree.blankOpen inside) ran

end

def collapsingOps : List (TreeOp Unit) :=
  [.update 0 5 (), .collapse 0 1, .rehash, .update 2 7 (), .collapse 2 2]

theorem collapsingOpsRoot : ∃ tree plain : Tree HashOutput Fr Unit 2,
    runTree sampleHashing 2 collapsingOps = .ok tree ∧
    runTree sampleHashing 2 [.update 0 5 (), .update 2 7 ()] = .ok plain ∧
    (tree.rehash sampleHashing).root sampleHashing =
      (plain.rehash sampleHashing).root sampleHashing := by
  have ran : runTree sampleHashing 2 collapsingOps =
      .ok (value (runTree sampleHashing 2 collapsingOps) rfl) := valueOk _
  obtain ⟨plain, alone, same⟩ := collapsingKeepsRoot ran
  exact ⟨_, plain, ran, alone, same⟩

def collapsedCopy (H : TreeHashing) (tree : Tree HashOutput Fr A h)
    (ranges : List (U64 × U64)) : Tree HashOutput Fr A h :=
  ranges.foldl (fun copy range => copy.collapse H h range.1.toNat range.2.toNat) tree

theorem collapsedCopyCopies {H : TreeHashing} {copy : Tree HashOutput Fr A h}
    (ranges : List (U64 × U64)) (copies : Copy H tree copy) :
    Copy H tree (collapsedCopy H copy ranges) := by
  induction ranges generalizing copy with
  | nil => exact copies
  | cons range ranges ih => exact ih (Tree.copyCollapse copies)

def EvidenceReplays (H : TreeHashing) (tree : Tree HashOutput Fr A h) (i : U64) : Prop :=
  ∀ leaf aux ranges updated evidence, i.toNat < 2 ^ h → tree.index h i.toNat ≠ none →
    tree.tryUpdateHash h i.toNat leaf aux = .ok updated →
    (updated.rehash H).insertionEvidence i.toNat = some evidence →
    ∃ next, (collapsedCopy H tree ranges).updateFromEvidence H evidence.1 evidence.2 = some next ∧
      (next.rehash H).root H = (updated.rehash H).root H ∧
      ∀ j < 2 ^ h, j ≠ i.toNat → next.index h j = (collapsedCopy H tree ranges).index h j

/- The replay always succeeds. Evidence is refused exactly where it has to be unless an index
outside of the tree meets a last leaf. -/
theorem insertionEvidenceSound (H : TreeHashing) (tree : Tree HashOutput Fr A h) (i : U64) :
    EvidenceReplays H tree i ∧
    ((tree.insertionEvidence i.toNat ≠ none → i.toNat < 2 ^ h ∧ tree.index h i.toNat ≠ none) ↔
      h = 0 ∨ i.toNat < 2 ^ h ∨ tree.index h (2 ^ h - 1) = none) := by
  constructor
  · intro leaf aux ranges updated evidence inside present written taken
    have some := Tree.insertionEvidenceIff.mp (by rw [taken]; exact nofun)
    rw [Tree.insertionEvidence, if_neg some.1] at taken
    obtain ⟨path, found, last⟩ := Option.bind_eq_some_iff.mp taken
    obtain ⟨stored, there, final⟩ := Option.bind_eq_some_iff.mp last
    cases final
    rw [Tree.rehashIndex, Tree.tryUpdateHashIndex written inside, if_pos rfl] at there
    cases there
    obtain ⟨next, replayed, digest, others⟩ := Tree.copyUpdated
      (collapsedCopyCopies ranges (.same tree)) inside present written found
    refine ⟨next, replayed, ?_, others⟩
    rw [Tree.rehashRoot, Tree.rehashRoot, digest]
  · rw [Tree.insertionEvidenceIff]
    by_cases inside : i.toNat < 2 ^ h
    · exact iff_of_true (fun taken => ⟨inside, taken.2⟩) (.inr (.inl inside))
    · rw [Tree.indexOutside (Nat.le_of_not_lt inside)]
      constructor
      · intro refused
        by_contra others
        rw [not_or, not_or] at others
        exact inside (refused ⟨others.1, others.2.2⟩).1
      · rintro (flat | within | none) ⟨above, there⟩
        · exact absurd flat above
        · exact absurd within inside
        · exact absurd none there

theorem evidenceOutsideTree : ∃ tree : Tree HashOutput Fr Unit 1,
    runTree sampleHashing 1 [.update 0 5 (), .update 1 7 (), .rehash] = .ok tree ∧
    tree.insertionEvidence 2 = tree.insertionEvidence 1 ∧
    ¬ (tree.insertionEvidence 2 ≠ none → 2 < 2 ^ 1 ∧ tree.index 1 2 ≠ none) := by
  refine ⟨_, rfl, rfl, fun sound => ?_⟩
  exact absurd (sound nofun).1 (by decide)

open Words MerkleTrees.Tree List

section

variable {H : TreeHashing}

/- No panic: a path to the root for the leaf at the index, or the index is refused. -/
def PathExact (H : TreeHashing) (tree : Tree HashOutput Fr A h) (i : Nat) : Prop :=
  (i < 2 ^ h ∧ tree.Branches h i → ∃ path, tree.pathForLeaf H i = .ok path ∧
    ∀ leaf, tree.index h i = some leaf → tree.root H = some (pathRoot H leaf.1 path)) ∧
  (¬ (i < 2 ^ h ∧ tree.Branches h i) → tree.pathForLeaf H i = reject ())

theorem pathForLeafExactIff (rehashed : tree.Rehashed H) (i : U64) :
    PathExact H tree i.toNat ↔ tree.Ends h i.toNat := by
  constructor
  · intro exact
    by_contra beyond
    have panics := pathForLeafPanics (H := H) beyond
    by_cases free : i.toNat < 2 ^ h ∧ tree.Branches h i.toNat
    · obtain ⟨path, found, -⟩ := exact.1 free
      cases panics.symm.trans found
    · cases panics.symm.trans (exact.2 free)
  · intro ends
    exact ⟨fun free => pathForLeafOk rehashed (endsHeight ends) free.1 free.2,
      fun barred => pathForLeafRefused ends barred⟩

def TreeOp.writes (leaves : Nat → Option HashOutput) : TreeOp A → Nat → Option HashOutput
  | .update index written _ => write leaves index.toNat written
  | _ => leaves

/- The leaves that operations write, each by its last update. -/
def written (ops : List (TreeOp A)) : Nat → Option HashOutput :=
  ops.foldl TreeOp.writes fun _ => none

theorem runHolds (ran : runTree H h ops = .ok tree) : tree.Holds H (written ops) := by
  induction ops using reverseRecOn generalizing tree with
  | nil =>
    cases ran
    exact holdsBlank
  | append_singleton ops op ih =>
    obtain ⟨before, ran, last⟩ := foldlMAppend.mp ran
    obtain ⟨next, ok, rest⟩ := bindOk.mp last
    cases rest
    have holds := ih ran
    rw [written, foldl_append]
    cases op with
    | update index leaf aux => exact holdsWritten holds ok
    | collapse start stop =>
      cases ok
      exact holdsCollapse holds
    | rehash =>
      cases ok
      exact holdsRehash holds

theorem runRehashed (ran : runTree H h ops = .ok tree) : (tree.rehash H).Rehashed H :=
  have holds := runHolds ran
  holdsRehashed (holdsRehash holds) (rehashHashed holds)

/- The root commits to the leaves alone, however they came there. -/
theorem rootOfWritten {B : Type} {ops : List (TreeOp A)} {others : List (TreeOp B)}
    {tree : Tree HashOutput Fr A h} {other : Tree HashOutput Fr B h}
    (ran : runTree H h ops = .ok tree) (reran : runTree H h others = .ok other)
    (same : ∀ i < 2 ^ h, written ops i = written others i) :
    (tree.rehash H).root H = (other.rehash H).root H := by
  rw [holdsRoot (runHolds ran), holdsRoot (runHolds reran), digestOfSame same]

/- A path of full length to the root starts at the leaf that is written where it leads to, whether
the tree still has the leaf or only its hash, unless hashes collide on the way. -/
theorem pathLeadsToLeaf {ops : List (TreeOp A)} {tree : Tree HashOutput Fr A h}
    (ran : runTree H h ops = .ok tree) (height : h ≤ 64) {leaf : HashOutput}
    {path : List (Fr × Bool)} (full : path.length = h)
    (rooted : (tree.rehash H).root H = some (pathRoot H leaf path)) :
    ∃ i : U64, i.toNat = pathIndex path ∧
      (written ops i.toNat = some leaf ∨ Collides H leaf (written ops) path) := by
  have small : pathIndex path < 2 ^ 64 :=
    lt_of_lt_of_le (pathIndexLt path) (Nat.pow_le_pow_right (by decide) (full ▸ height))
  rw [holdsRoot (runHolds ran)] at rooted
  refine ⟨BitVec.ofNat 64 (pathIndex path), ?_, ?_⟩ <;> rw [BitVec.toNat_ofNat, mod_eq_of_lt small]
  exact pathSound (full ▸ (Option.some.inj rooted).symm)

end

def pairOps : List (TreeOp Unit) := [.update 0 5 (), .update 1 7 (), .collapse 2 3]

def pairTree : Tree HashOutput Fr Unit 2 :=
  .node none (.node none (.leaf 5 ()) (.leaf 7 ())) (.collapsed 0)

theorem pairRan : runTree sampleHashing 2 pairOps = .ok pairTree := rfl

theorem pairPathExact : PathExact sampleHashing (pairTree.rehash sampleHashing) (1 : U64).toNat :=
  (pathForLeafExactIff (runRehashed pairRan) 1).mpr
    (by simp [pairTree, rehash, Ends])

def rewrittenOps : List (TreeOp Unit) := [.update 1 3 (), .rehash, .update 1 7 (), .update 0 5 ()]

theorem pairRewritten : ∃ tree : Tree HashOutput Fr Unit 2,
    runTree sampleHashing 2 rewrittenOps = .ok tree ∧
      (pairTree.rehash sampleHashing).root sampleHashing =
        (tree.rehash sampleHashing).root sampleHashing := by
  have ran : runTree sampleHashing 2 rewrittenOps = .ok _ := rfl
  exact ⟨_, ran, rootOfWritten pairRan ran (by decide)⟩

def pairPath : List (Fr × Bool) := [(5, false), (0, true)]

theorem pairPathLeads : pathIndex pairPath = 1 ∧ ∃ i : U64, i.toNat = pathIndex pairPath ∧
    (written pairOps i.toNat = some 7 ∨ Collides sampleHashing 7 (written pairOps) pairPath) :=
  ⟨rfl, pathLeadsToLeaf pairRan (by decide) rfl (by decide +kernel)⟩

/- The pair of an index is collapsed, or the index lies outside of the tree. -/
theorem pathForLeafUnreachable : ∃ tree : Tree HashOutput Fr Unit 2,
    runTree sampleHashing 2 [.update 0 5 (), .update 2 7 (), .collapse 0 1] = .ok tree ∧
    (tree.rehash sampleHashing).pathForLeaf sampleHashing 0 = .error .panic ∧
    (tree.rehash sampleHashing).pathForLeaf sampleHashing 4 = .error .panic := by
  refine ⟨.node none (.collapsed 6) (.node none (.leaf 7 ()) .stub), rfl, ?_, ?_⟩
  · exact pathForLeafPanics (by simp [rehash, Ends])
  · exact pathForLeafPanics (by simp [rehash, Ends])

inductive Bound where
  | unbounded
  | included (n : Nat)
  | excluded (n : Nat)
  deriving DecidableEq, Repr

abbrev Range := Bound × Bound

def u64Max : Nat := 2 ^ 64 - 1

def Range.contains (range : Range) (i : Nat) : Bool :=
  (match range.1 with
    | .unbounded => true
    | .included n => decide (n ≤ i)
    | .excluded n => decide (n < i)) &&
  (match range.2 with
    | .unbounded => true
    | .included n => decide (i ≤ n)
    | .excluded n => decide (i < n))

def rangeForceInclusive (range : Range) : Option (Nat × Nat) := do
  let start ← match range.1 with
    | .unbounded => some 0
    | .included n => some n
    | .excluded n => if n = u64Max then none else some (n + 1)
  let stop ← match range.2 with
    | .unbounded => some u64Max
    | .included n => some n
    | .excluded n => if n = 0 then none else some (n - 1)
  some (start, stop)

def rangeEmpty (range : Range) : Bool :=
  match rangeForceInclusive range with
  | some (start, stop) => decide (stop < start)
  | none => true

def checkedSub (n sub : Nat) : Option Nat := if sub ≤ n then some (n - sub) else none

def rangeSub (range : Range) (sub : Nat) : Option Range := do
  let start := match range.1 with
    | .unbounded => .unbounded
    | .included n => (checkedSub n sub).elim .unbounded .included
    | .excluded n => (checkedSub n sub).elim .unbounded .excluded
  let stop ← match range.2 with
    | .unbounded => some .unbounded
    | .included n => (checkedSub n sub).map .included
    | .excluded n => (checkedSub n sub).map .excluded
  if rangeEmpty (start, stop) then none else some (start, stop)

def overlap (a b : Range) : Option (Nat × Nat) := do
  let first ← rangeForceInclusive a
  let second ← rangeForceInclusive b
  let start := max first.1 second.1
  let stop := min first.2 second.2
  if start ≤ stop then some (start, stop) else none

inductive LeafOrCollapsed (A : Type) where
  | leaf (index : Nat) (hash : HashOutput) (aux : A)
  | collapsed (start stop : Nat)

def LeafOrCollapsed.upgrade (offset : Nat) : LeafOrCollapsed A → LeafOrCollapsed A
  | .leaf index hash aux => .leaf (index + offset) hash aux
  | .collapsed start stop => .collapsed (start + offset) (stop + offset)

def LeafOrCollapsed.leaf? : LeafOrCollapsed A → Option (Nat × HashOutput × A)
  | .leaf index hash aux => some (index, hash, aux)
  | .collapsed _ _ => none

def leavesInRange : {h : Nat} → Tree HashOutput Fr A h → Range → List (LeafOrCollapsed A)
  | _, .leaf hash aux, range => if range.contains 0 then [.leaf 0 hash aux] else []
  | _, .stub, _ => []
  | h, .collapsed _, range =>
    ((overlap range (.included 0, .excluded (2 ^ h))).map fun part =>
      .collapsed part.1 part.2).toList
  | h + 1, .node _ left right, range =>
    leavesInRange left range ++
      ((rangeSub range (2 ^ h)).toList.flatMap (leavesInRange right)).map (.upgrade (2 ^ h))

def iterAux (tree : Tree HashOutput Fr A h) : List (Nat × HashOutput × A) :=
  (leavesInRange tree (.unbounded, .unbounded)).filterMap LeafOrCollapsed.leaf?

def findPathForLeafInner (H : TreeHashing) (tree : Tree HashOutput Fr A h)
    (leafHash : HashOutput) (range : Range) : Outcome Unit (Option (List (Fr × Bool))) :=
  match ((leavesInRange tree range).filterMap LeafOrCollapsed.leaf?).find?
      (fun entry => leafHash = entry.2.1) with
  | none => .ok none
  | some entry =>
    match tree.pathForLeaf H entry.1 with
    | .ok path => .ok (some path)
    | .error .panic => .error .panic
    | .error (.error _) => .ok none

variable {i : Nat}

theorem emptyContains (range : Range) (small : i ≤ u64Max)
    (empty : rangeEmpty range = true) : range.contains i = false := by
  obtain ⟨start, stop⟩ := range
  unfold rangeEmpty rangeForceInclusive at empty
  unfold Range.contains
  cases start <;> cases stop <;> grind

theorem containsSub {range : Range} {sub : Nat} (small : i + sub ≤ u64Max) :
    (rangeSub range sub).any (·.contains i) = range.contains (i + sub) := by
  have outside part := emptyContains part (i := i) (by omega)
  obtain ⟨start, stop⟩ := range
  unfold rangeSub checkedSub Range.contains
  cases start <;> cases stop <;> grind [Range.contains, Option.any]

def entries : {h : Nat} → Tree HashOutput Fr A h → List (Nat × HashOutput × A)
  | _, .leaf hash aux => [(0, hash, aux)]
  | _, .stub => []
  | _, .collapsed _ => []
  | h + 1, .node _ left right =>
    entries left ++ (entries right).map fun entry => (entry.1 + 2 ^ h, entry.2)

theorem entriesMem {leaf : HashOutput × A} :
    (i, leaf) ∈ entries tree ↔ i < 2 ^ h ∧ tree.index h i = some leaf := by
  induction tree generalizing i with
  | leaf hash aux => simp [entries, index, eq_comm]
  | @stub h =>
    rw [entries, show index h .stub i = none from blankIndex i]
    simp
  | collapsed hash =>
    rw [entries, collapsedIndex rfl]
    simp
  | @node h hash left right first second =>
    rw [entries, mem_append, first, indexOfHalves rfl, mem_map]
    constructor
    · rintro (⟨lower, found⟩ | ⟨⟨j, _⟩, inside, same⟩)
      · exact ⟨by omega, by rwa [if_pos lower]⟩
      · cases same
        obtain ⟨small, found⟩ := second.mp inside
        refine ⟨by omega, ?_⟩
        rwa [if_neg (by omega), Nat.add_sub_cancel]
    · rintro ⟨inside, found⟩
      split at found
      · rename_i lower
        exact .inl ⟨lower, found⟩
      · refine .inr ⟨(i - 2 ^ h, leaf), second.mpr ⟨by omega, found⟩, ?_⟩
        rw [Nat.sub_add_cancel (by omega)]

theorem entriesSorted (tree : Tree HashOutput Fr A h) :
    (entries tree).Pairwise fun first second => first.1 < second.1 := by
  induction tree with
  | leaf hash aux => exact pairwise_singleton _ _
  | stub | collapsed hash => exact List.Pairwise.nil
  | node hash left right first second =>
    refine pairwise_append.mpr ⟨first, pairwise_map.mpr ?_, ?_⟩
    · exact second.imp fun less => Nat.add_lt_add_right less _
    · intro lower here higher there
      obtain ⟨entry, -, rfl⟩ := mem_map.mp there
      have := (entriesMem.mp here).1
      exact lt_of_lt_of_le this (le_add_left _ _)

theorem leavesFilter (height : h ≤ 64) (range : Range) :
    (leavesInRange tree range).filterMap LeafOrCollapsed.leaf? =
      (entries tree).filter fun entry => range.contains entry.1 := by
  induction tree generalizing range with
  | leaf hash aux =>
    rw [leavesInRange, entries, filter_singleton]
    cases range.contains 0 <;> rfl
  | stub => rfl
  | collapsed hash =>
    rw [leavesInRange, entries]
    cases overlap range _ <;> rfl
  | @node h hash left right first second =>
    have upgraded (segments : List (LeafOrCollapsed A)) :
        (segments.map (.upgrade (2 ^ h))).filterMap LeafOrCollapsed.leaf? =
          (segments.filterMap LeafOrCollapsed.leaf?).map fun entry => (entry.1 + 2 ^ h, entry.2) := by
      rw [filterMap_map, map_filterMap]
      congr 1
      funext segment
      cases segment <;> rfl
    have shifted : ∀ entry ∈ entries right,
        (rangeSub range (2 ^ h)).any (·.contains entry.1) = range.contains (entry.1 + 2 ^ h) := by
      intro entry inside
      refine containsSub ?_
      have small := (entriesMem.mp inside).1
      have : 2 ^ (h + 1) ≤ 2 ^ 64 := Nat.pow_le_pow_right (by decide) height
      unfold u64Max
      omega
    rw [leavesInRange, entries, filterMap_append, filter_append, upgraded,
      first (by omega), filter_map]
    congr 2
    cases part : rangeSub range (2 ^ h) with
    | none =>
      rw [part] at shifted
      refine (filter_eq_nil_iff.mpr fun entry inside => ?_).symm
      rw [Function.comp, ← shifted entry inside]
      exact Bool.false_ne_true
    | some sub =>
      rw [part] at shifted
      simp only [Option.toList_some, flatMap_cons, flatMap_nil, append_nil]
      rw [second (by omega)]
      exact filter_congr fun entry inside => shifted entry inside

theorem iterAuxEntries (height : h ≤ 64) : iterAux tree = entries tree :=
  (leavesFilter height _).trans (filter_eq_self.mpr fun _ _ => rfl)

def LeafIn (tree : Tree HashOutput Fr A h) (range : Range) (hash : HashOutput) (i : Nat) : Prop :=
  i < 2 ^ h ∧ range.contains i = true ∧ ∃ aux, tree.index h i = some (hash, aux)

theorem leafInIff {range : Range} {hash : HashOutput} : LeafIn tree range hash i ↔
      ∃ aux, (i, hash, aux) ∈ (entries tree).filter fun entry => range.contains entry.1 := by
  simp only [LeafIn, mem_filter, entriesMem]
  grind

section

variable {H : TreeHashing}

/- The search never panics. It finds nothing where there is no such leaf in the range, and the
path of the first one where there is. The size of a collapsed part is a 64-bit number, so that a
tree of height 64 must not be collapsed as a whole. -/
theorem searchExact (rehashed : tree.Rehashed H)
    (shifts : h < 64 ∨ h = 64 ∧ tree.isCollapsed = false) (range : Range) (hash : HashOutput) :
    (∃ found, findPathForLeafInner H tree hash range = .ok found) ∧
    ((∃ path, findPathForLeafInner H tree hash range = .ok (some path)) ↔
      ∃ i, LeafIn tree range hash i) ∧
    ∀ i, LeafIn tree range hash i → (∀ j, LeafIn tree range hash j → i ≤ j) →
      findPathForLeafInner H tree hash range = (tree.pathForLeaf H i).map some := by
  have height : h ≤ 64 := by omega
  have sorted := (entriesSorted tree).filter fun entry => range.contains entry.1
  simp only [leafInIff, findPathForLeafInner, leavesFilter height range]
  cases first : ((entries tree).filter fun entry => range.contains entry.1).find?
      (fun entry => hash = entry.2.1) with
  | none =>
    have absent : ¬ ∃ i aux, (i, hash, aux) ∈
        (entries tree).filter fun entry => range.contains entry.1 := by
      rintro ⟨i, aux, inside⟩
      exact find?_eq_none.mp first _ inside (by simp)
    exact ⟨⟨_, rfl⟩, by simpa using absent, fun i here => absurd ⟨i, here⟩ absent⟩
  | some entry =>
    obtain ⟨same, before, after, split, earlier⟩ := find?_eq_some_iff_append.mp first
    obtain ⟨k, leaf, aux⟩ := entry
    cases of_decide_eq_true same
    have member := mem_of_find?_eq_some first
    obtain ⟨inside, found⟩ := entriesMem.mp (mem_filter.mp member).1
    obtain ⟨path, known, -⟩ :=
      pathForLeafOk rehashed height inside (branchesOfPresent found)
    dsimp only
    rw [known]
    refine ⟨⟨_, rfl⟩, iff_of_true ⟨path, rfl⟩ ⟨k, aux, member⟩, fun i ⟨other, here⟩ least => ?_⟩
    have only : i = k := by
      refine le_antisymm (least k ⟨aux, member⟩) ?_
      rw [split] at sorted here
      rcases mem_append.mp here with sooner | later
      · simpa using earlier _ sooner
      · rcases mem_cons.mp later with here | beyond
        · exact (Prod.mk.inj here).1.ge
        · exact le_of_lt ((pairwise_cons.mp (pairwise_append.mp sorted).2.1).1 _ beyond)
    rw [only, known]
    rfl

end

theorem pairFound : ∃ path, findPathForLeafInner sampleHashing (pairTree.rehash sampleHashing) 7
    (.excluded 0, .unbounded) = .ok (some path) :=
  ((searchExact (runRehashed pairRan) (by decide) (.excluded 0, .unbounded) 7).2.1).mpr
    ⟨1, by decide, by decide, (), rfl⟩

variable {B : Type}

structure MerkleTreeCollapsedUpdate where
  start : U64
  stop : U64
  hashes : List Fr
  deriving DecidableEq, Repr

def add64 (a b : Nat) : Outcome InvalidUpdate Nat :=
  if a + b < 2 ^ 64 then .ok (a + b) else .error .panic

def flipIncreasing (state : Nat × List Nat) (bit : Nat) : Outcome InvalidUpdate (Nat × List Nat) :=
  if state.1.testBit bit then do
    let a ← add64 state.1 (2 ^ bit)
    .ok (a, state.2 ++ [bit])
  else .ok state

def stepSizes (a b : Nat) : Outcome InvalidUpdate (List Nat) :=
  if a ^^^ b = 0 then .error .panic
  else do
    let msbDiff := (a ^^^ b).log2
    let (a, increasing) ← (range msbDiff).foldlM flipIncreasing (a, [])
    let msb := if a.testBit msbDiff then [] else [msbDiff]
    let decreasing := (range msbDiff).reverse.filter b.testBit
    .ok (increasing ++ msb ++ decreasing)

namespace MerkleTreeCollapsedUpdate

section

variable (H : TreeHashing) (tree : Tree HashOutput Fr A h)

def readStep (state : Nat × List Fr) (step : Nat) : Outcome InvalidUpdate (Nat × List Fr) := do
  let hash ← tree.partialIndex H h state.1 step
  .ok (state.1 + 2 ^ step, state.2 ++ [hash])

def new (start stop : U64) : Outcome InvalidUpdate MerkleTreeCollapsedUpdate :=
  if stop < start then reject (.endBeforeStart start.toNat stop.toNat)
  else if 2 ^ h ≤ stop.toNat then reject (.endOutOfTree stop.toNat)
  else do
    let after ← add64 stop.toNat 1
    let steps ← stepSizes start.toNat after
    let (_, hashes) ← steps.foldlM (readStep H tree) (start.toNat, [])
    .ok ⟨start, stop, hashes⟩

end

end MerkleTreeCollapsedUpdate

def writeStep (state : Nat × Tree HashOutput Fr A h) (step : Nat × Fr) :
    Outcome InvalidUpdate (Nat × Tree HashOutput Fr A h) := do
  let tree ← state.2.partialInsert h state.1 step.1 step.2
  .ok (state.1 + 2 ^ step.1, tree)

def applyCollapsedUpdate (tree : Tree HashOutput Fr A h) (update : MerkleTreeCollapsedUpdate) :
    Outcome InvalidUpdate (Tree HashOutput Fr A h) := do
  let after ← add64 update.stop.toNat 1
  let segments ← stepSizes update.start.toNat after
  if segments.length ≠ update.hashes.length then
    reject (.wrongNumberOfSegments segments.length update.hashes.length)
  else do
    let (_, tree) ← (segments.zip update.hashes).foldlM writeStep (update.start.toNat, tree)
    .ok tree

variable {a : Nat} {b : Nat}

theorem highestDiffering (less : a < b) :
    a / 2 ^ (a ^^^ b).log2 % 2 = 0 ∧ b / 2 ^ (a ^^^ b).log2 = a / 2 ^ (a ^^^ b).log2 + 1 := by
  have some : a ^^^ b ≠ 0 := xor_ne_zero_iff.mpr less.ne
  generalize msb : (a ^^^ b).log2 = k
  have differs : (a ^^^ b).testBit k = true := msb ▸ testBit_log2 some
  have agree : a / 2 ^ k / 2 = b / 2 ^ k / 2 := by
    have gone : (a ^^^ b) >>> (k + 1) = 0 := by
      rw [shiftRight_eq_div_pow, ← msb]
      exact div_eq_of_lt lt_log2_self
    rw [shiftRight_xor_distrib, xor_eq_zero_iff, shiftRight_eq_div_pow,
      shiftRight_eq_div_pow, pow_succ] at gone
    rwa [Nat.div_div_eq_div_mul, Nat.div_div_eq_div_mul]
  have order : a / 2 ^ k ≤ b / 2 ^ k := Nat.div_le_div_right less.le
  rw [testBit_xor, testBit_eq_decide_div_mod_eq, testBit_eq_decide_div_mod_eq] at differs
  have apart : a / 2 ^ k ≠ b / 2 ^ k := fun same => by
    rw [same, Bool.xor_self] at differs
    cases differs
  omega

theorem increasingTiles {k : Nat} (room : a + 2 ^ k ≤ 2 ^ 64) :
    ∃ c steps, (range k).foldlM flipIncreasing (a, []) = .ok (c, steps) ∧ Tiles a steps c ∧
      2 ^ k ∣ c ∧ c < a + 2 ^ k := by
  induction k with
  | zero => exact ⟨a, [], rfl, .nil a, one_dvd a, by omega⟩
  | succ k ih =>
    have double : 2 ^ (k + 1) = 2 ^ k * 2 := rfl
    obtain ⟨c, steps, folded, tiles, ⟨m, rfl⟩, below⟩ := ih (by omega)
    rw [range_succ, foldlM_append, folded, okBind, foldlM_cons]
    have bit : (2 ^ k * m).testBit k = decide (m % 2 = 1) := by
      rw [Nat.testBit_eq_decide_div_mod_eq, Nat.mul_div_cancel_left m (Nat.two_pow_pos k)]
    rw [flipIncreasing, bit]
    by_cases odd : m % 2 = 1
    · rw [if_pos (decide_eq_true odd), add64, if_pos (by omega), okBind]
      have up : 2 ^ k * m + 2 ^ k = 2 ^ (k + 1) * ((m + 1) / 2) := by
        rw [double, Nat.mul_assoc, Nat.mul_div_cancel' (by omega), Nat.mul_succ]
      exact ⟨_, _, rfl, tilesAppend tiles (.cons (dvd_mul_right ..) (.nil _)), ⟨_, up⟩, by omega⟩
    · rw [if_neg (by simpa using odd)]
      have even : 2 ^ k * m = 2 ^ (k + 1) * (m / 2) := by
        rw [double, Nat.mul_assoc, Nat.mul_div_cancel' (by omega)]
      exact ⟨_, _, rfl, tiles, ⟨_, even⟩, by omega⟩

theorem decreasingTiles (b k : Nat) :
    Tiles (2 ^ k * (b / 2 ^ k)) ((range k).reverse.filter b.testBit) b := by
  induction k with
  | zero =>
    rw [Nat.pow_zero, Nat.div_one, Nat.one_mul]
    exact .nil b
  | succ k ih =>
    have halves : 2 ^ (k + 1) * (b / 2 ^ (k + 1)) + 2 ^ k * (b / 2 ^ k % 2) = 2 ^ k * (b / 2 ^ k) := by
      rw [Nat.pow_succ, ← Nat.div_div_eq_div_mul, Nat.mul_assoc, ← Nat.mul_add, Nat.div_add_mod]
    rw [range_succ, reverse_append, reverse_singleton, singleton_append,
      filter_cons, testBit_eq_decide_div_mod_eq]
    split
    · rename_i bit
      rw [decide_eq_true_iff.mp bit, mul_one] at halves
      refine .cons ?_ (halves ▸ ih)
      exact Nat.dvd_mul_right_of_dvd (Nat.pow_dvd_pow 2 (Nat.le_succ k)) _
    · rename_i bit
      rw [decide_eq_true_iff] at bit
      rw [(by omega : b / 2 ^ k % 2 = 0), mul_zero, add_zero] at halves
      exact halves ▸ ih

theorem stepSizesTile (less : a < b) (small : b < 2 ^ 64) :
    ∃ steps, stepSizes a b = .ok steps ∧ Tiles a steps b := by
  obtain ⟨even, above⟩ := highestDiffering less
  have some : a ^^^ b ≠ 0 := xor_ne_zero_iff.mpr less.ne
  have fits : (a ^^^ b).log2 < 64 := (log2_lt some).mpr (xor_lt_two_pow (less.trans small) small)
  rw [stepSizes, if_neg some]
  dsimp only
  generalize (a ^^^ b).log2 = k at even above fits ⊢
  have positive : 0 < 2 ^ k := Nat.two_pow_pos k
  have lower := div_add_mod a (2 ^ k)
  have room : a + 2 ^ k ≤ 2 ^ 64 := by
    have whole : 2 ^ 64 = 2 ^ k * 2 ^ (64 - k) := by rw [← Nat.pow_add, Nat.add_sub_cancel' fits.le]
    have top : b / 2 ^ k < 2 ^ (64 - k) := Nat.div_lt_of_lt_mul (whole ▸ small)
    have next : 2 ^ k * (a / 2 ^ k + 2) ≤ 2 ^ k * 2 ^ (64 - k) := mul_le_mul_left _ (by omega)
    rw [← whole, mul_add] at next
    omega
  obtain ⟨c, steps, folded, tiles, ⟨m, rfl⟩, below⟩ := increasingTiles room
  have reached := tilesLe tiles
  have bit : (2 ^ k * m).testBit k = decide (m % 2 = 1) := by
    rw [Nat.testBit_eq_decide_div_mod_eq, Nat.mul_div_cancel_left m positive]
  -- the rounded start is the multiple at or right after the start
  have near : m = a / 2 ^ k ∨ m = a / 2 ^ k + 1 := by
    have low : a / 2 ^ k ≤ m := Nat.div_le_of_le_mul reached
    have high : 2 ^ k * m < 2 ^ k * (a / 2 ^ k + 2) := by
      rw [mul_add]
      omega
    have := lt_of_mul_lt_mul_left high
    omega
  rw [folded, okBind]
  refine ⟨_, rfl, ?_⟩
  rw [bit]
  rcases near with rfl | rfl
  · rw [if_neg (by simp [even])]
    refine tilesAppend (tilesAppend tiles (.cons (dvd_mul_right ..) (.nil _))) ?_
    rw [← mul_succ, succ_eq_add_one, ← above]
    exact decreasingTiles b k
  · rw [if_pos (by simp; omega), append_nil]
    rw [← above] at tiles
    exact tilesAppend tiles (decreasingTiles b k)

def outside (leaves : Nat → Option HashOutput) (start stop i : Nat) : Option HashOutput :=
  if start ≤ i ∧ i < stop then none else leaves i

section

variable {H : TreeHashing} {source : Tree HashOutput Fr A h}
  {target : Tree HashOutput Fr B h}

theorem stepsReplayed {a : Nat} {steps : List Nat} (tiles : Tiles a steps b) (inside : b ≤ 2 ^ h)
    (shifts : h ≤ 128) (holds : source.Holds H leaves) (hashed : source.Hashed)
    (present : ∀ i, a ≤ i → i < b → source.index h i ≠ none)
    (agrees : target.Holds H (outside leaves a b))
    (nothing : ∀ i, a ≤ i → i < b → target.IsOpen h i) (read : List Fr) :
    ∃ hashes next, steps.foldlM (MerkleTreeCollapsedUpdate.readStep H source) (a, read) =
        .ok (b, read ++ hashes) ∧ hashes.length = steps.length ∧
      (steps.zip hashes).foldlM writeStep (a, target) = .ok (b, next) ∧ next.Holds H leaves := by
  induction tiles generalizing target read with
  | nil start =>
    refine ⟨[], target, by rw [append_nil]; rfl, rfl, rfl, ?_⟩
    exact holdsSame (fun i _ => if_neg (by omega)) agrees
  | @cons a height b steps aligned rest ih =>
    have low := tilesHeight (.cons aligned rest) inside (mem_cons_self ..)
    have reach := tilesLe rest
    have place : a % 2 ^ h = a := mod_eq_of_lt (by omega)
    have here := present a (by omega) (by omega)
    have digest := partialIndexHolds holds hashed low shifts aligned (by rwa [place])
    rw [place] at digest
    have taken : outside leaves (a + 2 ^ height) b (a % 2 ^ h) ≠ none := by
      rw [place, outside, if_neg (by omega)]
      exact presentHeld holds (by omega) here
    obtain ⟨next, inserted, stands, free⟩ := partialInserted low shifts aligned
      (place.symm ▸ nothing a (by omega) (by omega)) agrees taken fun j _ apart => by
        simp only [outside]
        congr 1
        exact propext ⟨by omega, by omega⟩
    rw [place] at inserted free
    have same : digestOf H height (shifted a (outside leaves (a + 2 ^ height) b)) =
        digestOf H height (shifted a leaves) :=
      digestOfSame fun i small => if_neg (by omega)
    obtain ⟨hashes, final, reads, count, writes, done⟩ := ih inside
      (fun i least below => present i (by omega) below) stands
      (fun i least below => (free i least).mpr (nothing i (by omega) below))
      (read ++ [digestOf H height (shifted a leaves)])
    refine ⟨digestOf H height (shifted a leaves) :: hashes, final, ?_, by simp [count], ?_, done⟩
    · rw [foldlM_cons, MerkleTreeCollapsedUpdate.readStep, digest, okBind, okBind, reads,
        append_assoc]
      rfl
    · rw [zip_cons_cons, foldlM_cons, writeStep, ← same, inserted, okBind, okBind]
      exact writes

theorem collapsedUpdateReplayed {start stop : U64} (ordered : start ≤ stop)
    (inside : stop.toNat < 2 ^ h) (height : h ≤ 32) (holds : source.Holds H leaves)
    (rehashed : source.Hashed)
    (present : ∀ i, start.toNat ≤ i → i ≤ stop.toNat → source.index h i ≠ none)
    (agrees : target.Holds H (outside leaves start.toNat (stop.toNat + 1)))
    (nothing : ∀ i, start.toNat ≤ i → i ≤ stop.toNat → target.IsOpen h i) :
    ∃ steps update next, stepSizes start.toNat (stop.toNat + 1) = .ok steps ∧
      Tiles start.toNat steps (stop.toNat + 1) ∧
      MerkleTreeCollapsedUpdate.new H source start stop = .ok update ∧
      applyCollapsedUpdate target update = .ok next ∧ (next.rehash H).root H = source.root H := by
  have order : start.toNat ≤ stop.toNat := ordered
  have size : 2 ^ h ≤ 2 ^ 32 := Nat.pow_le_pow_right (by decide) height
  have after : add64 stop.toNat 1 = .ok (stop.toNat + 1) := if_pos (by omega)
  obtain ⟨steps, sized, tiles⟩ := stepSizesTile (by omega : start.toNat < stop.toNat + 1) (by omega)
  obtain ⟨hashes, next, reads, count, writes, done⟩ := stepsReplayed tiles (by omega) (by omega)
    holds rehashed (fun i least below => present i least (by omega)) agrees
    (fun i least below => nothing i least (by omega)) []
  refine ⟨steps, ⟨start, stop, hashes⟩, next, sized, tiles, ?_, ?_, ?_⟩
  · rw [MerkleTreeCollapsedUpdate.new, if_neg (by simpa using ordered), if_neg (by omega), after,
      okBind, sized, okBind, reads]
    rfl
  · rw [applyCollapsedUpdate, after, okBind, sized, okBind, if_neg (by simp [count]), writes]
    rfl
  · rw [holdsRoot done, hashedRoot holds rehashed]

end

def twoLeaves (i : Nat) : Option HashOutput := if i = 0 then some 5 else some 7

def fullPair : Tree HashOutput Fr Unit 1 := .node none (.leaf 5 ()) (.leaf 7 ())

def halfPair : Tree HashOutput Fr Unit 1 := .node none (.leaf 5 ()) .stub

theorem secondLeafReplayed : ∃ update next, MerkleTreeCollapsedUpdate.new sampleHashing
      (fullPair.rehash sampleHashing) 1 1 = .ok update ∧
    applyCollapsedUpdate halfPair update = .ok next ∧ (next.rehash sampleHashing).root sampleHashing =
      (fullPair.rehash sampleHashing).root sampleHashing := by
  have taken : ∀ leaves : Nat → Option HashOutput, leaves 0 = some 5 → ¬ Vacant 1 leaves :=
    fun leaves first vacant => nomatch first.symm.trans (vacant 0 (by decide))
  have holds : fullPair.Holds sampleHashing twoLeaves := ⟨.inl ⟨rfl, taken _ rfl⟩, rfl, rfl⟩
  have agrees : halfPair.Holds sampleHashing (outside twoLeaves 1 2) := by
    refine ⟨.inl ⟨rfl, taken _ rfl⟩, rfl, fun i small => ?_⟩
    obtain rfl : i = 0 := by omega
    rfl
  have only : ∀ i, (1 : U64).toNat ≤ i → i ≤ (1 : U64).toNat → i = 1 := fun i low high =>
    le_antisymm high low
  obtain ⟨_, update, next, -, -, made, applied, same⟩ := collapsedUpdateReplayed
    (by decide : (1 : U64) ≤ 1) (by decide) (by decide) (holdsRehash holds)
    (rehashHashed holds) (fun i low high => by rw [only i low high]; exact nofun) agrees
    (fun i low high => by rw [only i low high]; exact ⟨rfl, rfl⟩)
  exact ⟨update, next, made, applied, same⟩

theorem wellFormedUpdateNoPanic (tree : Tree HashOutput Fr A h) (update : MerkleTreeCollapsedUpdate)
    (height : h ≤ 128) (ordered : update.start ≤ update.stop) (inside : update.stop.toNat < 2 ^ h)
    (last : update.stop.toNat + 1 < 2 ^ 64) :
    applyCollapsedUpdate tree update ≠ .error .panic ∧
      ∃ steps, stepSizes update.start.toNat (update.stop.toNat + 1) = .ok steps ∧
        ∀ step ∈ steps, step ≤ h := by
  have order : update.start.toNat ≤ update.stop.toNat := ordered
  obtain ⟨steps, sized, tiles⟩ := stepSizesTile (by omega : update.start.toNat < update.stop.toNat + 1)
    last
  have low : ∀ step ∈ steps, step ≤ h := fun step => tilesHeight tiles inside
  refine ⟨fun failed => ?_, steps, sized, low⟩
  rw [applyCollapsedUpdate, add64, if_pos last, okBind, sized, okBind] at failed
  split at failed
  · cases failed
  rcases bindError.mp failed with replay | ⟨_, _, done⟩
  · obtain ⟨before, step, after, state, shape, -, broken⟩ := foldlMError.mp replay
    have mem : step ∈ steps.zip update.hashes := by
      rw [shape]
      exact mem_append_right _ (mem_cons_self ..)
    rcases bindError.mp broken with inner | ⟨_, _, done⟩
    · exact partialInsertNoPanic (low _ (of_mem_zip mem).1) height inner
    · cases done
  · cases done

theorem emptyRangeRefused : applyCollapsedUpdate fullPair ⟨0, 1, []⟩ ≠ .error .panic ∧
    applyCollapsedUpdate fullPair ⟨0, 1, []⟩ = .error (.error (.wrongNumberOfSegments 1 0)) :=
  ⟨(wellFormedUpdateNoPanic fullPair ⟨0, 1, []⟩ (by decide) (by decide) (by decide)
    (by decide)).1, rfl⟩

/- The range may end right before it starts, reach above the tree, or end at the last index; and the
tree may be higher than the shift is wide. -/
theorem malformedUpdatesPanic :
    applyCollapsedUpdate fullPair ⟨1, 0, []⟩ = .error .panic ∧
    applyCollapsedUpdate fullPair ⟨0, 3, [0]⟩ = .error .panic ∧
    applyCollapsedUpdate fullPair ⟨0, BitVec.ofNat 64 (2 ^ 64 - 1), []⟩ = .error .panic ∧
    applyCollapsedUpdate (.blank 129 : Tree HashOutput Fr Unit 129) ⟨0, 0, [0]⟩ = .error .panic :=
  ⟨rfl, rfl, rfl, rfl⟩

end MidnightLedger.Crypto

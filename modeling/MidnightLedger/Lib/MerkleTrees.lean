import Mathlib.Tactic.Ring
import MidnightLedger.Lib.Loops
import MidnightLedger.Lib.Words

/-! Sparse binary Merkle trees whose parts can be collapsed to their hash. The height is an index of
the type. Sizes of parts are exact numbers: a word holds them up to the height that its indices
address. A leaf can be written exactly at the indices that no collapsed part covers. The digest of a
tree is a function of the leaves it stands for. -/
namespace MerkleTrees
open Loops Words List Option

structure Hashing (L F : Type) where
  leaf : L → F
  node : F → F → F
  empty : F

inductive Tree (L F A : Type) : Nat → Type where
  | leaf (hash : L) (aux : A) : Tree L F A 0
  | collapsed {h : Nat} (hash : F) : Tree L F A h
  | stub {h : Nat} : Tree L F A h
  | node {h : Nat} (hash : Option F) (left right : Tree L F A h) : Tree L F A (h + 1)

inductive InvalidUpdate where
  | indexOutOfTree (index : Nat)
  | collapsedIndex (index height : Nat)
  | stubUpdate (index height : Nat)
  | badUpdatePath
  | notFullyRehashed
  | endBeforeStart (start stop : Nat)
  | endOutOfTree (stop : Nat)
  | wrongNumberOfSegments (expected found : Nat)
  deriving DecidableEq, Repr

variable {start : Nat}

namespace Tree

variable {L F A : Type} {h : Nat}

def blank (h : Nat) : Tree L F A h := .stub

/- An absent part stands for two absent halves; a collapsed one has none. -/
def children : Tree L F A (h + 1) → Option (Tree L F A h × Tree L F A h)
  | .collapsed _ => none
  | .stub => some (.stub, .stub)
  | .node _ left right => some (left, right)

def isCollapsed : Tree L F A h → Bool
  | .collapsed _ => true
  | _ => false

def leaves : {h : Nat} → Tree L F A h → List (Nat × L)
  | _, .leaf hash _ => [(0, hash)]
  | _, .collapsed _ => []
  | _, .stub => []
  | h + 1, .node _ left right =>
    left.leaves ++ right.leaves.map (fun leaf => (leaf.1 + 2 ^ h, leaf.2))

def hashes (tree : Tree L F A h) : List L := tree.leaves.map Prod.snd

section

variable (H : Hashing L F)

def root : Tree L F A h → Option F
  | .leaf hash _ => some (H.leaf hash)
  | .collapsed hash => some hash
  | .stub => some H.empty
  | .node hash _ _ => hash

def rehash : {h : Nat} → Tree L F A h → Tree L F A h
  | _, .node none left right =>
    .node (map₂ H.node (left.rehash.root H) (right.rehash.root H)) left.rehash right.rehash
  | _, tree => tree

def digest (tree : Tree L F A h) : F := ((tree.rehash H).root H).getD H.empty

theorem rehashRoot (tree : Tree L F A h) : (tree.rehash H).root H = some (tree.digest H) := by
  suffices rooted : ∃ hash, (tree.rehash H).root H = some hash by
    obtain ⟨hash, found⟩ := rooted
    rw [digest, found]
    rfl
  induction tree with
  | leaf hash aux | collapsed hash | stub => exact ⟨_, rfl⟩
  | node hash left right first second =>
    cases hash with
    | some hash => exact ⟨hash, rfl⟩
    | none =>
      obtain ⟨a, left⟩ := first
      obtain ⟨b, right⟩ := second
      refine ⟨H.node a b, ?_⟩
      rw [rehash, left, right]
      rfl

/- The root of a path from a leaf; an entry has the hash of the sibling and whether the path
goes left there. -/
def pathRoot (leaf : L) (path : List (F × Bool)) : F :=
  path.foldl (fun acc entry => if entry.2 then H.node acc entry.1 else H.node entry.1 acc)
    (H.leaf leaf)

/- Every path of full length to the root of the tree starts at one of its leaves. -/
def Binding (tree : Tree L F A h) : Prop :=
  ∀ leaf path, path.length = h → pathRoot H leaf path = tree.digest H → leaf ∈ tree.hashes

def joined (tree : Tree L F A (h + 1)) (hash : Option F) (left right : Tree L F A h) :
    Tree L F A (h + 1) :=
  if left.isCollapsed && right.isCollapsed then .collapsed (tree.digest H)
  else .node hash left right

/- The hash that collapsing leaves on a node; an absent part counts as hashed. -/
def keptHash : Tree L F A (h + 1) → Option F
  | .node hash _ _ => hash
  | _ => some H.empty

/- Inside of the tree the range that reaches an absent leaf is that leaf; for any other, the code
would underflow on the height. -/
def collapse : (h : Nat) → Tree L F A h → Nat → Nat → Tree L F A h
  | 0, tree, _, _ => .collapsed (tree.digest H)
  | h + 1, tree, start, stop =>
    match tree.children with
    | none => tree
    | some (left, right) =>
      if start = 0 ∧ stop = 2 ^ (h + 1) - 1 then .collapsed (tree.digest H) else
        joined H tree (tree.keptHash H)
          (if start < 2 ^ h then collapse h left start (min stop (2 ^ h - 1)) else left)
          (if 2 ^ h ≤ stop then collapse h right (start - 2 ^ h) (stop - 2 ^ h) else right)

end

def tryUpdateHash : (h : Nat) → Tree L F A h → Nat → L → A → Except InvalidUpdate (Tree L F A h)
  | 0, tree, index, written, aux =>
    if 1 ≤ index then .error (.indexOutOfTree index)
    else if tree.isCollapsed then .error (.collapsedIndex index 0)
    else .ok (.leaf written aux)
  | h + 1, tree, index, written, aux =>
    if 2 ^ (h + 1) ≤ index then .error (.indexOutOfTree index) else
      match tree.children with
      | none => .error (.collapsedIndex index (h + 1))
      | some (left, right) =>
        if index < 2 ^ h then do
          let left ← tryUpdateHash h left index written aux
          .ok (.node none left right)
        else do
          let right ← tryUpdateHash h right (index - 2 ^ h) written aux
          .ok (.node none left right)

def index : (h : Nat) → Tree L F A h → Nat → Option (L × A)
  | 0, .leaf hash aux, _ => some (hash, aux)
  | 0, _, _ => none
  | h + 1, tree, i =>
    match tree.children with
    | none => none
    | some (left, right) => if i < 2 ^ h then index h left i else index h right (i - 2 ^ h)

def pathForIndex : (h : Nat) → Tree L F A h → Nat → Option (List (Option F × Bool))
  | 0, _, _ => some []
  | h + 1, .node hash left right, i => do
    let below ← if i < 2 ^ h then pathForIndex h left i else pathForIndex h right (i - 2 ^ h)
    some (below ++ [(hash, decide (i < 2 ^ h))])
  | _ + 1, _, _ => none

/- The siblings along the way to an index from the leaf up. The size of a half is a 64-bit number,
which the shift by its height must not leave. The last branch has to be a node: a collapsed one, or
an index outside of the tree, is held to be unreachable. -/
def siblings (H : Hashing L F) :
    (h : Nat) → Tree L F A h → Nat → Outcome Unit (List (Option F × Bool))
  | 0, _, i => if i = 0 then .ok [] else reject ()
  | 1, .node _ left right, i =>
    if i = 0 then .ok [(right.root H, true)]
    else if i = 1 then .ok [(left.root H, false)]
    else .error .panic
  | 1, .stub, _ => reject ()
  | 1, .collapsed _, _ => .error .panic
  | h + 2, tree, i =>
    if 64 ≤ h + 1 then .error .panic else
      match tree with
      | .node _ left right =>
        if i < 2 ^ (h + 1) then do
          let below ← siblings H (h + 1) left i
          .ok (below ++ [(right.root H, true)])
        else do
          let below ← siblings H (h + 1) right (i - 2 ^ (h + 1))
          .ok (below ++ [(left.root H, false)])
      | _ => reject ()

def pathForLeaf (H : Hashing L F) (tree : Tree L F A h) (i : Nat) :
    Outcome Unit (List (F × Bool)) := do
  let path ← siblings H h tree i
  path.mapM fun entry =>
    match entry.1 with
    | some sibling => .ok (sibling, entry.2)
    | none => reject ()

def insertionEvidence (tree : Tree L F A h) (i : Nat) : Option ((L × A) × List (Option F × Bool)) :=
  if h = 0 then none
  else do
    let path ← pathForIndex h tree i
    let leaf ← index h tree i
    some (leaf, path)

/- A collapsed part takes its new hash from the path. A path that is shorter than the tree
would leave a leaf above its level; such a path is refused here. -/
def updateFromEvidence (H : Hashing L F) :
    {h : Nat} → Tree L F A h → L × A → List (Option F × Bool) → Option (Tree L F A h)
  | _, .collapsed _, inserted, path =>
    match path.getLast? with
    | none => some (.collapsed (H.leaf inserted.1))
    | some entry => entry.1.map .collapsed
  | _, .leaf _ _, inserted, path =>
    if path.isEmpty then some (.leaf inserted.1 inserted.2) else none
  | 0, .stub, inserted, path =>
    if path.isEmpty then some (.leaf inserted.1 inserted.2) else none
  | _ + 1, .stub, _, _ => none
  | _, .node _ left right, inserted, path =>
    match path.getLast? with
    | none => none
    | some entry =>
      if entry.2 then (left.updateFromEvidence H inserted path.dropLast).map (.node none · right)
      else (right.updateFromEvidence H inserted path.dropLast).map (.node none left ·)

def IsOpen : (h : Nat) → Tree L F A h → Nat → Prop
  | 0, tree, index => index = 0 ∧ tree.isCollapsed = false
  | h + 1, tree, index =>
    match tree.children with
    | none => False
    | some (left, right) =>
      if index < 2 ^ h then IsOpen h left index else IsOpen h right (index - 2 ^ h)

variable {left right tree : Tree L F A h} {i : Nat}

theorem openOfHalves {tree : Tree L F A (h + 1)} {index : Nat}
    (halves : tree.children = some (left, right)) : IsOpen (h + 1) tree index ↔
      if index < 2 ^ h then IsOpen h left index else IsOpen h right (index - 2 ^ h) := by
  rw [IsOpen, halves]

theorem openInside {index : Nat} (isOpen : IsOpen h tree index) : index < 2 ^ h := by
  induction h generalizing index with
  | zero =>
    rw [isOpen.1]
    decide
  | succ h ih =>
    rw [IsOpen] at isOpen
    split at isOpen <;> try contradiction
    split at isOpen
    · have := ih isOpen
      omega
    · have := ih isOpen
      omega

theorem collapsedNotOpen {index : Nat} (collapsed : tree.isCollapsed) : ¬ IsOpen h tree index := by
  intro isOpen
  cases h with
  | zero =>
    rw [isOpen.2] at collapsed
    cases collapsed
  | succ h =>
    cases tree with
    | collapsed hash => exact isOpen
    | stub => cases collapsed
    | node hash left right => cases collapsed

theorem blankOpen {index : Nat} (inside : index < 2 ^ h) :
    IsOpen h (blank h : Tree L F A h) index := by
  induction h generalizing index with
  | zero => exact ⟨by simpa using inside, rfl⟩
  | succ h ih =>
    simp only [IsOpen, blank, children]
    split
    · rename_i lower
      exact ih lower
    · exact ih (by omega)

theorem tryUpdateHashIff {index : Nat} (leaf : L) (aux : A) :
    (∃ next, tryUpdateHash h tree index leaf aux = .ok next) ↔ IsOpen h tree index := by
  induction h generalizing index with
  | zero =>
    simp only [tryUpdateHash, IsOpen]
    split
    · simp
      omega
    · split
      · rename_i collapsed
        simp [collapsed]
      · rename_i outside free
        simp only [Except.ok.injEq, exists_eq', true_iff]
        exact ⟨by omega, by simpa using free⟩
  | succ h ih =>
    rw [tryUpdateHash]
    split
    · rename_i outside
      simp only [reduceCtorEq, exists_false, false_iff]
      intro isOpen
      have := openInside isOpen
      omega
    · simp only [IsOpen]
      split
      · simp
      · split
        · rw [← ih]
          simp [bindOk]
        · rw [← ih]
          simp [bindOk]

variable {aux : A}

theorem tryUpdateHashZero {tree next : Tree L F A 0} {leaf : L}
    (ok : tryUpdateHash 0 tree i leaf aux = .ok next) :
    i = 0 ∧ tree.isCollapsed = false ∧ next = .leaf leaf aux := by
  rw [tryUpdateHash] at ok
  obtain ⟨inside, ok⟩ := elseOk.mp ok
  obtain ⟨free, ok⟩ := elseOk.mp ok
  cases ok
  exact ⟨by omega, by simpa using free, rfl⟩

theorem tryUpdateHashSucc {tree next : Tree L F A (h + 1)} {leaf : L}
    (ok : tryUpdateHash (h + 1) tree i leaf aux = .ok next) :
    i < 2 ^ (h + 1) ∧ ∃ left right, tree.children = some (left, right) ∧
      ((i < 2 ^ h ∧ ∃ written, tryUpdateHash h left i leaf aux = .ok written ∧
        next = .node none written right) ∨
      (2 ^ h ≤ i ∧ ∃ written, tryUpdateHash h right (i - 2 ^ h) leaf aux = .ok written ∧
        next = .node none left written)) := by
  rw [tryUpdateHash] at ok
  obtain ⟨inside, ok⟩ := elseOk.mp ok
  split at ok <;> try contradiction
  rename_i left right halves
  refine ⟨by omega, left, right, halves, ?_⟩
  split at ok
  · rename_i lower
    obtain ⟨written, inner, rfl⟩ := pureOk.mp ok
    exact .inl ⟨lower, written, inner, rfl⟩
  · obtain ⟨written, inner, rfl⟩ := pureOk.mp ok
    exact .inr ⟨by omega, written, inner, rfl⟩

theorem tryUpdateHashOpen {next : Tree L F A h} {index : Nat} {leaf : L}
    (ok : tryUpdateHash h tree index leaf aux = .ok next) (other : Nat) :
    IsOpen h next other ↔ IsOpen h tree other := by
  induction h generalizing index other with
  | zero =>
    obtain ⟨-, free, rfl⟩ := tryUpdateHashZero ok
    exact ⟨fun first => ⟨first.1, free⟩, fun first => ⟨first.1, rfl⟩⟩
  | succ h ih =>
    obtain ⟨-, left, right, halves, ⟨-, written, inner, rfl⟩ | ⟨-, written, inner, rfl⟩⟩ :=
      tryUpdateHashSucc ok
    · rw [openOfHalves halves, openOfHalves rfl, ih inner]
    · rw [openOfHalves halves, openOfHalves rfl, ih inner]

theorem indexOfHalves {tree : Tree L F A (h + 1)} (halves : tree.children = some (left, right)) :
    index (h + 1) tree i =
      if i < 2 ^ h then index h left i else index h right (i - 2 ^ h) := by
  rw [index, halves]

theorem blankIndex (i : Nat) : index h (blank h : Tree L F A h) i = none := by
  induction h generalizing i with
  | zero => rfl
  | succ h ih =>
    rw [indexOfHalves rfl]
    split
    · exact ih i
    · exact ih _

theorem tryUpdateHashIndex {next : Tree L F A h} {j : Nat} {leaf : L}
    (ok : tryUpdateHash h tree i leaf aux = .ok next) (inside : j < 2 ^ h) :
    index h next j = if j = i then some (leaf, aux) else index h tree j := by
  induction h generalizing i j with
  | zero =>
    obtain ⟨rfl, -, rfl⟩ := tryUpdateHashZero ok
    rw [if_pos (by omega)]
    rfl
  | succ h ih =>
    obtain ⟨-, left, right, halves, ⟨first, written, inner, rfl⟩ | ⟨upper, written, inner, rfl⟩⟩ :=
      tryUpdateHashSucc ok <;> rw [indexOfHalves halves, indexOfHalves rfl]
    · by_cases lower : j < 2 ^ h
      · rw [if_pos lower, if_pos lower, ih inner lower]
      · rw [if_neg lower, if_neg lower, if_neg (by omega)]
    · by_cases lower : j < 2 ^ h
      · rw [if_pos lower, if_pos lower, if_neg (by omega)]
      · rw [if_neg lower, if_neg lower, ih inner (by omega)]
        have shifted : j - 2 ^ h = i - 2 ^ h ↔ j = i := by omega
        simp only [shifted]

theorem hashesOfHalves {tree : Tree L F A (h + 1)} (halves : tree.children = some (left, right)) :
    tree.hashes = left.hashes ++ right.hashes := by
  cases tree with
  | collapsed hash => cases halves
  | stub =>
    cases halves
    rfl
  | node hash left' right' =>
    cases halves
    simp [hashes, leaves, Function.comp_def]

theorem tryUpdateHashHashes {next : Tree L F A h} {index : Nat} {leaf other : L}
    (ok : tryUpdateHash h tree index leaf aux = .ok next) (mem : other ∈ next.hashes) :
    other = leaf ∨ other ∈ tree.hashes := by
  induction h generalizing index with
  | zero =>
    obtain ⟨-, -, rfl⟩ := tryUpdateHashZero ok
    exact .inl (mem_singleton.mp mem)
  | succ h ih =>
    obtain ⟨-, left, right, halves, ⟨-, written, inner, rfl⟩ | ⟨-, written, inner, rfl⟩⟩ :=
      tryUpdateHashSucc ok <;> rw [hashesOfHalves halves] <;>
      rw [hashesOfHalves rfl, mem_append] at mem
    · rcases mem with here | there
      · exact (ih inner here).imp id (mem_append_left _)
      · exact .inr (mem_append_right _ there)
    · rcases mem with here | there
      · exact .inr (mem_append_left _ here)
      · exact (ih inner there).imp id (mem_append_right _)

variable {H : Hashing L F}

theorem rehashHashes (tree : Tree L F A h) : (tree.rehash H).hashes = tree.hashes := by
  induction tree with
  | leaf hash aux => rfl
  | collapsed hash => rfl
  | stub => rfl
  | node hash left right first second =>
    cases hash with
    | some hash => rfl
    | none =>
      rw [rehash, hashesOfHalves rfl, hashesOfHalves rfl, first, second]

theorem joinedOpen {tree : Tree L F A (h + 1)} {hash : Option F} {index : Nat} :
    IsOpen (h + 1) (joined H tree hash left right) index ↔
      if index < 2 ^ h then IsOpen h left index else IsOpen h right (index - 2 ^ h) := by
  rw [joined]
  split
  · rename_i both
    rw [Bool.and_eq_true] at both
    simp only [IsOpen, children, false_iff]
    split
    · exact collapsedNotOpen both.1
    · exact collapsedNotOpen both.2
  · rfl

/- A range may end right before it starts; then nothing is collapsed. -/
theorem collapseOpen {stop other : Nat} (range : start ≤ stop + 1) (first : start < 2 ^ h)
    (last : stop < 2 ^ h) : IsOpen h (collapse H h tree start stop) other ↔
      IsOpen h tree other ∧ ¬ (start ≤ other ∧ other ≤ stop) := by
  induction h generalizing start stop other with
  | zero =>
    refine iff_of_false (fun covered => Bool.noConfusion covered.2) fun still => still.2 ?_
    have only := still.1.1
    omega
  | succ h ih =>
    rw [collapse]
    split
    · rename_i covered
      simp [IsOpen, covered]
    · rename_i left right halves
      split
      · rename_i whole
        refine iff_of_false id fun still => still.2 ⟨by omega, ?_⟩
        have := openInside still.1
        omega
      · rw [joinedOpen, openOfHalves halves]
        split
        · split
          · rw [ih (by omega) (by omega) (by omega)]
            refine and_congr_right fun _ => ?_
            omega
          · exact (and_iff_left (by omega)).symm
        · split
          · rw [ih (by omega) (by omega) (by omega)]
            refine and_congr_right fun _ => ?_
            omega
          · exact (and_iff_left (by omega)).symm

theorem collapsedIndex (collapsed : tree.isCollapsed) : index h tree i = none := by
  cases tree with
  | collapsed hash => cases h <;> rfl
  | leaf hash aux | stub | node hash left right => cases collapsed

theorem joinedIndex {tree : Tree L F A (h + 1)} {hash : Option F} :
    index (h + 1) (joined H tree hash left right) i =
      if i < 2 ^ h then index h left i else index h right (i - 2 ^ h) := by
  rw [joined]
  split
  · rename_i both
    rw [Bool.and_eq_true] at both
    rw [collapsedIndex rfl, collapsedIndex both.1, collapsedIndex both.2, ite_self]
  · rw [indexOfHalves rfl]

theorem collapseIndex {stop : Nat} (range : start ≤ stop + 1) (first : start < 2 ^ h)
    (last : stop < 2 ^ h) (inside : i < 2 ^ h) : index h (collapse H h tree start stop) i =
      if start ≤ i ∧ i ≤ stop then none else index h tree i := by
  induction h generalizing start stop i with
  | zero =>
    rw [if_pos (by omega)]
    rfl
  | succ h ih =>
    rw [collapse]
    split
    · rename_i covered
      have none : index (h + 1) tree i = none := by rw [index, covered]
      rw [none, ite_self]
    · rename_i left right halves
      split
      · rw [if_pos (by omega)]
        rfl
      · rw [joinedIndex, indexOfHalves halves]
        split
        · split
          · rw [ih (by omega) (by omega) (by omega) (by omega)]
            exact if_congr (by omega) rfl rfl
          · rw [if_neg (by omega)]
        · split
          · rw [ih (by omega) (by omega) (by omega) (by omega)]
            exact if_congr (by omega) rfl rfl
          · rw [if_neg (by omega)]

theorem rehashCollapsed (tree : Tree L F A h) : (tree.rehash H).isCollapsed = tree.isCollapsed := by
  cases tree with
  | node hash left right => cases hash <;> rfl
  | _ => rfl

theorem rehashOpen {index : Nat} : IsOpen h (tree.rehash H) index ↔ IsOpen h tree index := by
  induction h generalizing index with
  | zero => rw [IsOpen, IsOpen, rehashCollapsed]
  | succ h ih =>
    cases tree with
    | collapsed hash => rfl
    | stub => rfl
    | node hash left right =>
      cases hash with
      | some hash => rfl
      | none =>
        simp only [rehash, IsOpen, children]
        rw [ih, ih]

theorem rehashIndex (tree : Tree L F A h) (i : Nat) :
    index h (tree.rehash H) i = index h tree i := by
  induction h generalizing i with
  | zero => cases tree <;> rfl
  | succ h ih =>
    cases tree with
    | collapsed hash => rfl
    | stub => rfl
    | node hash left right =>
      cases hash with
      | some hash => rfl
      | none => rw [rehash, indexOfHalves rfl, indexOfHalves rfl, ih, ih]

end Tree

variable {L F A : Type} {h : Nat}

def Vacant (h : Nat) (leaves : Nat → Option L) : Prop := ∀ i < 2 ^ h, leaves i = none

def upper (h : Nat) (leaves : Nat → Option L) (i : Nat) : Option L := leaves (i + 2 ^ h)

section

variable (H : Hashing L F)

open Classical in
noncomputable def digestOf : (h : Nat) → (Nat → Option L) → F
  | 0, leaves => (leaves 0).elim H.empty H.leaf
  | h + 1, leaves =>
    if Vacant (h + 1) leaves then H.empty
    else H.node (digestOf h leaves) (digestOf h (upper h leaves))

noncomputable def ancestry : (h : Nat) → (Nat → Option L) → Nat → List (Option F × Bool)
  | 0, _, _ => []
  | h + 1, leaves, i =>
    (if i < 2 ^ h then ancestry h leaves i else ancestry h (upper h leaves) (i - 2 ^ h)) ++
      [(some (digestOf H (h + 1) leaves), decide (i < 2 ^ h))]

end

namespace Tree

def Hashed : {h : Nat} → Tree L F A h → Prop
  | _, .node hash left right => hash.isSome ∧ left.Hashed ∧ right.Hashed
  | _, _ => True

/- The hash of a node is the digest of its leaves, or there are leaves to hash. -/
def Stored (H : Hashing L F) (hash : Option F) (left right : Tree L F A h)
    (leaves : Nat → Option L) : Prop :=
  hash = none ∧ ¬ Vacant (h + 1) leaves ∨
    hash = some (digestOf H (h + 1) leaves) ∧ left.Hashed ∧ right.Hashed

variable (H : Hashing L F)

def Holds : {h : Nat} → Tree L F A h → (Nat → Option L) → Prop
  | _, .leaf hash _, leaves => leaves 0 = some hash
  | h, .collapsed hash, leaves => hash = digestOf H h leaves
  | h, .stub, leaves => Vacant h leaves
  | h + 1, .node hash left right, leaves =>
    Stored H hash left right leaves ∧ left.Holds leaves ∧ right.Holds (upper h leaves)

end Tree

variable {H : Hashing L F} {i : Nat} {others : Nat → Option L} {leaves : Nat → Option L}

section

theorem vacantHalves : Vacant (h + 1) leaves ↔ Vacant h leaves ∧ Vacant h (upper h leaves) := by
  constructor
  · intro vacant
    exact ⟨fun i lower => vacant i (by omega), fun i lower => vacant (i + 2 ^ h) (by omega)⟩
  · rintro ⟨first, second⟩ i inside
    by_cases lower : i < 2 ^ h
    · exact first i lower
    · have there := second (i - 2 ^ h) (by omega)
      rwa [upper, Nat.sub_add_cancel (by omega)] at there

theorem digestOfVacant (vacant : Vacant h leaves) : digestOf H h leaves = H.empty := by
  cases h with
  | zero =>
    rw [digestOf, vacant 0 (by decide)]
    rfl
  | succ h => rw [digestOf, if_pos vacant]

theorem upperSame (same : ∀ i < 2 ^ (h + 1), leaves i = others i) :
    ∀ i < 2 ^ h, upper h leaves i = upper h others i := by
  exact fun i lower => same (i + 2 ^ h) (by omega)

theorem lowerSame (same : ∀ i < 2 ^ (h + 1), leaves i = others i) :
    ∀ i < 2 ^ h, leaves i = others i := by
  exact fun i lower => same i (by omega)

theorem vacantSame (same : ∀ i < 2 ^ h, leaves i = others i) : Vacant h leaves ↔ Vacant h others :=
  forall₂_congr fun i inside => by rw [same i inside]

theorem digestOfSame (same : ∀ i < 2 ^ h, leaves i = others i) :
    digestOf H h leaves = digestOf H h others := by
  induction h generalizing leaves others with
  | zero => rw [digestOf, digestOf, same 0 (by decide)]
  | succ h ih =>
    have vacant : Vacant (h + 1) leaves = Vacant (h + 1) others := propext (vacantSame same)
    rw [digestOf, digestOf, ih (lowerSame same), ih (upperSame same), vacant]

def write (leaves : Nat → Option L) (i : Nat) (leaf : L) (j : Nat) : Option L :=
  if j = i then some leaf else leaves j

variable {leaf : L}

theorem writeUpper (higher : 2 ^ h ≤ i) :
    upper h (write leaves i leaf) = write (upper h leaves) (i - 2 ^ h) leaf := by
  funext j
  have shifted : j + 2 ^ h = i ↔ j = i - 2 ^ h := by omega
  simp only [upper, write, shifted]

theorem writeLower (lower : i < 2 ^ h) : upper h (write leaves i leaf) = upper h leaves := by
  funext j
  rw [upper, write, if_neg (by omega), upper]

theorem writeBelow (higher : 2 ^ h ≤ i) : ∀ j < 2 ^ h, leaves j = write leaves i leaf j := by
  intro j lower
  rw [write, if_neg (by omega)]

theorem writeNotVacant (inside : i < 2 ^ h) : ¬ Vacant h (write leaves i leaf) := by
  intro vacant
  have there := vacant i inside
  rw [write, if_pos rfl] at there
  cases there

theorem ancestryHashed (h : Nat) (leaves : Nat → Option L) (i : Nat) :
    (ancestry H h leaves i).all (fun entry => entry.1.isSome) := by
  induction h generalizing leaves i with
  | zero => rfl
  | succ h ih =>
    rw [ancestry, all_append]
    split
    · rw [ih]
      rfl
    · rw [ih]
      rfl

end

namespace Tree

variable {tree left right : Tree L F A h}

theorem holdsSame (same : ∀ i < 2 ^ h, leaves i = others i) (holds : tree.Holds H leaves) :
    tree.Holds H others := by
  induction tree generalizing leaves others with
  | leaf hash aux => exact (same 0 (by decide)).symm.trans holds
  | collapsed hash => exact Eq.trans holds (digestOfSame same)
  | stub => exact (vacantSame same).mp holds
  | node hash left right first second =>
    obtain ⟨stored, lower, higher⟩ := holds
    refine ⟨?_, first (lowerSame same) lower, second (upperSame same) higher⟩
    rwa [Stored, ← vacantSame same, ← digestOfSame same]

theorem holdsBlank : (blank h : Tree L F A h).Holds H fun _ => none := fun _ _ => rfl

theorem holdsHalves {tree : Tree L F A (h + 1)} (holds : tree.Holds H leaves)
    (halves : tree.children = some (left, right)) :
    left.Holds H leaves ∧ right.Holds H (upper h leaves) := by
  cases tree with
  | collapsed hash => cases halves
  | stub =>
    cases halves
    exact vacantHalves.mp holds
  | node hash left' right' =>
    cases halves
    exact holds.2

theorem digestNode (left right : Tree L F A h) :
    (Tree.node none left right).digest H = H.node (left.digest H) (right.digest H) := by
  rw [digest, rehash, rehashRoot, rehashRoot]
  rfl

section

variable (holds : tree.Holds H leaves)
include holds

theorem holdsDigest : tree.digest H = digestOf H h leaves := by
  induction tree generalizing leaves with
  | leaf hash aux =>
    rw [digestOf, show leaves 0 = some hash from holds]
    rfl
  | collapsed hash => exact holds
  | stub => exact (digestOfVacant holds).symm
  | node hash left right first second =>
    obtain ⟨⟨rfl, taken⟩ | ⟨rfl, -⟩, lower, higher⟩ := holds
    · rw [digestNode, first lower, second higher, digestOf, if_neg taken]
    · rfl

theorem rehashHashed : (tree.rehash H).Hashed := by
  induction tree generalizing leaves with
  | node hash left right first second =>
    obtain ⟨⟨rfl, -⟩ | ⟨rfl, hashed⟩, lower, higher⟩ := holds
    · refine ⟨?_, first lower, second higher⟩
      rw [rehashRoot, rehashRoot]
      rfl
    · exact ⟨rfl, hashed⟩
  | _ => trivial

theorem holdsRehash : (tree.rehash H).Holds H leaves := by
  induction tree generalizing leaves with
  | node hash left right first second =>
    obtain ⟨⟨rfl, taken⟩ | ⟨rfl, hashed⟩, lower, higher⟩ := holds
    · refine ⟨.inr ⟨?_, rehashHashed lower, rehashHashed higher⟩, first lower, second higher⟩
      rw [rehashRoot, rehashRoot, holdsDigest lower, holdsDigest higher, digestOf, if_neg taken]
      rfl
    · exact ⟨.inr ⟨rfl, hashed⟩, lower, higher⟩
  | _ => exact holds

theorem holdsRoot : (tree.rehash H).root H = some (digestOf H h leaves) := by
  rw [rehashRoot, holdsDigest holds]

theorem hashedRoot (hashed : tree.Hashed) : tree.root H = some (digestOf H h leaves) := by
  rw [← holdsRoot holds]
  cases tree with
  | node hash left right =>
    cases hash with
    | none => cases hashed.1
    | some hash => rfl
  | _ => rfl

theorem holdsWritten {next : Tree L F A h} {i : Nat} {leaf : L} {aux : A}
    (ok : tryUpdateHash h tree i leaf aux = .ok next) : next.Holds H (write leaves i leaf) := by
  induction h generalizing leaves i with
  | zero =>
    obtain ⟨rfl, -, rfl⟩ := tryUpdateHashZero ok
    exact if_pos rfl
  | succ h ih =>
    obtain ⟨inside, left, right, halves, side⟩ := tryUpdateHashSucc ok
    obtain ⟨lower, higher⟩ := holdsHalves holds halves
    have taken : ¬ Vacant (h + 1) (write leaves i leaf) := writeNotVacant inside
    obtain ⟨first, written, inner, rfl⟩ | ⟨second, written, inner, rfl⟩ := side
    · refine ⟨.inl ⟨rfl, taken⟩, ih lower inner, ?_⟩
      rwa [writeLower first]
    · refine ⟨.inl ⟨rfl, taken⟩, holdsSame (writeBelow second) lower, ?_⟩
      rw [writeUpper second]
      exact ih higher inner

end

theorem joinedHashed {tree : Tree L F A (h + 1)} {hash : Option F} (stored : hash.isSome)
    (lower : left.Hashed) (higher : right.Hashed) : (joined H tree hash left right).Hashed := by
  rw [joined]
  split
  · trivial
  · exact ⟨stored, lower, higher⟩

theorem keptHashed {tree : Tree L F A (h + 1)} (hashed : tree.Hashed)
    (halves : tree.children = some (left, right)) :
    (tree.keptHash H).isSome ∧ left.Hashed ∧ right.Hashed := by
  cases tree with
  | collapsed hash => cases halves
  | stub =>
    cases halves
    exact ⟨rfl, trivial, trivial⟩
  | node hash left' right' =>
    cases halves
    exact hashed

variable {stop : Nat}

theorem collapseHashed (hashed : tree.Hashed) : (collapse H h tree start stop).Hashed := by
  induction h generalizing start stop with
  | zero => trivial
  | succ h ih =>
    rw [collapse]
    split
    · exact hashed
    · rename_i left right halves
      obtain ⟨stored, lower, higher⟩ := keptHashed (H := H) hashed halves
      split
      · trivial
      · refine joinedHashed stored ?_ ?_
        · split
          · exact ih lower
          · exact lower
        · split
          · exact ih higher
          · exact higher

theorem joinedHolds {tree : Tree L F A (h + 1)} {hash : Option F} (whole : tree.Holds H leaves)
    (stored : Stored H hash left right leaves) (lower : left.Holds H leaves)
    (higher : right.Holds H (upper h leaves)) : (joined H tree hash left right).Holds H leaves := by
  rw [joined]
  split
  · exact holdsDigest whole
  · exact ⟨stored, lower, higher⟩

theorem keptStored {tree : Tree L F A (h + 1)} (holds : tree.Holds H leaves)
    (halves : tree.children = some (left, right)) :
    Stored H (tree.keptHash H) left right leaves := by
  cases tree with
  | collapsed hash => cases halves
  | stub =>
    cases halves
    exact .inr ⟨congrArg some (digestOfVacant holds).symm, trivial, trivial⟩
  | node hash left' right' =>
    cases halves
    exact holds.1

theorem holdsCollapse (holds : tree.Holds H leaves) :
    (collapse H h tree start stop).Holds H leaves := by
  induction h generalizing leaves start stop with
  | zero => exact holdsDigest holds
  | succ h ih =>
    rw [collapse]
    split
    · exact holds
    · rename_i left right halves
      obtain ⟨lower, higher⟩ := holdsHalves holds halves
      split
      · exact holdsDigest holds
      · refine joinedHolds holds ?_ ?_ ?_
        · refine (keptStored holds halves).imp id fun stored => ⟨stored.1, ?_, ?_⟩
          · split
            · exact collapseHashed stored.2.1
            · exact stored.2.1
          · split
            · exact collapseHashed stored.2.2
            · exact stored.2.2
        · split
          · exact ih lower
          · exact lower
        · split
          · exact ih higher
          · exact higher

variable {leaf : L × A}

theorem pathForIndexHashed (holds : tree.Holds H leaves) (hashed : tree.Hashed)
    (present : index h tree i = some leaf) :
    pathForIndex h tree i = some (ancestry H h leaves i) := by
  induction h generalizing leaves i with
  | zero => rw [pathForIndex, ancestry]
  | succ h ih =>
    cases tree with
    | collapsed hash => cases present
    | stub => cases (blankIndex i).symm.trans present
    | node hash left right =>
      obtain ⟨-, lower, higher⟩ := id holds
      have stored : hash = some (digestOf H (h + 1) leaves) := by
        rcases holds.1 with ⟨rfl, -⟩ | ⟨same, -⟩
        · cases hashed.1
        · exact same
      rw [indexOfHalves rfl] at present
      rw [pathForIndex, ancestry, stored]
      split
      · rename_i first
        rw [if_pos first] at present
        rw [ih lower hashed.2.1 present]
        rfl
      · rename_i second
        rw [if_neg second] at present
        rw [ih higher hashed.2.2 present]
        rfl

theorem insertionEvidenceHolds (above : h ≠ 0) (holds : tree.Holds H leaves)
    (present : index h tree i = some leaf) :
    (tree.rehash H).insertionEvidence i = some (leaf, ancestry H h leaves i) := by
  rw [← rehashIndex (H := H)] at present
  rw [insertionEvidence, if_neg above, pathForIndexHashed (holdsRehash holds) (rehashHashed holds)
    present, present]
  rfl

theorem holdsUpdated (inside : i < 2 ^ h) (holds : tree.Holds H leaves) (taken : leaves i ≠ none) :
    ∃ next, tree.updateFromEvidence H leaf (ancestry H h (write leaves i leaf.1) i) = some next ∧
      next.Holds H (write leaves i leaf.1) := by
  induction tree generalizing leaves i with
  | leaf hash aux =>
    refine ⟨_, rfl, if_pos ?_⟩
    omega
  | @collapsed h hash =>
    cases h with
    | zero =>
      refine ⟨_, rfl, ?_⟩
      have only : i = 0 := by omega
      rw [Holds, digestOf, write, if_pos only.symm]
      rfl
    | succ h =>
      refine ⟨.collapsed (digestOf H (h + 1) (write leaves i leaf.1)), ?_, by rw [Holds]⟩
      rw [ancestry, updateFromEvidence, getLast?_concat]
      rfl
  | stub => exact absurd (holds i inside) taken
  | @node h hash left right first second =>
    obtain ⟨-, lower, higher⟩ := holds
    have stored : ¬ Vacant (h + 1) (write leaves i leaf.1) := writeNotVacant inside
    rw [ancestry, updateFromEvidence, getLast?_concat, dropLast_concat]
    dsimp only
    by_cases below : i < 2 ^ h
    · obtain ⟨next, updated, stands⟩ := first below lower taken
      refine ⟨.node none next right, ?_, .inl ⟨rfl, stored⟩, stands, ?_⟩
      · rw [if_pos below, if_pos (decide_eq_true below), updated]
        rfl
      · rwa [writeLower below]
    · have there : upper h leaves (i - 2 ^ h) ≠ none := by
        rwa [upper, Nat.sub_add_cancel (by omega)]
      obtain ⟨next, updated, stands⟩ := second (i := i - 2 ^ h) (by omega) higher there
      refine ⟨.node none left next, ?_, .inl ⟨rfl, stored⟩, ?_, ?_⟩
      · rw [if_neg below, if_neg (by simpa using below), writeUpper (by omega), updated]
        rfl
      · exact holdsSame (writeBelow (by omega)) lower
      · rwa [writeUpper (by omega)]

theorem updatedOpen {next : Tree L F A h} {path : List (Option F × Bool)}
    (updated : tree.updateFromEvidence H leaf path = some next) (j : Nat) :
    IsOpen h next j ↔ IsOpen h tree j := by
  induction tree generalizing path j with
  | leaf hash aux =>
    rw [updateFromEvidence] at updated
    split at updated <;> cases updated
    rfl
  | collapsed hash =>
    have still : next.isCollapsed := by
      rw [updateFromEvidence] at updated
      split at updated
      · cases updated
        rfl
      · obtain ⟨hash, -, rfl⟩ := map_eq_some_iff.mp updated
        rfl
    exact iff_of_false (collapsedNotOpen still) (collapsedNotOpen rfl)
  | @stub h =>
    cases h with
    | zero =>
      rw [updateFromEvidence] at updated
      split at updated <;> cases updated
      rfl
    | succ h => cases updated
  | node hash left right first second =>
    rw [updateFromEvidence] at updated
    split at updated <;> try contradiction
    split at updated
    · obtain ⟨inner, part, rfl⟩ := map_eq_some_iff.mp updated
      rw [openOfHalves rfl, openOfHalves rfl, first part]
    · obtain ⟨inner, part, rfl⟩ := map_eq_some_iff.mp updated
      rw [openOfHalves rfl, openOfHalves rfl, second part]

end Tree

variable {B : Type}

structure Roll (L : Type) where
  leaves : Nat → Option L
  count : Nat

namespace Roll

def empty : Roll L := ⟨fun _ => none, 0⟩

def append (roll : Roll L) (leaf : L) : Roll L := ⟨write roll.leaves roll.count leaf, roll.count + 1⟩

def rewrite (roll : Roll L) (i : Nat) (leaf : L) : Roll L := ⟨write roll.leaves i leaf, roll.count⟩

def appendAll (roll : Roll L) (leaves : List L) : Roll L := leaves.foldl append roll

end Roll

namespace Tree

structure Tracks (H : Hashing L F) (tree : Tree L F A h) (firstFree : Nat) (roll : Roll L) :
    Prop where
  next : firstFree = roll.count
  holds : tree.Holds H roll.leaves
  free : ∀ i, roll.count ≤ i → i < 2 ^ h → tree.IsOpen h i

variable {tree next : Tree L F A h} {other : Tree L F B h} {firstFree : Nat} {roll : Roll L}

theorem tracksBlank : (blank h : Tree L F A h).Tracks H 0 Roll.empty :=
  ⟨rfl, holdsBlank, fun _ _ inside => blankOpen inside⟩

section

variable (tracks : tree.Tracks H firstFree roll)
include tracks

theorem Tracks.written {leaf : L} {aux : A}
    (ok : tryUpdateHash h tree firstFree leaf aux = .ok next) :
    next.Tracks H (firstFree + 1) (roll.append leaf) := by
  obtain ⟨rfl, holds, free⟩ := tracks
  refine ⟨rfl, holdsWritten holds ok, fun i above inside => ?_⟩
  have later : roll.count + 1 ≤ i := above
  exact (tryUpdateHashOpen ok i).mpr (free i (by omega) inside)

theorem Tracks.append (room : roll.count < 2 ^ h) (leaf : L) (aux : A) :
    ∃ next, tryUpdateHash h tree firstFree leaf aux = .ok next ∧
      next.Tracks H (firstFree + 1) (roll.append leaf) := by
  have isOpen := tracks.free roll.count (Nat.le_refl _) room
  rw [← tracks.next] at isOpen
  obtain ⟨next, written⟩ := (tryUpdateHashIff leaf aux).mpr isOpen
  exact ⟨next, written, tracks.written written⟩

theorem Tracks.collapse (below : i < roll.count) (inside : i < 2 ^ h) :
    (tree.collapse H h i i).Tracks H firstFree roll := by
  refine ⟨tracks.next, holdsCollapse tracks.holds, fun j above bound => ?_⟩
  exact (collapseOpen (Nat.le_succ _) inside inside).mpr ⟨tracks.free j above bound, by omega⟩

theorem Tracks.rehash : (tree.rehash H).Tracks H firstFree roll :=
  ⟨tracks.next, holdsRehash tracks.holds, fun j above bound =>
    rehashOpen.mpr (tracks.free j above bound)⟩

theorem Tracks.rewrite (inside : i < 2 ^ h) (taken : roll.leaves i ≠ none) (leaf : L × A) :
    ∃ next, tree.updateFromEvidence H leaf (ancestry H h (write roll.leaves i leaf.1) i) =
        some next ∧ next.Tracks H firstFree (roll.rewrite i leaf.1) := by
  obtain ⟨next, updated, holds⟩ := holdsUpdated inside tracks.holds taken
  refine ⟨next, updated, tracks.next, holds, fun j above bound => ?_⟩
  exact (updatedOpen updated j).mpr (tracks.free j above bound)

end

theorem Tracks.sameRoot {others : Nat} (mine : tree.Tracks H firstFree roll)
    (theirs : other.Tracks H others roll) :
    firstFree = others ∧ (tree.rehash H).root H = (other.rehash H).root H := by
  refine ⟨mine.next.trans theirs.next.symm, ?_⟩
  rw [holdsRoot mine.holds, holdsRoot theirs.holds]

end Tree

end MerkleTrees

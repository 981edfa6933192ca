import Mathlib.Algebra.Order.Group.Nat
import Mathlib.Data.List.FinRange
import MidnightLedger.Lib.PathMaps
import MidnightLedger.Lib.Words

/-! Merkle Patricia tries (storage/src/merkle_patricia_trie.rs) over paths of nibbles, as maps: every
operation changes the map of a trie as it should. Stored pointers are the nodes they lead to. -/
namespace MidnightLedger.Storage
open PathMaps Words

abbrev Nibble := Fin 16

abbrev NibblePath := List Nibble

class AnnMonoid (A : Type) where
  append : A → A → A
  empty : A
  getSize : A → ℕ

class AnnotationOf (V A : Type) where
  fromValue : V → A

structure SizeAnn where
  size : ℕ
  deriving DecidableEq, Repr

instance : AnnMonoid SizeAnn := ⟨fun a b => ⟨a.size + b.size⟩, ⟨0⟩, SizeAnn.size⟩

instance {V : Type} : AnnotationOf V SizeAnn := ⟨fun _ => ⟨1⟩⟩

inductive Node (V A : Type) where
  | empty
  | leaf (ann : A) (value : V)
  | branch (ann : A) (children : Nibble → Node V A)
  | extension (ann : A) (compressedPath : NibblePath) (child : Node V A)
  | midBranchLeaf (ann : A) (value : V) (child : Node V A)

section

variable {V A : Type}

namespace Node

def weight : Node V A → ℕ
  | .empty => 0
  | .leaf _ _ => 0
  | .branch _ children => 1 + ((List.finRange 16).map fun i => (children i).weight).sum
  | .extension _ compressedPath child => child.weight + 2 * compressedPath.length + 1
  | .midBranchLeaf _ _ child => child.weight + 1

theorem weightBranch (ann : A) (children : Nibble → Node V A) (i : Nibble) :
    (children i).weight < (Node.branch ann children).weight := by
  have mem : (children i).weight ∈ (List.finRange 16).map fun i => (children i).weight :=
    List.mem_map_of_mem (List.mem_finRange i)
  have bound := List.le_sum_of_mem mem
  rw [weight]
  omega

end Node

variable [AnnMonoid A]

namespace Node

def ann : Node V A → A
  | .empty => AnnMonoid.empty
  | .leaf ann _ => ann
  | .branch ann _ => ann
  | .extension ann _ _ => ann
  | .midBranchLeaf ann _ _ => ann

def isEmpty : Node V A → Bool
  | .empty => true
  | _ => false

def size : Node V A → ℕ
  | .empty => 0
  | .leaf _ _ => 1
  | .branch ann _ => AnnMonoid.getSize ann
  | .extension ann _ _ => AnnMonoid.getSize ann
  | .midBranchLeaf ann _ _ => AnnMonoid.getSize ann

def lookup : Node V A → NibblePath → Option V
  | .empty, _ => none
  | .leaf _ value, path => if path.isEmpty then some value else none
  | .branch _ _, [] => none
  | .branch _ children, index :: path => (children index).lookup path
  | .extension _ compressedPath child, path => (stripPrefix compressedPath path).bind child.lookup
  | .midBranchLeaf _ value child, path => if path.isEmpty then some value else child.lookup path

def iter : Node V A → List V
  | .empty => []
  | .leaf _ value => [value]
  | .branch _ children => (List.finRange 16).flatMap fun i => (children i).iter
  | .extension _ _ child => child.iter
  | .midBranchLeaf _ value child => value :: child.iter

def leaves : Node V A → NibblePath → List (NibblePath × V)
  | .empty, _ => []
  | .leaf _ value, path => [(path, value)]
  | .branch _ children, path => (List.finRange 16).flatMap fun i => (children i).leaves (path ++ [i])
  | .extension _ compressedPath child, path => child.leaves (path ++ compressedPath)
  | .midBranchLeaf _ value child, path => child.leaves path ++ [(path, value)]

end Node

def sumAnn (children : Nibble → Node V A) : A :=
  (List.finRange 16).foldl (fun acc i => AnnMonoid.append acc (children i).ann) AnnMonoid.empty

/- The child of extensions, with their paths behind the path unless it fills its segments. -/
def gather : NibblePath → Node V A → NibblePath × Node V A
  | path, .extension ann compressedPath child =>
    if path.length % 255 = 0 then (path, .extension ann compressedPath child)
    else gather (path ++ compressedPath) child
  | path, cur => (path, cur)

def extension (path : NibblePath) (child : Node V A) : Node V A :=
  let (path, cur) := gather path child
  (chunks 254 path).foldr (fun workingPath cur => .extension cur.ann workingPath cur) cur

def filled (children : Nibble → Node V A) : List Nibble :=
  (List.finRange 16).filter fun i => !(children i).isEmpty

def onlyChild (index : Nibble) (child : Node V A) : Node V A :=
  match child with
  | .extension _ compressedPath child => extension (index :: compressedPath) child
  | child => extension [index] child

namespace Node

def split (index : Nibble) (rest : NibblePath) (child : Node V A) : Node V A :=
  let remaining := if rest.isEmpty then child else .extension child.ann rest child
  let children := Function.update (fun _ => .empty) index remaining
  .branch (sumAnn children) children

theorem weightSplit (ann : A) {compressedPath rest : NibblePath} {index : Nibble} (child : Node V A)
    {shared : ℕ} (dropped : compressedPath.drop shared = index :: rest) :
    (split index rest child).weight < (Node.extension ann compressedPath child).weight := by
  have length : rest.length + 1 ≤ compressedPath.length := by
    have drops := congrArg List.length dropped
    rw [List.length_drop, List.length_cons] at drops
    omega
  have one : ∀ node : Node V A, ((List.finRange 16).map fun i =>
      (Function.update (fun _ => Node.empty) index node i).weight).sum = node.weight := by
    intro node
    rw [List.sum_map_eq_nsmul_single index]
    · simp
    · intro i other _
      rw [Function.update_of_ne other]
      rfl
  rw [split, weight, weight, one]
  split
  · omega
  · rw [weight]
    omega

def prefixed (path : NibblePath) (node : Node V A) : Node V A :=
  if path.isEmpty then node else .extension node.ann path node

variable [AnnotationOf V A]

/- The nibbles of an extension that a path follows; of the path its first segment is compared. -/
def sharedNibbles (compressedPath path : NibblePath) : ℕ :=
  commonPrefix compressedPath (path.take 255)

def insertHere (node : Node V A) (value : V) : Node V A × Option V :=
  match node with
  | .empty => (.leaf (AnnotationOf.fromValue value) value, none)
  | .leaf _ old => (.leaf (AnnotationOf.fromValue value) value, some old)
  | .branch ann children =>
    (.midBranchLeaf (AnnMonoid.append ann (AnnotationOf.fromValue value)) value (.branch ann children),
      none)
  | .extension ann compressedPath child =>
    (.midBranchLeaf (AnnMonoid.append ann (AnnotationOf.fromValue value)) value
      (.extension ann compressedPath child), none)
  | .midBranchLeaf _ old child =>
    (.midBranchLeaf (AnnMonoid.append child.ann (AnnotationOf.fromValue value)) value child, some old)

def insert (node : Node V A) (path : NibblePath) (value : V) : Node V A × Option V :=
  match path with
  | [] => node.insertHere value
  | head :: tail =>
    match node with
    | .empty => (Storage.extension (head :: tail) (.leaf (AnnotationOf.fromValue value) value), none)
    | .leaf ann old =>
      (.midBranchLeaf (AnnMonoid.append (AnnotationOf.fromValue value) ann) old
        (Storage.extension (head :: tail) (.leaf (AnnotationOf.fromValue value) value)), none)
    | .branch _ children =>
      let new := (children head).insert tail value
      let newChildren := Function.update children head new.1
      (.branch (sumAnn newChildren) newChildren, new.2)
    | .extension _ compressedPath child =>
      let shared := sharedNibbles compressedPath (head :: tail)
      match _ : compressedPath.drop shared with
      | [] =>
        let new := child.insert ((head :: tail).drop shared) value
        (.extension new.1.ann compressedPath new.1, new.2)
      | index :: rest =>
        let final := (split index rest child).insert ((head :: tail).drop shared) value
        (prefixed (compressedPath.take shared) final.1, final.2)
    | .midBranchLeaf _ leafValue child =>
      let new := child.insert (head :: tail) value
      (.midBranchLeaf (AnnMonoid.append (AnnotationOf.fromValue leafValue) new.1.ann) leafValue new.1, new.2)
termination_by node.weight
decreasing_by
  · exact weightBranch ..
  · rw [weight]
    omega
  · exact weightSplit _ child (by assumption)
  · rw [weight]
    omega

/- At a branch the path is indexed without a check that it goes on. -/
def remove : Node V A → NibblePath → Except Panic (Node V A × Option V)
  | .empty, _ => .ok (.empty, none)
  | .leaf ann value, path =>
    if path.isEmpty then .ok (.empty, some value) else .ok (.leaf ann value, none)
  | .branch _ _, [] => .error .panic
  | .branch _ children, index :: path => do
    let (newChild, removed) ← (children index).remove path
    let newChildren := Function.update children index newChild
    match filled newChildren with
    | [only] => .ok (onlyChild only (newChildren only), removed)
    | _ => .ok (.branch (sumAnn newChildren) newChildren, removed)
  | .extension ann compressedPath child, path =>
    match stripPrefix compressedPath path with
    | none => .ok (.extension ann compressedPath child, none)
    | some rest => do
      let (newChild, removed) ← child.remove rest
      match newChild with
      | .empty => .ok (.empty, removed)
      | .extension _ p c => .ok (Storage.extension (compressedPath ++ p) c, removed)
      | newChild => .ok (.extension newChild.ann compressedPath newChild, removed)
  | .midBranchLeaf _ value child, path =>
    if path.isEmpty then .ok (child, some value)
    else do
      let (child, removed) ← child.remove path
      let newAnn := AnnMonoid.append child.ann (AnnotationOf.fromValue value)
      match child with
      | .empty => .ok (.leaf newAnn value, removed)
      | child => .ok (.midBranchLeaf newAnn value child, removed)

def prune : Node V A → NibblePath → Node V A × List V
  | node, [] => (node, [])
  | .empty, _ :: _ => (.empty, [])
  | .leaf _ value, _ :: _ => (.empty, [value])
  | .branch ann children, head :: target =>
    let (child, pruned) := (children head).prune target
    let pruned := ((List.finRange 16).filter (· < head)).flatMap (fun i => (children i).iter) ++ pruned
    let children : Nibble → Node V A := fun i =>
      if i < head then .empty else if i = head then child else children i
    let ann := if pruned.isEmpty then ann else sumAnn children
    match filled children with
    | [] => (.empty, pruned)
    | [only] => (onlyChild only (children only), pruned)
    | _ => (.branch ann children, pruned)
  | .extension ann compressedPath child, head :: target =>
    let relevant := (head :: target).take compressedPath.length
    if compressedPath < relevant then (.empty, child.iter)
    else if compressedPath = relevant then
      let (child, pruned) := child.prune ((head :: target).drop compressedPath.length)
      match child with
      | .empty => (.empty, pruned)
      | .extension _ p c => (Storage.extension (compressedPath ++ p) c, pruned)
      | child => (.extension (if pruned.isEmpty then ann else child.ann) compressedPath child, pruned)
    else (.extension ann compressedPath child, [])
  | .midBranchLeaf _ value child, head :: target =>
    let (child, pruned) := child.prune (head :: target)
    (child, value :: pruned)

end Node

variable [AnnotationOf V A]

inductive TrieOp (V : Type) where
  | insert (path : NibblePath) (value : V)
  | remove (path : NibblePath)
  | prune (target : NibblePath)

def applyOp (node : Node V A) : TrieOp V → Except Panic (Node V A)
  | .insert path value => .ok (node.insert path value).1
  | .remove path => do
    let (node, _) ← node.remove path
    .ok node
  | .prune target => .ok (node.prune target).1

def runOps (ops : List (TrieOp V)) : Except Panic (Node V A) := ops.foldlM applyOp .empty

end

open PathMap Function List

variable {V A : Type}

namespace Node

section Lookups

variable {child : Node V A} {ann : A} {value : V}

theorem lookupEmpty : (Node.empty : Node V A).lookup = blank := rfl

theorem lookupLeaf : (Node.leaf ann value).lookup = put blank [] (some value) := by
  funext path
  cases path <;> rfl

theorem lookupBranch (children : Nibble → Node V A) :
    (Node.branch ann children).lookup = fork fun i => (children i).lookup := by
  funext path
  cases path <;> rfl

theorem lookupExtension (path : NibblePath) :
    (Node.extension ann path child).lookup = shift path child.lookup := rfl

theorem lookupMidBranchLeaf :
    (Node.midBranchLeaf ann value child).lookup = put child.lookup [] (some value) := by
  funext path
  cases path <;> rfl

end Lookups

end Node

open Node

theorem isEmptyLookup {node : Node V A} (empty : node.isEmpty = true) : node.lookup = blank := by
  cases node with
  | empty => rfl
  | _ => cases empty

theorem childrenUpdate (children : Nibble → Node V A) (index : Nibble) (child : Node V A) :
    (fun i => (Function.update children index child i).lookup) =
      Function.update (fun i => (children i).lookup) index child.lookup :=
  comp_update lookup children index child

variable {only : Nibble} {path : NibblePath} {children : Nibble → Node V A}

theorem filledOnly (one : filled children = [only]) :
    (children only).isEmpty = false ∧ ∀ i, i ≠ only → (children i).isEmpty = true := by
  have mem : ∀ i, i ∈ filled children ↔ (children i).isEmpty = false := by simp [filled]
  simp only [one, mem_singleton] at mem
  refine ⟨(mem only).mp rfl, fun i other => ?_⟩
  rw [← Bool.not_eq_false, ← mem]
  exact other

variable [AnnMonoid A]

omit [AnnMonoid A] in
theorem gatherLookup (path : NibblePath) (child : Node V A) :
    shift (gather path child).1 (gather path child).2.lookup = shift path child.lookup := by
  induction child generalizing path with
  | extension ann compressedPath child ih =>
    rw [gather]
    split
    · rfl
    · rw [ih, shiftAppend, lookupExtension]
  | _ => rfl

def segments (path : NibblePath) (cur : Node V A) : Node V A :=
  (chunks 254 path).foldr (fun workingPath cur => .extension cur.ann workingPath cur) cur

theorem extensionSegments (path : NibblePath) (child : Node V A) :
    extension path child = segments (gather path child).1 (gather path child).2 := rfl

theorem segmentsCons (some : path ≠ []) (cur : Node V A) : segments path cur =
      .extension (segments (path.drop 255) cur).ann (path.take 255) (segments (path.drop 255) cur) := by
  rw [segments, chunksCons 254 some, foldr_cons]
  rfl

theorem segmentsInduction (cur : Node V A) {motive : NibblePath → Node V A → Prop}
    (last : motive [] cur)
    (first : ∀ path rest, path ≠ [] → path.length ≤ 255 → (rest ≠ [] → path.length = 255) →
      motive rest (segments rest cur) →
      motive (path ++ rest) (.extension (segments rest cur).ann path (segments rest cur)))
    (path : NibblePath) : motive path (segments path cur) := by
  induction length : path.length using Nat.strong_induction_on generalizing path with
  | _ n ih =>
    by_cases none : path = []
    · rw [none, segments, chunks]
      exact last
    · have size := length_pos_iff.mpr none
      have shorter := ih _ (by rw [← length, length_drop]; omega) (path.drop 255) rfl
      have step := first (path.take 255) (path.drop 255) (by simpa using none)
        (length_take_le ..) (fun more => ?_) shorter
      · rw [take_append_drop] at step
        rw [segmentsCons none]
        exact step
      · have longer := length_pos_iff.mpr more
        rw [length_drop] at longer
        rw [length_take]
        omega

theorem extensionLookup (path : NibblePath) (child : Node V A) :
    (extension path child).lookup = shift path child.lookup := by
  have along : ∀ path cur, (segments path cur : Node V A).lookup = shift path cur.lookup := by
    intro path cur
    refine segmentsInduction cur (motive := fun path node => node.lookup = shift path cur.lookup)
      rfl (fun path rest _ _ _ ih => ?_) path
    rw [lookupExtension, ih, shiftAppend]
  rw [extensionSegments, along, gatherLookup]

theorem onlyChildLookup (index : Nibble) (child : Node V A) :
    (onlyChild index child).lookup = shift [index] child.lookup := by
  cases child with
  | extension ann compressedPath child =>
    rw [onlyChild, extensionLookup, lookupExtension, ← shiftAppend]
    rfl
  | _ => simp only [onlyChild, extensionLookup]

theorem filledOnlyLookup (one : filled children = [only]) :
    (onlyChild only (children only)).lookup = fork fun i => (children i).lookup := by
  rw [onlyChildLookup]
  exact (forkOnly fun i other => isEmptyLookup ((filledOnly one).2 i other)).symm

omit [AnnMonoid A] in
theorem filledNoneLookup (none : filled children = []) :
    (fork fun i => (children i).lookup) = blank := by
  have empty : ∀ i, (children i).lookup = blank := by
    intro i
    have flag := filter_eq_nil_iff.mp none i (mem_finRange i)
    exact isEmptyLookup (by simpa using flag)
  rw [forkOnly (x := 0) fun i _ => empty i, empty, shiftBlank]

theorem splitLookup (index : Nibble) (rest : NibblePath) (child : Node V A) :
    (Node.split index rest child).lookup = shift (index :: rest) child.lookup := by
  have remaining : (if rest.isEmpty then child else .extension child.ann rest child).lookup =
      shift rest child.lookup := by
    cases rest with
    | nil => rfl
    | cons head tail => rfl
  rw [Node.split, lookupBranch, forkOnly (x := index), update_self, remaining, ← shiftAppend]
  · rfl
  · intro i other
    rw [update_of_ne other]
    rfl

theorem prefixedLookup (path : NibblePath) (node : Node V A) :
    (prefixed path node).lookup = shift path node.lookup := by
  cases path with
  | nil => rfl
  | cons head tail => rfl

structure Follows (compressedPath path shared left right : NibblePath) : Prop where
  left : compressedPath = shared ++ left
  right : path = shared ++ right
  length : shared.length = sharedNibbles compressedPath path

theorem sharedFollows (compressedPath path : NibblePath) :
    ∃ shared left right, Follows compressedPath path shared left right := by
  obtain ⟨shared, left, right, parts⟩ := commonPrefixParts compressedPath (path.take 255)
  refine ⟨shared, left, right ++ path.drop 255, parts.left, ?_, parts.length⟩
  rw [← append_assoc, ← parts.right, take_append_drop]

theorem Follows.drop {compressedPath shared left right : NibblePath}
    (follows : Follows compressedPath path shared left right) :
    compressedPath.drop (sharedNibbles compressedPath path) = left ∧
      compressedPath.take (sharedNibbles compressedPath path) = shared ∧
      path.drop (sharedNibbles compressedPath path) = right := by
  rw [← follows.length, follows.left, follows.right]
  simp

theorem newLookup (path : NibblePath) (value : V) (ann : A) :
    (extension path (.leaf ann value)).lookup = put blank path (some value) := by
  have here := putShift path [] blank (some value)
  rw [append_nil, shiftBlank] at here
  rw [extensionLookup, lookupLeaf, here]

variable [AnnotationOf V A]

theorem insertHereLookup (node : Node V A) (value : V) :
    (node.insertHere value).1.lookup = put node.lookup [] (some value) := by
  cases node with
  | empty => exact lookupLeaf
  | leaf ann old => rw [insertHere, lookupLeaf, lookupLeaf, putTwice]
  | branch ann children | extension ann compressedPath child => exact lookupMidBranchLeaf
  | midBranchLeaf ann old child =>
    rw [insertHere, lookupMidBranchLeaf, lookupMidBranchLeaf, putTwice]

theorem insertLookup (node : Node V A) (path : NibblePath) (value : V) :
    (node.insert path value).1.lookup = put node.lookup path (some value) := by
  fun_induction Node.insert node path value with
  | case1 node => exact insertHereLookup node value
  | case2 head tail => exact newLookup ..
  | case3 head tail ann old =>
    rw [lookupMidBranchLeaf, newLookup, lookupLeaf, putComm (cons_ne_nil head tail)]
  | case4 head tail ann children new newChildren ih =>
    have updated : (fun i => (newChildren i).lookup) =
        Function.update (fun i => (children i).lookup) head (put (children head).lookup tail value) := by
      rw [← ih]
      exact childrenUpdate ..
    rw [lookupBranch, lookupBranch, putFork, updated]
  | case5 head tail ann compressedPath child shared dropped new ih =>
    obtain ⟨before, left, right, follows⟩ := sharedFollows compressedPath (head :: tail)
    obtain ⟨drop, -, rest⟩ := follows.drop
    have whole : compressedPath = before := by
      have none : left = [] := drop.symm.trans dropped
      rw [follows.left, none, append_nil]
    rw [lookupExtension, lookupExtension, ih, rest, ← putShift, whole, ← follows.right]
  | case6 head tail ann compressedPath child shared index rest dropped final ih =>
    obtain ⟨before, left, right, follows⟩ := sharedFollows compressedPath (head :: tail)
    obtain ⟨drop, take, remaining⟩ := follows.drop
    have parted : compressedPath = before ++ index :: rest := by
      rw [follows.left, ← drop.symm.trans dropped]
    rw [prefixedLookup, take, ih, remaining, splitLookup, ← putShift, ← shiftAppend, ← parted,
      ← follows.right, lookupExtension]
  | case7 head tail ann leafValue child new ih =>
    rw [lookupMidBranchLeaf, lookupMidBranchLeaf, ih, putComm (cons_ne_nil head tail)]

class LawfulAnnMonoid (A : Type) [AnnMonoid A] : Prop where
  assoc : ∀ a b c : A,
    AnnMonoid.append (AnnMonoid.append a b) c = AnnMonoid.append a (AnnMonoid.append b c)
  comm : ∀ a b : A, AnnMonoid.append a b = AnnMonoid.append b a
  emptyAppend : ∀ a : A, AnnMonoid.append AnnMonoid.empty a = a
  sizeEmpty : AnnMonoid.getSize (AnnMonoid.empty : A) = 0
  sizeAppend : ∀ a b : A,
    AnnMonoid.getSize (AnnMonoid.append a b) = AnnMonoid.getSize a + AnnMonoid.getSize b

class LawfulAnnotationOf (V A : Type) [AnnMonoid A] [AnnotationOf V A] : Prop where
  sizeFromValue : ∀ v : V, AnnMonoid.getSize (AnnotationOf.fromValue v : A) = 1

instance : LawfulAnnMonoid SizeAnn where
  assoc _ _ _ := congrArg SizeAnn.mk (Nat.add_assoc ..)
  comm _ _ := congrArg SizeAnn.mk (Nat.add_comm ..)
  emptyAppend _ := congrArg SizeAnn.mk (Nat.zero_add _)
  sizeEmpty := rfl
  sizeAppend _ _ := rfl

instance {V : Type} : LawfulAnnotationOf V SizeAnn := ⟨fun _ => rfl⟩

def combine (anns : List A) : A := anns.foldl AnnMonoid.append AnnMonoid.empty

section Combine

variable [LawfulAnnMonoid A]

instance : Std.Associative (AnnMonoid.append : A → A → A) := ⟨LawfulAnnMonoid.assoc⟩

theorem appendEmpty (a : A) : AnnMonoid.append a AnnMonoid.empty = a := by
  rw [LawfulAnnMonoid.comm, LawfulAnnMonoid.emptyAppend]

theorem combineCons (a : A) (anns : List A) :
    combine (a :: anns) = AnnMonoid.append a (combine anns) := by
  rw [combine, foldl_cons, LawfulAnnMonoid.emptyAppend]
  nth_rewrite 1 [← appendEmpty a]
  exact foldl_assoc

theorem combineAppend (anns others : List A) :
    combine (anns ++ others) = AnnMonoid.append (combine anns) (combine others) := by
  induction anns with
  | nil => exact (LawfulAnnMonoid.emptyAppend _).symm
  | cons a anns ih => rw [cons_append, combineCons, ih, combineCons, LawfulAnnMonoid.assoc]

theorem combineFlatMap {B : Type} (l : List B) (f : B → List A) :
    combine (l.flatMap f) = combine (l.map fun b => combine (f b)) := by
  induction l with
  | nil => rfl
  | cons b l ih => rw [flatMap_cons, combineAppend, ih, map_cons, combineCons]

theorem combineSize (anns : List A) :
    AnnMonoid.getSize (combine anns) = (anns.map AnnMonoid.getSize).sum := by
  induction anns with
  | nil => exact LawfulAnnMonoid.sizeEmpty
  | cons a anns ih =>
    rw [combineCons, LawfulAnnMonoid.sizeAppend, ih, map_cons, sum_cons]

end Combine

namespace Node

def forks : Node V A → Bool
  | .branch _ _ => true
  | .extension _ _ _ => true
  | _ => false

/- The shape that lookups rely on and, where asked for, annotations that are those of the children. -/
def Sound (annotated : Prop) : Node V A → Prop
  | .empty => True
  | .leaf ann value => annotated → ann = AnnotationOf.fromValue value
  | .branch ann children => (annotated → ann = sumAnn children) ∧ ∀ i, (children i).Sound annotated
  | .extension ann compressedPath child =>
    (annotated → ann = child.ann) ∧ compressedPath ≠ [] ∧ child.Sound annotated
  | .midBranchLeaf ann value child =>
    (annotated → ann = AnnMonoid.append child.ann (AnnotationOf.fromValue value)) ∧
      child.forks = true ∧ child.Sound annotated

variable {node : Node V A} {annotated : Prop}

theorem Sound.noRoot (sound : node.Sound annotated) (forks : node.forks = true) :
    node.lookup [] = none := by
  cases node with
  | branch ann children => rfl
  | extension ann compressedPath child =>
    obtain ⟨-, some, -⟩ := sound
    cases compressedPath with
    | nil => exact absurd rfl some
    | cons head tail => rfl
  | _ => cases forks

omit [AnnMonoid A] [AnnotationOf V A] in
theorem leavesPath (node : Node V A) (path : NibblePath) :
    node.leaves path = (node.leaves []).map fun e => (path ++ e.1, e.2) := by
  induction node generalizing path with
  | empty => rfl
  | leaf ann value => simp [leaves]
  | branch ann children ih =>
    rw [leaves, leaves, map_flatMap]
    refine flatMap_congr fun i _ => ?_
    rw [ih i, ih i ([] ++ [i]), map_map]
    simp [comp_def]
  | extension ann compressedPath child ih =>
    rw [leaves, leaves, ih, ih ([] ++ compressedPath), map_map]
    simp [comp_def]
  | midBranchLeaf ann value child ih => simp [leaves, ih path]

theorem Sound.listing (sound : node.Sound annotated) : Listing node.lookup (node.leaves []) := by
  induction node with
  | empty => exact listingBlank
  | leaf ann value =>
    rw [lookupLeaf]
    exact listingRoot listingBlank rfl value
  | branch ann children ih =>
    have each := listingFork (pairwise_lt_finRange 16) mem_finRange fun i => ih i (sound.2 i)
    rw [lookupBranch, leaves]
    refine Eq.mp (congrArg _ (flatMap_congr fun i _ => ?_)) each
    rw [leavesPath (children i) ([] ++ [i])]
    rfl
  | extension ann compressedPath child ih =>
    rw [lookupExtension, leaves, leavesPath]
    exact listingShift compressedPath (ih sound.2.2)
  | midBranchLeaf ann value child ih =>
    rw [lookupMidBranchLeaf, leaves]
    exact listingRoot (ih sound.2.2) (sound.2.2.noRoot sound.2.1) value

variable [LawfulAnnMonoid A]

section

variable (sound : node.Sound True)

include sound

theorem Sound.combined (path : NibblePath) :
    node.ann = combine ((node.leaves path).map fun e => AnnotationOf.fromValue e.2) := by
  induction node generalizing path with
  | empty => rfl
  | leaf ann value =>
    rw [leaves, map_singleton, combineCons, combine, foldl_nil, appendEmpty]
    exact sound trivial
  | branch ann children ih =>
    rw [leaves, map_flatMap, combineFlatMap, Node.ann, sound.1 trivial, sumAnn, combine, foldl_map]
    refine congrFun (congrFun (congrArg foldl ?_) _) _
    funext acc i
    rw [ih i (sound.2 i)]
  | extension ann compressedPath child ih =>
    rw [leaves, ← ih sound.2.2]
    exact sound.1 trivial
  | midBranchLeaf ann value child ih =>
    rw [leaves, map_append, combineAppend, ← ih sound.2.2, map_singleton, combineCons,
      combine, foldl_nil, appendEmpty]
    exact sound.1 trivial

theorem Sound.annUnique {other : Node V A} (sound' : other.Sound True)
    (same : node.lookup = other.lookup) : node.ann = other.ann := by
  have listing := sound.listing
  rw [same] at listing
  rw [sound.combined [], sound'.combined [], listing.unique sound'.listing]

theorem Sound.counted [LawfulAnnotationOf V A] : node.size = (node.leaves []).length := by
  have ones : AnnMonoid.getSize node.ann = (node.leaves []).length := by
    rw [sound.combined [], combineSize, map_map]
    have one : (AnnMonoid.getSize ∘ fun e : NibblePath × V => (AnnotationOf.fromValue e.2 : A)) =
        fun _ => 1 := funext fun e => LawfulAnnotationOf.sizeFromValue e.2
    rw [one]
    simp
  cases node with
  | empty => rfl
  | leaf ann value => rfl
  | _ => exact ones

end

end Node

end MidnightLedger.Storage

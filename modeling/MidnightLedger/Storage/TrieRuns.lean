import MidnightLedger.Lib.Loops
import MidnightLedger.Storage.Trie

/-! The operations of a trie keep it sound, so that a run of operations agrees with the same run
on maps; only the removal of a path that ends at a branch breaks off. The search for the entry
before a path misses some of them. -/
namespace MidnightLedger.Storage
open PathMaps PathMap Words Loops Node Function

variable {V A : Type}

namespace Node

def atBranch : Node V A → NibblePath → Bool
  | .branch _ _, [] => true
  | .branch _ children, index :: path => (children index).atBranch path
  | .extension _ compressedPath child, path =>
    match stripPrefix compressedPath path with
    | none => false
    | some rest => child.atBranch rest
  | .midBranchLeaf _ _ child, path => if path.isEmpty then false else child.atBranch path
  | _, _ => false

end Node

theorem gatherPath (path : NibblePath) (child : Node V A) :
    path.length ≤ (gather path child).1.length := by
  induction child generalizing path with
  | extension ann compressedPath child ih =>
    rw [gather]
    split
    · exact le_rfl
    · have longer := ih (path ++ compressedPath)
      rw [List.length_append] at longer
      omega
  | _ => exact le_rfl

variable [AnnMonoid A] [AnnotationOf V A] {child node : Node V A} {target : NibblePath}
  {pruned : List V} {annotated : Prop}

theorem gatherSound (sound : child.Sound annotated) (path : NibblePath) :
    (gather path child).2.Sound annotated ∧ (annotated → (gather path child).2.ann = child.ann) := by
  induction child generalizing path with
  | extension ann compressedPath child ih =>
    rw [gather]
    split
    · exact ⟨sound, fun _ => rfl⟩
    · obtain ⟨inner, same⟩ := ih sound.2.2 (path ++ compressedPath)
      exact ⟨inner, fun given => (same given).trans (sound.1 given).symm⟩
  | _ => exact ⟨sound, fun _ => rfl⟩

theorem segmentsSound {cur : Node V A} (sound : cur.Sound annotated) (path : NibblePath) :
    (segments path cur).Sound annotated ∧ (segments path cur).ann = cur.ann ∧
      (path ≠ [] → (segments path cur).forks = true) := by
  refine segmentsInduction cur (motive := fun path node =>
    node.Sound annotated ∧ node.ann = cur.ann ∧ (path ≠ [] → node.forks = true)) ?_ ?_ path
  · exact ⟨sound, rfl, fun none => absurd rfl none⟩
  · intro path rest some _ _ ih
    exact ⟨⟨fun _ => rfl, some, ih.1⟩, ih.2.1, fun _ => rfl⟩

theorem extensionSound (sound : child.Sound annotated) (path : NibblePath) :
    (extension path child).Sound annotated ∧ (annotated → (extension path child).ann = child.ann) ∧
      (path ≠ [] → (extension path child).forks = true) := by
  obtain ⟨inner, same⟩ := gatherSound sound path
  obtain ⟨outer, ann, forks⟩ := segmentsSound inner (gather path child).1
  refine ⟨outer, fun given => ann.trans (same given), fun some => forks fun none => ?_⟩
  have longer := gatherPath path child
  rw [none, List.length_nil, Nat.le_zero, List.length_eq_zero_iff] at longer
  exact some longer

theorem onlyChildSound (sound : child.Sound annotated) (index : Nibble) :
    (onlyChild index child).Sound annotated ∧ (onlyChild index child).forks = true := by
  cases child with
  | extension ann compressedPath child =>
    obtain ⟨sound, -, forks⟩ := extensionSound sound.2.2 (index :: compressedPath)
    exact ⟨sound, forks (List.cons_ne_nil _ _)⟩
  | _ =>
    obtain ⟨sound, -, forks⟩ := extensionSound sound [index]
    exact ⟨sound, forks (List.cons_ne_nil _ _)⟩

theorem splitSound (sound : child.Sound annotated) (index : Nibble) (rest : NibblePath) :
    (Node.split index rest child).Sound annotated := by
  refine ⟨fun _ => rfl, fun i => ?_⟩
  by_cases same : i = index
  · rw [same, update_self]
    split
    · exact sound
    · rename_i some
      exact ⟨fun _ => rfl, fun none => some (by rw [none]; rfl), sound⟩
  · rw [update_of_ne same]
    trivial

theorem prefixedSound (sound : node.Sound annotated) (path : NibblePath) :
    (prefixed path node).Sound annotated := by
  cases path with
  | nil => exact sound
  | cons head tail => exact ⟨fun _ => rfl, List.cons_ne_nil _ _, sound⟩

variable {children : Nibble → Node V A} {next : Node V A}

theorem branchUpdateSound (sound : ∀ i, (children i).Sound annotated) (index : Nibble)
    (new : child.Sound annotated) (i : Nibble) :
    (Function.update children index child i).Sound annotated := by
  by_cases same : i = index
  · rw [same, update_self]
    exact new
  · rw [update_of_ne same]
    exact sound i

theorem insertHereSound (sound : node.Sound annotated) (value : V) :
    (node.insertHere value).1.Sound annotated := by
  cases node with
  | empty => exact fun _ => rfl
  | leaf ann old => exact fun _ => rfl
  | branch ann children | extension ann compressedPath child => exact ⟨fun _ => rfl, rfl, sound⟩
  | midBranchLeaf ann old child => exact ⟨fun _ => rfl, sound.2⟩

variable {path : NibblePath}

theorem insertForks (forks : node.forks = true) (some : path ≠ []) (value : V) :
    (node.insert path value).1.forks = true := by
  fun_induction Node.insert node path value with
  | case1 node => exact absurd rfl some
  | case2 head tail | case3 head tail ann old | case7 head tail ann leafValue child new ih =>
    cases forks
  | case4 head tail ann children new newChildren ih => rfl
  | case5 head tail ann compressedPath child shared dropped new ih => rfl
  | case6 head tail ann compressedPath child shared index rest dropped final ih =>
    cases taken : compressedPath.take shared with
    | cons x p => rfl
    | nil =>
      have zero : shared = 0 := by
        have lengths := congrArg List.length taken
        have drops := congrArg List.length dropped
        rw [List.length_take, List.length_nil] at lengths
        rw [List.length_drop, List.length_cons] at drops
        omega
      refine ih rfl ?_
      rw [zero]
      exact some

theorem insertSound (laws : annotated → LawfulAnnMonoid A) (sound : node.Sound annotated)
    (path : NibblePath) (value : V) : (node.insert path value).1.Sound annotated := by
  have leafSound : (Node.leaf (AnnotationOf.fromValue value) value : Node V A).Sound annotated :=
    fun _ => rfl
  fun_induction Node.insert node path value with
  | case1 node => exact insertHereSound sound value
  | case2 head tail => exact (extensionSound leafSound _).1
  | case3 head tail ann old =>
    obtain ⟨below, same, forks⟩ := extensionSound leafSound (head :: tail)
    refine ⟨fun given => ?_, forks (List.cons_ne_nil _ _), below⟩
    rw [same given, show ann = AnnotationOf.fromValue old from sound given]
    rfl
  | case4 head tail ann children new newChildren ih =>
    exact ⟨fun _ => rfl, branchUpdateSound sound.2 head (ih (sound.2 head))⟩
  | case5 head tail ann compressedPath child shared dropped new ih =>
    exact ⟨fun _ => rfl, sound.2.1, ih sound.2.2⟩
  | case6 head tail ann compressedPath child shared index rest dropped final ih =>
    exact prefixedSound (ih (splitSound sound.2.2 index rest)) _
  | case7 head tail ann leafValue child new ih =>
    exact ⟨fun given => (laws given).comm .., insertForks sound.2.1 (List.cons_ne_nil _ _) value,
      ih sound.2.2⟩

structure Removed (annotated : Prop) (node : Node V A) (path : NibblePath) (next : Node V A)
    (removed : Option V) : Prop where
  lookup : next.lookup = put node.lookup path none
  value : removed = node.lookup path
  sound : next.Sound annotated
  forks : node.forks = true → path ≠ [] → next.forks = true ∨ next = .empty

theorem removeSpec (laws : annotated → LawfulAnnMonoid A) (sound : node.Sound annotated)
    (path : NibblePath) : node.atBranch path = true ∧ node.remove path = .error .panic ∨
      node.atBranch path = false ∧ ∃ next removed, node.remove path = .ok (next, removed) ∧
        Removed annotated node path next removed := by
  induction node generalizing path with
  | empty =>
    exact .inr ⟨rfl, _, _, rfl, (putAbsent rfl).symm, rfl, trivial, fun forks => nomatch forks⟩
  | leaf ann value =>
    refine .inr ⟨rfl, ?_⟩
    cases path with
    | nil =>
      refine ⟨_, _, rfl, ?_, rfl, trivial, fun forks => nomatch forks⟩
      rw [lookupLeaf, putTwice, putAbsent rfl]
      rfl
    | cons head tail =>
      exact ⟨_, _, rfl, (putAbsent rfl).symm, rfl, sound, fun forks => nomatch forks⟩
  | branch ann children ih =>
    cases path with
    | nil => exact .inl ⟨rfl, rfl⟩
    | cons index path =>
      rcases ih index (sound.2 index) path with ⟨there, broken⟩ | ⟨apart, next, removed, done, spec⟩
      · refine .inl ⟨there, ?_⟩
        rw [Node.remove, broken]
        rfl
      · refine .inr ⟨apart, ?_⟩
        let newChildren := Function.update children index next
        have map : (fork fun i => (newChildren i).lookup) =
            put (Node.branch ann children).lookup (index :: path) none := by
          rw [lookupBranch, putFork, ← spec.lookup]
          exact congrArg fork (childrenUpdate children index next)
        have below := branchUpdateSound sound.2 index spec.sound
        rw [Node.remove, done]
        simp only [bind, Except.bind]
        split
        · rename_i only one
          obtain ⟨outer, forks⟩ := onlyChildSound (below only) only
          exact ⟨_, _, rfl, (filledOnlyLookup one).trans map, spec.value, outer, fun _ _ => .inl forks⟩
        · exact ⟨_, _, rfl, (lookupBranch _).trans map, spec.value, ⟨fun _ => rfl, below⟩,
            fun _ _ => .inl rfl⟩
  | extension ann compressedPath child ih =>
    cases stripped : stripPrefix compressedPath path with
    | none =>
      have absent : (Node.extension ann compressedPath child).lookup path = none :=
        shiftElsewhere compressedPath child.lookup stripped
      refine .inr ⟨by rw [atBranch, stripped], .extension ann compressedPath child, none, ?_,
        (putAbsent absent).symm, absent.symm, sound, fun _ _ => .inl rfl⟩
      rw [Node.remove, stripped]
    | some rest =>
      have whole := stripPrefixSome.mp stripped
      rcases ih sound.2.2 rest with ⟨there, broken⟩ | ⟨apart, next, removed, done, spec⟩
      · refine .inl ⟨by rw [atBranch, stripped]; exact there, ?_⟩
        rw [Node.remove, stripped]
        simp only [broken]
        rfl
      · refine .inr ⟨by rw [atBranch, stripped]; exact apart, ?_⟩
        have map : shift compressedPath next.lookup =
            put (Node.extension ann compressedPath child).lookup path none := by
          rw [spec.lookup, lookupExtension, ← putShift, whole]
        have value : removed = (Node.extension ann compressedPath child).lookup path := by
          rw [spec.value, lookupExtension, whole, shiftAt]
        rw [Node.remove, stripped]
        simp only [done, bind, Except.bind]
        cases next with
        | empty =>
          rw [lookupEmpty, shiftBlank] at map
          exact ⟨_, _, rfl, map, value, trivial, fun _ _ => .inr rfl⟩
        | extension ann' p c =>
          obtain ⟨outer, -, forks⟩ := extensionSound spec.sound.2.2 (compressedPath ++ p)
          rw [lookupExtension, ← shiftAppend, ← extensionLookup] at map
          refine ⟨_, _, rfl, map, value, outer, fun _ _ => .inl (forks fun none => ?_)⟩
          exact sound.2.1 (List.append_eq_nil_iff.mp none).1
        | _ =>
          exact ⟨_, _, rfl, map, value, ⟨fun _ => rfl, sound.2.1, spec.sound⟩, fun _ _ => .inl rfl⟩
  | midBranchLeaf ann value child ih =>
    cases path with
    | nil =>
      refine .inr ⟨rfl, _, _, rfl, ?_, rfl, sound.2.2, fun forks => nomatch forks⟩
      rw [lookupMidBranchLeaf, putTwice, putAbsent (sound.2.2.noRoot sound.2.1)]
    | cons head tail =>
      rcases ih sound.2.2 (head :: tail) with ⟨there, broken⟩ | ⟨apart, next, removed, done, spec⟩
      · refine .inl ⟨there, ?_⟩
        rw [Node.remove, broken]
        rfl
      · refine .inr ⟨apart, ?_⟩
        have map : put next.lookup [] (some value) =
            put (Node.midBranchLeaf ann value child).lookup (head :: tail) none := by
          rw [spec.lookup, lookupMidBranchLeaf, putComm (List.cons_ne_nil head tail)]
        rw [Node.remove, done]
        rcases spec.forks sound.2.1 (List.cons_ne_nil _ _) with forks | rfl
        · cases next with
          | branch ann' children | extension ann' p c =>
            exact ⟨_, _, rfl, lookupMidBranchLeaf.trans map, spec.value,
              ⟨fun _ => rfl, rfl, spec.sound⟩, fun none => nomatch none⟩
          | _ => cases forks
        · refine ⟨_, _, rfl, lookupLeaf.trans map, spec.value, ?_, fun none => nomatch none⟩
          exact fun given => (laws given).emptyAppend _

omit [AnnMonoid A] [AnnotationOf V A] in
theorem iterPerm (node : Node V A) (path : NibblePath) :
    node.iter.Perm ((node.leaves path).map Prod.snd) := by
  induction node generalizing path with
  | empty => exact .refl _
  | leaf ann value => exact .refl _
  | branch ann children ih =>
    rw [iter, leaves, List.map_flatMap]
    exact List.Perm.flatMap_left _ fun i _ => ih i _
  | extension ann compressedPath child ih => exact ih _
  | midBranchLeaf ann value child ih =>
    rw [iter, leaves, List.map_append]
    exact ((ih path).cons value).trans (List.perm_append_singleton value _).symm

theorem iterMem (sound : node.Sound annotated) (v : V) :
    v ∈ node.iter ↔ ∃ q, node.lookup q = some v := by
  rw [(iterPerm node []).mem_iff, List.mem_map]
  constructor
  · rintro ⟨⟨q, w⟩, mem, rfl⟩
    exact ⟨q, (sound.listing.complete q w).mp mem⟩
  · rintro ⟨q, found⟩
    exact ⟨(q, v), (sound.listing.complete q v).mpr found, rfl⟩

structure Pruned (annotated : Prop) (node : Node V A) (target : NibblePath) (next : Node V A)
    (pruned : List V) : Prop where
  lookup : next.lookup = PathMap.prune node.lookup target
  sound : next.Sound annotated
  values : ∀ v, v ∈ pruned ↔ ∃ q, q < target ∧ node.lookup q = some v

theorem Pruned.unchanged (spec : Pruned annotated node target next pruned)
    (none : pruned.isEmpty = true) : PathMap.prune node.lookup target = node.lookup := by
  refine pruneNothing fun q less => ?_
  cases found : node.lookup q with
  | none => rfl
  | some v =>
    have mem := (spec.values v).mpr ⟨q, less, found⟩
    rw [List.isEmpty_iff.mp none] at mem
    cases mem

variable {head : Nibble}

theorem prunedChildren {ann : A} (sound : (Node.branch ann children).Sound annotated)
    (spec : Pruned annotated (children head) target child pruned) :
    let children' : Nibble → Node V A := fun i =>
      if i < head then .empty else if i = head then child else children i
    Pruned annotated (.branch ann children) (head :: target) (.branch (sumAnn children') children')
      (((List.finRange 16).filter (· < head)).flatMap (fun i => (children i).iter) ++ pruned) := by
  intro children'
  refine ⟨?_, ⟨fun _ => rfl, fun i => ?_⟩, fun v => ?_⟩
  · rw [lookupBranch, lookupBranch, pruneFork]
    refine congrArg fork (funext fun i => ?_)
    by_cases less : i < head
    · simp [children', less, lookupEmpty]
    · by_cases same : i = head
      · simp [children', same, spec.lookup]
      · simp [children', less, same]
  · by_cases less : i < head
    · simp [children', less, Node.Sound]
    · by_cases same : i = head
      · simpa [children', same] using spec.sound
      · simpa [children', less, same] using sound.2 i
  · rw [List.mem_append, spec.values, List.mem_flatMap]
    constructor
    · rintro (⟨i, mem, inside⟩ | ⟨q, less, found⟩)
      · obtain ⟨q, found⟩ := (iterMem (sound.2 i) v).mp inside
        have before : i < head := of_decide_eq_true (List.mem_filter.mp mem).2
        exact ⟨i :: q, List.cons_lt_cons_iff.mpr (.inl before), found⟩
      · exact ⟨head :: q, List.cons_lt_cons_iff.mpr (.inr ⟨rfl, less⟩), found⟩
    · rintro ⟨q, less, found⟩
      cases q with
      | nil => cases found
      | cons i q =>
        rcases List.cons_lt_cons_iff.mp less with before | ⟨rfl, rest⟩
        · refine .inl ⟨i, List.mem_filter.mpr ⟨List.mem_finRange i, decide_eq_true before⟩, ?_⟩
          exact (iterMem (sound.2 i) v).mpr ⟨q, found⟩
        · exact .inr ⟨q, rest, found⟩

theorem Pruned.ann (laws : annotated → LawfulAnnMonoid A)
    (spec : Pruned annotated node target next pruned) (sound : node.Sound annotated)
    (given : annotated) : (if pruned.isEmpty then node.ann else next.ann) = next.ann := by
  obtain rfl : annotated = True := eq_true given
  by_cases none : pruned.isEmpty = true
  · have := laws given
    rw [if_pos none]
    exact sound.annUnique spec.sound ((spec.unchanged none).symm.trans spec.lookup.symm)
  · rw [if_neg none]

theorem Pruned.replace {other : Node V A} (spec : Pruned annotated node target next pruned)
    (same : other.lookup = next.lookup) (sound : other.Sound annotated) :
    Pruned annotated node target other pruned :=
  ⟨same.trans spec.lookup, sound, spec.values⟩

theorem pruneNilSpec (sound : node.Sound annotated) : Pruned annotated node [] node [] :=
  ⟨(pruneNil _).symm, sound, fun v => by simp⟩

theorem pruneSpec (laws : annotated → LawfulAnnMonoid A) (sound : node.Sound annotated)
    (target : NibblePath) :
    Pruned annotated node target (node.prune target).1 (node.prune target).2 := by
  induction node generalizing target with
  | empty =>
    cases target with
    | nil => exact pruneNilSpec sound
    | cons head target => exact ⟨(pruneBlank (head :: target)).symm, trivial, fun v => by
        simp [Node.prune, Node.lookup]⟩
  | leaf ann value =>
    cases target with
    | nil => exact pruneNilSpec sound
    | cons head target =>
      refine ⟨?_, trivial, fun v => ?_⟩
      · rw [lookupLeaf, pruneRoot _ _ (List.cons_ne_nil _ _), pruneBlank]
        rfl
      · rw [Node.prune, List.mem_singleton]
        constructor
        · rintro rfl
          exact ⟨[], List.nil_lt_cons .., rfl⟩
        · rintro ⟨q, -, found⟩
          cases q with
          | nil => exact (Option.some.inj found).symm
          | cons x q => cases found
  | branch ann children ih =>
    cases target with
    | nil => exact pruneNilSpec sound
    | cons head target =>
      have spec := prunedChildren sound (ih head (sound.2 head) target)
      have same := spec.ann laws sound
      have below := spec.sound.2
      unfold Node.prune
      dsimp only
      split
      · rename_i none
        exact spec.replace ((filledNoneLookup none).symm.trans (lookupBranch _).symm) trivial
      · rename_i only one
        exact spec.replace ((filledOnlyLookup one).trans (lookupBranch _).symm)
          (onlyChildSound (below only) only).1
      · exact spec.replace ((lookupBranch _).trans (lookupBranch _).symm) ⟨same, below⟩
  | extension ann compressedPath child ih =>
    cases target with
    | nil => exact pruneNilSpec sound
    | cons head target =>
      have map := pruneShift compressedPath (head :: target) child.lookup
      have order := fun r => appendLt compressedPath r (head :: target)
      have found : ∀ v, (∃ q, q < head :: target ∧ shift compressedPath child.lookup q = some v) ↔
          ∃ r, compressedPath ++ r < head :: target ∧ child.lookup r = some v := by
        intro v
        simp only [shiftSome]
        constructor
        · rintro ⟨q, less, r, same, stored⟩
          exact ⟨r, same ▸ less, stored⟩
        · rintro ⟨r, less, stored⟩
          exact ⟨_, less, r, rfl, stored⟩
      unfold Node.prune
      dsimp only
      split
      · rename_i less
        rw [if_pos less] at map
        refine ⟨map.symm, trivial, fun v => ?_⟩
        rw [lookupExtension, found, iterMem sound.2.2]
        exact exists_congr fun r => by simp [order, less]
      · rename_i more
        rw [if_neg more] at map
        split
        · rename_i same
          rw [if_pos same] at map
          have inner := ih sound.2.2 ((head :: target).drop compressedPath.length)
          generalize child.prune ((head :: target).drop compressedPath.length) = result at inner ⊢
          obtain ⟨next, pruned⟩ := result
          have spec : Pruned annotated (.extension ann compressedPath child) (head :: target)
              (.extension next.ann compressedPath next) pruned := by
            refine ⟨?_, ⟨fun _ => rfl, sound.2.1, inner.sound⟩, fun v => ?_⟩
            · rw [lookupExtension, inner.lookup]
              exact map.symm
            · rw [inner.values, lookupExtension, found]
              exact exists_congr fun r => by simp [order, ← same]
          have same := spec.ann laws sound
          cases next with
          | empty =>
            refine spec.replace ?_ trivial
            rw [lookupExtension, lookupEmpty, shiftBlank]
          | extension ann' p c =>
            refine spec.replace ?_ (extensionSound inner.sound.2.2 (compressedPath ++ p)).1
            rw [extensionLookup, shiftAppend, lookupExtension, lookupExtension]
          | _ => exact spec.replace rfl ⟨same, sound.2.1, inner.sound⟩
        · rename_i other
          rw [if_neg other] at map
          refine ⟨map.symm, sound, fun v => ?_⟩
          rw [lookupExtension, found]
          simp [order, more, other]
  | midBranchLeaf ann value child ih =>
    cases target with
    | nil => exact pruneNilSpec sound
    | cons head target =>
      have spec := ih sound.2.2 (head :: target)
      refine ⟨?_, spec.sound, fun v => ?_⟩
      · rw [lookupMidBranchLeaf, pruneRoot _ _ (List.cons_ne_nil _ _)]
        exact spec.lookup
      · rw [Node.prune, List.mem_cons, spec.values, lookupMidBranchLeaf]
        constructor
        · rintro (rfl | ⟨q, less, found⟩)
          · exact ⟨[], List.nil_lt_cons .., update_self ..⟩
          · have some : q ≠ [] := fun root => by
              rw [root, sound.2.2.noRoot sound.2.1] at found
              cases found
            exact ⟨q, less, (update_of_ne some ..).trans found⟩
        · rintro ⟨q, less, found⟩
          by_cases root : q = []
          · rw [root, put, update_self] at found
            exact .inl (Option.some.inj found).symm
          · rw [put, update_of_ne root] at found
            exact .inr ⟨q, less, found⟩

def TrieOp.onMap : TrieOp V → PathMap Nibble V → PathMap Nibble V
  | .insert path value, m => m.put path (some value)
  | .remove path, m => m.put path none
  | .prune target, m => PathMap.prune m target

def mapOf (ops : List (TrieOp V)) : PathMap Nibble V := ops.foldl (fun m op => op.onMap m) blank

/- The removal of a path that ends at a branch. -/
def TrieOp.breaks (node : Node V A) : TrieOp V → Bool
  | .remove path => node.atBranch path
  | _ => false

theorem applySpec {node : Node V A} (laws : annotated → LawfulAnnMonoid A)
    (sound : node.Sound annotated) (op : TrieOp V) :
    op.breaks node = true ∧ applyOp node op = .error .panic ∨
    op.breaks node = false ∧ ∃ next, applyOp node op = .ok next ∧
      next.lookup = op.onMap node.lookup ∧ next.Sound annotated := by
  cases op with
  | insert path value =>
    exact .inr ⟨rfl, _, rfl, insertLookup node path value, insertSound laws sound path value⟩
  | prune target =>
    have spec := pruneSpec laws sound target
    exact .inr ⟨rfl, _, rfl, spec.lookup, spec.sound⟩
  | remove path =>
    rcases removeSpec laws sound path with ⟨there, broken⟩ | ⟨apart, next, removed, done, spec⟩
    · refine .inl ⟨there, ?_⟩
      rw [applyOp, broken]
      rfl
    · refine .inr ⟨apart, next, ?_, spec.lookup, spec.sound⟩
      rw [applyOp, done]
      rfl

theorem runSound (laws : annotated → LawfulAnnMonoid A) {ops : List (TrieOp V)} {node : Node V A}
    (ran : runOps ops = .ok node) :
    node.lookup = mapOf ops ∧ node.Sound annotated := by
  induction ops using List.reverseRecOn generalizing node with
  | nil =>
    cases ran
    exact ⟨rfl, trivial⟩
  | append_singleton ops op ih =>
    obtain ⟨before, ran, last⟩ := foldlMAppend.mp ran
    obtain ⟨next, applied, rest⟩ := bindOk.mp last
    cases rest
    obtain ⟨map, sound⟩ := ih ran
    rcases applySpec laws sound op with ⟨-, broken⟩ | ⟨-, result, done, lookup, sound'⟩
    · rw [broken] at applied
      cases applied
    · cases applied.symm.trans done
      refine ⟨?_, sound'⟩
      rw [lookup, map, mapOf, mapOf, List.foldl_append]
      rfl

structure ShowsMap (node : Node V A) (m : PathMap Nibble V) : Prop where
  lookup : ∀ path, node.lookup path = m path
  entries : Listing m (node.leaves [])
  size : node.size = (node.leaves []).length
  ann : node.ann = combine ((node.leaves []).map fun e => AnnotationOf.fromValue e.2)

theorem runShows [LawfulAnnMonoid A] [LawfulAnnotationOf V A] (ops : List (TrieOp V)) :
    ((runOps ops : Except Panic (Node V A)) = .error .panic ↔
      ∃ before path after, ∃ node : Node V A, ops = before ++ .remove path :: after ∧
        runOps before = .ok node ∧ node.atBranch path = true) ∧
    ∀ node : Node V A, runOps ops = .ok node → ShowsMap node (mapOf ops) := by
  have laws : True → LawfulAnnMonoid A := fun _ => inferInstance
  refine ⟨?_, fun node ran => ?_⟩
  · rw [runOps, foldlMError]
    constructor
    · rintro ⟨before, op, after, node, shape, ran, failed⟩
      rcases applySpec laws (runSound laws ran).2 op with ⟨there, -⟩ | ⟨-, next, done, -, -⟩
      · cases op with
        | remove path => exact ⟨before, path, after, node, shape, ran, there⟩
        | _ => cases there
      · rw [done] at failed
        cases failed
    · rintro ⟨before, path, after, node, shape, ran, there⟩
      refine ⟨before, .remove path, after, node, shape, ran, ?_⟩
      rcases applySpec laws (runSound laws ran).2 (.remove path) with ⟨-, broken⟩ | ⟨apart, -⟩
      · exact broken
      · rw [TrieOp.breaks, there] at apart
        cases apart
  · obtain ⟨map, sound⟩ := runSound laws ran
    rw [← map]
    exact ⟨fun _ => rfl, sound.listing, sound.counted, sound.combined []⟩

def rootedOps : List (TrieOp ℕ) := [.insert [] 7, .insert [0] 5]

theorem longerPathFirst :
    (runOps rootedOps : Except Panic (Node ℕ SizeAnn)).map
      (fun node => (node.leaves []).map Prod.fst) =
      .ok [[0], []] ∧ ([] : NibblePath) < [0] := by
  decide +kernel

def prunedOps : List (TrieOp ℕ) :=
  rootedOps ++ [.insert [1, 2] 3, .insert [3] 9, .remove [0], .prune [0]]

def prunedTrie : Node ℕ SizeAnn := value (runOps prunedOps) (by decide +kernel)

theorem prunedShows : runOps prunedOps = .ok prunedTrie ∧ prunedTrie.size = 2 ∧
    prunedTrie.lookup [1, 2] = some 3 ∧ prunedTrie.lookup [0] = none ∧
      prunedTrie.lookup [] = none := by
  have ran : runOps prunedOps = .ok prunedTrie := valueOk _
  have shows := (runShows prunedOps).2 prunedTrie ran
  have two : (prunedTrie.leaves []).length = 2 := by decide +kernel
  refine ⟨ran, shows.size.trans two, ?_, ?_, ?_⟩ <;> exact (shows.lookup _).trans (by decide +kernel)

open List

def below (head : Nibble) : List Nibble := ((finRange 16).filter (· < head)).reverse

theorem memBelow {i : Nibble} : i ∈ below head ↔ i < head := by
  simp [below]

theorem fallingBelow (head : Nibble) : (head :: below head).Pairwise (· > ·) := by
  decide +revert

namespace Node

def findLargestKeyInSubtree : Node V A → NibblePath → Option (NibblePath × V)
  | .empty, _ => none
  | .leaf _ value, path => some (path, value)
  | .branch _ children, path =>
    (finRange 16).reverse.findSome? fun i => (children i).findLargestKeyInSubtree (path ++ [i])
  | .extension _ compressedPath child, path => child.findLargestKeyInSubtree (path ++ compressedPath)
  | .midBranchLeaf _ value child, path => (child.findLargestKeyInSubtree path).or (some (path, value))

def updateBestPred (best : Option (NibblePath × V)) (candidate : NibblePath × V) :
    Option (NibblePath × V) :=
  if best.all fun known => known.1 < candidate.1 then some candidate else best

def offer (best : Option (NibblePath × V)) (candidate : Option (NibblePath × V)) :
    Option (NibblePath × V) :=
  candidate.elim best (updateBestPred best)

def onRemaining (target explored : NibblePath) (best : Option (NibblePath × V))
    (search : Nibble → NibblePath → Except Panic (Option (NibblePath × V))) :
    Except Panic (Option (NibblePath × V)) :=
  match target.drop explored.length with
  | [] => .ok best
  | head :: rest => search head rest

/- The source tests both lengths only after the nibbles are read, where the tests always hold. -/
def findPredecessorRecursive (target : NibblePath) :
    Node V A → NibblePath → Option (NibblePath × V) → Except Panic (Option (NibblePath × V))
  | .empty, explored, best => onRemaining target explored best fun _ _ => .ok best
  | .leaf _ value, explored, best => onRemaining target explored best fun _ _ =>
    .ok (updateBestPred best (explored, value))
  | .branch _ children, explored, best => onRemaining target explored best fun head _ => do
    let found ← (if (children head).isEmpty then .ok none
      else (children head).findPredecessorRecursive target (explored ++ [head]) none)
    .ok (found.or (offer best ((below head).findSome? fun i =>
      (children i).findLargestKeyInSubtree (explored ++ [i]))))
  | .extension ann compressedPath child, explored, best =>
    onRemaining target explored best fun head rest =>
    let matchLen := commonPrefix compressedPath (head :: rest)
    if matchLen = compressedPath.length then
      child.findPredecessorRecursive target (explored ++ compressedPath) best
    else
      match compressedPath[matchLen]?, (head :: rest)[matchLen]? with
      | some compressed, some remaining =>
        if compressed < remaining then
          .ok (offer best ((Node.extension ann compressedPath child).findLargestKeyInSubtree explored))
        else .ok best
      | _, _ => .error .panic
  | .midBranchLeaf _ value child, explored, best => onRemaining target explored best fun _ _ => do
    let found ← child.findPredecessorRecursive target explored none
    .ok (found.or (updateBestPred best (explored, value)))

def findPredecessor (node : Node V A) (path : NibblePath) : Except Panic (Option (NibblePath × V)) :=
  node.findPredecessorRecursive path [] none

/- A path that ends strictly inside the compressed path of an extension. -/
def endsInside : Node V A → NibblePath → Bool
  | _, [] => false
  | .branch _ children, head :: path => (children head).endsInside path
  | .extension _ compressedPath child, head :: path =>
    let matchLen := commonPrefix compressedPath (head :: path)
    if matchLen = compressedPath.length then child.endsInside ((head :: path).drop matchLen)
    else matchLen = (head :: path).length
  | .midBranchLeaf _ _ child, head :: path => child.endsInside (head :: path)
  | _, _ => false

end Node

/- The search from an explored path on, with the path that remains. -/
def Answers (node : Node V A) (explored path : NibblePath)
    (result : Except Panic (Option (NibblePath × V))) : Prop :=
  node.endsInside path = true ∧ result = .error .panic ∨
  node.endsInside path = false ∧ ∃ found, result = .ok found ∧
    Greatest (· < explored ++ path) (shift explored node.lookup) found

variable {explored : NibblePath}

omit [AnnMonoid A] [AnnotationOf V A] in
theorem onRemainingAnswers {search : Nibble → NibblePath → Except Panic (Option (NibblePath × V))}
    (each : ∀ head rest, path = head :: rest → Answers node explored path (search head rest)) :
    Answers node explored path (onRemaining (explored ++ path) explored none search) := by
  rw [onRemaining, drop_left]
  cases path with
  | nil =>
    refine .inr ⟨by cases node <;> rfl, none, rfl, fun q v before stored => ?_⟩
    obtain ⟨r, rfl, -⟩ := shiftSome.mp stored
    simp [appendLt] at before
  | cons head rest => exact each head rest rfl

@[simp] theorem offerNone (candidate : Option (NibblePath × V)) :
    offer none candidate = candidate := by
  cases candidate <;> rfl

omit [AnnMonoid A] [AnnotationOf V A] in
theorem skipEmpty (node : Node V A) (target explored : NibblePath) :
    (if node.isEmpty then .ok none else node.findPredecessorRecursive target explored none) =
      node.findPredecessorRecursive target explored none := by
  cases node with
  | empty =>
    rw [findPredecessorRecursive, onRemaining]
    cases target.drop explored.length <;> rfl
  | _ => rfl

theorem largestGreatest (sound : node.Sound annotated) (path : NibblePath) :
    Greatest (fun _ => True) (shift path node.lookup) (node.findLargestKeyInSubtree path) := by
  induction node generalizing path with
  | empty => exact greatestBlank
  | leaf ann value =>
    rw [lookupLeaf]
    exact greatestRoot trivial rfl greatestBlank
  | branch ann children ih =>
    rw [lookupBranch]
    refine greatestFork (by decide) (fun i _ => ih i (sound.2 i) _) fun i apart => ?_
    exact absurd (mem_reverse.mpr (mem_finRange i)) apart
  | extension ann compressedPath child ih =>
    rw [lookupExtension, ← shiftAppend]
    exact ih sound.2.2 _
  | midBranchLeaf ann value child ih =>
    rw [lookupMidBranchLeaf]
    exact greatestRoot trivial (sound.2.2.noRoot sound.2.1) (ih sound.2.2 path)

/- The child the path goes on in comes first, then the largest entry below it. -/
theorem branchGreatest {children : Nibble → Node V A} (sound : ∀ i, (children i).Sound annotated)
    {rest : NibblePath} {found : Option (NibblePath × V)}
    (best : Greatest (· < explored ++ head :: rest) (shift (explored ++ [head]) (children head).lookup)
      found) :
    Greatest (· < explored ++ head :: rest) (shift explored (fork fun i => (children i).lookup))
      (found.or ((below head).findSome? fun i =>
        (children i).findLargestKeyInSubtree (explored ++ [i]))) := by
  rw [findSomeFirst fun self => lt_irrefl head (memBelow.mp self)]
  refine greatestFork (fallingBelow head) (fun i mem => ?_) fun i apart r w before => ?_
  · rcases mem_cons.mp mem with rfl | lower
    · rwa [Function.update_self]
    · have less := memBelow.mp lower
      rw [Function.update_of_ne less.ne]
      refine greatestCongr (fun q v stored => ?_) (largestGreatest (sound i) _)
      obtain ⟨r, rfl, -⟩ := shiftSome.mp stored
      simp [cons_lt_cons_iff, less]
  · rw [mem_cons, not_or, memBelow] at apart
    rw [appendLtAppend, cons_lt_cons_iff] at before
    rcases before with less | ⟨same, -⟩
    · exact absurd less apart.2
    · exact absurd same apart.1

theorem extensionAnswers {ann : A} {compressedPath : NibblePath} {child : Node V A}
    (sound : (Node.extension ann compressedPath child).Sound annotated)
    (inner : ∀ explored path : NibblePath,
      Answers child explored path (child.findPredecessorRecursive (explored ++ path) explored none)) :
    Answers (.extension ann compressedPath child) explored path
      ((Node.extension ann compressedPath child).findPredecessorRecursive (explored ++ path) explored
        none) := by
  refine onRemainingAnswers fun head rest shape => ?_
  have largest := largestGreatest sound explored
  rw [lookupExtension, ← shiftAppend] at largest
  rw [offerNone, shape, Answers, endsInside, ← shape, lookupExtension, ← shiftAppend]
  obtain ⟨shared, left, right, whole, follows, length, apart⟩ := commonPrefixParts compressedPath path
  rw [← length, follows, whole]
  cases left with
  | nil =>
    have goes := inner (explored ++ shared) right
    rw [Answers, append_assoc] at goes
    rw [append_nil, if_pos rfl, if_pos rfl, drop_left]
    exact goes
  | cons compressed left =>
    rw [if_neg (by simp), if_neg (by simp)]
    cases right with
    | nil => simp
    | cons remaining right =>
      have other : compressed ≠ remaining := apart _ _ _ _ rfl rfl
      have order : ∀ q v, shift (explored ++ compressedPath) child.lookup q = some v →
          (q < explored ++ (shared ++ remaining :: right) ↔ compressed < remaining) := by
        intro q v stored
        obtain ⟨r, rfl, -⟩ := shiftSome.mp stored
        simp [whole, cons_lt_cons_iff, other]
      have reads : ∀ (x : Nibble) (rest : NibblePath), (shared ++ x :: rest)[shared.length]? = some x := by
        simp
      rw [reads, reads, ← whole]
      refine .inr ⟨by simp, ?_⟩
      by_cases less : compressed < remaining
      · exact ⟨_, if_pos less, greatestCongr (fun q v stored => by simp [order q v stored, less]) largest⟩
      · exact ⟨none, if_neg less, fun q v before stored => less ((order q v stored).mp before)⟩

theorem predecessorAnswers (sound : node.Sound annotated) (explored path : NibblePath) :
    Answers node explored path (node.findPredecessorRecursive (explored ++ path) explored none) := by
  induction node generalizing explored path with
  | extension ann compressedPath child ih => exact extensionAnswers sound (ih sound.2.2)
  | empty =>
    refine onRemainingAnswers fun head rest shape => .inr ⟨by rw [shape]; rfl, none, rfl, ?_⟩
    exact greatestBlank
  | leaf ann value =>
    refine onRemainingAnswers fun head rest shape => .inr ⟨by rw [shape]; rfl, _, rfl, ?_⟩
    rw [lookupLeaf, shape]
    refine greatestRoot ?_ rfl greatestBlank
    exact ltAppendCons explored head rest
  | branch ann children ih =>
    refine onRemainingAnswers fun head rest shape => ?_
    have inner := ih head (sound.2 head) (explored ++ [head]) rest
    rw [Answers, ← append_cons] at inner
    rw [skipEmpty, offerNone, shape]
    rcases inner with ⟨inside, broken⟩ | ⟨apart, found, done, best⟩
    · rw [broken]
      exact .inl ⟨inside, rfl⟩
    · rw [done]
      refine .inr ⟨apart, _, rfl, ?_⟩
      rw [lookupBranch]
      exact branchGreatest sound.2 best
  | midBranchLeaf ann value child ih =>
    refine onRemainingAnswers fun head rest shape => ?_
    rcases ih sound.2.2 explored path with ⟨inside, broken⟩ | ⟨apart, found, done, best⟩
    · rw [broken, shape]
      rw [shape] at inside
      exact .inl ⟨inside, rfl⟩
    · rw [done]
      rw [shape] at apart best ⊢
      refine .inr ⟨apart, _, rfl, ?_⟩
      rw [lookupMidBranchLeaf]
      exact greatestRoot (ltAppendCons explored head rest) (sound.2.2.noRoot sound.2.1) best

theorem findPredecessorIff {ops : List (TrieOp V)} (ran : runOps ops = .ok node)
    (path : NibblePath) :
    (∃ found, node.findPredecessor path = .ok found ∧ Greatest (· < path) (mapOf ops) found) ↔
      node.endsInside path = false := by
  obtain ⟨map, sound⟩ := runSound False.elim ran
  have root : shift [] node.lookup = mapOf ops := map
  have answers := predecessorAnswers sound [] path
  rw [Answers, root] at answers
  rcases answers with ⟨inside, broken⟩ | ⟨apart, found, done, best⟩
  · rw [inside]
    refine ⟨fun ⟨found, done, _⟩ => ?_, nofun⟩
    cases broken.symm.trans done
  · exact ⟨fun _ => apart, fun _ => ⟨found, done, best⟩⟩

theorem prunedPredecessor : ∃ found, prunedTrie.findPredecessor [3] = .ok found ∧
    Greatest (· < [3]) (mapOf prunedOps) found :=
  (findPredecessorIff (valueOk _) [3]).mpr (by decide +kernel)

theorem predecessorBreaks : ∃ node : Node ℕ SizeAnn, runOps [.insert [1, 2, 3] 7] = .ok node ∧
    node.endsInside [1, 2] = true ∧ node.findPredecessor [1, 2] = .error .panic :=
  ⟨_, rfl, by decide +kernel, by decide +kernel⟩

end MidnightLedger.Storage

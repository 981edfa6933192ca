import MidnightLedger.Lib.MerkleTrees

/-! Aligned parts of a tree, copies of a tree with parts replaced by their digests, and paths from
the leaves of a rehashed tree to its root. -/
namespace MerkleTrees
open Words Loops Option Nat

variable {L F A : Type} {h : Nat}

/- Subtrees of these heights cover the indices from `start` up to `stop`. -/
inductive Tiles : Nat → List Nat → Nat → Prop where
  | nil (start : Nat) : Tiles start [] start
  | cons {start height stop : Nat} {heights : List Nat} : 2 ^ height ∣ start →
      Tiles (start + 2 ^ height) heights stop → Tiles start (height :: heights) stop

variable {a b height : Nat} {heights : List Nat}

theorem tilesAppend {c : Nat} {xs ys : List Nat} (first : Tiles a xs b) (second : Tiles b ys c) :
    Tiles a (xs ++ ys) c := by
  induction first with
  | nil start => exact second
  | cons aligned _ ih => exact .cons aligned (ih second)

theorem tilesLe (tiles : Tiles a heights b) : a ≤ b := by
  induction tiles with
  | nil start => exact le_refl _
  | cons aligned _ ih => omega

theorem tilesHeight (tiles : Tiles a heights b) (inside : b ≤ 2 ^ h) (mem : height ∈ heights) :
    height ≤ h := by
  induction tiles with
  | nil start => cases mem
  | @cons start first stop heights aligned rest ih =>
    cases mem with
    | head =>
      have reach := tilesLe rest
      exact (Nat.pow_le_pow_iff_right (by decide)).mp (by omega : 2 ^ height ≤ 2 ^ h)
    | tail _ later => exact ih inside later

def shifted (start : Nat) (leaves : Nat → Option L) (i : Nat) : Option L := leaves (i + start)

theorem shiftedUpper (start : Nat) (leaves : Nat → Option L) :
    shifted start (upper h leaves) = shifted (start + 2 ^ h) leaves := by
  funext i
  rw [shifted, upper, shifted, add_assoc]

variable {idx : Nat}

theorem bitSet (bit : idx.testBit h = true) : idx % 2 ^ (h + 1) = idx % 2 ^ h + 2 ^ h := by
  rw [testBit_eq_decide_div_mod_eq, decide_eq_true_iff] at bit
  rw [mod_pow_succ, bit, mul_one]

theorem bitClear (bit : idx.testBit h = false) : idx % 2 ^ (h + 1) = idx % 2 ^ h := by
  rw [testBit_eq_decide_div_mod_eq, decide_eq_false_iff_not] at bit
  rw [mod_pow_succ, (by omega : idx / 2 ^ h % 2 = 0), mul_zero, add_zero]

theorem alignedRoom (low : height ≤ h) (aligned : 2 ^ height ∣ idx) :
    idx % 2 ^ h + 2 ^ height ≤ 2 ^ h := by
  have whole : 2 ^ height ∣ 2 ^ h := pow_dvd_pow 2 low
  have part : 2 ^ height ∣ idx % 2 ^ h := (dvd_mod_iff whole).mpr aligned
  have rest : 2 ^ height ∣ 2 ^ h - idx % 2 ^ h := dvd_sub whole part
  have := le_of_dvd (by omega) rest
  omega

variable {H : Hashing L F} {leaves : Nat → Option L} {i : Nat}

namespace Tree

/- The root of the part of a height that an index lies in. A part taller than the tree is held to
be unreachable. The bit of the index is read by a shift in 128 bits. -/
def partialIndex (H : Hashing L F) : (h : Nat) → Tree L F A h → Nat → Nat → Outcome InvalidUpdate F
  | 0, tree, _, height =>
    if 0 < height then .error .panic else lift id (okOr .notFullyRehashed (tree.root H))
  | h + 1, tree, idx, height =>
    if h + 1 < height then .error .panic
    else if h + 1 = height then lift id (okOr .notFullyRehashed (tree.root H))
    else if 128 ≤ h then .error .panic else
      match tree with
      | .node _ left right =>
        if idx.testBit h then partialIndex H h right idx height
        else partialIndex H h left idx height
      | .collapsed _ => reject (.collapsedIndex idx height)
      | .stub => reject (.stubUpdate idx height)

def partialInsert : (h : Nat) → Tree L F A h → Nat → Nat → F → Outcome InvalidUpdate (Tree L F A h)
  | 0, _, _, height, digest => if 0 < height then .error .panic else .ok (.collapsed digest)
  | h + 1, tree, idx, height, digest =>
    if h + 1 < height then .error .panic
    else if h + 1 = height then .ok (.collapsed digest)
    else if 128 ≤ h then .error .panic else
      match tree.children with
      | none => reject (.collapsedIndex idx height)
      | some (left, right) =>
        if idx.testBit h then do
          let right ← partialInsert h right idx height digest
          .ok (.node none left right)
        else do
          let left ← partialInsert h left idx height digest
          .ok (.node none left right)

variable {tree : Tree L F A h} {others : Nat → Option L}

theorem presentHeld (holds : tree.Holds H leaves) (inside : i < 2 ^ h)
    (present : index h tree i ≠ none) : leaves i ≠ none := by
  induction h generalizing leaves i with
  | zero =>
    obtain rfl : i = 0 := by omega
    cases tree with
    | leaf hash aux =>
      rw [show leaves 0 = some hash from holds]
      exact nofun
    | _ => exact absurd rfl present
  | succ h ih =>
    cases halves : tree.children with
    | none =>
      rw [index, halves] at present
      exact absurd rfl present
    | some parts =>
      obtain ⟨lower, higher⟩ := holdsHalves holds halves
      rw [indexOfHalves halves] at present
      split at present
      · rename_i first
        exact ih lower first present
      · have there := ih higher (by omega) present
        rwa [upper, Nat.sub_add_cancel (by omega)] at there

theorem partialIndexHolds (holds : tree.Holds H leaves) (hashed : tree.Hashed) (low : height ≤ h)
    (shifts : h ≤ 128)
    (aligned : 2 ^ height ∣ idx) (present : index h tree (idx % 2 ^ h) ≠ none) :
    partialIndex H h tree idx height = .ok (digestOf H height (shifted (idx % 2 ^ h) leaves)) := by
  induction h generalizing leaves with
  | zero =>
    obtain rfl : height = 0 := by omega
    unfold partialIndex
    rw [if_neg (by omega), hashedRoot holds hashed, mod_eq_zero_of_dvd aligned]
    rfl
  | succ h ih =>
    by_cases whole : h + 1 = height
    · subst whole
      unfold partialIndex
      rw [if_neg (by omega), if_pos rfl, hashedRoot holds hashed, mod_eq_zero_of_dvd aligned]
      rfl
    · have small : idx % 2 ^ h < 2 ^ h := Nat.mod_lt _ (Nat.two_pow_pos h)
      cases tree with
      | collapsed hash => exact absurd rfl present
      | stub => exact absurd (blankIndex _) present
      | node hash left right =>
        obtain ⟨-, lower, higher⟩ := holds
        rw [indexOfHalves rfl] at present
        rw [partialIndex, if_neg (by omega), if_neg whole, if_neg (by omega)]
        cases bit : idx.testBit h with
        | true =>
          rw [bitSet bit, if_neg (by omega), Nat.add_sub_cancel] at present
          rw [if_pos rfl, bitSet bit, ← shiftedUpper]
          exact ih higher hashed.2.2 (by omega) (by omega) present
        | false =>
          rw [bitClear bit, if_pos small] at present
          rw [if_neg Bool.false_ne_true, bitClear bit]
          exact ih lower hashed.2.1 (by omega) (by omega) present

theorem partialInserted (low : height ≤ h) (shifts : h ≤ 128) (aligned : 2 ^ height ∣ idx)
    (isOpen : IsOpen h tree (idx % 2 ^ h)) (holds : tree.Holds H leaves)
    (taken : others (idx % 2 ^ h) ≠ none)
    (same : ∀ j < 2 ^ h, j < idx % 2 ^ h ∨ idx % 2 ^ h + 2 ^ height ≤ j → leaves j = others j) :
    ∃ next, partialInsert h tree idx height
        (digestOf H height (shifted (idx % 2 ^ h) others)) = .ok next ∧ next.Holds H others ∧
      ∀ j, idx % 2 ^ h + 2 ^ height ≤ j → (IsOpen h next j ↔ IsOpen h tree j) := by
  induction h generalizing leaves others with
  | zero =>
    obtain rfl : height = 0 := by omega
    rw [mod_eq_zero_of_dvd aligned, partialInsert, if_neg (by omega)]
    refine ⟨_, rfl, by rw [Holds]; rfl, fun j later => iff_of_false ?_ ?_⟩
    · exact collapsedNotOpen rfl
    · intro inside
      have only := inside.1
      omega
  | succ h ih =>
    rw [partialInsert, if_neg (by omega)]
    by_cases whole : h + 1 = height
    · subst whole
      rw [if_pos rfl, mod_eq_zero_of_dvd aligned]
      refine ⟨_, rfl, by rw [Holds]; rfl, fun j later => iff_of_false id fun inside => ?_⟩
      have bound := openInside inside
      omega
    · rw [if_neg whole, if_neg (by omega)]
      have small : idx % 2 ^ h < 2 ^ h := Nat.mod_lt _ (Nat.two_pow_pos h)
      have stored : ¬ Vacant (h + 1) others := fun vacant =>
        taken (vacant _ (Nat.mod_lt _ (Nat.two_pow_pos _)))
      cases halves : tree.children with
      | none =>
        rw [IsOpen, halves] at isOpen
        exact isOpen.elim
      | some parts =>
        obtain ⟨lower, higher⟩ := holdsHalves holds halves
        rw [openOfHalves halves] at isOpen
        dsimp only
        cases bit : idx.testBit h with
        | true =>
          rw [bitSet bit] at taken same isOpen ⊢
          rw [if_neg (by omega), Nat.add_sub_cancel] at isOpen
          have outside : ∀ j < 2 ^ h, leaves j = others j := fun j first =>
            same j (by omega) (.inl (by omega))
          have there : upper h others (idx % 2 ^ h) ≠ none := taken
          have inside : ∀ j < 2 ^ h, j < idx % 2 ^ h ∨ idx % 2 ^ h + 2 ^ height ≤ j →
              upper h leaves j = upper h others j := fun j second apart =>
            same (j + 2 ^ h) (by omega) (by omega)
          obtain ⟨next, inserted, stands, free⟩ := ih (by omega) (by omega) isOpen higher there inside
          rw [if_pos rfl, ← shiftedUpper, inserted]
          refine ⟨_, rfl, ⟨.inl ⟨rfl, stored⟩, holdsSame outside lower, stands⟩, fun j later => ?_⟩
          rw [openOfHalves halves, openOfHalves rfl, if_neg (by omega), if_neg (by omega),
            free _ (by omega)]
        | false =>
          rw [bitClear bit] at taken same isOpen ⊢
          rw [if_pos small] at isOpen
          have room : idx % 2 ^ h + 2 ^ height ≤ 2 ^ h := alignedRoom (by omega) aligned
          have outside : ∀ j < 2 ^ h, upper h leaves j = upper h others j := fun j second =>
            same (j + 2 ^ h) (by omega) (.inr (by omega))
          obtain ⟨next, inserted, stands, free⟩ := ih (by omega) (by omega) isOpen lower taken
            fun j first apart => same j (by omega) apart
          rw [if_neg Bool.false_ne_true, inserted]
          refine ⟨_, rfl, ⟨.inl ⟨rfl, stored⟩, stands, holdsSame outside higher⟩, fun j later => ?_⟩
          rw [openOfHalves halves, openOfHalves rfl, free _ later]

theorem partialInsertNoPanic {digest : F} (low : height ≤ h) (shifts : h ≤ 128) :
    partialInsert h tree idx height digest ≠ .error .panic := by
  induction h with
  | zero =>
    rw [partialInsert, if_neg (by omega)]
    exact nofun
  | succ h ih =>
    rw [partialInsert, if_neg (by omega)]
    split
    · exact nofun
    rw [if_neg (by omega)]
    split
    · exact nofun
    · split
      · intro failed
        rcases bindError.mp failed with inner | ⟨_, _, last⟩
        · exact ih (by omega) (by omega) inner
        · cases last
      · intro failed
        rcases bindError.mp failed with inner | ⟨_, _, last⟩
        · exact ih (by omega) (by omega) inner
        · cases last

end Tree

/- Parts of the tree are replaced by their digests; an absent part may be split for this. -/
inductive Copy (H : Hashing L F) : {h : Nat} → Tree L F A h → Tree L F A h → Prop where
  | same {h : Nat} (tree : Tree L F A h) : Copy H tree tree
  | collapsed {h : Nat} (tree : Tree L F A h) : Copy H tree (.collapsed (tree.digest H))
  | node {h : Nat} {left right left' right' : Tree L F A h} (hash : Option F) :
      Copy H left left' → Copy H right right' →
      Copy H (.node hash left right) (.node hash left' right')
  | stub {h : Nat} {left right : Tree L F A h} : Copy H .stub left → Copy H .stub right →
      Copy H .stub (.node (some H.empty) left right)

variable {hash : Option F}

namespace Tree

variable {tree other : Tree L F A h}

theorem copyDigest (copy : Copy H tree other) : other.digest H = tree.digest H := by
  induction copy with
  | same tree => rfl
  | collapsed tree => rfl
  | node hash _ _ first second =>
    cases hash with
    | none => rw [digestNode, digestNode, first, second]
    | some hash => rfl
  | stub _ _ => rfl

section

variable {tree other : Tree L F A (h + 1)} {left right : Tree L F A h} (copy : Copy H tree other)
include copy

theorem copyNode {left' right' : Tree L F A h} (halves : other.children = some (left, right))
    (first : ∀ {part}, Copy H part left → Copy H part left')
    (second : ∀ {part}, Copy H part right → Copy H part right') :
    Copy H tree (.node (other.keptHash H) left' right') := by
  cases copy with
  | same =>
    cases tree with
    | collapsed hash => cases halves
    | stub =>
      cases halves
      exact .stub (first (.same _)) (second (.same _))
    | node hash left right =>
      cases halves
      exact .node hash (first (.same _)) (second (.same _))
  | collapsed => cases halves
  | node hash lower higher =>
    cases halves
    exact .node hash (first lower) (second higher)
  | stub lower higher =>
    cases halves
    exact .stub (first lower) (second higher)

theorem copyJoined (parts : Copy H tree (.node hash left right)) :
    Copy H tree (joined H other hash left right) := by
  rw [joined]
  split
  · rw [copyDigest copy]
    exact .collapsed tree
  · exact parts

end

theorem copyCollapse {start stop : Nat} (copy : Copy H tree other) :
    Copy H tree (other.collapse H h start stop) := by
  induction h generalizing start stop with
  | zero =>
    rw [collapse, copyDigest copy]
    exact .collapsed tree
  | succ h ih =>
    rw [collapse]
    split
    · exact copy
    · rename_i left right halves
      split
      · rw [copyDigest copy]
        exact .collapsed tree
      · refine copyJoined copy (copyNode copy halves (fun part => ?_) fun part => ?_)
        · split
          · exact ih part
          · exact part
        · split
          · exact ih part
          · exact part

variable {left right : Tree L F A h} {path : List (Option F × Bool)}

theorem writtenPath
    (found : pathForIndex (h + 1) ((Tree.node none left right).rehash H) i = some path) :
    ∃ below, (if i < 2 ^ h then pathForIndex h (left.rehash H) i
        else pathForIndex h (right.rehash H) (i - 2 ^ h)) = some below ∧
      path = below ++ [(some ((Tree.node none left right).digest H), decide (i < 2 ^ h))] := by
  rw [rehash, rehashRoot, rehashRoot, pathForIndex] at found
  rw [digestNode]
  split at found
  · rename_i lower
    obtain ⟨below, inner, last⟩ := bind_eq_some_iff.mp found
    exact ⟨below, (if_pos lower).trans inner, (some.inj last).symm⟩
  · rename_i higher
    obtain ⟨below, inner, last⟩ := bind_eq_some_iff.mp found
    exact ⟨below, (if_neg higher).trans inner, (some.inj last).symm⟩

theorem copyOfNode {tree : Tree L F A (h + 1)} (copy : Copy H (.node hash left right) tree) :
    (∃ digest, tree = .collapsed digest) ∨
      ∃ left' right', tree = .node hash left' right' ∧ Copy H left left' ∧ Copy H right right' := by
  cases copy with
  | same => exact .inr ⟨_, _, rfl, .same _, .same _⟩
  | collapsed => exact .inl ⟨_, rfl⟩
  | node _ lower higher => exact .inr ⟨_, _, rfl, lower, higher⟩

theorem copyUpdated {next : Tree L F A h} {leaf : L} {aux : A} (copy : Copy H tree other)
    (inside : i < 2 ^ h) (present : index h tree i ≠ none)
    (written : tryUpdateHash h tree i leaf aux = .ok next)
    (found : pathForIndex h (next.rehash H) i = some path) :
    ∃ after, other.updateFromEvidence H (leaf, aux) path = some after ∧
      after.digest H = next.digest H ∧ ∀ j < 2 ^ h, j ≠ i → index h after j = index h other j := by
  induction h generalizing i path with
  | zero =>
    have lone : ∀ j < 2 ^ 0, j ≠ i → False := fun j small apart => by omega
    obtain ⟨-, -, rfl⟩ := tryUpdateHashZero written
    cases found
    cases copy with
    | same =>
      cases tree with
      | leaf hash aux => exact ⟨_, rfl, rfl, fun j small apart => (lone j small apart).elim⟩
      | collapsed hash | stub => exact absurd rfl present
    | collapsed => exact ⟨_, rfl, rfl, fun j small apart => (lone j small apart).elim⟩
  | succ h ih =>
    cases tree with
    | collapsed hash => exact absurd rfl present
    | stub => exact absurd (blankIndex i) present
    | node hash left right =>
      rw [indexOfHalves rfl] at present
      obtain ⟨-, _, _, halves, side⟩ := tryUpdateHashSucc written
      cases halves
      rcases copyOfNode copy with ⟨digest, rfl⟩ | ⟨left', right', rfl, lower, higher⟩
      · obtain ⟨lower, higher, rfl⟩ : ∃ left right, next = .node none left right := by
          obtain ⟨-, made, -, same⟩ | ⟨-, made, -, same⟩ := side <;> exact ⟨_, _, same⟩
        obtain ⟨path, -, rfl⟩ := writtenPath found
        refine ⟨.collapsed ((Tree.node none lower higher).digest H), ?_, rfl, fun j _ _ => ?_⟩
        · rw [updateFromEvidence, List.getLast?_concat]
          rfl
        · rw [collapsedIndex rfl, collapsedIndex rfl]
      obtain ⟨below, made, inner, rfl⟩ | ⟨above, made, inner, rfl⟩ := side
      · rw [if_pos below] at present
        obtain ⟨path, rest, rfl⟩ := writtenPath found
        rw [if_pos below] at rest
        obtain ⟨after, updated, digest, others⟩ := ih lower below present inner rest
        refine ⟨.node none after right', ?_, ?_, fun j small apart => ?_⟩
        · rw [updateFromEvidence, List.getLast?_concat, List.dropLast_concat]
          dsimp only
          rw [if_pos (decide_eq_true below), updated]
          rfl
        · rw [digestNode, digestNode, digest, copyDigest higher]
        · rw [indexOfHalves rfl, indexOfHalves rfl]
          split
          · rename_i first
            exact others j first apart
          · rfl
      · have below := not_lt.mpr above
        rw [if_neg below] at present
        obtain ⟨path, rest, rfl⟩ := writtenPath found
        rw [if_neg below] at rest
        obtain ⟨after, updated, digest, others⟩ := ih higher (by omega) present inner rest
        refine ⟨.node none left' after, ?_, ?_, fun j small apart => ?_⟩
        · rw [updateFromEvidence, List.getLast?_concat, List.dropLast_concat]
          dsimp only
          rw [if_neg (by simpa using below), updated]
          rfl
        · rw [digestNode, digestNode, digest, copyDigest lower]
        · rw [indexOfHalves rfl, indexOfHalves rfl]
          split
          · rfl
          · exact others (j - 2 ^ h) (by omega) (by omega)

theorem pathOfPresent (present : index h tree i ≠ none) : pathForIndex h tree i ≠ none := by
  induction h generalizing i with
  | zero =>
    rw [pathForIndex]
    exact Option.some_ne_none _
  | succ h ih =>
    cases tree with
    | collapsed hash => exact absurd rfl present
    | stub => exact absurd (blankIndex i) present
    | node hash left right =>
      rw [indexOfHalves rfl] at present
      rw [pathForIndex]
      split at present
      · rename_i lower
        obtain ⟨below, found⟩ := ne_none_iff_exists'.mp (ih present)
        rw [if_pos lower, found]
        exact Option.some_ne_none _
      · rename_i higher
        obtain ⟨below, found⟩ := ne_none_iff_exists'.mp (ih present)
        rw [if_neg higher, found]
        exact Option.some_ne_none _

theorem indexOutside (outside : 2 ^ h ≤ i) : index h tree i = index h tree (2 ^ h - 1) := by
  induction h generalizing i with
  | zero => cases tree <;> rfl
  | succ h ih =>
    cases halves : tree.children with
    | none => rw [index, index, halves]
    | some parts =>
      rw [indexOfHalves halves, indexOfHalves halves, if_neg (by omega), if_neg (by omega),
        ih (by omega)]
      congr 1
      omega

theorem insertionEvidenceIff : tree.insertionEvidence i ≠ none ↔ h ≠ 0 ∧ index h tree i ≠ none := by
  rw [insertionEvidence]
  split
  · rename_i flat
    simp [flat]
  · rename_i above
    cases found : index h tree i with
    | none => cases pathForIndex h tree i <;> simp
    | some leaf =>
      obtain ⟨path, way⟩ := ne_none_iff_exists'.mp
        (pathOfPresent (found ▸ Option.some_ne_none _ : index h tree i ≠ none))
      simp [way, above]

end Tree

open List

namespace Tree

/- A node above leaves has the hash of its halves; a split absent part keeps its own. -/
def Rehashed (H : Hashing L F) : {h : Nat} → Tree L F A h → Prop
  | _, .node hash left right =>
    left.Rehashed H ∧ right.Rehashed H ∧ hash.isSome ∧
      (left.hashes ++ right.hashes ≠ [] → hash = map₂ H.node (left.root H) (right.root H))
  | _, _ => True

def Branches : (h : Nat) → Tree L F A h → Nat → Prop
  | 0, _, _ => True
  | h + 1, .node _ left right, i =>
    if i < 2 ^ h then Branches h left i else Branches h right (i - 2 ^ h)
  | _ + 1, _, _ => False

/- The height is at most 64; the last branch on the way is absent, or it is a node and the index is
one of its two. -/
def Ends : (h : Nat) → Tree L F A h → Nat → Prop
  | 0, _, _ => True
  | 1, .stub, _ => True
  | 1, .collapsed _, _ => False
  | 1, .node _ _ _, i => i < 2
  | h + 2, tree, i => h + 2 ≤ 64 ∧
    match tree with
    | .node _ left right =>
      if i < 2 ^ (h + 1) then Ends (h + 1) left i else Ends (h + 1) right (i - 2 ^ (h + 1))
    | _ => True

variable {tree left right : Tree L F A h}

theorem rehashedRoot (rehashed : tree.Rehashed H) : ∃ hash, tree.root H = some hash := by
  cases tree with
  | leaf hash aux | collapsed hash | stub => exact ⟨_, rfl⟩
  | node hash left right => exact isSome_iff_exists.mp rehashed.2.2.1

variable {leaf : L × A}

theorem indexHashes (found : index h tree i = some leaf) : leaf.1 ∈ tree.hashes := by
  induction h generalizing i with
  | zero =>
    cases tree with
    | leaf hash aux =>
      cases found
      exact mem_singleton_self _
    | collapsed hash | stub => cases found
  | succ h ih =>
    cases halves : tree.children with
    | none =>
      rw [index, halves] at found
      cases found
    | some parts =>
      rw [indexOfHalves halves] at found
      rw [hashesOfHalves halves]
      split at found
      · exact mem_append_left _ (ih found)
      · exact mem_append_right _ (ih found)

theorem branchesOfPresent (found : index h tree i = some leaf) : Branches h tree i := by
  induction h generalizing i with
  | zero => simp [Branches]
  | succ h ih =>
    cases tree with
    | collapsed hash => cases found
    | stub => cases (blankIndex i).symm.trans found
    | node hash left right =>
      rw [indexOfHalves rfl] at found
      rw [Branches]
      split at found
      · rename_i lower
        rw [if_pos lower]
        exact ih found
      · rename_i upper
        rw [if_neg upper]
        exact ih found

theorem siblingsNode (height : h < 64) (inside : i < 2 ^ (h + 1)) :
    siblings H (h + 1) (.node hash left right) i =
      if i < 2 ^ h then siblings H h left i >>= fun below => .ok (below ++ [(right.root H, true)])
      else siblings H h right (i - 2 ^ h) >>= fun below =>
        .ok (below ++ [(left.root H, false)]) := by
  cases h with
  | succ h => rw [siblings, if_neg (by omega)]
  | zero =>
    rcases (by omega : i = 0 ∨ i = 1) with rfl | rfl
    · simp [siblings, okBind]
    · simp [siblings, okBind]

theorem pathRootSnoc (leaf : L) (path : List (F × Bool)) (entry : F × Bool) :
    pathRoot H leaf (path ++ [entry]) = if entry.2 then H.node (pathRoot H leaf path) entry.1
      else H.node entry.1 (pathRoot H leaf path) := by
  rw [pathRoot, foldl_append]
  rfl

theorem pathForLeafNode {sibling : F} {path : List (F × Bool)} (height : h < 64)
    (inside : i < 2 ^ (h + 1))
    (below : pathForLeaf H (if i < 2 ^ h then left else right)
      (if i < 2 ^ h then i else i - 2 ^ h) = .ok path)
    (known : (if i < 2 ^ h then right else left).root H = some sibling) :
    pathForLeaf H (.node hash left right) i = .ok (path ++ [(sibling, decide (i < 2 ^ h))]) := by
  obtain ⟨entries, walked, read⟩ := bindOk.mp below
  rw [pathForLeaf, siblingsNode height inside]
  split at walked
  · rename_i lower
    rw [if_pos lower] at known
    rw [if_pos lower, walked, okBind, okBind, mapM_append, read, known, decide_eq_true lower]
    rfl
  · rename_i upper
    rw [if_neg upper] at known
    rw [if_neg upper, walked, okBind, okBind, mapM_append, read, known, decide_eq_false upper]
    rfl

theorem pathForLeafOk (rehashed : tree.Rehashed H) (height : h ≤ 64) (inside : i < 2 ^ h)
    (nodes : Branches h tree i) :
    ∃ path, pathForLeaf H tree i = .ok path ∧ ∀ leaf, index h tree i = some leaf →
      tree.root H = some (pathRoot H leaf.1 path) := by
  induction h generalizing i with
  | zero =>
    have first : i = 0 := by omega
    subst first
    refine ⟨[], by simp [pathForLeaf, siblings, okBind, pure, Except.pure], fun leaf found => ?_⟩
    cases tree with
    | leaf hash aux =>
      cases found
      rfl
    | collapsed hash | stub => cases found
  | succ h ih =>
    cases tree with
    | collapsed hash | stub => exact nodes.elim
    | node hash left right =>
      obtain ⟨first, second, -, stored⟩ := rehashed
      obtain ⟨a, rootLeft⟩ := rehashedRoot first
      obtain ⟨b, rootRight⟩ := rehashedRoot second
      rw [Branches] at nodes
      by_cases lower : i < 2 ^ h
      · rw [if_pos lower] at nodes
        obtain ⟨path, walked, rooted⟩ := ih first (by omega) lower nodes
        refine ⟨_, pathForLeafNode height inside (by rwa [if_pos lower, if_pos lower])
          (by rwa [if_pos lower]), fun leaf found => ?_⟩
        rw [indexOfHalves rfl, if_pos lower] at found
        rw [pathRootSnoc, if_pos (decide_eq_true lower), root,
          stored (append_ne_nil_of_left_ne_nil (ne_nil_of_mem (indexHashes found)) _),
          rooted leaf found, rootRight]
        rfl
      · rw [if_neg lower] at nodes
        obtain ⟨path, walked, rooted⟩ := ih second (by omega) (by omega) nodes
        refine ⟨_, pathForLeafNode height inside (by rwa [if_neg lower, if_neg lower])
          (by rwa [if_neg lower]), fun leaf found => ?_⟩
        rw [indexOfHalves rfl, if_neg lower] at found
        rw [pathRootSnoc, if_neg (by simpa using lower), root,
          stored (append_ne_nil_of_right_ne_nil _ (ne_nil_of_mem (indexHashes found))),
          rooted leaf found, rootLeft]
        rfl

theorem endsHeight (ends : Ends h tree i) : h ≤ 64 := by
  rcases h with - | - | h
  · omega
  · omega
  · unfold Ends at ends
    exact ends.1

theorem siblingsRefused (ends : Ends h tree i) (barred : ¬ (i < 2 ^ h ∧ Branches h tree i)) :
    siblings H h tree i = reject () := by
  induction h generalizing i with
  | zero => rw [siblings, if_neg fun first => barred ⟨by omega, by simp [Branches]⟩]
  | succ h ih =>
    cases h with
    | zero =>
      cases tree with
      | stub => rw [siblings]
      | collapsed hash =>
        exact ends.elim
      | node hash left right =>
        exact absurd ⟨ends, by simp [Branches]⟩ barred
    | succ h =>
      have height := endsHeight ends
      cases tree with
      | stub | collapsed hash =>
        unfold siblings
        exact if_neg (by omega)
      | node hash left right =>
        rw [Ends] at ends
        rw [Branches] at barred
        rw [siblings, if_neg (by omega)]
        obtain ⟨-, ends⟩ := ends
        split at ends
        · rename_i lower
          rw [if_pos lower] at barred
          rw [if_pos lower, ih ends fun free => barred ⟨by omega, free.2⟩]
          rfl
        · rename_i upper
          rw [if_neg upper] at barred
          rw [if_neg upper, ih ends fun free => barred ⟨by omega, free.2⟩]
          rfl

theorem siblingsPanics (beyond : ¬ Ends h tree i) : siblings H h tree i = .error .panic := by
  induction h generalizing i with
  | zero => exact absurd (by simp [Ends]) beyond
  | succ h ih =>
    cases h with
    | zero =>
      cases tree with
      | stub => exact absurd (by simp [Ends]) beyond
      | collapsed hash => rw [siblings]
      | node hash left right =>
        rw [Ends] at beyond
        rw [siblings, if_neg (by omega), if_neg (by omega)]
    | succ h =>
      by_cases height : 64 ≤ h + 1
      · unfold siblings
        exact if_pos height
      cases tree with
      | stub | collapsed hash => exact absurd (by unfold Ends; exact ⟨by omega, trivial⟩) beyond
      | node hash left right =>
        rw [siblings, if_neg height]
        rw [Ends, not_and] at beyond
        have beyond := beyond (by omega)
        split at beyond
        · rename_i lower
          rw [if_pos lower, ih beyond]
          rfl
        · rename_i upper
          rw [if_neg upper, ih beyond]
          rfl

theorem pathForLeafRefused (ends : Ends h tree i) (barred : ¬ (i < 2 ^ h ∧ Branches h tree i)) :
    pathForLeaf H tree i = reject () := by
  rw [pathForLeaf, siblingsRefused ends barred]
  rfl

theorem pathForLeafPanics (beyond : ¬ Ends h tree i) : pathForLeaf H tree i = .error .panic := by
  rw [pathForLeaf, siblingsPanics beyond]
  rfl

theorem vacantHashes (holds : tree.Holds H leaves)
    (vacant : Vacant h leaves) : tree.hashes = [] := by
  induction tree generalizing leaves with
  | leaf hash aux => cases (vacant 0 (by decide)).symm.trans holds
  | collapsed hash | stub => rfl
  | node hash left right first second =>
    obtain ⟨lower, higher⟩ := vacantHalves.mp vacant
    rw [hashesOfHalves rfl, first holds.2.1 lower, second holds.2.2 higher]
    rfl

theorem holdsRehashed (holds : tree.Holds H leaves) (hashed : tree.Hashed) : tree.Rehashed H := by
  induction tree generalizing leaves with
  | leaf hash aux | collapsed hash | stub => trivial
  | node hash left right first second =>
    have whole := hashedRoot holds hashed
    obtain ⟨-, lower, higher⟩ := id holds
    refine ⟨first lower hashed.2.1, second higher hashed.2.2, hashed.1, fun taken => ?_⟩
    rw [root, digestOf, if_neg fun vacant => taken (vacantHashes holds vacant ▸
      (hashesOfHalves rfl).symm)] at whole
    rw [whole, hashedRoot lower hashed.2.1, hashedRoot higher hashed.2.2]
    rfl

/- The index that a path from a leaf leads to. -/
def pathIndex (path : List (F × Bool)) : Nat :=
  path.foldr (fun entry above => 2 * above + if entry.2 then 0 else 1) 0

variable {path : List (F × Bool)}

theorem pathIndexSnoc (entry : F × Bool) :
    pathIndex (path ++ [entry]) = pathIndex path + if entry.2 then 0 else 2 ^ path.length := by
  induction path with
  | nil => simp [pathIndex]
  | cons first path ih =>
    simp only [pathIndex, cons_append, foldr_cons, length_cons] at ih ⊢
    rw [ih]
    split <;> omega

theorem pathIndexLt (path : List (F × Bool)) : pathIndex path < 2 ^ path.length := by
  induction path with
  | nil => exact Nat.one_pos
  | cons entry path ih =>
    simp only [pathIndex, foldr_cons, length_cons] at ih ⊢
    split <;> omega

/- Somewhere on its way the path hashes other inputs than the tree does, to the same hash. -/
inductive Collides (H : Hashing L F) (leaf : L) : (Nat → Option L) → List (F × Bool) → Prop where
  | leaf {leaves : Nat → Option L} (other : leaves 0 ≠ some leaf)
      (same : H.leaf leaf = digestOf H 0 leaves) : Collides H leaf leaves []
  | node {leaves : Nat → Option L} {path : List (F × Bool)} {entry : F × Bool}
      (other : (if entry.2 then (pathRoot H leaf path, entry.1) else (entry.1, pathRoot H leaf path)) ≠
        (digestOf H path.length leaves, digestOf H path.length (upper path.length leaves)))
      (same : pathRoot H leaf (path ++ [entry]) = digestOf H (path.length + 1) leaves) :
      Collides H leaf leaves (path ++ [entry])
  | further {leaves : Nat → Option L} {path : List (F × Bool)} {entry : F × Bool}
      (rest : Collides H leaf (if entry.2 then leaves else upper path.length leaves) path) :
      Collides H leaf leaves (path ++ [entry])

/- The siblings are anyone's: from the root down, equal hashes have equal inputs or collide. -/
theorem pathSound {leaf : L} (rooted : pathRoot H leaf path = digestOf H path.length leaves) :
    leaves (pathIndex path) = some leaf ∨ Collides H leaf leaves path := by
  induction path using reverseRecOn generalizing leaves with
  | nil => exact or_iff_not_imp_left.mpr fun other => .leaf other rooted
  | append_singleton path entry ih =>
    rw [length_append, length_singleton] at rooted
    by_cases pair : (if entry.2 then (pathRoot H leaf path, entry.1)
        else (entry.1, pathRoot H leaf path)) =
      (digestOf H path.length leaves, digestOf H path.length (upper path.length leaves))
    · obtain ⟨sibling, left⟩ := entry
      rw [pathIndexSnoc]
      cases left with
      | true => exact (ih (congrArg Prod.fst pair)).imp id .further
      | false => exact (ih (congrArg Prod.snd pair)).imp id .further
    · exact .inr (.node pair rooted)

end Tree

end MerkleTrees

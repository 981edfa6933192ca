import Mathlib.Data.List.AList
import Mathlib.Data.List.Sort
import Mathlib.Algebra.GroupWithZero.Nat
import Mathlib.Algebra.Order.BigOperators.Group.List

/-! Finite maps by association lists with distinct keys, and the total of a weight over
their entries: what writing or erasing one key does to it. -/
namespace Maps
open AList List

abbrev Map (K V : Type) := AList (fun _ : K => V)

section

variable {K V : Type}

def total (weight : K → V → ℕ) (m : Map K V) : ℕ :=
  (m.entries.map (fun entry => weight entry.1 entry.2)).sum

variable [DecidableEq K]

def held (weight : K → V → ℕ) (m : Map K V) (k : K) : ℕ :=
  match m.lookup k with
  | some v => weight k v
  | none => 0

variable {m : Map K V} {k : K} {ι : Type} {weight : K → V → ℕ}

theorem heldSome {v : V} (found : m.lookup k = some v) : held weight m k = weight k v := by
  rw [held, found]

theorem heldNone (absent : m.lookup k = none) : held weight m k = 0 := by
  rw [held, absent]

theorem totalErase (weight : K → V → ℕ) (m : Map K V) (k : K) :
    total weight (m.erase k) + held weight m k = total weight m := by
  have rest : (m.erase k).entries = m.entries.kerase k := rfl
  cases found : m.lookup k with
  | none =>
    have absent : k ∉ m.entries.keys := lookup_eq_none.mp found
    rw [heldNone found, total, total, rest, kerase_of_notMem_keys absent, Nat.add_zero]
  | some v =>
    have present : k ∈ m.entries.keys := lookup_isSome.mp (by rw [found]; rfl)
    obtain ⟨held, left, right, -, shape, erased⟩ := exists_of_kerase present
    have inside : (⟨k, v⟩ : Sigma fun _ : K => V) ∈ m.entries := mem_lookup_iff.mp found
    have same : held = v := by
      have other : (⟨k, held⟩ : Sigma fun _ : K => V) ∈ m.entries := by simp [shape]
      exact m.nodupKeys.eq_of_mk_mem other inside
    rw [heldSome found, total, total, rest, erased, shape, same]
    simp only [map_append, map_cons, sum_append, sum_cons]
    omega

theorem totalInsert (weight : K → V → ℕ) (m : Map K V) (k : K) (v : V) :
    total weight (m.insert k v) + held weight m k = total weight m + weight k v := by
  have erased := totalErase weight m k
  have written : total weight (m.insert k v) = weight k v + total weight (m.erase k) := by
    rfl
  omega

theorem lookupInserts {key : ι → K} {val : ι → V} {xs : List ι} {v : V}
    (agree : ∀ x ∈ xs, ∀ y ∈ xs, key x = key y → val x = val y) :
    (xs.foldl (fun m x => m.insert (key x) (val x)) (∅ : Map K V)).lookup k = some v ↔
      ∃ x ∈ xs, key x = k ∧ val x = v := by
  suffices general : ∀ m : Map K V, (∀ x ∈ xs, ∀ y, m.lookup (key x) = some y → val x = y) →
      ((xs.foldl (fun m x => m.insert (key x) (val x)) m).lookup k = some v ↔
        m.lookup k = some v ∨ ∃ x ∈ xs, key x = k ∧ val x = v) by
    refine (general ∅ fun _ _ _ found => by cases found).trans (or_iff_right ?_)
    exact fun found => by cases found
  induction xs with
  | nil => simp
  | cons x xs ih =>
    intro m old
    have rest := ih fun y first z second => agree y (.tail _ first) z (.tail _ second)
    rw [foldl_cons, rest]
    · by_cases here : key x = k
      · subst here
        rw [lookup_insert, Option.some.injEq]
        have before := old x (.head _) v
        simp only [exists_mem_cons_iff, true_and]
        exact ⟨fun found => found.elim (fun same => .inr (.inl same)) fun later => .inr (.inr later),
          fun found => found.elim (fun same => .inl (before same)) id⟩
      · rw [lookup_insert_ne (Ne.symm here)]
        simp [here]
    · intro y mem w found
      by_cases same : key y = key x
      · rw [same, lookup_insert] at found
        cases found
        exact agree y (.tail _ mem) x (.head _) same
      · rw [lookup_insert_ne same] at found
        exact old y (.tail _ mem) w found

theorem entriesInserts {key : ι → K} {xs : List ι} (val : ι → V) (distinct : (xs.map key).Nodup)
    (fresh : ∀ x ∈ xs, key x ∉ m) :
    (xs.foldl (fun m x => m.insert (key x) (val x)) m).entries =
      (xs.map fun x => (⟨key x, val x⟩ : Sigma fun _ : K => V)).reverse ++ m.entries := by
  induction xs generalizing m with
  | nil => rfl
  | cons x xs ih =>
    rw [map_cons, nodup_cons] at distinct
    rw [foldl_cons, ih distinct.2, entries_insert_of_notMem (fresh x (.head _)),
      map_cons, reverse_cons, append_assoc]
    · rfl
    · intro y mem
      rw [mem_insert, not_or]
      exact ⟨fun same => distinct.1 (same ▸ mem_map_of_mem mem), fresh y (.tail _ mem)⟩

theorem lookupErases (key : ι → K) (xs : List ι) (m : Map K V) (k : K) :
    (xs.foldl (fun m x => m.erase (key x)) m).lookup k =
      if k ∈ xs.map key then none else m.lookup k := by
  induction xs generalizing m with
  | nil => simp
  | cons x xs ih =>
    rw [foldl_cons, ih]
    by_cases here : k = key x
    · subst here
      rw [map_cons, if_pos mem_cons_self, lookup_erase, ite_self]
    · rw [lookup_erase_ne here, map_cons]
      simp only [mem_cons, here, false_or]

def sameMap [DecidableEq V] (m n : Map K V) : Bool :=
  m.entries.all (fun entry => n.lookup entry.1 = some entry.2) &&
    n.entries.all (fun entry => m.lookup entry.1 = some entry.2)

def sameSet (xs ys : List K) : Bool := xs.all (· ∈ ys) && ys.all (· ∈ xs)

end

section Lists

variable {K V : Type} [DecidableEq K]

def listed (m : Map K (List V)) (k : K) : List V := (m.lookup k).getD []

def push (m : Map K (List V)) (k : K) (v : V) : Map K (List V) := m.insert k (listed m k ++ [v])

@[simp] theorem listedEmpty (k : K) : listed (∅ : Map K (List V)) k = [] := by
  rw [listed, lookup_empty, Option.getD_none]

theorem listedPush (m : Map K (List V)) (k other : K) (v : V) :
    listed (push m k v) other = if other = k then listed m k ++ [v] else listed m other := by
  rw [listed, push]
  split
  · rename_i same
    rw [same, lookup_insert]
    rfl
  · rename_i different
    rw [lookup_insert_ne different]
    rfl

variable {m : Map K (List V)}

theorem memListedPush {k other : K} {v w : V} :
    w ∈ listed (push m k v) other ↔ w ∈ listed m other ∨ other = k ∧ w = v := by
  rw [listedPush]
  split
  · rename_i same
    rw [same, mem_append, mem_singleton]
    simp
  · rename_i different
    simp [different]

theorem memListedPushes {entries : List (K × V)} {k : K} {v : V} :
    v ∈ listed (entries.foldl (fun m entry => push m entry.1 entry.2) m) k ↔
      v ∈ listed m k ∨ (k, v) ∈ entries := by
  induction entries generalizing m with
  | nil => simp
  | cons entry entries ih =>
    rw [foldl_cons, ih, memListedPush, mem_cons, Prod.ext_iff, or_assoc]

end Lists

section Sorted

variable {K V : Type} [DecidableEq K] [LinearOrder K]

def sortedKeys (m : Map K V) : List K := m.keys.insertionSort (· ≤ ·)

def sortedIter (m : Map K V) : List (K × V) :=
  (sortedKeys m).filterMap (fun k => (m.lookup k).map (fun v => (k, v)))

theorem memSortedIter {m : Map K V} {k : K} {v : V} :
    (k, v) ∈ sortedIter m ↔ m.lookup k = some v := by
  simp only [sortedIter, sortedKeys, mem_filterMap, mem_insertionSort, Option.map_eq_some_iff,
    Prod.mk.injEq]
  constructor
  · rintro ⟨key, -, value, found, rfl, rfl⟩
    exact found
  · intro found
    have present : k ∈ m.keys := mem_keys.mp (lookup_isSome.mp (by rw [found]; rfl))
    exact ⟨k, present, v, found, rfl, rfl⟩

section

variable (m : Map K V)

theorem sortedIterPerm : (sortedIter m).Perm (m.entries.map fun entry => (entry.1, entry.2)) := by
  have keyed : m.keys.filterMap (fun k => (m.lookup k).map (fun v => (k, v))) =
      m.entries.map fun entry => (entry.1, entry.2) := by
    have keys : m.keys = m.entries.map Sigma.fst := rfl
    rw [keys, filterMap_map, ← filterMap_eq_map]
    refine filterMap_congr fun entry mem => ?_
    rw [Function.comp_apply, mem_lookup_iff.mpr mem]
    rfl
  rw [← keyed]
  exact (perm_insertionSort _ _).filterMap _

theorem sortedIterNodup : (sortedIter m).Nodup := by
  have keys : ((sortedIter m).map Prod.fst).Nodup := by
    rw [((sortedIterPerm m).map Prod.fst).nodup_iff, map_map]
    exact m.keys_nodup
  exact keys.of_map

theorem sortedIterSorted : (sortedIter m).Pairwise fun a b => a.1 < b.1 := by
  have keys : (sortedKeys m).Pairwise (· < ·) := by
    have ordered : (sortedKeys m).Pairwise (· ≤ ·) := pairwise_insertionSort _ _
    have distinct : (sortedKeys m).Nodup := (perm_insertionSort _ _).nodup_iff.mpr m.keys_nodup
    exact (ordered.and distinct).imp fun both => lt_of_le_of_ne both.1 both.2
  refine pairwise_filterMap.mpr (keys.imp ?_)
  rintro j k less a first b second
  obtain ⟨v, -, rfl⟩ := Option.map_eq_some_iff.mp first
  obtain ⟨w, -, rfl⟩ := Option.map_eq_some_iff.mp second
  exact less

theorem sortedIterFilter (k : K) :
    (sortedIter m).filter (fun entry => entry.1 = k) = (m.lookup k).toList.map fun v => (k, v) := by
  have nodup := (sortedIterNodup m).filter fun entry => entry.1 = k
  have same : ((sortedIter m).filter fun entry => entry.1 = k).Perm
      ((m.lookup k).toList.map fun v => (k, v)) := by
    refine (perm_ext_iff_of_nodup nodup ?_).mpr ?_
    · cases m.lookup k <;> simp
    · rintro ⟨key, value⟩
      simp only [mem_filter, memSortedIter, decide_eq_true_eq, mem_map, Option.mem_toList]
      constructor
      · rintro ⟨found, rfl⟩
        exact ⟨value, found, rfl⟩
      · rintro ⟨v, found, pair⟩
        cases pair
        exact ⟨found, rfl⟩
  cases found : m.lookup k with
  | none =>
    rw [found] at same
    exact same.eq_nil
  | some v =>
    rw [found] at same
    exact perm_singleton.mp same

theorem sortedIterAt (k : K) (weight : V → ℕ) :
    ((sortedIter m).map fun entry => if entry.1 = k then weight entry.2 else 0).sum =
      match m.lookup k with
      | some v => weight v
      | none => 0 := by
  have sums : ((sortedIter m).map fun entry => if entry.1 = k then weight entry.2 else 0).sum =
      total (fun key v => if key = k then weight v else 0) m := by
    rw [((sortedIterPerm m).map _).sum_eq, map_map]
    rfl
  have others : total (fun key v => if key = k then weight v else 0) (m.erase k) = 0 := by
    refine sum_eq_zero fun x mem => ?_
    obtain ⟨entry, inside, rfl⟩ := mem_map.mp mem
    refine if_neg fun same => ?_
    have present : entry.1 ∈ m.erase k := mem_map_of_mem inside
    exact (mem_erase.mp present).1 same
  have erased := totalErase (fun key v => if key = k then weight v else 0) m k
  rw [sums, ← erased, others, held]
  cases m.lookup k <;> simp

end

end Sorted

end Maps

import Mathlib.Data.Multiset.Filter
import Mathlib.Data.Multiset.Count
import Mathlib.Data.Multiset.Dedup

/-! Claims as multisets: what is claimed once is claimed by one member of a list, and what
is selected from both sides of an inclusion stays included. -/
namespace Tallies
open List

variable {α β : Type}

def duplicates [DecidableEq α] (s : Multiset α) : Multiset (α × Nat) :=
  (s.dedup.filter fun x => 1 < s.count x).map fun x => (x, s.count x)

theorem duplicatesZero [DecidableEq α] {s : Multiset α} : duplicates s = 0 ↔ s.Nodup := by
  rw [duplicates, Multiset.map_eq_zero, Multiset.filter_eq_nil, Multiset.nodup_iff_count_le_one]
  constructor
  · intro none x
    by_contra more
    have inside : x ∈ s := Multiset.count_pos.mp (by omega)
    exact none x (Multiset.mem_dedup.mpr inside) (by omega)
  · intro once x _ more
    have := once x
    omega

variable {xs : List α} {f : α → List β}

theorem countFlatMapOne [DecidableEq β] {y : β} (once : Multiset.count y ↑(xs.flatMap f) = 1) :
    xs.countP (fun x => y ∈ f x) = 1 := by
  rw [Multiset.coe_count] at once
  have none : ∀ rest : List α, (rest.flatMap f).count y = 0 →
      rest.countP (fun x => y ∈ f x) = 0 := by
    intro rest absent
    rw [countP_eq_zero]
    intro x mem holds
    have inside : y ∈ rest.flatMap f := mem_flatMap.mpr ⟨x, mem, of_decide_eq_true holds⟩
    exact count_eq_zero.mp absent inside
  induction xs with
  | nil => cases once
  | cons x xs ih =>
    rw [flatMap_cons, count_append] at once
    rw [List.countP_cons]
    by_cases here : y ∈ f x
    · have positive := count_pos_iff.mpr here
      rw [none xs (by omega)]
      simp [here]
    · have absent := count_eq_zero.mpr here
      rw [ih (by omega)]
      simp [here]

theorem filterFlatMap {p : β → Bool} {q : α → Bool} (uniform : ∀ x ∈ xs, ∀ y ∈ f x, p y = q x) :
    (xs.flatMap f).filter p = (xs.filter q).flatMap f := by
  induction xs with
  | nil => rfl
  | cons x xs ih =>
    obtain ⟨here, others⟩ := forall_mem_cons.mp uniform
    rw [flatMap_cons, filter_append, ih others]
    cases chosen : q x with
    | true =>
      have all : (f x).filter p = f x := filter_eq_self.mpr fun y mem => (here y mem).trans chosen
      rw [all, filter_cons_of_pos chosen, flatMap_cons]
    | false =>
      have no : (f x).filter p = [] :=
        filter_eq_nil_iff.mpr fun y mem => by simp [here y mem, chosen]
      rw [no, filter_cons_of_neg (by simp [chosen]), nil_append]

end Tallies

import Mathlib.Logic.Relation
import Mathlib.Data.List.Induction

/-! Precedence stored sparsely: a forbidden pair of the closure shows in one stored link when every
event on the way is on one of the two sides. -/
namespace Precedence
open Relation List

variable {α κ : Type}

structure Generates (links full : α → α → Prop) : Prop where
  sound : ∀ {a b}, links a b → full a b
  complete : ∀ {a b}, full a b → TransGen links a b

variable {links full : α → α → Prop} {a b : α} {late early : α → Prop}

theorem Generates.closure (generates : Generates links full) :
    TransGen links a b ↔ TransGen full a b := by
  constructor
  · exact TransGen.mono (fun _ _ link => generates.sound link) a b
  · intro path
    induction path with
    | single first => exact generates.complete first
    | tail _ last ih => exact ih.trans (generates.complete last)

theorem crossing (covered : ∀ {a b}, links a b → late b ∨ early b) (path : TransGen links a b)
    (start : late a) (stop : early b) : ∃ c d, links c d ∧ late c ∧ early d := by
  induction path using TransGen.head_induction_on with
  | single link => exact ⟨_, b, link, start, stop⟩
  | @head a c link path ih =>
    by_cases sooner : early c
    · exact ⟨a, c, link, start, sooner⟩
    · exact ih ((covered link).resolve_right sooner)

theorem Generates.crosses (generates : Generates links full)
    (covered : ∀ {a b}, links a b → late b ∨ early b) :
    (∃ a b, links a b ∧ late a ∧ early b) ↔ ∃ a b, TransGen full a b ∧ late a ∧ early b := by
  constructor
  · rintro ⟨a, b, link, start, stop⟩
    exact ⟨a, b, .single (generates.sound link), start, stop⟩
  · rintro ⟨a, b, path, start, stop⟩
    exact crossing covered (generates.closure.mpr path) start stop

theorem pairwiseAt {before P : α → α → Prop} {xs : List α} (ordered : xs.Pairwise before)
    (each : xs.Pairwise P) (asymmetric : ∀ {a b}, before a b → ¬ before b a) (left : a ∈ xs)
    (right : b ∈ xs) (less : before a b) : P a b := by
  induction xs with
  | nil => exact absurd left not_mem_nil
  | cons x xs ih =>
    obtain ⟨first, ordered⟩ := pairwise_cons.mp ordered
    obtain ⟨holds, each⟩ := pairwise_cons.mp each
    rcases mem_cons.mp left with rfl | left' <;> rcases mem_cons.mp right with rfl | right'
    · exact absurd less (asymmetric less)
    · exact holds b right'
    · exact absurd less (asymmetric (first a left'))
    · exact ih ordered each left' right'

section

variable [DecidableEq κ] (group : α → κ)

def Consecutive (xs : List α) (a b : α) : Prop :=
  ∃ before after, xs = before ++ b :: after ∧
    (before.filter fun x => group x = group b).getLast? = some a

variable {group} {xs : List α} {n : α}

theorem consecutiveSnoc : Consecutive group (xs ++ [n]) a b ↔
    Consecutive group xs a b ∨ b = n ∧ (xs.filter fun x => group x = group n).getLast? = some a := by
  constructor
  · rintro ⟨before, after, split, last⟩
    rcases eq_nil_or_concat after with rfl | ⟨rest, x, rfl⟩
    · obtain ⟨rfl, same⟩ := append_inj' split rfl
      cases same
      exact .inr ⟨rfl, last⟩
    · rw [concat_eq_append, ← cons_append, ← append_assoc] at split
      obtain ⟨whole, -⟩ := append_inj' split rfl
      exact .inl ⟨before, rest, whole, last⟩
  · rintro (⟨before, after, rfl, last⟩ | ⟨rfl, last⟩)
    · exact ⟨before, after ++ [n], by simp, last⟩
    · exact ⟨xs, [], rfl, last⟩

theorem consecutiveMem (link : Consecutive group xs a b) :
    a ∈ xs ∧ b ∈ xs ∧ group a = group b ∧ ∀ {before : α → α → Prop}, xs.Pairwise before →
      before a b := by
  obtain ⟨earlier, later, rfl, last⟩ := link
  have inside := mem_of_getLast? last
  rw [mem_filter, decide_eq_true_eq] at inside
  refine ⟨mem_append_left _ inside.1, by simp, inside.2, fun ordered => ?_⟩
  exact (pairwise_append.mp ordered).2.2 a inside.1 b mem_cons_self

theorem consecutivePairwise (xs : List α) :
    xs.Pairwise fun a b => group a = group b → TransGen (Consecutive group xs) a b := by
  induction xs using List.reverseRecOn with
  | nil => exact List.Pairwise.nil
  | append_singleton xs n ih =>
    have grown {a b : α} (path : TransGen (Consecutive group xs) a b) :
        TransGen (Consecutive group (xs ++ [n])) a b :=
      TransGen.mono (fun _ _ link => consecutiveSnoc.mpr (.inl link)) a b path
    refine pairwise_append.mpr ⟨ih.imp fun path same => grown (path same),
      pairwise_singleton .., ?_⟩
    intro a inside b single same
    cases mem_singleton.mp single
    -- All of the group before `n` lead to its last element, and that one is linked to `n`.
    have member : a ∈ xs.filter fun x => group x = group n := by
      simpa using ⟨inside, same⟩
    obtain ⟨init, last, whole⟩ := eq_nil_or_concat (xs.filter fun x => group x = group n)
      |>.resolve_left (ne_nil_of_mem member)
    rw [concat_eq_append] at whole
    have link : Consecutive group (xs ++ [n]) last n := by
      refine consecutiveSnoc.mpr (.inr ⟨rfl, ?_⟩)
      rw [whole, getLast?_concat]
    rw [whole, mem_append, mem_singleton] at member
    rcases member with earlier | rfl
    · have paths := ih.filter fun x => group x = group n
      rw [whole, pairwise_append] at paths
      have sameLast : group last = group n := by
        have mem : last ∈ xs.filter fun x => group x = group n := by rw [whole]; simp
        simpa using (mem_filter.mp mem).2
      have path := paths.2.2 a earlier last (mem_singleton.mpr rfl) (same.trans sameLast.symm)
      exact (grown path).tail link
    · exact .single link

end

end Precedence

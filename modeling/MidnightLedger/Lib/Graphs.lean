import Mathlib.Algebra.GroupWithZero.Nat
import Mathlib.Algebra.Order.BigOperators.Group.Finset
import Mathlib.Data.Finset.Max

/-! Graphs without cycles, given by the list of successors of a node: reachable nodes, the worklist
that collects them, and the number of edges that enter a node from a set. -/
namespace Graphs
open List Finset

section Reach

variable {K : Type} {edges : K → List K} {roots : K → Prop}

inductive Reached (edges : K → List K) (roots : K → Prop) : K → Prop
  | root {k : K} (mem : roots k) : Reached edges roots k
  | step {x k : K} (parent : Reached edges roots x) (mem : k ∈ edges x) : Reached edges roots k

theorem Reached.through {others : K → Prop} (each : ∀ k, roots k → Reached edges others k) {k : K}
    (reached : Reached edges roots k) : Reached edges others k := by
  induction reached with
  | root mem => exact each _ mem
  | step _ mem ih => exact .step ih mem

def weight (edges : K → List K) (rank : K → ℕ) (lower : ∀ x, ∀ c ∈ edges x, rank c < rank x)
    (k : K) : ℕ :=
  1 + ((edges k).attach.map fun c => weight edges rank lower c.1).sum
termination_by rank k
decreasing_by exact lower k c.1 c.2

theorem weightUnfold {rank : K → ℕ} {lower : ∀ x, ∀ c ∈ edges x, rank c < rank x} (k : K) :
    weight edges rank lower k = 1 + ((edges k).map (weight edges rank lower)).sum := by
  rw [weight, List.attach_map_val]

end Reach

section Worklist

variable {K ε : Type} [DecidableEq K] (next : K → Except ε (List K)) (known : K → Bool)

def collect : ℕ → List K → List K → Option (Except ε (List K))
  | _, [], added => some (.ok added)
  | 0, _ :: _, _ => none
  | fuel + 1, key :: queue, added =>
    if known key ∨ key ∈ added then collect fuel queue added
    else
      match next key with
      | .error e => some (.error e)
      | .ok children => collect fuel (children.reverse ++ queue) (key :: added)

variable {next known}

theorem collectMore {fuel more : ℕ} {queue added : List K} {result : Except ε (List K)}
    (ended : collect next known fuel queue added = some result) (enough : fuel ≤ more) :
    collect next known more queue added = some result := by
  induction fuel generalizing more queue added with
  | zero =>
    cases queue with
    | nil => cases more <;> exact ended
    | cons key queue => cases ended
  | succ fuel ih =>
    obtain ⟨more, rfl⟩ := Nat.exists_eq_add_one_of_ne_zero (Nat.ne_zero_of_lt enough)
    have enough' : fuel ≤ more := Nat.le_of_succ_le_succ enough
    cases queue with
    | nil => exact ended
    | cons key queue =>
      rw [collect] at ended ⊢
      by_cases seen : known key ∨ key ∈ added
      · rw [if_pos seen] at ended ⊢
        exact ih ended enough'
      · rw [if_neg seen] at ended ⊢
        cases step : next key with
        | error e =>
          rw [step] at ended
          exact ended
        | ok children =>
          rw [step] at ended
          exact ih ended enough'

end Worklist

section Collecting

variable {K ε : Type} {known : K → Bool} {edges : K → List K} {roots : K → Prop}

structure Collecting (edges : K → List K) (known : K → Bool) (roots : K → Prop)
    (queue added : List K) : Prop where
  nodup : added.Nodup
  fresh : ∀ k ∈ added, known k = false
  queued : ∀ k ∈ queue, Reached edges roots k
  reached : ∀ k ∈ added, Reached edges roots k
  closed : ∀ k ∈ added, ∀ c ∈ edges k, known c = true ∨ c ∈ added ∨ c ∈ queue
  covers : ∀ k, roots k → known k = true ∨ k ∈ added ∨ k ∈ queue

section

variable {key : K} {queue added : List K}
  (collecting : Collecting edges known roots (key :: queue) added)
include collecting

theorem Collecting.skip (seen : known key ∨ key ∈ added) :
    Collecting edges known roots queue added := by
  have settle : ∀ c, known c = true ∨ c ∈ added ∨ c ∈ key :: queue →
      known c = true ∨ c ∈ added ∨ c ∈ queue := by
    rintro c (k | a | q)
    · exact .inl k
    · exact .inr (.inl a)
    · rcases mem_cons.mp q with rfl | rest
      · exact seen.imp_right .inl
      · exact .inr (.inr rest)
  exact {
    nodup := collecting.nodup
    fresh := collecting.fresh
    queued := fun k mem => collecting.queued k (mem_cons_of_mem _ mem)
    reached := collecting.reached
    closed := fun k mem c edge => settle c (collecting.closed k mem c edge)
    covers := fun k mem => settle k (collecting.covers k mem) }

theorem Collecting.take (unknown : known key = false) (unseen : key ∉ added) :
    Collecting edges known roots ((edges key).reverse ++ queue) (key :: added) := by
  have here : Reached edges roots key := collecting.queued key mem_cons_self
  have settle : ∀ c, known c = true ∨ c ∈ added ∨ c ∈ key :: queue →
      known c = true ∨ c ∈ key :: added ∨ c ∈ (edges key).reverse ++ queue := by
    rintro c (k | a | q)
    · exact .inl k
    · exact .inr (.inl (mem_cons_of_mem _ a))
    · rcases mem_cons.mp q with rfl | rest
      · exact .inr (.inl mem_cons_self)
      · exact .inr (.inr (mem_append_right _ rest))
  refine {
    nodup := nodup_cons.mpr ⟨unseen, collecting.nodup⟩
    fresh := forall_mem_cons.mpr ⟨unknown, collecting.fresh⟩
    queued := fun k mem => ?_
    reached := forall_mem_cons.mpr ⟨here, collecting.reached⟩
    closed := fun k mem c edge => ?_
    covers := fun k mem => settle k (collecting.covers k mem) }
  · rcases mem_append.mp mem with child | rest
    · exact .step here (mem_reverse.mp child)
    · exact collecting.queued k (mem_cons_of_mem _ rest)
  · rcases mem_cons.mp mem with rfl | old
    · exact .inr (.inr (mem_append_left _ (mem_reverse.mpr edge)))
    · exact settle c (collecting.closed k old c edge)

end

theorem collects [DecidableEq K] {next : K → Except ε (List K)} {rank : K → ℕ}
    (lower : ∀ x, ∀ c ∈ edges x, rank c < rank x)
    (loads : ∀ k, Reached edges roots k → known k = false → next k = .ok (edges k))
    {fuel : ℕ} {queue added : List K} (collecting : Collecting edges known roots queue added)
    (enough : (queue.map (weight edges rank lower)).sum ≤ fuel) :
    ∃ final, collect next known fuel queue added = some (.ok final) ∧
      Collecting edges known roots [] final := by
  induction fuel generalizing queue added with
  | zero =>
    cases queue with
    | nil => exact ⟨added, rfl, collecting⟩
    | cons key queue =>
      rw [List.map_cons, List.sum_cons, weightUnfold] at enough
      omega
  | succ fuel ih =>
    cases queue with
    | nil => exact ⟨added, rfl, collecting⟩
    | cons key queue =>
      rw [List.map_cons, List.sum_cons, weightUnfold] at enough
      by_cases seen : known key = true ∨ key ∈ added
      · rw [collect, if_pos seen]
        exact ih (collecting.skip seen) (by omega)
      · rw [not_or, Bool.not_eq_true] at seen
        have loaded := loads key (collecting.queued key mem_cons_self) seen.1
        rw [collect, if_neg (by simp [seen]), loaded]
        refine ih (collecting.take seen.1 seen.2) ?_
        rw [map_append, sum_append, map_reverse, sum_reverse]
        omega

end Collecting

section Sets

variable {K : Type} {edges : K → List K} {roots : K → Prop} {S R A : Finset K}

def Closed (edges : K → List K) (S : Finset K) : Prop := ∀ x ∈ S, ∀ c ∈ edges x, c ∈ S

variable {k : K}

theorem Closed.reached (closed : Closed edges S) (inside : ∀ k, roots k → k ∈ S)
    (reached : Reached edges roots k) : k ∈ S := by
  induction reached with
  | root mem => exact inside _ mem
  | step _ mem ih => exact closed _ ih _ mem

variable [DecidableEq K]

def incoming (edges : K → List K) (S : Finset K) (k : K) : ℕ := ∑ x ∈ S, (edges x).count k

theorem incomingPos : 0 < incoming edges S k ↔ ∃ x ∈ S, k ∈ edges x := by
  rw [incoming, sum_pos_iff]
  simp only [count_pos_iff]

theorem incomingUnion (disjoint : Disjoint S A) (k : K) :
    incoming edges (S ∪ A) k = incoming edges S k + incoming edges A k :=
  sum_union disjoint

theorem incomingOutside (closed : Closed edges S) (outside : k ∉ S) : incoming edges S k = 0 := by
  by_contra entered
  obtain ⟨x, mem, edge⟩ := incomingPos.mp (Nat.pos_of_ne_zero entered)
  exact outside (closed x mem k edge)

theorem incomingSdiff (edges : K → List K) (sub : R ⊆ S) (k : K) :
    incoming edges (S \ R) k + incoming edges R k = incoming edges S k :=
  sum_sdiff sub

theorem allReached {rank : K → ℕ} (lower : ∀ x, ∀ c ∈ edges x, rank c < rank x)
    (entered : ∀ k ∈ S, roots k ∨ 0 < incoming edges S k) (mem : k ∈ S) :
    Reached edges roots k := by
  classical
  -- a node of largest rank among those that are not reached has a reached parent
  by_contra missed
  let unreached := S.filter fun x => ¬ Reached edges roots x
  obtain ⟨top, member, largest⟩ := unreached.exists_max_image rank ⟨k, mem_filter.mpr ⟨mem, missed⟩⟩
  obtain ⟨inside, unreachedTop⟩ := mem_filter.mp member
  rcases entered top inside with root | positive
  · exact unreachedTop (.root root)
  · obtain ⟨parent, parentInside, edge⟩ := incomingPos.mp positive
    by_cases reached : Reached edges roots parent
    · exact unreachedTop (.step reached edge)
    · have below := largest parent (mem_filter.mpr ⟨parentInside, reached⟩)
      have above := lower parent top edge
      omega

/- Nodes outside of the roots that are entered only from each other. -/
structure Garbage (edges : K → List K) (roots : K → Prop) (S R : Finset K) : Prop where
  inside : R ⊆ S
  apart : ∀ k ∈ R, ¬ roots k
  only : ∀ k ∈ R, incoming edges S k = incoming edges R k

theorem Garbage.closed (garbage : Garbage edges roots S R) (closed : Closed edges S) :
    Closed edges (S \ R) := by
  intro x mem c edge
  obtain ⟨inside, outside⟩ := mem_sdiff.mp mem
  refine mem_sdiff.mpr ⟨closed x inside c edge, fun removed => ?_⟩
  have entered : 0 < incoming edges (S \ R) c := incomingPos.mpr ⟨x, mem, edge⟩
  have split := incomingSdiff edges garbage.inside c
  have only := garbage.only c removed
  omega

theorem Garbage.exact {rank : K → ℕ} (lower : ∀ x, ∀ c ∈ edges x, rank c < rank x)
    (garbage : Garbage edges roots S R) (closed : Closed edges S) (inside : ∀ k, roots k → k ∈ S)
    (complete : ∀ k ∈ S, ¬ roots k → incoming edges S k = incoming edges R k → k ∈ R) (k : K) :
    k ∈ S \ R ↔ Reached edges roots k := by
  refine ⟨fun mem => allReached lower (fun x member => ?_) mem, fun reached => ?_⟩
  · obtain ⟨member, kept⟩ := mem_sdiff.mp member
    by_cases root : roots x
    · exact .inl root
    · have entered : incoming edges S x ≠ incoming edges R x :=
        fun same => kept (complete x member root same)
      have split := incomingSdiff edges garbage.inside x
      exact .inr (by omega)
  · refine (garbage.closed closed).reached (fun x root => ?_) reached
    exact mem_sdiff.mpr ⟨inside x root, fun removed => garbage.apart x removed root⟩

end Sets

end Graphs

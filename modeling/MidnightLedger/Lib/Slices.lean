import Mathlib.Data.List.Basic

/-! Loops with a budget: where every step depends only on what stays over a pause, the loop passes
the same points however it is cut. -/
namespace Slices

section

variable {S R ε : Type} (step : S → ℕ → Except ε ((Bool ⊕ R) × S × ℕ))

def loop : ℕ → S → ℕ → Option (Except ε (Option R × S))
  | 0, _, _ => none
  | fuel + 1, s, limit =>
    match step s limit with
    | .error e => some (.error e)
    | .ok (.inl true, next, _) => some (.ok (none, next))
    | .ok (.inl false, next, left) => loop fuel next left
    | .ok (.inr r, next, _) => some (.ok (some r, next))

variable {step}

theorem loopPreserves (invariant : S → ℕ → Prop) (paused : S → Prop)
    (goes : ∀ {s limit next left}, invariant s limit → step s limit = .ok (.inl false, next, left) →
      invariant next left)
    (pauses : ∀ {s limit next left}, invariant s limit → step s limit = .ok (.inl true, next, left) →
      paused next)
    (never : ∀ {s limit r next left}, invariant s limit → step s limit ≠ .ok (.inr r, next, left))
    {fuel : ℕ} {s : S} {limit : ℕ} {out : Option R} {next : S} (start : invariant s limit)
    (ended : loop step fuel s limit = some (.ok (out, next))) : out = none ∧ paused next := by
  induction fuel generalizing s limit with
  | zero => cases ended
  | succ fuel ih =>
    rw [loop] at ended
    cases taken : step s limit with
    | error e =>
      rw [taken] at ended
      cases ended
    | ok turn =>
      rw [taken] at ended
      obtain ⟨(broken | r), after, left⟩ := turn
      · cases broken with
        | false => exact ih (goes start taken) ended
        | true =>
          cases ended
          exact ⟨rfl, pauses start taken⟩
      · exact absurd taken (never start)

end

section

variable {S A R ε : Type} (step : S → ℕ → Except ε ((Bool ⊕ R) × S × ℕ)) (shows : S → A → Prop)

/- From every state that shows `a`, with every budget, the step goes on to `b`, at a cost. -/
def Turns (a b : A) (cost : ℕ) : Prop :=
  ∀ s limit, shows s a → ∃ next left, step s limit = .ok (.inl (decide (left = 0)), next, left) ∧
    shows next b ∧ left ≤ limit ∧ limit ≤ left + cost

def Ends (a : A) (r : R) : Prop :=
  ∀ s limit, shows s a → ∃ next left, step s limit = .ok (.inr r, next, left)

inductive Along : A → A → ℕ → ℕ → Prop
  | refl (a : A) : Along a a 0 0
  | head {a b c : A} {cost steps total : ℕ} (turn : Turns step shows a b cost)
      (rest : Along b c steps total) : Along a c (steps + 1) (cost + total)

variable {step shows}

theorem Along.trans {a b c : A} {m n k l : ℕ} (first : Along step shows a b m k)
    (second : Along step shows b c n l) : Along step shows a c (m + n) (k + l) := by
  induction first with
  | refl => simpa using second
  | head turn rest ih =>
    have whole := Along.head turn (ih second)
    rwa [← Nat.add_right_comm, ← Nat.add_assoc] at whole

section

variable {a b : A} {n cost : ℕ} {r : R} (way : Along step shows a b n cost)
  (ends : Ends step shows b r) {s : S} (shown : shows s a) {fuel : ℕ}
include way ends shown

theorem loopAlong (limit : ℕ) (enough : n < fuel) :
    ∃ out next, loop step fuel s limit = some (.ok (out, next)) ∧
      (out = some r ∨ out = none ∧ ∃ a' m cost', m < n ∧ Along step shows a' b m cost' ∧
        shows next a') := by
  induction way generalizing s limit fuel with
  | refl a =>
    obtain ⟨fuel, rfl⟩ := Nat.exists_eq_add_of_lt enough
    obtain ⟨next, left, taken⟩ := ends s limit shown
    exact ⟨some r, next, by rw [Nat.zero_add, loop, taken], .inl rfl⟩
  | @head a b c cost steps total turn rest ih =>
    obtain ⟨next, left, taken, shown', -⟩ := turn s limit shown
    obtain ⟨fuel, rfl⟩ : ∃ k, fuel = k + 1 := ⟨fuel - 1, by omega⟩
    by_cases spent : left = 0
    · refine ⟨none, next, ?_, .inr ⟨rfl, b, steps, total, by omega, rest, shown'⟩⟩
      rw [loop, taken, decide_eq_true spent]
    · obtain ⟨out, final, ran, stands⟩ := ih ends shown' left (by omega : steps < fuel)
      refine ⟨out, final, ?_, stands.imp_right ?_⟩
      · rw [loop, taken, decide_eq_false spent]
        exact ran
      · rintro ⟨none, a', m, cost', less, later⟩
        exact ⟨none, a', m, cost', by omega, later⟩

theorem loopThrough {limit : ℕ} (afford : cost < limit) (enough : n < fuel) :
    ∃ next, loop step fuel s limit = some (.ok (some r, next)) := by
  induction way generalizing s limit fuel with
  | refl a =>
    obtain ⟨fuel, rfl⟩ := Nat.exists_eq_add_of_lt enough
    obtain ⟨next, left, taken⟩ := ends s limit shown
    exact ⟨next, by rw [Nat.zero_add, loop, taken]⟩
  | @head a b c cost steps total turn rest ih =>
    obtain ⟨next, left, taken, shown', -, spends⟩ := turn s limit shown
    obtain ⟨fuel, rfl⟩ : ∃ k, fuel = k + 1 := ⟨fuel - 1, by omega⟩
    have remains : left ≠ 0 := by omega
    obtain ⟨final, ran⟩ := ih ends shown' (by omega : total < left) (by omega : steps < fuel)
    refine ⟨final, ?_⟩
    rw [loop, taken, decide_eq_false remains]
    exact ran

end

end

end Slices

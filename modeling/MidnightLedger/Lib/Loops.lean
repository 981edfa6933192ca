import Mathlib.Data.List.Basic
import Mathlib.Data.List.Flatten

/-! Sequences of fallible steps and counted loops as monadic folds over `List.range`. -/
namespace Loops
open List

variable {ε α β : Type} {x : Except ε α} {f : α → Except ε β} {e : ε} {xs : List α} {σ ι : Type}
  {ys : List β}

theorem bindOk {b : β} : (x >>= f) = .ok b ↔ ∃ a, x = .ok a ∧ f a = .ok b := by
  cases x with
  | error e => simp [bind, Except.bind]
  | ok a => simp [bind, Except.bind]

theorem pureOk {f : α → β} {b : β} :
    (x >>= fun a => pure (f a)) = .ok b ↔ ∃ a, x = .ok a ∧ f a = b := by
  simp [bindOk, pure, Except.pure]

theorem elseOk {c : Prop} [Decidable c] {b : α} :
    (if c then .error e else x) = .ok b ↔ ¬ c ∧ x = .ok b := by
  by_cases holds : c <;> simp [holds]

theorem thenOk {c : Prop} [Decidable c] {b : α} :
    (if c then x else .error e) = .ok b ↔ c ∧ x = .ok b := by
  by_cases holds : c <;> simp [holds]

theorem elseMapOk {c : Prop} [Decidable c] {f : α → β} {b : β} :
    (if c then .error e else x).map f = .ok b ↔ ¬ c ∧ x.map f = .ok b := by
  by_cases holds : c <;> simp [holds, Except.map]

theorem okBind (a : α) (f : α → Except ε β) : (Except.ok a >>= f) = f a := rfl

theorem okPair {a c : α} {b d : β} (same : (.ok (a, b) : Except ε (α × β)) = .ok (c, d)) :
    a = c ∧ b = d := Prod.mk.inj (Except.ok.inj same)

theorem bindError : (x >>= f) = .error e ↔ x = .error e ∨ ∃ a, x = .ok a ∧ f a = .error e := by
  cases x with
  | error e => simp [bind, Except.bind]
  | ok a => simp [bind, Except.bind]

def value {ε α : Type} (x : Except ε α) (ok : x.isOk = true) : α :=
  match x, ok with
  | .ok a, _ => a

theorem valueOk (ok : x.isOk = true) : x = .ok (value x ok) := by
  cases x with
  | ok a => rfl
  | error e => cases ok

theorem forMOk {check : α → Except ε Unit} :
    xs.forM check = .ok () ↔ ∀ x ∈ xs, check x = .ok () := by
  induction xs with
  | nil => simp [pure, Except.pure]
  | cons x xs ih =>
    have unrolled : (x :: xs).forM check = (check x >>= fun _ => xs.forM check) := rfl
    rw [unrolled, bindOk, forall_mem_cons, ← ih]
    exact ⟨fun ⟨⟨⟩, head, rest⟩ => ⟨head, rest⟩, fun ⟨head, rest⟩ => ⟨(), head, rest⟩⟩

theorem mapErrorOk {δ : Type} {wrap : δ → ε} {x : Except δ α} {a : α} :
    x.mapError wrap = .ok a ↔ x = .ok a := by
  cases x <;> simp [Except.mapError]

theorem mapOk {f : α → β} {b : β} : x.map f = .ok b ↔ ∃ a, x = .ok a ∧ f a = b := by
  cases x <;> simp [Except.map]

def okOr {ε α : Type} (e : ε) : Option α → Except ε α
  | some a => .ok a
  | none => .error e

theorem okOrOk {x : Option α} {a : α} : okOr e x = .ok a ↔ x = some a := by
  cases x <;> simp [okOr]

theorem foldlMPure (step : σ → ι → σ) (s : σ) (xs : List ι) :
    xs.foldlM (fun s x => (.ok (step s x) : Except ε σ)) s = .ok (xs.foldl step s) := by
  induction xs generalizing s with
  | nil => rfl
  | cons x xs ih => rw [foldlM_cons, okBind, ih, foldl_cons]

variable {step : σ → ι → Except ε σ} {related : α → β → Prop}

theorem foldlMError {s : σ} {xs : List ι} :
    xs.foldlM step s = .error e ↔ ∃ before x after middle, xs = before ++ x :: after ∧
      before.foldlM step s = .ok middle ∧ step middle x = .error e := by
  induction xs generalizing s with
  | nil =>
    refine ⟨fun failed => (nomatch failed), fun ⟨before, x, after, middle, shape, _⟩ => ?_⟩
    exact absurd shape.symm (by simp)
  | cons x xs ih =>
    rw [foldlM_cons, bindError]
    constructor
    · rintro (first | ⟨next, stepped, later⟩)
      · exact ⟨[], x, xs, s, rfl, rfl, first⟩
      · obtain ⟨before, y, after, middle, shape, ran, failed⟩ := ih.mp later
        refine ⟨x :: before, y, after, middle, by rw [shape]; rfl, ?_, failed⟩
        rw [foldlM_cons, stepped]
        exact ran
    · rintro ⟨before, y, after, middle, shape, ran, failed⟩
      cases before with
      | nil =>
        cases shape
        cases ran
        exact .inl failed
      | cons z before =>
        cases shape
        obtain ⟨next, stepped, ran⟩ := bindOk.mp ran
        exact .inr ⟨next, stepped, ih.mpr ⟨before, y, after, middle, rfl, ran, failed⟩⟩

theorem foldlMAppend {s final : σ} {xs ys : List ι} : (xs ++ ys).foldlM step s = .ok final ↔
      ∃ middle, xs.foldlM step s = .ok middle ∧ ys.foldlM step middle = .ok final := by
  rw [foldlM_append, bindOk]

theorem foldlMGuarded {body : σ → ι → Except ε σ} (good : ι → Prop) (next : σ → ι → σ)
    (each : ∀ {s i t}, body s i = .ok t → good i ∧ t = next s i) {xs : List ι} {s final : σ}
    (ok : xs.foldlM body s = .ok final) : (∀ i ∈ xs, good i) ∧ final = xs.foldl next s := by
  induction xs generalizing s with
  | nil =>
    cases ok
    exact ⟨fun _ mem => absurd mem not_mem_nil, rfl⟩
  | cons x xs ih =>
    obtain ⟨t, taken, rest⟩ := bindOk.mp ok
    obtain ⟨passed, rfl⟩ := each taken
    obtain ⟨others, same⟩ := ih rest
    exact ⟨forall_mem_cons.mpr ⟨passed, others⟩, same⟩

def Calls {σ ι ε : Type} (body : σ → ι → Except ε σ) (s : σ) (xs : List ι) (reached : σ) (x : ι) :
    Prop :=
  ∃ before after, xs = before ++ x :: after ∧ before.foldlM body s = .ok reached

theorem splitUnique {left right other others : List α} {x : α} (nodup : xs.Nodup)
    (first : xs = left ++ x :: right) (second : xs = other ++ x :: others) : left = other := by
  rw [first, nodup_append, nodup_cons] at nodup
  obtain ⟨-, ⟨after, -⟩, apart⟩ := nodup
  have before : x ∉ left := fun mem => apart x mem x mem_cons_self rfl
  exact ((append_cons_inj_of_notMem before after).mp (first.symm.trans second)).1

theorem mapMSome {f : α → Option β} {g : α → β} (each : ∀ x ∈ xs, f x = some (g x)) :
    xs.mapM f = some (xs.map g) := by
  induction xs with
  | nil => rfl
  | cons x xs ih =>
    have head := each x mem_cons_self
    have tail := ih (forall_mem_cons.mp each).2
    simp [mapM_cons, head, tail]

theorem mapMRelated {f : α → Option β} (each : ∀ x ∈ xs, ∃ y, f x = some y ∧ related x y) :
    ∃ ys, xs.mapM f = some ys ∧ List.Forall₂ related xs ys := by
  induction xs with
  | nil => exact ⟨[], rfl, .nil⟩
  | cons x xs ih =>
    obtain ⟨y, head, first⟩ := each x mem_cons_self
    obtain ⟨ys, tail, rest⟩ := ih (forall_mem_cons.mp each).2
    exact ⟨y :: ys, by simp [mapM_cons, head, tail], .cons first rest⟩

theorem relatedMap {γ : Type} {f : α → γ} {g : β → γ} (same : ∀ {x y}, related x y → g y = f x)
    (each : List.Forall₂ related xs ys) : ys.map g = xs.map f := by
  induction each with
  | nil => rfl
  | cons first _ ih => rw [map_cons, map_cons, same first, ih]

theorem relatedMem (each : List.Forall₂ related xs ys) {y : β} (mem : y ∈ ys) :
    ∃ x ∈ xs, related x y := by
  induction each with
  | nil => cases mem
  | cons first _ ih =>
    rcases mem_cons.mp mem with rfl | inside
    · exact ⟨_, mem_cons_self, first⟩
    · obtain ⟨x, origin, rest⟩ := ih inside
      exact ⟨x, mem_cons_of_mem _ origin, rest⟩

theorem mapMMade {f : α → Option β} (made : xs.mapM f = some ys) :
    List.Forall₂ (fun x y => f x = some y) xs ys := by
  induction xs generalizing ys with
  | nil =>
    cases made
    exact .nil
  | cons x xs ih =>
    rw [mapM_cons] at made
    obtain ⟨first, head, rest⟩ := Option.bind_eq_some_iff.mp made
    obtain ⟨others, tail, last⟩ := Option.bind_eq_some_iff.mp rest
    cases last
    exact .cons head (ih tail)

theorem mapMLength (made : xs.mapM f = .ok ys) : ys.length = xs.length := by
  induction xs generalizing ys with
  | nil =>
    cases made
    rfl
  | cons x xs ih =>
    rw [mapM_cons] at made
    obtain ⟨first, -, rest⟩ := bindOk.mp made
    obtain ⟨others, tail, last⟩ := bindOk.mp rest
    cases last
    rw [length_cons, length_cons, ih tail]

theorem mapMBackwards {m : Type → Type} [Monad m] [LawfulMonad m] (look : Nat → m α) (g : α → m β)
    {r : List α} {n : Nat} (enough : n ≤ r.length)
    (looks : ∀ j (_ : j < r.length), look j = pure r[j]) :
    (List.range n).mapM (fun i => look (n - 1 - i) >>= g) = (r.take n).reverse.mapM g := by
  induction n with
  | zero => simp
  | succ n ih =>
    have inside : n < r.length := by omega
    have shifted : (fun i => look (n + 1 - 1 - (i + 1)) >>= g) = fun i => look (n - 1 - i) >>= g := by
      funext i
      rw [show n + 1 - 1 - (i + 1) = n - 1 - i by omega]
    rw [range_succ_eq_map, mapM_cons, mapM_map, take_succ_eq_append_getElem inside,
      reverse_append, reverse_singleton, singleton_append, mapM_cons]
    simp only [Nat.succ_eq_add_one, Function.comp_def, shifted, ih (by omega)]
    rw [show n + 1 - 1 - 0 = n by omega, looks n inside, pure_bind]

theorem flattenInj {k : Nat} {as bs : List (List α)} (left : ∀ a ∈ as, a.length = k)
    (right : ∀ b ∈ bs, b.length = k) (count : as.length = bs.length)
    (same : as.flatten = bs.flatten) : as = bs := by
  induction as generalizing bs with
  | nil => exact (eq_nil_of_length_eq_zero count.symm).symm
  | cons a as ih =>
    obtain ⟨b, bs, rfl⟩ := exists_cons_of_length_eq_add_one count.symm
    obtain ⟨head, rest⟩ := append_inj same
      ((left a mem_cons_self).trans (right b mem_cons_self).symm)
    rw [head, ih (forall_mem_cons.mp left).2
      (forall_mem_cons.mp right).2 (by simpa using count) rest]

end Loops

import MidnightLedger.Lib.Loops

/-! Computations that take notes as they go, and keep them when they fail. -/
namespace Notes
open List

structure Noted (ν ε α : Type) where
  notes : List ν
  outcome : Except ε α

namespace Noted

variable {ν ε α β σ ι : Type}

def pure (a : α) : Noted ν ε α := ⟨[], .ok a⟩

def bind (x : Noted ν ε α) (f : α → Noted ν ε β) : Noted ν ε β :=
  match x.outcome with
  | .ok a => ⟨x.notes ++ (f a).notes, (f a).outcome⟩
  | .error e => ⟨x.notes, .error e⟩

instance : Monad (Noted ν ε) where
  pure := Noted.pure
  bind := Noted.bind

def note (notes : List ν) : Noted ν ε Unit := ⟨notes, .ok ()⟩

def of (outcome : Except ε α) : Noted ν ε α := ⟨[], outcome⟩

variable {x : Noted ν ε α} {f : α → Noted ν ε β}

theorem bindOutcome {b : β} :
    (x >>= f).outcome = .ok b ↔ ∃ a, x.outcome = .ok a ∧ (f a).outcome = .ok b := by
  change (Noted.bind x f).outcome = _ ↔ _
  rw [Noted.bind]
  cases x.outcome with
  | error e => simp
  | ok a => simp

theorem bindNotes {n : ν} :
    n ∈ (x >>= f).notes ↔ n ∈ x.notes ∨ ∃ a, x.outcome = .ok a ∧ n ∈ (f a).notes := by
  change n ∈ (Noted.bind x f).notes ↔ _
  rw [Noted.bind]
  cases x.outcome with
  | error e => simp
  | ok a => simp

structure Within (allowed : ν → Prop) (x : Noted ν ε α) (post : α → Prop) : Prop where
  notes : ∀ n ∈ x.notes, allowed n
  result : ∀ {a}, x.outcome = .ok a → post a

variable {allowed : ν → Prop} {post : α → Prop} {next : β → Prop}

theorem withinPure {a : α} (holds : post a) : Within (ε := ε) allowed (Pure.pure a) post where
  notes := forall_mem_nil _
  result ok := Except.ok.inj ok ▸ holds

theorem withinOf {x : Except ε α} (holds : ∀ {a}, x = .ok a → post a) :
    Within allowed (of x) post where
  notes := forall_mem_nil _
  result := holds

variable {notes : List ν}

theorem withinNote (each : ∀ n ∈ notes, allowed n) :
    Within (ε := ε) allowed (note notes) fun _ => True where
  notes := each
  result _ := trivial

theorem withinBind (first : Within allowed x post)
    (second : ∀ {a}, x.outcome = .ok a → post a → Within allowed (f a) next) :
    Within allowed (x >>= f) next where
  notes n mem := by
    rcases bindNotes.mp mem with here | ⟨a, ok, later⟩
    · exact first.notes n here
    · exact (second ok (first.result ok)).notes n later
  result ok := by
    obtain ⟨a, taken, last⟩ := bindOutcome.mp ok
    exact (second taken (first.result taken)).result last

theorem withinThen {x : Except ε α} (second : ∀ a, Within allowed (f a) next) :
    Within allowed (of x >>= f) next :=
  withinBind (withinOf fun _ => trivial : Within allowed (of x) fun _ => True) fun _ _ => second _

theorem noteThen {f : Unit → Noted ν ε β} (each : ∀ n ∈ notes, allowed n)
    (second : Within allowed (f ()) next) : Within allowed (note notes >>= f) next :=
  withinBind (withinNote each) fun _ _ => second

theorem withinFold {step : σ → ι → Noted ν ε σ} {invariant : σ → Prop} {xs : List ι}
    (each : ∀ {s i}, i ∈ xs → invariant s → Within allowed (step s i) invariant) {s : σ}
    (start : invariant s) : Within allowed (xs.foldlM step s) invariant := by
  induction xs generalizing s with
  | nil => exact withinPure start
  | cons x xs ih =>
    refine withinBind (each mem_cons_self start) fun _ reached => ?_
    exact ih (fun mem => each (mem_cons_of_mem _ mem)) reached

/- Where `x` returns, `y` returns the view of its result. -/
def Follows {δ : Type} (x : Except δ α) (y : Noted ν ε β) (view : α → β) : Prop :=
  ∀ ⦃a⦄, x = .ok a → y.outcome = .ok (view a)

section

variable {δ γ κ : Type} {x : Except δ α} {y : Noted ν ε β} {f : α → Except δ γ}
  {g : β → Noted ν ε κ} {view : α → β} {last : γ → κ}

theorem followsBind (first : Follows x y view)
    (second : ∀ {a}, x = .ok a → Follows (f a) (g (view a)) last) :
    Follows (x >>= f) (y >>= g) last := fun _ ok => by
  obtain ⟨a, taken, rest⟩ := Loops.bindOk.mp ok
  exact bindOutcome.mpr ⟨view a, first taken, second taken rest⟩

theorem followsSkip {y : Noted ν ε κ} (second : ∀ {a}, x = .ok a → Follows (f a) y last) :
    Follows (x >>= f) y last := fun _ ok => by
  obtain ⟨a, taken, rest⟩ := Loops.bindOk.mp ok
  exact second taken rest

theorem followsNote {g : Unit → Noted ν ε β} (rest : Follows x (g ()) view) :
    Follows x (note notes >>= g) view := fun _ ok => bindOutcome.mpr ⟨(), rfl, rest ok⟩

theorem followsPure {a : α} {b : β} (same : b = view a) :
    Follows (.ok a : Except δ α) (Pure.pure b : Noted ν ε β) view := by
  rintro _ ⟨⟩
  exact congrArg Except.ok same

end

end Noted

end Notes

import MidnightLedger.Lib.Loops

/-! Repeated validation: a computation that was successful on a first input is run again on another
one, leaving out what it need not repeat. -/
namespace Revalidation
open Loops

variable {ε δ α β : Type}

def Together (x : Except ε α) (y : Except δ α) : Prop := ∀ a, x = .ok a ↔ y = .ok a

theorem togetherRefl (x : Except ε α) : Together x x := fun _ => Iff.rfl

section

variable {x : Except ε α} {y : Except δ α} (together : Together x y)
include together

theorem togetherMapError {γ : Type} (wrap : δ → γ) : Together x (y.mapError wrap) := fun a => by
  rw [mapErrorOk, together a]

theorem togetherBind {f : α → Except ε β} {g : α → Except δ β}
    (continues : ∀ {a}, x = .ok a → Together (f a) (g a)) : Together (x >>= f) (y >>= g) := by
  intro b
  rw [bindOk, bindOk]
  constructor
  · rintro ⟨a, first, rest⟩
    exact ⟨a, (together a).mp first, (continues first b).mp rest⟩
  · rintro ⟨a, first, rest⟩
    have reached := (together a).mpr first
    exact ⟨a, reached, (continues reached b).mpr rest⟩

end

variable {xs : List α} {p : Prop} {x first again full : Except ε α}

theorem togetherForM {f : α → Except ε Unit} {g : α → Except δ Unit}
    (together : ∀ x ∈ xs, Together (f x) (g x)) : Together (xs.forM f) (xs.forM g) := by
  intro a
  rw [forMOk, forMOk]
  exact forall₂_congr fun x mem => together x mem ()

theorem togetherIte [Decidable p] {x' : Except ε α} {y y' : Except δ α} (holds : p → Together x y)
    (fails : ¬ p → Together x' y') :
    Together (if p then x else x') (if p then y else y') := by
  by_cases choice : p
  · simpa only [if_pos choice] using holds choice
  · simpa only [if_neg choice] using fails choice

theorem togetherGuard [Decidable p] {e : ε} {d : δ} {y : Unit → Except δ α}
    (together : ¬ p → Together x (y ())) :
    Together ((if p then .error e else .ok ()) >>= fun _ => x)
      (if p then .error d >>= y else y ()) := by
  by_cases refused : p
  · simp only [if_pos refused]
    exact fun a => ⟨nofun, nofun⟩
  · simp only [if_neg refused]
    exact together refused

def Agrees (first again full : Except ε α) : Prop := ∀ a, first = .ok a → Together again full

theorem agreesOfEq (same : again = full) : Agrees first again full := fun _ _ b => by rw [same]

theorem agreesRefl (first full : Except ε α) : Agrees first full full := agreesOfEq rfl

theorem agreesSkip (check : Except ε Unit) : Agrees check (.ok ()) check := by
  intro a passed b
  rw [passed]

theorem agreesBind {onFirst onAgain onFull : α → Except ε β} (agrees : Agrees first again full)
    (continues : ∀ {a b}, first = .ok a → full = .ok b →
      Agrees (onFirst a) (onAgain b) (onFull b)) :
    Agrees (first >>= onFirst) (again >>= onAgain) (full >>= onFull) := by
  intro c whole
  obtain ⟨a, passed, rest⟩ := bindOk.mp whole
  exact togetherBind (agrees a passed) fun {b} reached =>
    continues passed ((agrees a passed b).mp reached) c rest

theorem agreesSeq {first again full : Except ε Unit} {onFirst onAgain onFull : Except ε β}
    (agrees : Agrees first again full) (continues : Agrees onFirst onAgain onFull) :
    Agrees (first >>= fun _ => onFirst) (again >>= fun _ => onAgain) (full >>= fun _ => onFull) :=
  agreesBind agrees fun _ _ => continues

theorem agreesIte [Decidable p] {first' again' full' : Except ε α}
    (holds : p → Agrees first again full) (fails : ¬ p → Agrees first' again' full') :
    Agrees (if p then first else first') (if p then again else again')
      (if p then full else full') := by
  by_cases choice : p
  · simpa only [if_pos choice] using holds choice
  · simpa only [if_neg choice] using fails choice

theorem agreesForM {first again full : α → Except ε Unit}
    (agrees : ∀ x ∈ xs, Agrees (first x) (again x) (full x)) :
    Agrees (xs.forM first) (xs.forM again) (xs.forM full) := by
  intro a passed
  exact togetherForM fun x mem => agrees x mem () (forMOk.mp passed x mem)

end Revalidation

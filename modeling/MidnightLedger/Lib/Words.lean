import Mathlib.Data.BitVec
import Mathlib.Algebra.Order.BigOperators.Group.List

/-! Machine words: saturating and checked operations, and the plain addition whose overflow stops a
debug build and wraps in a release build. -/
namespace Words
open BitVec List

inductive Build where
  | debug
  | release
  deriving DecidableEq, Repr

inductive Fault (ε : Type) where
  | error (e : ε)
  | panic
  deriving DecidableEq, Repr

abbrev Outcome (ε α : Type) := Except (Fault ε) α

inductive Panic where
  | panic
  deriving DecidableEq, Repr

def reject {ε α : Type} (e : ε) : Outcome ε α := .error (.error e)

def lift {δ ε α : Type} (wrap : δ → ε) : Except δ α → Outcome ε α
  | .ok a => .ok a
  | .error e => reject (wrap e)

variable {ε α : Type} {δ : Type}

theorem liftOk {wrap : δ → ε} {x : Except δ α} {a : α} : lift wrap x = .ok a ↔ x = .ok a := by
  cases x <;> simp [lift, reject]

theorem liftError {wrap : δ → ε} {x : Except δ α} {fault : Fault ε} :
    lift wrap x = .error fault ↔ ∃ e, x = .error e ∧ fault = .error (wrap e) := by
  cases x <;> simp [lift, reject, eq_comm]

def mapFault {δ ε α : Type} (wrap : δ → ε) : Outcome δ α → Outcome ε α
  | .ok a => .ok a
  | .error (.error e) => reject (wrap e)
  | .error .panic => .error .panic

theorem mapFaultOk {wrap : δ → ε} {x : Outcome δ α} {a : α} :
    mapFault wrap x = .ok a ↔ x = .ok a := by
  rcases x with (e | -) | b <;> simp [mapFault, reject]

variable {w : Nat}

def saturatingAdd (a b : BitVec w) : BitVec w :=
  if a.toNat + b.toNat < 2 ^ w then a + b else BitVec.allOnes w

theorem saturatingAddToNat (a b : BitVec w) :
    (saturatingAdd a b).toNat = min (a.toNat + b.toNat) (2 ^ w - 1) := by
  rw [saturatingAdd]
  split
  · rename_i fits
    rw [toNat_add, Nat.mod_eq_of_lt fits]
    omega
  · rw [toNat_allOnes]
    omega

theorem saturatingAddLe (a b : BitVec w) : (saturatingAdd a b).toNat ≤ a.toNat + b.toNat := by
  rw [saturatingAddToNat]
  omega

variable {a b : BitVec w}

theorem saturatingAddFits (fits : a.toNat + b.toNat < 2 ^ w) :
    (saturatingAdd a b).toNat = a.toNat + b.toNat := by
  rw [saturatingAddToNat]
  omega

def checkedAdd (a b : BitVec w) : Option (BitVec w) :=
  if a.toNat + b.toNat < 2 ^ w then some (a + b) else none

variable {c : BitVec w}

theorem checkedAddToNat (ok : checkedAdd a b = some c) : c.toNat = a.toNat + b.toNat := by
  rw [checkedAdd] at ok
  split at ok <;> try contradiction
  rename_i fits
  cases ok
  rw [toNat_add, Nat.mod_eq_of_lt fits]

def checkedSub (a b : BitVec w) : Option (BitVec w) :=
  if b ≤ a then some (a - b) else none

theorem subToNat (le : b ≤ a) : (a - b).toNat + b.toNat = a.toNat := by
  have values : b.toNat ≤ a.toNat := le
  rw [toNat_sub_of_le le]
  omega

theorem checkedSubToNat (ok : checkedSub a b = some c) : c.toNat + b.toNat = a.toNat := by
  rw [checkedSub] at ok
  split at ok <;> try contradiction
  rename_i le
  cases ok
  exact subToNat le

def saturatingSub (a b : BitVec w) : BitVec w := if b ≤ a then a - b else 0

theorem saturatingSubToNat (a b : BitVec w) : (saturatingSub a b).toNat = a.toNat - b.toNat := by
  rw [saturatingSub]
  split
  · rename_i le
    have difference := subToNat le
    omega
  · rename_i less
    have values : ¬ b.toNat ≤ a.toNat := less
    have zero : (0 : BitVec w).toNat = 0 := toNat_zero
    omega

def saturatingMul (a b : BitVec w) : BitVec w :=
  if a.toNat * b.toNat < 2 ^ w then a * b else BitVec.allOnes w

theorem saturatingMulToNat (a b : BitVec w) :
    (saturatingMul a b).toNat = min (a.toNat * b.toNat) (2 ^ w - 1) := by
  rw [saturatingMul]
  split
  · rename_i fits
    rw [toNat_mul, Nat.mod_eq_of_lt fits]
    omega
  · rw [toNat_allOnes]
    omega

def plainAdd {ε : Type} (build : Build) (a b : BitVec w) : Outcome ε (BitVec w) :=
  if a.toNat + b.toNat < 2 ^ w then .ok (a + b)
  else match build with
    | .debug => .error .panic
    | .release => .ok (a + b)

variable {build : Build}

theorem plainAddToNat (ok : (plainAdd build a b : Outcome ε (BitVec w)) = .ok c) :
    c.toNat = (a.toNat + b.toNat) % 2 ^ w ∧ (build = .debug → a.toNat + b.toNat < 2 ^ w) := by
  unfold plainAdd at ok
  split at ok
  · rename_i fits
    cases ok
    exact ⟨toNat_add a b, fun _ => fits⟩
  · cases build with
    | debug => cases ok
    | release =>
      cases ok
      exact ⟨toNat_add a b, fun wrong => by cases wrong⟩

theorem plainAddFits (fits : a.toNat + b.toNat < 2 ^ w) :
    ∃ c, (plainAdd build a b : Outcome ε (BitVec w)) = .ok c ∧ c.toNat = a.toNat + b.toNat := by
  refine ⟨a + b, if_pos fits, ?_⟩
  rw [toNat_add, Nat.mod_eq_of_lt fits]

theorem sumFilterMap {β : Type} (f : α → Option β) (weight : β → ℕ) (xs : List α) :
    ((xs.filterMap f).map weight).sum = (xs.map fun x => ((f x).map weight).getD 0).sum := by
  induction xs with
  | nil => rfl
  | cons x xs ih =>
    rw [filterMap_cons, map_cons, sum_cons, ← ih]
    cases f x with
    | none => simp
    | some y => simp

theorem foldPlainAdd (build : Build) (values : List (BitVec w)) (start : BitVec w) :
    (values.foldlM (plainAdd build) start : Outcome ε (BitVec w)) =
      if start.toNat + (values.map BitVec.toNat).sum < 2 ^ w ∨ build = .release then
        .ok (BitVec.ofNat w (start.toNat + (values.map BitVec.toNat).sum))
      else .error .panic := by
  induction values generalizing start with
  | nil =>
    rw [map_nil, sum_nil, Nat.add_zero, if_pos (.inl start.isLt), ofNat_toNat, setWidth_eq]
    rfl
  | cons value values ih =>
    rw [foldlM_cons, map_cons, sum_cons, ← Nat.add_assoc]
    unfold plainAdd
    by_cases fits : start.toNat + value.toNat < 2 ^ w
    · rw [if_pos fits]
      refine (ih (start + value)).trans ?_
      rw [toNat_add, Nat.mod_eq_of_lt fits]
    · rw [if_neg fits]
      cases build with
      | debug =>
        rw [if_neg]
        · rfl
        · rintro (small | other)
          · omega
          · cases other
      | release =>
        refine (ih (start + value)).trans ?_
        rw [if_pos (.inr rfl), if_pos (.inr rfl), toNat_add]
        congr 1
        exact eq_of_toNat_eq (by simp only [toNat_ofNat, Nat.mod_add_mod])

theorem foldSaturatingToNat (values : List (BitVec w)) (start : BitVec w) :
    (values.foldl saturatingAdd start).toNat =
      min (start.toNat + (values.map BitVec.toNat).sum) (2 ^ w - 1) := by
  induction values generalizing start with
  | nil =>
    simp only [foldl_nil, map_nil, sum_nil, Nat.add_zero]
    omega
  | cons value values ih =>
    rw [foldl_cons, ih, saturatingAddToNat, map_cons, sum_cons]
    omega

def checkedSigned (w : Nat) (x : Int) : Option Int :=
  if -((2 ^ (w - 1) : Nat) : Int) ≤ x ∧ x < (2 ^ (w - 1) : Nat) then some x else none

theorem checkedSignedSome {w : Nat} {x y : Int} (ok : checkedSigned w x = some y) : y = x := by
  rw [checkedSigned] at ok
  split at ok <;> try contradiction
  cases ok
  rfl

def SignedRange (w : Nat) (x : Int) : Prop := -2 ^ (w - 1) ≤ x ∧ x < 2 ^ (w - 1)

instance (w : Nat) (x : Int) : Decidable (SignedRange w x) :=
  inferInstanceAs (Decidable (_ ∧ _))

theorem checkedSignedRange {w : Nat} {x y : Int} (ok : checkedSigned w x = some y) :
    SignedRange w y := by
  rw [checkedSigned] at ok
  split at ok <;> try contradiction
  rename_i fits
  cases ok
  exact_mod_cast fits

def plainAddSigned {ε : Type} (build : Build) (a b : BitVec w) : Outcome ε (BitVec w) :=
  if a.saddOverflow b then
    match build with
    | .debug => .error .panic
    | .release => .ok (a + b)
  else .ok (a + b)

theorem plainAddSignedOk
    (ok : (plainAddSigned build a b : Outcome ε (BitVec w)) = .ok c) : c = a + b := by
  unfold plainAddSigned at ok
  split at ok
  · cases build with
    | debug => cases ok
    | release =>
      cases ok
      rfl
  · cases ok
    rfl

theorem plainAddSignedFits (build : Build) (fits : SignedRange w (a.toInt + b.toInt)) :
    (plainAddSigned build a b : Outcome ε (BitVec w)) = .ok (a + b) ∧
      (a + b).toInt = a.toInt + b.toInt := by
  have below : ¬ a.saddOverflow b := by
    obtain ⟨low, high⟩ := fits
    simp only [BitVec.saddOverflow, Bool.or_eq_true, decide_eq_true_eq]
    omega
  exact ⟨if_neg below, toInt_add_of_not_saddOverflow below⟩

end Words

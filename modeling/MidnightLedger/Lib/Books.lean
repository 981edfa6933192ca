import MidnightLedger.Lib.Maps
import MidnightLedger.Lib.Simulation
import Mathlib.Data.BitVec

/-! Postings to accounts: the sums of the sides over a list of postings determine where the accounts
end up, as long as every single posting is entered exactly. -/
namespace Books
open Maps List

structure Posting (K σ : Type) (w : Nat) where
  account : K
  side : σ
  value : BitVec w
  deriving DecidableEq, Repr

variable {K σ ε α : Type} {w : Nat} [DecidableEq K] [DecidableEq σ]

def Posting.weigh (side : σ) (account : K) (posting : Posting K σ w) : Nat :=
  if posting.account = account ∧ posting.side = side then posting.value.toNat else 0

def flow (side : σ) (account : K) (postings : List (Posting K σ w)) : Nat :=
  (postings.map (Posting.weigh side account)).sum

variable {postings : List (Posting K σ w)}

section

variable (side : σ) (account : K)

@[simp] theorem flowNil : flow side account ([] : List (Posting K σ w)) = 0 := by
  rw [flow, map_nil, sum_nil]

@[simp] theorem flowCons (posting : Posting K σ w) (postings : List (Posting K σ w)) :
    flow side account (posting :: postings) =
      posting.weigh side account + flow side account postings := by
  rw [flow, map_cons, sum_cons, ← flow]

@[simp] theorem flowAppend (first second : List (Posting K σ w)) :
    flow side account (first ++ second) = flow side account first + flow side account second := by
  rw [flow, map_append, sum_append, ← flow, ← flow]

theorem flowElsewhere (elsewhere : ∀ posting ∈ postings, posting.account ≠ account) :
    flow side account postings = 0 := by
  refine sum_eq_zero fun amount mem => ?_
  obtain ⟨posting, inside, rfl⟩ := mem_map.mp mem
  exact if_neg fun here => elsewhere posting inside here.1

theorem flowFlatMap (postings : α → List (Posting K σ w)) (xs : List α) :
    flow side account (xs.flatMap postings) =
      (xs.map fun x => flow side account (postings x)).sum := by
  induction xs with
  | nil => rfl
  | cons x xs ih => rw [flatMap_cons, flowAppend, ih, map_cons, sum_cons]

theorem flowMap (common : σ) (key : α → K) (value : α → BitVec w) (xs : List α) :
    flow side account (xs.map fun x => (⟨key x, common, value x⟩ : Posting K σ w)) =
      if common = side then (xs.map fun x => if key x = account then (value x).toNat else 0).sum
      else 0 := by
  rw [flow, map_map]
  split
  · rename_i same
    simp [Function.comp_def, Posting.weigh, same]
  · rename_i other
    simp [Function.comp_def, Posting.weigh, other]

end

def standing (book : Map K Int) (account : K) : Int := (book.lookup account).getD 0

theorem standingInsert (book : Map K Int) (account other : K) (amount : Int) :
    standing (book.insert account amount) other =
      if other = account then amount else standing book other := by
  rw [standing]
  split
  · rename_i same
    rw [same, AList.lookup_insert]
    rfl
  · rename_i different
    rw [AList.lookup_insert_ne different]
    rfl

theorem runPostings {enter : Map K Int → Posting K σ w → Except ε (Map K Int)} {up down : σ}
    (account : K)
    (exactly : ∀ {book posting next}, enter book posting = .ok next →
      standing next account + posting.weigh down account =
        standing book account + posting.weigh up account)
    {book final : Map K Int}
    (ok : Simulation.run enter book postings = .ok final) :
    standing final account + flow down account postings =
      standing book account + flow up account postings := by
  induction postings generalizing book with
  | nil =>
    rw [Simulation.runNil.mp ok]
    rfl
  | cons posting postings ih =>
    obtain ⟨next, entered, rest⟩ := Simulation.runCons.mp ok
    have first := exactly entered
    have others := ih rest
    rw [flowCons, flowCons, Nat.cast_add, Nat.cast_add]
    omega

end Books

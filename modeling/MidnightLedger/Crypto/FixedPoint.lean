import Mathlib.Algebra.Order.Floor.Div
import MidnightLedger.Lib.Words

/-! Fixed-point numbers and the costs that are normalized with them (base-crypto/src/cost_model.rs):
an `i128` in units of 2^-64. -/
namespace MidnightLedger
open Words

structure FixedPoint where
  raw : BitVec 128
  deriving DecidableEq, Repr

namespace FixedPoint

/- `as i128`. -/
def wrap (x : Int) : FixedPoint := ⟨.ofInt 128 x⟩

def value (x : FixedPoint) : Int := x.raw.toInt

def fromU64Div (a b : BitVec 64) : FixedPoint :=
  if b.toNat = 0 then wrap (2 ^ 127 - 1) else wrap (a.toNat * 2 ^ 64 ⌈/⌉ b.toNat : Nat)

/- The stages of 256 bits hold every quotient of 128-bit operands. -/
def fromU128Div (a b : Nat) : FixedPoint :=
  if b = 0 then wrap (2 ^ 127 - 1)
  else
    let c : Nat := (if a * 2 ^ 64 % b = 0 then 0 else 1) + a * 2 ^ 64 / b
    if 2 ^ 128 - 1 < c then wrap (2 ^ 127 - 1) else wrap c

def mul (x y : FixedPoint) : FixedPoint := wrap (min (2 ^ 127 - 1) (x.value * y.value / 2 ^ 64))

/- The product with a sign: `i128::MIN * -1` stops a debug build and wraps in a release build. -/
def timesSign (build : Build) (x : FixedPoint) (sign : Int) : Option FixedPoint :=
  if build = .debug ∧ x.value * sign = 2 ^ 127 then none else some (wrap (x.value * sign))

def div (build : Build) (x y : FixedPoint) : Option FixedPoint :=
  if y.value = 0 then some (wrap (2 ^ 127 - 1))
  else do
    let c ← timesSign build (fromU128Div x.value.natAbs y.value.natAbs) x.value.sign
    timesSign build c y.value.sign

/- The exact results, in units of 2^-64, are cut to the range of `i128`. -/
def clamp (x : Int) : Int := max (-2 ^ 127) (min x (2 ^ 127 - 1))

def quotient (a b : Nat) : Int := (a * 2 ^ 64 ⌈/⌉ b : Nat)

theorem wrapValue (x : Int) : (wrap x).value =
    if x % 2 ^ 128 < 2 ^ 127 then x % 2 ^ 128 else x % 2 ^ 128 - 2 ^ 128 := by
  rw [value, wrap, BitVec.toInt_ofInt, Int.bmod_def]
  rfl

/- How a quotient of 128-bit operands is stored. -/
def Stored (q x : Int) : Prop :=
  0 ≤ q ∧ (q < 2 ^ 127 ∧ x = q ∨ 2 ^ 127 ≤ q ∧ q < 2 ^ 128 ∧ x = q - 2 ^ 128 ∨
    2 ^ 128 ≤ q ∧ x = 2 ^ 127 - 1)

theorem fromU64DivStored (a : BitVec 64) {b : BitVec 64} (positive : 0 < b.toNat) :
    Stored (quotient a.toNat b.toNat) (fromU64Div a b).value ∧
      quotient a.toNat b.toNat < 2 ^ 128 := by
  have bound : a.toNat * 2 ^ 64 ⌈/⌉ b.toNat ≤ a.toNat * 2 ^ 64 :=
    (ceilDiv_le_iff_le_mul positive).mpr (Nat.le_mul_of_pos_left _ positive)
  rw [Stored, fromU64Div, if_neg (by omega), quotient, wrapValue]
  omega

theorem fromU128DivStored (a : Nat) {b : Nat} (positive : 0 < b) :
    Stored (quotient a b) (fromU128Div a b).value := by
  have rounded : (if a * 2 ^ 64 % b = 0 then 0 else 1) + a * 2 ^ 64 / b = a * 2 ^ 64 ⌈/⌉ b := by
    rw [Nat.ceilDiv_eq_add_pred_div, Nat.add_sub_assoc positive, Nat.add_div positive,
      Nat.div_eq_of_lt (show b - 1 < b by omega), Nat.mod_eq_of_lt (show b - 1 < b by omega)]
    split <;> split <;> omega
  rw [Stored, fromU128Div, if_neg (by omega), quotient]
  simp only [rounded]
  split <;> rw [wrapValue] <;> omega

theorem signsExact (build : Build) {x : FixedPoint} {q s t : Int} (stored : Stored q x.value)
    (first : s = 1 ∨ s = -1 ∨ s = 0 ∧ q = 0) (second : t = 1 ∨ t = -1) :
    ((timesSign build x s).bind (timesSign build · t)).map value = some (clamp (s * t * q)) ↔
      q < 2 ^ 127 ∨ 2 ^ 128 ≤ q ∧ 0 < s * t ∨ q = 2 ^ 127 ∧ s * t < 0 ∧ build = .release := by
  have inner := wrapValue (x.value * s)
  have outer := wrapValue ((wrap (x.value * s)).value * t)
  rw [Stored] at stored
  rw [timesSign, clamp]
  split
  · rename_i stopped
    obtain ⟨rfl, product⟩ := stopped
    simp only [Option.bind_none, Option.map_none, reduceCtorEq, and_false, or_false, false_iff]
    rcases first with rfl | rfl | ⟨rfl, rfl⟩ <;> rcases second with rfl | rfl <;> omega
  · rename_i passed
    rw [Option.bind_some, timesSign]
    split
    · rename_i stopped
      obtain ⟨rfl, product⟩ := stopped
      simp only [Option.map_none, reduceCtorEq, and_false, or_false, false_iff]
      rcases first with rfl | rfl | ⟨rfl, rfl⟩ <;> rcases second with rfl | rfl <;> omega
    · rename_i passedAgain
      rw [Option.map_some, Option.some_inj]
      cases build with
      | debug =>
        simp only [true_and, reduceCtorEq, and_false, or_false] at passed passedAgain ⊢
        rcases first with rfl | rfl | ⟨rfl, rfl⟩ <;> rcases second with rfl | rfl <;> omega
      | release =>
        simp only [and_true]
        rcases first with rfl | rfl | ⟨rfl, rfl⟩ <;> rcases second with rfl | rfl <;> omega

/- A product has no lower clamp, and a quotient is clamped where it leaves `u128`, not `i128`. -/
theorem arithmeticExact (build : Build) (x y : FixedPoint) (a b : BitVec 64) (c d : Nat) :
    ((mul x y).value = clamp (x.value * y.value / 2 ^ 64) ↔
      -2 ^ 127 ≤ x.value * y.value / 2 ^ 64 ∨ x.value * y.value / 2 ^ 64 % 2 ^ 128 = 2 ^ 127) ∧
    (y.value ≠ 0 → ((div build x y).map value =
        some (clamp (x.value.sign * y.value.sign * quotient x.value.natAbs y.value.natAbs)) ↔
      quotient x.value.natAbs y.value.natAbs < 2 ^ 127 ∨
      2 ^ 128 ≤ quotient x.value.natAbs y.value.natAbs ∧ 0 < x.value.sign * y.value.sign ∨
      quotient x.value.natAbs y.value.natAbs = 2 ^ 127 ∧ x.value.sign * y.value.sign < 0 ∧
        build = .release)) ∧
    (0 < b.toNat → ((fromU64Div a b).value = clamp (quotient a.toNat b.toNat) ↔
      quotient a.toNat b.toNat < 2 ^ 127)) ∧
    (0 < d → ((fromU128Div c d).value = clamp (quotient c d) ↔
      quotient c d < 2 ^ 127 ∨ 2 ^ 128 ≤ quotient c d)) := by
  refine ⟨?_, fun nonzero => ?_, fun positive => ?_, fun positive => ?_⟩
  · rw [mul, wrapValue, clamp]
    omega
  · rw [div, if_neg nonzero]
    refine signsExact build (fromU128DivStored _ (Int.natAbs_pos.mpr nonzero)) ?_ ?_
    · obtain below | zero | above := lt_trichotomy x.value 0
      · exact .inr (.inl (Int.sign_eq_neg_one_of_neg below))
      · exact .inr (.inr (by simp [zero, quotient]))
      · exact .inl (Int.sign_eq_one_of_pos above)
    · obtain below | above := lt_or_gt_of_ne nonzero
      · exact .inr (Int.sign_eq_neg_one_of_neg below)
      · exact .inl (Int.sign_eq_one_of_pos above)
  · have stored := fromU64DivStored a positive
    rw [Stored] at stored
    rw [clamp]
    omega
  · have stored := fromU128DivStored c positive
    rw [Stored] at stored
    rw [clamp]
    omega

theorem halfOfThree : (div .debug (wrap (3 * 2 ^ 64)) (wrap (-2 ^ 65))).map value =
    some (clamp (-3 * 2 ^ 63)) :=
  ((arithmeticExact .debug (wrap (3 * 2 ^ 64)) (wrap (-2 ^ 65)) 1 1 1 1).2.1 (by decide)).mpr
    (.inl (by decide))

theorem smallProductWraps : (mul (wrap (-2 ^ 127)) (wrap (3 * 2 ^ 63))).value ≠
    clamp ((wrap (-2 ^ 127)).value * (wrap (3 * 2 ^ 63)).value / 2 ^ 64) := by decide

end FixedPoint

open FixedPoint

structure SyntheticCost where
  readTime : BitVec 64
  computeTime : BitVec 64
  blockUsage : BitVec 64
  bytesWritten : BitVec 64
  bytesChurned : BitVec 64

structure NormalizedCost where
  readTime : FixedPoint
  computeTime : FixedPoint
  blockUsage : FixedPoint
  bytesWritten : FixedPoint
  bytesChurned : FixedPoint

def NormalizedCost.vals (cost : NormalizedCost) : List FixedPoint :=
  [cost.readTime, cost.computeTime, cost.blockUsage, cost.bytesWritten, cost.bytesChurned]

namespace SyntheticCost

variable {cost limits : SyntheticCost}

def normalize (cost limits : SyntheticCost) : Option NormalizedCost :=
  let res : NormalizedCost :=
    { readTime := fromU64Div cost.readTime limits.readTime
      computeTime := fromU64Div cost.computeTime limits.computeTime
      blockUsage := fromU64Div cost.blockUsage limits.blockUsage
      bytesWritten := fromU64Div cost.bytesWritten limits.bytesWritten
      bytesChurned := fromU64Div cost.bytesChurned limits.bytesChurned }
  if res.vals.any fun val => 2 ^ 64 < val.value then none else some res

/- Each dimension with its limit. -/
def dimensions (cost limits : SyntheticCost) : List (BitVec 64 × BitVec 64) :=
  [(cost.readTime, limits.readTime), (cost.computeTime, limits.computeTime),
    (cost.blockUsage, limits.blockUsage), (cost.bytesWritten, limits.bytesWritten),
    (cost.bytesChurned, limits.bytesChurned)]

/- In [0, 1], at least the exact ratio and less than 2^-64 above it. -/
def Ratio (dim : BitVec 64 × BitVec 64) (val : FixedPoint) : Prop :=
  0 ≤ val.value ∧ val.value ≤ 2 ^ 64 ∧ dim.1.toNat * 2 ^ 64 ≤ dim.2.toNat * val.value ∧
    dim.2.toNat * val.value < dim.1.toNat * 2 ^ 64 + dim.2.toNat

/- A dimension is over its limit, by a ratio that is a fixed-point number. -/
def Caught (cost limits : SyntheticCost) : Prop :=
  ∃ dim ∈ dimensions cost limits, dim.2 < dim.1 ∧ quotient dim.1.toNat dim.2.toNat < 2 ^ 127

def Normalizes (cost limits : SyntheticCost) : Prop :=
  ((normalize cost limits).isSome ↔ ∀ dim ∈ dimensions cost limits, dim.1 ≤ dim.2) ∧
    ∀ res, normalize cost limits = some res → (dimensions cost limits).Forall₂ Ratio res.vals

section

variable {a b : BitVec 64} (positive : 0 < b.toNat)
include positive

theorem quotientWithin : quotient a.toNat b.toNat ≤ 2 ^ 64 ↔ a ≤ b := by
  have within : a.toNat * 2 ^ 64 ⌈/⌉ b.toNat ≤ 2 ^ 64 ↔ a.toNat * 2 ^ 64 ≤ b.toNat * 2 ^ 64 :=
    ceilDiv_le_iff_le_mul positive
  rw [BitVec.le_def, quotient]
  omega

theorem overLimit :
    2 ^ 64 < (fromU64Div a b).value ↔ b < a ∧ quotient a.toNat b.toNat < 2 ^ 127 := by
  have stored := fromU64DivStored a positive
  rw [Stored] at stored
  rw [← BitVec.not_le, ← quotientWithin positive]
  omega

theorem ratioWithin (within : a ≤ b) : Ratio (a, b) (fromU64Div a b) := by
  have small := (quotientWithin positive).mpr within
  obtain ⟨⟨least, ⟨-, same⟩ | huge⟩, -⟩ := fromU64DivStored a positive
  · have above : a.toNat * 2 ^ 64 ≤ b.toNat * (a.toNat * 2 ^ 64 ⌈/⌉ b.toNat) :=
      le_smul_ceilDiv positive
    have below : b.toNat * (a.toNat * 2 ^ 64 ⌈/⌉ b.toNat) ≤ a.toNat * 2 ^ 64 + b.toNat - 1 :=
      Nat.mul_div_le _ _
    simp only [Ratio, same]
    rw [quotient] at least small ⊢
    omega
  · omega

end

theorem normalizeNone (positive : ∀ dim ∈ dimensions cost limits, 0 < dim.2.toNat) :
    normalize cost limits = none ↔ Caught cost limits := by
  have caught : (((dimensions cost limits).map fun dim => fromU64Div dim.1 dim.2).any
      fun val => 2 ^ 64 < val.value) = true ↔ Caught cost limits := by
    simp only [List.any_map, List.any_eq_true, Function.comp_apply, decide_eq_true_eq]
    exact exists_congr fun dim => and_congr_right fun mem => overLimit (positive dim mem)
  rw [← caught, normalize]
  simp only [ite_eq_left_iff, reduceCtorEq, imp_false, not_not]
  rfl

theorem normalizeVals {res : NormalizedCost} (returned : normalize cost limits = some res) :
    res.vals = (dimensions cost limits).map fun dim => fromU64Div dim.1 dim.2 := by
  rw [normalize] at returned
  split at returned <;> cases returned
  rfl

/- A ratio of 2^63 or more wraps to a negative number, which passes for one within the limit. -/
theorem normalizesUnless (positive : ∀ dim ∈ dimensions cost limits, 0 < dim.2.toNat) :
    Normalizes cost limits ↔
      (∀ dim ∈ dimensions cost limits, dim.1 ≤ dim.2) ∨ Caught cost limits := by
  rw [Normalizes, ← Option.ne_none_iff_isSome, Ne, normalizeNone positive]
  constructor
  · rintro ⟨returned, -⟩
    by_cases caught : Caught cost limits
    · exact .inr caught
    · exact .inl (returned.mp caught)
  · intro known
    refine ⟨⟨known.resolve_right, ?_⟩, fun res returned => ?_⟩
    · rintro within ⟨dim, mem, exceeds, -⟩
      exact absurd (within dim mem) (BitVec.not_le.mpr exceeds)
    · have free : ¬ Caught cost limits := by
        rw [← normalizeNone positive, returned]
        exact nofun
      rw [normalizeVals returned, List.forall₂_map_right_iff, List.forall₂_same]
      exact fun dim mem => ratioWithin (positive dim mem) (known.resolve_right free dim mem)

theorem halfFullNormalizes : Normalizes ⟨1, 2, 3, 4, 5⟩ ⟨2, 4, 6, 8, 10⟩ :=
  (normalizesUnless (by simp [dimensions])).mpr (.inl (by simp [dimensions]))

theorem hugeCostAccepted : ¬ Normalizes ⟨0x8000000000000000, 0, 0, 0, 0⟩ ⟨1, 1, 1, 1, 1⟩ := by
  intro ⟨returned, _⟩
  exact absurd (returned.mp (by decide)) (by simp [dimensions])

end SyntheticCost
end MidnightLedger

import MidnightLedger.Lib.Bits
import MidnightLedger.Fab.Repr

/-! Circuit gadgets by their documented function on assigned values, with the bit decompositions of
field elements. A gadget returns an error when the assignment violates what it asserts. The circuits
of `ReconstituteField` and `DivModPowerOfTwo` only bound each part on its own, so an assignment may
wrap around the field; their constraints are stated over arbitrary cells. Then the in-circuit
decoding of field elements to the bytes of an aligned value (`fab_decode_to_bytes` of zkir and
zkir-v3) against the native parser: in version 3 every full chunk of an atom reads the same
element. -/
namespace MidnightLedger.Zkir
open ByteString BitString Loops Option Nat

inductive Fault where
  | returned (message : String)
  | unsatisfied (constraint : String)
  | panic (message : String)
  deriving DecidableEq, Repr

abbrev Native := Except Fault
abbrev Circuit := Except Fault

def require (constraint : String) (holds : Bool) : Circuit Unit :=
  if holds then .ok () else .error (.unsatisfied constraint)

/- An overflow panics or wraps, depending on the build profile. -/
inductive Arithmetic where
  | checked
  | wrapping
  deriving DecidableEq, Repr

def Arithmetic.add (mode : Arithmetic) (width a b : Nat) : Except Fault Nat :=
  if a + b < 2 ^ width then .ok (a + b)
  else match mode with
    | .checked => .error (.panic "attempt to add with overflow")
    | .wrapping => .ok ((a + b) % 2 ^ width)

def Arithmetic.sub (mode : Arithmetic) (width a b : Nat) : Except Fault Nat :=
  if b ≤ a then .ok (a - b)
  else match mode with
    | .checked => .error (.panic "attempt to subtract with overflow")
    | .wrapping => .ok (2 ^ width + a - b)

def index {α : Type} (xs : List α) (i : Nat) : Circuit α :=
  match xs[i]? with
  | some x => .ok x
  | none => .error (.panic "index out of bounds")

def assignedToLeBytes (x : Fr) : Option Nat → Circuit Bytes
  | none => .ok x.asLeBytes
  | some k => do
    require "assigned_to_le_bytes" (x.val < 256 ^ k)
    .ok (leBytes k x.val)

def boolFr (b : Bool) : Fr := if b then 1 else 0

def toBit (x : Fr) : Circuit Bool := do
  require "convert to bit" (x = 0 ∨ x = 1)
  .ok (x = 1)

def assertNonZero (x : Fr) : Circuit Unit := require "assert_non_zero" (x ≠ 0)

def assertEqual {α : Type} [DecidableEq α] (x y : α) : Circuit Unit :=
  require "assert_equal" (x = y)

def lowerThan (x y : Fr) (n : Nat) : Circuit Bool := do
  require "lower_than" (x.val < 2 ^ n ∧ y.val < 2 ^ n)
  .ok (x.val < y.val)

/- The parts of the standard library a circuit is built with. Using a part that
was not enabled panics. -/
structure Chips where
  jubjub : Bool
  poseidon : Bool
  sha2 : Bool
  keccak : Bool
  secp256k1 : Bool
  deriving DecidableEq, Repr

def chip (name : String) (enabled : Bool) : Circuit Unit :=
  if enabled then .ok () else .error (.panic name)

@[simp] theorem requireOk {constraint : String} {holds : Bool} {done : Unit} :
    require constraint holds = .ok done ↔ holds = true := by
  unfold require
  split <;> simp_all

theorem assignedToLeBytesOk {x : Fr} {k : Nat} (small : x.val < 256 ^ k) :
    assignedToLeBytes x (some k) = .ok (leBytes k x.val) := by
  simp [assignedToLeBytes, require, small, bind, Except.bind]

theorem indexOk {α : Type} {xs : List α} {i : Nat} (inside : i < xs.length) :
    index xs i = .ok xs[i] := by
  simp [index, List.getElem?_eq_getElem inside]

def toBits (f : Fr) : List Bool := f.asLeBytes.flatMap (fun byte => natBits 8 byte.toNat)

def fromBits (bits : List Bool) : Fr :=
  bits.foldr (fun bit acc => acc * 2 + (if bit then 1 else 0)) 0

theorem ofNatAdd (a b : Nat) : Fr.ofNat (a + b) = Fr.ofNat a + Fr.ofNat b := by
  exact Fin.ext (add_mod ..)

theorem ofNatMul (a b : Nat) : Fr.ofNat (a * b) = Fr.ofNat a * Fr.ofNat b := by
  exact Fin.ext (mul_mod ..)

theorem ofNatSelf (f : Fr) : Fr.ofNat f.val = f := Fin.ext (mod_eq_of_lt f.isLt)

theorem fromBitsEq (bits : List Bool) : fromBits bits = Fr.ofNat (bitsNat bits) := by
  induction bits with
  | nil => rfl
  | cons bit bits ih =>
    have head : (if bit then 1 else 0 : Fr) = Fr.ofNat bit.toNat := by cases bit <;> rfl
    rw [bitsNat, add_comm, mul_comm, ofNatAdd, ofNatMul, ← ih, ← head]
    rfl

theorem byteBits (n : Nat) : natBits 8 (UInt8.ofNat n).toNat = natBits 8 n := by
  have value : (UInt8.ofNat n).toNat = bitsNat (natBits 8 n) := by
    rw [bitsNatNatBits]
    exact UInt8.toNat_ofNat ..
  have width : (natBits 8 n).length = 8 := natBitsLength ..
  have back := natBitsBitsNat (natBits 8 n)
  rwa [width, ← value] at back

theorem leBytesBits (width n : Nat) :
    (leBytes width n).flatMap (fun byte => natBits 8 byte.toNat) = natBits (8 * width) n := by
  induction width generalizing n with
  | zero => rfl
  | succ width ih =>
    rw [leBytes, List.flatMap_cons, ih, byteBits, show 8 * (width + 1) = 8 + 8 * width by omega]
    exact natBitsJoin 8 (8 * width) n

theorem toBitsEq (f : Fr) : toBits f = natBits 256 f.val := leBytesBits frBytes f.val

def idxBits (val : Fr) (constrain : Option Nat) : Native (List Bool) :=
  match constrain with
  | none => .ok (toBits val)
  | some n =>
    if n ≥ frBits then .error (.returned "Excessive bit bound")
    else if ((toBits val).drop n).any (fun b => b) then .error (.returned "Bit bound failed")
    else .ok ((toBits val).take n)

theorem idxBitsSome {val : Fr} {n : Nat} {bits : List Bool} :
    idxBits val (some n) = .ok bits ↔ n < frBits ∧ val.val < 2 ^ n ∧ bits = natBits n val.val := by
  have whole : val.val < 2 ^ 256 := val.isLt.trans (by decide)
  by_cases wide : n ≥ frBits
  · simp [idxBits, wide]
  have short : n ≤ 256 := by unfold frBits at wide; omega
  have tail : ((toBits val).drop n).any (fun b => b) = false ↔ val.val < 2 ^ n := by
    rw [toBitsEq, natBitsDrop, natBitsAnyFalse]
    have reduced : val.val / 2 ^ n < 2 ^ (256 - n) := by
      rw [Nat.div_lt_iff_lt_mul (by positivity), ← Nat.pow_add, Nat.sub_add_cancel short]
      exact whole
    rw [Nat.mod_eq_of_lt reduced, Nat.div_eq_zero_iff]
    simp
  simp only [idxBits, wide, if_false]
  cases any : ((toBits val).drop n).any (fun b => b) with
  | true =>
    have large : ¬ val.val < 2 ^ n := by simp [← tail, any]
    simp [large]
  | false =>
    have small := tail.mp any
    rw [toBitsEq, natBitsTake short]
    simp [small, lt_of_not_ge wide, eq_comm]

/- `assigned_to_le_bits`: the bits of the canonical representative, with a range
assertion when their number is given. -/
def assignedToLeBits (x : Fr) : Option Nat → Circuit (List Bool)
  | none => .ok (natBits frBits x.val)
  | some n => do
    require "assigned_to_le_bits" (x.val < 2 ^ n)
    .ok (natBits n x.val)

def assertLowerThanFixed (x : Fr) (bound : Nat) : Circuit Unit :=
  require "assert_lower_than_fixed" (x.val < bound)

/- What the same gadget leaves to the prover when canonicity is not enforced: any
bits of the right number that sum up to the element in the field. -/
def leBitsCells (x : Fr) (nbBits : Nat) (enforceCanonical : Bool) (bits : List Bool) : Bool :=
  bits.length == nbBits && fromBits bits == x &&
    (!enforceCanonical || bitsNat bits < fieldModulus)

inductive IrMinorVersion where
  | v0
  | v1
  | v2
  deriving DecidableEq, Repr

def reconstituteNative (divisor modulus : Fr) (bits : Nat) : Native Fr :=
  if bits > frBytesStored * 8 then .error (.returned "Excessive bit count")
  else do
    let maxBits ← idxBits (-1) none
    let modulusBits ← idxBits modulus (some bits)
    let divisorBits ← idxBits divisor (some (frBits - bits))
    if (compareBits (modulusBits ++ divisorBits) (maxBits.take frBits)).isGT then
      .error (.returned "Reconstituted element overflows field")
    else
      let power := (List.range bits).foldl (fun acc _ => 2 * acc) 1
      .ok (power * divisor + modulus)

/- The cells of one instruction. The bit cells exist in version 0 only. -/
structure ReconstituteCells where
  divisor : Fr
  modulus : Fr
  output : Fr
  divisorBits : List Bool
  modulusBits : List Bool
  deriving DecidableEq, Repr

def reconstituteRanges (mode : Arithmetic) (bits : UInt32) (c : ReconstituteCells) :
    Circuit Unit := do
  let high ← mode.sub 32 frBits bits.toNat
  assertLowerThanFixed c.divisor (2 ^ high)
  assertLowerThanFixed c.modulus (2 ^ bits.toNat)
  require "linear_combination"
    (c.output == 1 * c.modulus + Fr.ofNat (2 ^ bits.toNat) * c.divisor + 0)

def V2.reconstituteField (version : IrMinorVersion) (mode : Arithmetic) (bits : UInt32)
    (c : ReconstituteCells) : Circuit Unit :=
  match version with
  | .v0 => do
    let high ← mode.sub 64 frBits bits.toNat
    require "assigned_to_le_bits"
      (leBitsCells c.divisor high (bits.toNat ≥ frBits) c.divisorBits)
    require "assigned_to_le_bits" (leBitsCells c.modulus bits.toNat true c.modulusBits)
    require "assigned_from_le_bits" (c.output == fromBits (c.modulusBits ++ c.divisorBits))
  | .v1 | .v2 => reconstituteRanges mode bits c

def V3.reconstituteField (mode : Arithmetic) (bits : UInt32) (c : ReconstituteCells) :
    Circuit Unit :=
  reconstituteRanges mode bits c

/- Both outputs, divisor first; the slices of the bits panic past the end. -/
def divModPowerOfTwo (var : Fr) (bits : UInt32) : Circuit (Fr × Fr) := do
  let varBits ← assignedToLeBits var none
  if varBits.length < bits.toNat then .error (.panic "range end index out of range for slice")
  else .ok (fromBits (varBits.drop bits.toNat), fromBits (varBits.take bits.toNat))

/- What the circuit constrains for the instruction: in a minor version of the second format, or in
the third format. -/
def reconstituteField (format : Option IrMinorVersion) : Arithmetic → UInt32 → ReconstituteCells →
    Circuit Unit :=
  match format with
  | some version => V2.reconstituteField version
  | none => V3.reconstituteField

variable {divisor modulus : Nat} {bits : Nat}

theorem combined (divisor modulus : Fr) (bits : Nat) :
    Fr.ofNat (2 ^ bits) * divisor + modulus = Fr.ofNat (divisor.val * 2 ^ bits + modulus.val) := by
  rw [ofNatAdd, mul_comm, ofNatMul, ofNatSelf, ofNatSelf]

theorem powerFold (bits : Nat) :
    (List.range bits).foldl (fun acc _ => 2 * acc) (1 : Fr) = Fr.ofNat (2 ^ bits) := by
  induction bits with
  | zero => rfl
  | succ bits ih =>
    rw [List.range_succ, List.foldl_append, ih, pow_succ', ofNatMul]
    rfl

theorem limbComparison (inside : bits ≤ frBits) (low : modulus < 2 ^ bits)
    (high : divisor < 2 ^ (frBits - bits)) :
    compareBits (natBits bits modulus ++ natBits (frBits - bits) divisor)
        ((toBits (-1)).take frBits) =
      compare (divisor * 2 ^ bits + modulus) (fieldModulus - 1) := by
  have largest : (toBits (-1)).take frBits = natBits frBits (fieldModulus - 1) := by
    rw [toBitsEq, natBitsTake (by decide)]
    rfl
  have bound : fieldModulus - 1 < 2 ^ frBits := (sub_le ..).trans_lt fieldModulusUpper
  have width : (natBits bits modulus ++ natBits (frBits - bits) divisor).length =
      (natBits frBits (fieldModulus - 1)).length := by
    rw [List.length_append, natBitsLength, natBitsLength, natBitsLength]
    omega
  rw [largest, compareBitsNat width, bitsNatAppend, bitsNatNatBits, bitsNatNatBits, bitsNatNatBits,
    natBitsLength, mod_eq_of_lt low, mod_eq_of_lt high, mod_eq_of_lt bound,
    mul_comm, add_comm]

theorem reconstituteNativeIff {divisor modulus out : Fr} :
    reconstituteNative divisor modulus bits = .ok out ↔ (0 < bits ∧ bits ≤ frBytesStored * 8) ∧
      (modulus.val < 2 ^ bits ∧ divisor.val < 2 ^ (frBits - bits)) ∧
      divisor.val * 2 ^ bits + modulus.val < fieldModulus ∧
      out = Fr.ofNat (divisor.val * 2 ^ bits + modulus.val) := by
  unfold reconstituteNative
  by_cases wide : bits > frBytesStored * 8
  · have outside : ¬ bits ≤ frBytesStored * 8 := by omega
    simp [wide, outside]
  have inside : bits ≤ frBits := by unfold frBytesStored at wide; unfold frBits; omega
  rw [if_neg wide]
  constructor
  · intro ok
    obtain ⟨maxBits, maxOk, ok⟩ := bindOk.mp ok
    cases maxOk
    obtain ⟨modulusBits, modulusOk, ok⟩ := bindOk.mp ok
    obtain ⟨divisorBits, divisorOk, ok⟩ := bindOk.mp ok
    obtain ⟨-, low, rfl⟩ := idxBitsSome.mp modulusOk
    obtain ⟨width, high, rfl⟩ := idxBitsSome.mp divisorOk
    rw [limbComparison inside low high] at ok
    obtain ⟨notGreater, ok⟩ := elseOk.mp ok
    simp only [powerFold, combined] at ok
    refine ⟨⟨by omega, by omega⟩, ⟨low, high⟩, ?_, (Except.ok.inj ok).symm⟩
    have fits : ¬ fieldModulus - 1 < divisor.val * 2 ^ bits + modulus.val := by
      rwa [Ordering.isGT_iff_eq_gt, Nat.compare_eq_gt] at notGreater
    omega
  · rintro ⟨⟨positive, -⟩, ⟨low, high⟩, within, rfl⟩
    have modulusOk := idxBitsSome.mpr ⟨by unfold frBytesStored at wide; unfold frBits; omega, low, rfl⟩
    have divisorOk := idxBitsSome.mpr ⟨by unfold frBits; omega, high, rfl⟩
    have notGreater : ¬ (compare (divisor.val * 2 ^ bits + modulus.val)
        (fieldModulus - 1)).isGT = true := by
      rw [Ordering.isGT_iff_eq_gt, Nat.compare_eq_gt]
      omega
    rw [modulusOk, divisorOk]
    simp only [idxBits, bind, Except.bind, limbComparison inside low high, notGreater,
      Bool.false_eq_true, if_false, powerFold, combined]

variable {mode : Arithmetic} {bits : UInt32} {c : ReconstituteCells}

/- What every satisfying assignment fulfils: the width of the divisor is computed in a machine word
and wraps with it. -/
structure Bounded (mode : Arithmetic) (bits : UInt32) (c : ReconstituteCells) : Prop where
  divisor : ∃ width high, mode.sub width frBits bits.toNat = .ok high ∧ c.divisor.val < 2 ^ high
  modulus : c.modulus.val < 2 ^ bits.toNat
  output : c.output = Fr.ofNat (c.divisor.val * 2 ^ bits.toNat + c.modulus.val)

theorem rangesBounded (ok : reconstituteRanges mode bits c = .ok ()) : Bounded mode bits c := by
  obtain ⟨high, width, afterSub⟩ := bindOk.mp ok
  obtain ⟨_, divisorRange, afterDivisor⟩ := bindOk.mp afterSub
  obtain ⟨_, modulusRange, sum⟩ := bindOk.mp afterDivisor
  refine ⟨⟨32, high, width, by simpa [assertLowerThanFixed] using divisorRange⟩,
    by simpa [assertLowerThanFixed] using modulusRange, ?_⟩
  have value := eq_of_beq (requireOk.mp sum)
  rw [value, ← combined, Fin.one_mul, Fin.add_zero]
  exact Fin.ext (by rw [Fin.val_add, Fin.val_add, add_comm])

theorem bitsBounded (ok : V2.reconstituteField .v0 mode bits c = .ok ()) : Bounded mode bits c := by
  obtain ⟨high, width, afterSub⟩ := bindOk.mp ok
  obtain ⟨_, divisorCells, afterDivisor⟩ := bindOk.mp afterSub
  obtain ⟨_, modulusCells, sum⟩ := bindOk.mp afterDivisor
  simp only [requireOk, leBitsCells, Bool.and_eq_true, beq_iff_eq, Bool.not_true, Bool.false_or,
    decide_eq_true_eq] at divisorCells modulusCells sum
  obtain ⟨⟨divisorWidth, divisorValue⟩, -⟩ := divisorCells
  obtain ⟨⟨modulusWidth, modulusValue⟩, canonical⟩ := modulusCells
  rw [fromBitsEq] at divisorValue modulusValue
  have high := bitsNatLt c.divisorBits
  have low := bitsNatLt c.modulusBits
  rw [divisorWidth] at high
  rw [modulusWidth] at low
  have value : c.modulus.val = bitsNat c.modulusBits := by
    rw [← modulusValue, Fr.ofNatVal, mod_eq_of_lt canonical]
  have reduced : c.divisor.val ≤ bitsNat c.divisorBits := by
    rw [← divisorValue, Fr.ofNatVal]
    exact mod_le ..
  refine ⟨⟨64, _, width, by omega⟩, by omega, ?_⟩
  rw [sum, fromBitsEq, bitsNatAppend, modulusWidth, ← combined, add_comm, ofNatAdd, ofNatMul,
    divisorValue, modulusValue]

theorem satisfiedBounded {format : Option IrMinorVersion}
    (ok : reconstituteField format mode bits c = .ok ()) : Bounded mode bits c := by
  rcases format with - | - | - | -
  · exact rangesBounded ok
  · exact bitsBounded ok
  · exact rangesBounded ok
  · exact rangesBounded ok

/- A pair of the widths that the instruction computes has cells that satisfy its constraints. -/
theorem pairSatisfies (format : Option IrMinorVersion) (mode : Arithmetic) (bits : UInt32)
    (divisor modulus : Nat)
    (widths : ∀ width, width = 32 ∨ width = 64 →
      ∃ high, mode.sub width frBits bits.toNat = .ok high ∧ divisor < 2 ^ high)
    (low : modulus < 2 ^ bits.toNat) (divisorReduced : divisor < fieldModulus)
    (modulusReduced : modulus < fieldModulus) :
    ∃ c, reconstituteField format mode bits c = .ok () ∧ c.divisor.val = divisor ∧
      c.modulus.val = modulus := by
  have divisorVal : (Fr.ofNat divisor).val = divisor := by
    rw [Fr.ofNatVal, mod_eq_of_lt divisorReduced]
  have modulusVal : (Fr.ofNat modulus).val = modulus := by
    rw [Fr.ofNatVal, mod_eq_of_lt modulusReduced]
  obtain ⟨high, sub, above⟩ := widths 32 (.inl rfl)
  obtain ⟨wide, subWide, aboveWide⟩ := widths 64 (.inr rfl)
  let c : ReconstituteCells := ⟨Fr.ofNat divisor, Fr.ofNat modulus,
    Fr.ofNat (divisor * 2 ^ bits.toNat + modulus), natBits wide divisor,
    natBits bits.toNat modulus⟩
  have ranges : reconstituteRanges mode bits c = .ok () := by
    have sum := combined c.divisor c.modulus bits.toNat
    rw [divisorVal, modulusVal] at sum
    simp only [reconstituteRanges, sub, okBind, assertLowerThanFixed, require, c, divisorVal,
      modulusVal, above, low, decide_true, if_true, beq_iff_eq]
    rw [if_pos]
    rw [← sum, Fin.one_mul, Fin.add_zero]
    exact Fin.ext (by rw [Fin.val_add, Fin.val_add, add_comm])
  refine ⟨c, ?_, divisorVal, modulusVal⟩
  rcases format with - | - | - | -
  · exact ranges
  · have joined : bitsNat (natBits bits.toNat modulus ++ natBits wide divisor) =
        divisor * 2 ^ bits.toNat + modulus := by
      rw [bitsNatAppend, bitsNatNatBits, bitsNatNatBits, natBitsLength, mod_eq_of_lt low,
        mod_eq_of_lt aboveWide, mul_comm, add_comm]
    simp [reconstituteField, V2.reconstituteField, subWide, okBind, require, leBitsCells, c,
      natBitsLength, fromBitsEq, bitsNatNatBits, mod_eq_of_lt aboveWide, mod_eq_of_lt low,
      divisorReduced, modulusReduced, joined]
  · exact ranges
  · exact ranges

theorem divModValue {var : Fr} (inside : bits.toNat ≤ frBits) : divModPowerOfTwo var bits =
      .ok (Fr.ofNat (var.val / 2 ^ bits.toNat), Fr.ofNat (var.val % 2 ^ bits.toNat)) := by
  have range : var.val < 2 ^ frBits := var.isLt.trans fieldModulusUpper
  have high : var.val / 2 ^ bits.toNat < 2 ^ (frBits - bits.toNat) := by
    rw [Nat.div_lt_iff_lt_mul (by positivity), ← Nat.pow_add, Nat.sub_add_cancel inside]
    exact range
  simp only [divModPowerOfTwo, assignedToLeBits, bind, Except.bind, natBitsLength,
    not_lt.mpr inside, if_false, natBitsDrop, natBitsTake inside, fromBitsEq, bitsNatNatBits,
    mod_eq_of_lt high]

structure Decomposes (bits : UInt32) (c : ReconstituteCells) : Prop where
  modulusSmall : c.modulus.val < 2 ^ bits.toNat
  noOverflow : c.divisor.val * 2 ^ bits.toNat + c.modulus.val < fieldModulus
  only : ∀ divisor modulus : Nat, modulus < 2 ^ bits.toNat →
    divisor * 2 ^ bits.toNat + modulus < fieldModulus →
    Fr.ofNat (divisor * 2 ^ bits.toNat + modulus) = c.output →
    divisor = c.divisor.val ∧ modulus = c.modulus.val
  returned : bits.toNat ≤ frBits → divModPowerOfTwo c.output bits = .ok (c.divisor, c.modulus)

theorem splitUnique {width high low high' low' : Nat} (left : low < 2 ^ width)
    (right : low' < 2 ^ width) (same : high * 2 ^ width + low = high' * 2 ^ width + low') :
    high = high' ∧ low = low' := by
  have quotient : ∀ {h l : Nat}, l < 2 ^ width → (h * 2 ^ width + l) / 2 ^ width = h := by
    intro h l small
    rw [Nat.mul_comm, Nat.mul_add_div (Nat.two_pow_pos width), Nat.div_eq_of_lt small, Nat.add_zero]
  have highs : high = high' :=
    (quotient left).symm.trans ((congrArg (· / 2 ^ width) same).trans (quotient right))
  subst highs
  exact ⟨rfl, by omega⟩

theorem decomposesOfNoOverflow (small : c.modulus.val < 2 ^ bits.toNat)
    (output : c.output = Fr.ofNat (c.divisor.val * 2 ^ bits.toNat + c.modulus.val))
    (fits : c.divisor.val * 2 ^ bits.toNat + c.modulus.val < fieldModulus) : Decomposes bits c := by
  have value : c.output.val = c.divisor.val * 2 ^ bits.toNat + c.modulus.val := by
    rw [output, Fr.ofNatVal, mod_eq_of_lt fits]
  refine ⟨small, fits, ?_, ?_⟩
  · intro divisor modulus range inside same
    rw [output] at same
    exact splitUnique range small (Fr.ofNatInj inside fits same)
  · intro inside
    have whole := div_add_mod c.output.val (2 ^ bits.toNat)
    obtain ⟨high, low⟩ := splitUnique (Nat.mod_lt c.output.val (Nat.two_pow_pos bits.toNat)) small
      (by rw [← value, mul_comm]; exact whole)
    rw [divModValue inside, high, low, ofNatSelf, ofNatSelf]

/- The pair that fills both widths, or past the width of the field the shifted one. -/
theorem overflowingPair (format : Option IrMinorVersion) (positive : 0 < bits.toNat)
    (apart : bits.toNat ≠ frBits) (emitted : mode = .checked → bits.toNat < frBits) :
    ∃ c, reconstituteField format mode bits c = .ok () ∧
      fieldModulus ≤ c.divisor.val * 2 ^ bits.toNat + c.modulus.val := by
  have half : 2 ^ (frBits - 1) ≤ fieldModulus := by decide +kernel
  rcases Nat.lt_or_gt_of_ne apart with inside | beyond
  · have reduced : ∀ {n}, n < frBits → 2 ^ n - 1 < fieldModulus := fun {n} narrow => by
      have bound : 2 ^ n ≤ 2 ^ (frBits - 1) := Nat.pow_le_pow_right (by decide) (by omega)
      have := Nat.two_pow_pos n
      omega
    obtain ⟨c, ok, divisor, modulus⟩ := pairSatisfies format mode bits
      (2 ^ (frBits - bits.toNat) - 1) (2 ^ bits.toNat - 1)
      (fun width _ => ⟨_, if_pos inside.le, by simp⟩) (by simp) (reduced (by omega))
      (reduced inside)
    refine ⟨c, ok, ?_⟩
    have whole : 2 ^ (frBits - bits.toNat) * 2 ^ bits.toNat = 2 ^ frBits := by
      rw [← Nat.pow_add, Nat.sub_add_cancel inside.le]
    have above : fieldModulus ≤ 2 ^ frBits - 1 := by decide +kernel
    rw [divisor, modulus, Nat.sub_mul, whole, Nat.one_mul]
    omega
  · cases mode with
    | checked => exact absurd (emitted rfl) (by omega)
    | wrapping =>
      have widths : ∀ width, width = 32 ∨ width = 64 →
          ∃ high, Arithmetic.wrapping.sub width frBits bits.toNat = .ok high ∧ 1 < 2 ^ high := by
        intro width word
        have small := bits.toNat_lt
        refine ⟨_, if_neg (by omega), Nat.one_lt_two_pow ?_⟩
        rcases word with rfl | rfl <;> omega
      obtain ⟨c, ok, divisor, modulus⟩ := pairSatisfies format .wrapping bits 1 0 widths
        (Nat.two_pow_pos _) (by decide) (by decide)
      refine ⟨c, ok, ?_⟩
      have above : 2 ^ frBits ≤ 2 ^ bits.toNat := Nat.pow_le_pow_right (by decide) beyond.le
      have upper := fieldModulusUpper
      rw [divisor, modulus]
      omega

/- The widths of the two parts add up to that of the field, which leaves room above the modulus
unless one of the parts is empty. -/
theorem reconstituteDecomposes (format : Option IrMinorVersion) (mode : Arithmetic)
    (bits : UInt32) :
    (∀ c, reconstituteField format mode bits c = .ok () → Decomposes bits c) ↔
      bits.toNat = 0 ∨ bits.toNat = frBits ∨ mode = .checked ∧ frBits < bits.toNat := by
  constructor
  · intro sound
    by_contra outside
    simp only [not_or, not_and, not_lt] at outside
    obtain ⟨some, apart, emitted⟩ := outside
    obtain ⟨c, ok, overflows⟩ := overflowingPair format (Nat.pos_of_ne_zero some) apart
      fun checked => lt_of_le_of_ne (emitted checked) apart
    exact absurd (sound c ok).noOverflow (by omega)
  · rintro side c ok
    obtain ⟨⟨width, high, sub, above⟩, low, output⟩ := satisfiedBounded ok
    refine decomposesOfNoOverflow low output ?_
    have divisor := c.divisor.isLt
    have modulus := c.modulus.isLt
    rcases side with none | whole | ⟨rfl, beyond⟩
    · rw [none] at low ⊢
      omega
    · have empty : mode.sub width frBits frBits = .ok 0 := if_pos (le_refl _)
      rw [whole, empty] at sub
      cases sub
      have zero : c.divisor.val = 0 := by omega
      rwa [zero, Nat.zero_mul, Nat.zero_add]
    · rw [Arithmetic.sub, if_neg (by omega)] at sub
      cases sub

/- 127 fits the seven bits left of 248, but 127 * 2^248 is above the modulus. -/
def wrappingCells : ReconstituteCells where
  divisor := 127
  modulus := 0
  output := Fr.ofNat (127 * 2 ^ 248)
  divisorBits := List.replicate 7 true
  modulusBits := List.replicate 248 false

theorem wrappingPairSatisfies :
    (∀ version, V2.reconstituteField version .checked 248 wrappingCells = .ok ()) ∧
      V3.reconstituteField .checked 248 wrappingCells = .ok () ∧
      ¬ wrappingCells.divisor.val * 2 ^ 248 + wrappingCells.modulus.val < fieldModulus ∧
      divModPowerOfTwo wrappingCells.output 248 ≠
        .ok (wrappingCells.divisor, wrappingCells.modulus) := by
  refine ⟨?_, by decide +kernel, by decide +kernel, by decide +kernel⟩
  intro version
  cases version <;> decide +kernel

open Fab List Alignment

def decodeStray (stray : Nat) (inputs : List Fr) : Circuit (Bytes × List Fr) :=
  if stray > 0 then do
    let first ← index inputs 0
    let bytes ← assignedToLeBytes first (some stray)
    .ok (bytes, inputs.drop 1)
  else .ok ([], inputs)

namespace V2

def decodeChunks (chunks : Nat) (inputs : List Fr) : Circuit (Bytes × List Fr) := do
  let full ← (range chunks).mapM (fun i => do
    let f ← index inputs (chunks - 1 - i)
    assignedToLeBytes f (some frBytesStored))
  .ok (full.flatten, inputs.drop chunks)

def fabDecodeToBytesAtom : AlignmentAtom → List Fr → Circuit (Bytes × List Fr)
  | .field, [] => .error (.returned "Cannot decode field element from nothing")
  | .field, value :: rest => do
    let bytes ← assignedToLeBytes value none
    .ok (bytes, rest)
  | .bytes length, inputs =>
    if inputs.length < expectedSize length.toNat then
      .error (.returned "Cannot decode byte value; not enough data provided")
    else do
      let (resVec, inputs) ← decodeStray (length.toNat % frBytesStored) inputs
      let (full, inputs) ← decodeChunks (length.toNat / frBytesStored) inputs
      .ok (full ++ resVec, inputs)
  | .compress, _ => .error (.returned "Cannot decode compressed value from field elements")

end V2

namespace V3

/- One pass of the chunk loop: the index counts down while the slice moves on. -/
def decodeChunk (chunks : Nat) (st : List Fr × Bytes) (i : Nat) : Circuit (List Fr × Bytes) := do
  let f ← index st.1 (chunks - 1 - i)
  let bytes ← assignedToLeBytes f (some frBytesStored)
  .ok (st.1.drop 1, st.2 ++ bytes)

def decodeChunks (chunks : Nat) (inputs : List Fr) : Circuit (Bytes × List Fr) := do
  let (inputs, full) ← (range chunks).foldlM (decodeChunk chunks) (inputs, [])
  .ok (full, inputs)

def fabDecodeToBytesAtom : AlignmentAtom → List Fr → Circuit (Bytes × List Fr)
  | .field, [] => .error (.returned "cannot decode field element from no data")
  | .field, value :: rest => do
    let bytes ← assignedToLeBytes value none
    .ok (bytes, rest)
  | .bytes length, inputs =>
    if inputs.length < expectedSize length.toNat then
      .error (.returned "cannot decode bytes from to little data")
    else do
      let (resVec, inputs) ← decodeStray (length.toNat % frBytesStored) inputs
      let (full, inputs) ← decodeChunks (length.toNat / frBytesStored) inputs
      .ok (full ++ resVec, inputs)
  | .compress, _ => .error (.returned "Cannot decode compressed value from field elements")

end V3

def fabDecodeWith (atomDecode : AlignmentAtom → List Fr → Circuit (Bytes × List Fr)) :
    Fab.Alignment → List Fr → Circuit Bytes
  | [], _ => .ok []
  | .atom atom :: rest, inputs => do
    let (bytes, inputs) ← atomDecode atom inputs
    let tail ← fabDecodeWith atomDecode rest inputs
    .ok (bytes ++ tail)
  | .option _ :: _, _ => .error
    (.returned "in-circuit decoding of alignment options is not yet implemented!")

def V2.fabDecodeToBytes (align : Fab.Alignment) (inputs : List Fr) : Circuit Bytes :=
  fabDecodeWith V2.fabDecodeToBytesAtom align inputs

def V3.fabDecodeToBytes (align : Fab.Alignment) (inputs : List Fr) : Circuit Bytes :=
  fabDecodeWith V3.fabDecodeToBytesAtom align inputs

def chunkBytes (f : Fr) : Bytes := leBytes frBytesStored f.val

def storedFr (f : Fr) : Prop := f.val < 256 ^ frBytesStored

theorem chunkBytesInj {f g : Fr} (left : storedFr f) (right : storedFr g)
    (same : chunkBytes f = chunkBytes g) : f = g := by
  have values := congrArg leNat same
  rw [chunkBytes, chunkBytes, leNatLeBytes, leNatLeBytes, mod_eq_of_lt left,
    mod_eq_of_lt right] at values
  exact Fin.ext values

variable {els repr rest stray : List Fr} {n : Nat} {bytes : Bytes}

theorem mapMChunks (stored : ∀ f ∈ els, storedFr f) :
    els.mapM (fun f => assignedToLeBytes f (some frBytesStored)) = .ok (els.map chunkBytes) := by
  induction els with
  | nil => rfl
  | cons f els ih =>
    have rest := ih (forall_mem_cons.mp stored).2
    rw [mapM_cons, assignedToLeBytesOk (stored f mem_cons_self), rest]
    rfl

theorem parsedChunks {parts : List Bytes} (ok : els.mapM (bytesFrom frBytesStored) = some parts) :
    (∀ f ∈ els, storedFr f) ∧ parts = els.map chunkBytes := by
  induction els generalizing parts with
  | nil => simp_all
  | cons f els ih =>
    simp only [mapM_cons, bind, bind_eq_some_iff, pure, some.injEq] at ok
    obtain ⟨part, first, rest, others, rfl⟩ := ok
    obtain ⟨stored, rfl⟩ := ih others
    rw [bytesFromEq (by decide)] at first
    split at first <;> try contradiction
    rename_i small
    refine ⟨?_, by rw [← some.inj first]; rfl⟩
    intro g mem
    rcases mem_cons.mp mem with rfl | inside
    · exact small
    · exact stored g inside

/- What a Bytes atom of length `n` reads: a stray element if there is one, then
the elements of the full chunks, last chunk first. -/
structure ReadsBytes (n : Nat) (stray els repr : List Fr) (bytes : Bytes) (rest : List Fr) :
    Prop where
  split : repr = stray ++ (els ++ rest)
  strayLength : stray.length = if n % frBytesStored ≠ 0 then 1 else 0
  elsLength : els.length = n / frBytesStored
  strayFits : ∀ f ∈ stray, f.val < 256 ^ (n % frBytesStored)
  elsFit : ∀ f ∈ els, storedFr f
  result : bytes = (els.reverse.map chunkBytes).flatten ++
    (stray.map (fun f => leBytes (n % frBytesStored) f.val)).flatten

variable {after : List Fr}

theorem strayParsed {tail : Bytes} (ok : strayFrom (n % frBytesStored) repr = some (tail, after)) :
    ∃ stray, repr = stray ++ after ∧ (stray.length = if n % frBytesStored ≠ 0 then 1 else 0) ∧
      (∀ f ∈ stray, f.val < 256 ^ (n % frBytesStored)) ∧
      tail = (stray.map (fun f => leBytes (n % frBytesStored) f.val)).flatten := by
  unfold strayFrom at ok
  by_cases none : n % frBytesStored = 0
  · rw [if_neg (by omega)] at ok
    cases ok
    exact ⟨[], by simp [none]⟩
  · rw [if_pos (by omega)] at ok
    cases repr with
    | nil => simp at ok
    | cons f repr =>
      have short : n % frBytesStored ≤ frBytes :=
        (mod_lt n (by decide : 0 < frBytesStored)).le.trans (by decide)
      simp only [head?_cons, bytesFromEq short, bind, Option.bind] at ok
      split at ok <;> try contradiction
      rename_i first parsed
      split at parsed <;> try contradiction
      rename_i small
      cases parsed
      cases ok
      exact ⟨[f], by simp [none, small]⟩

theorem chunksParsed {chunks : Nat} {full : Bytes}
    (enough : chunks ≤ after.length) (ok : chunksFrom chunks after = some (full, rest)) :
    ∃ els, after = els ++ rest ∧ els.length = chunks ∧ (∀ f ∈ els, storedFr f) ∧
      full = (els.reverse.map chunkBytes).flatten := by
  unfold chunksFrom at ok
  rw [Loops.mapMBackwards (fun j => after[j]?) _ enough
    (fun j inside => getElem?_eq_getElem inside)] at ok
  simp only [bind, bind_eq_some_iff, some.injEq, Prod.mk.injEq] at ok
  obtain ⟨parts, parsed, rfl, rfl⟩ := ok
  obtain ⟨stored, rfl⟩ := parsedChunks parsed
  refine ⟨after.take chunks, (take_append_drop _ _).symm, by simp [enough], ?_, rfl⟩
  exact fun f mem => stored f (mem_reverse.mpr mem)

theorem bytesParsed (ok : bytesFromFieldRepr repr n = some (bytes, rest)) :
    ∃ stray els, ReadsBytes n stray els repr bytes rest := by
  simp only [bytesFromFieldRepr] at ok
  split at ok <;> try contradiction
  rename_i enough
  simp only [bind, bind_eq_some_iff, Prod.exists, some.injEq, Prod.mk.injEq] at ok
  obtain ⟨tail, after, first, full, last, second, rfl, rfl⟩ := ok
  obtain ⟨stray, rfl, strayLength, strayFits, rfl⟩ := strayParsed first
  have long : n / frBytesStored ≤ after.length := by
    rw [expectedSize, length_append, strayLength] at enough
    omega
  obtain ⟨els, rfl, elsLength, elsFit, rfl⟩ := chunksParsed long second
  exact ⟨stray, els, rfl, strayLength, elsLength, strayFits, elsFit, rfl⟩

theorem decodeStrayOk (after : List Fr)
    (strayLength : stray.length = if n % frBytesStored ≠ 0 then 1 else 0)
    (strayFits : ∀ f ∈ stray, f.val < 256 ^ (n % frBytesStored)) :
    decodeStray (n % frBytesStored) (stray ++ after) =
      .ok ((stray.map (fun f => leBytes (n % frBytesStored) f.val)).flatten, after) := by
  unfold decodeStray
  by_cases none : n % frBytesStored = 0
  · rw [if_neg (by omega)]
    rw [if_neg (by simp [none])] at strayLength
    rw [eq_nil_of_length_eq_zero strayLength]
    rfl
  · rw [if_pos (by omega)]
    rw [if_pos none] at strayLength
    obtain ⟨f, rfl⟩ := length_eq_one_iff.mp strayLength
    have small := assignedToLeBytesOk (strayFits f mem_cons_self)
    simp [index, small, bind, Except.bind]

theorem V2.decodeChunksOk (rest : List Fr) (stored : ∀ f ∈ els, storedFr f) :
    V2.decodeChunks els.length (els ++ rest) =
      .ok ((els.reverse.map chunkBytes).flatten, rest) := by
  unfold V2.decodeChunks
  rw [Loops.mapMBackwards (index (els ++ rest)) _ (by simp) (fun j inside => indexOk inside),
    take_left, mapMChunks (fun f mem => stored f (mem_reverse.mp mem))]
  simp [bind, Except.bind]

/- After `m` passes the slice has lost `m` elements, so the element read next is the
one the first pass read. -/
theorem V3.decodeChunkLoop (stored : ∀ f ∈ els, storedFr f) {last : Fr}
    (final : els.getLast? = some last) (m : Nat) (within : m ≤ els.length) :
    (range m).foldlM (V3.decodeChunk els.length) (els ++ rest, []) =
      .ok ((els ++ rest).drop m, (replicate m (chunkBytes last)).flatten) := by
  induction m with
  | zero => rfl
  | succ m ih =>
    have read : index ((els ++ rest).drop m) (els.length - 1 - m) = .ok last := by
      have position : m + (els.length - 1 - m) = els.length - 1 := by omega
      rw [getLast?_eq_getElem?] at final
      rw [index, getElem?_drop, position, getElem?_append_left (by omega), final]
    have small := assignedToLeBytesOk (stored last (mem_of_getLast? final))
    rw [range_succ, foldlM_append, ih (by omega)]
    simp only [bind, Except.bind, foldlM_cons, foldlM_nil, V3.decodeChunk, read, small,
      pure, Except.pure, drop_drop, replicate_succ', flatten_append, flatten_singleton]
    rfl

/- What version 3 makes of the full chunks: the bytes of the last element, repeated. -/
def repeatLast (els : List Fr) : Bytes :=
  match els.getLast? with
  | none => []
  | some last => (replicate els.length (chunkBytes last)).flatten

theorem V3.decodeChunksOk (rest : List Fr) (stored : ∀ f ∈ els, storedFr f) :
    V3.decodeChunks els.length (els ++ rest) = .ok (repeatLast els, rest) := by
  unfold V3.decodeChunks repeatLast
  cases final : els.getLast? with
  | none =>
    rw [getLast?_eq_none_iff.mp final]
    rfl
  | some last =>
    rw [V3.decodeChunkLoop stored final els.length le_rfl]
    simp [bind, Except.bind]

theorem readsBytesLength (reads : ReadsBytes n stray els repr bytes rest) : bytes.length = n := by
  have full : ((els.reverse.map chunkBytes).flatten).length = frBytesStored * els.length := by
    simp [length_flatten, chunkBytes, Function.comp_def, mul_comm]
  have short : ((stray.map (fun f => leBytes (n % frBytesStored) f.val)).flatten).length =
      (n % frBytesStored) * stray.length := by
    simp [length_flatten, Function.comp_def, mul_comm]
  rw [reads.result, length_append, full, short, reads.elsLength, reads.strayLength]
  have division := div_add_mod n frBytesStored
  split <;> omega

theorem readsBytesRest (reads : ReadsBytes n stray els repr bytes rest) :
    rest = repr.drop (divCeil n frBytesStored) := by
  have size : divCeil n frBytesStored = (stray ++ els).length := by
    rw [length_append, reads.elsLength, reads.strayLength]
    unfold divCeil frBytesStored
    split <;> omega
  rw [reads.split, ← append_assoc, size, drop_left]

def ChunksUniform : AlignmentAtom → List Fr → Prop
  | .bytes length, repr =>
    let n := length.toNat
    let els := (repr.drop (if n % frBytesStored ≠ 0 then 1 else 0)).take (n / frBytesStored)
    ∀ f ∈ els, ∀ g ∈ els, f = g
  | _, _ => True

def FullChunksUniform : List AlignmentAtom → List Fr → Prop
  | [], _ => True
  | atom :: atoms, repr => ChunksUniform atom repr ∧ FullChunksUniform atoms (repr.drop atom.fieldLen)

instance decidableChunksUniform : ∀ atom repr, Decidable (ChunksUniform atom repr)
  -- the elements of the list are enumerated, not the field
  | .bytes _, _ => @decidableBAll _ _ (fun _ => decidableBAll _ _) _
  | .field, _ => .isTrue trivial
  | .compress, _ => .isTrue trivial

instance decidableFullChunksUniform : ∀ atoms repr, Decidable (FullChunksUniform atoms repr)
  | [], _ => .isTrue trivial
  | atom :: atoms, repr =>
    have := decidableFullChunksUniform atoms (repr.drop atom.fieldLen)
    inferInstanceAs (Decidable (_ ∧ _))

theorem repeatedChunks (stored : ∀ f ∈ els, storedFr f) :
    (repeatLast els).length = ((els.reverse.map chunkBytes).flatten).length ∧
      (repeatLast els = (els.reverse.map chunkBytes).flatten ↔ ∀ f ∈ els, ∀ g ∈ els, f = g) := by
  unfold repeatLast
  cases final : els.getLast? with
  | none =>
    rw [getLast?_eq_none_iff.mp final]
    simp
  | some last =>
    have member := mem_of_getLast? final
    refine ⟨by simp [length_flatten, chunkBytes, Function.comp_def], ?_, ?_⟩
    · intro same
      have blocks := Loops.flattenInj (k := frBytesStored)
        (fun a mem => by rw [eq_of_mem_replicate mem, chunkBytes, leBytesLength])
        (fun b mem => by
          obtain ⟨f, -, rfl⟩ := mem_map.mp mem
          exact leBytesLength ..) (by simp) same
      have each : ∀ f ∈ els, f = last := by
        intro f mem
        have block : chunkBytes f ∈ els.reverse.map chunkBytes :=
          mem_map_of_mem (mem_reverse.mpr mem)
        rw [← blocks] at block
        exact chunkBytesInj (stored f mem) (stored last member) (eq_of_mem_replicate block)
      intro f left g right
      rw [each f left, each g right]
    · intro uniform
      have blocks : els.reverse.map chunkBytes = replicate els.length (chunkBytes last) := by
        refine eq_replicate_iff.mpr ⟨by simp, ?_⟩
        intro b mem
        obtain ⟨f, inside, rfl⟩ := mem_map.mp mem
        rw [uniform f (mem_reverse.mp inside) last member]
      rw [blocks]

variable {length : UInt32}

theorem ReadsBytes.uniformIff (reads : ReadsBytes length.toNat stray els repr bytes rest) :
    ChunksUniform (.bytes length) repr ↔ ∀ f ∈ els, ∀ g ∈ els, f = g := by
  rw [ChunksUniform, reads.split, ← reads.strayLength, ← reads.elsLength, drop_left, take_left]

structure AtomDecoded (hash : TransientHash) (atom : AlignmentAtom) (x : ValueAtom)
    (repr rest : List Fr) (bytes repeated : Bytes) : Prop where
  native : atomBinaryReprUnchecked hash atom x = some bytes
  v2 : V2.fabDecodeToBytesAtom atom repr = .ok (bytes, rest)
  v3 : V3.fabDecodeToBytesAtom atom repr = .ok (repeated, rest)
  sameLength : repeated.length = bytes.length
  sameIff : repeated = bytes ↔ ChunksUniform atom repr
  rest : rest = repr.drop atom.fieldLen

section

variable (hash : TransientHash) {x : ValueAtom} {atoms : List AlignmentAtom}

theorem bytesDecoded (ok : (AlignmentAtom.bytes length).parseFieldRepr repr = some (x, rest)) :
    ∃ bytes repeated, AtomDecoded hash (.bytes length) x repr rest bytes repeated := by
  obtain ⟨stray, els, reads⟩ := bytesParsed ok
  have width := readsBytesLength reads
  have enough : ¬ repr.length < expectedSize length.toNat := by
    rw [reads.split, expectedSize, length_append, length_append, reads.strayLength, reads.elsLength]
    omega
  have short := decodeStrayOk (els ++ rest) reads.strayLength reads.strayFits
  have full := V2.decodeChunksOk rest reads.elsFit
  have repeated := V3.decodeChunksOk rest reads.elsFit
  obtain ⟨sameLength, sameIff⟩ := repeatedChunks reads.elsFit
  rw [← reads.split] at short
  rw [reads.elsLength] at full repeated
  refine ⟨x, repeatLast els ++ (stray.map (fun f =>
    leBytes (length.toNat % frBytesStored) f.val)).flatten, ?_, ?_, ?_, ?_, ?_, readsBytesRest reads⟩
  · simp [atomBinaryReprUnchecked, width]
  · rw [V2.fabDecodeToBytesAtom, if_neg enough, short]
    simp only [bind, Except.bind, full, ← reads.result]
  · rw [V3.fabDecodeToBytesAtom, if_neg enough, short]
    simp only [bind, Except.bind, repeated]
  · rw [reads.result, length_append, length_append, sameLength]
  · rw [reads.uniformIff, reads.result, append_left_inj, sameIff]

theorem fieldDecoded (ok : AlignmentAtom.field.parseFieldRepr repr = some (x, rest)) :
    ∃ bytes repeated, AtomDecoded hash .field x repr rest bytes repeated := by
  cases repr with
  | nil => simp [AlignmentAtom.parseFieldRepr] at ok
  | cons f repr =>
    cases ok
    have short : (trimZeros f.asLeBytes).length ≤ fieldByteLimit :=
      (trimZerosLength _).trans (by simp [frBytes, fieldByteLimit])
    have value : Fr.fromUniformBytes (trimZeros f.asLeBytes ++
        replicate (fieldByteLimit - (trimZeros f.asLeBytes).length) 0) = f := by
      rw [Fr.fromUniformBytes, leNatAppendZeros, leNatTrimZeros, Fr.leNatAsLeBytes]
      exact Fin.ext (mod_eq_of_lt f.isLt)
    refine ⟨f.asLeBytes, f.asLeBytes, ?_, rfl, rfl, rfl, by simp [ChunksUniform], rfl⟩
    rw [atomBinaryReprUnchecked, if_pos short, value]

theorem atomDecoded {atom : AlignmentAtom} (ok : atom.parseFieldRepr repr = some (x, rest)) :
    ∃ bytes repeated, AtomDecoded hash atom x repr rest bytes repeated := by
  cases atom with
  | compress => simp [AlignmentAtom.parseFieldRepr] at ok
  | bytes length => exact bytesDecoded hash ok
  | field => exact fieldDecoded hash ok

theorem atomsDecoded {value : Value}
    (ok : parseFieldReprInner (atoms.map .atom) repr = some (value, rest)) : ∃ bytes repeated,
      Writes 0 (atomBinaryReprUnchecked hash) binLen (atoms.map .atom) value bytes ∧
      V2.fabDecodeToBytes (atoms.map .atom) repr = .ok bytes ∧
      V3.fabDecodeToBytes (atoms.map .atom) repr = .ok repeated ∧
      repeated.length = bytes.length ∧ (repeated = bytes ↔ FullChunksUniform atoms repr) := by
  induction atoms generalizing repr value with
  | nil =>
    cases ok
    exact ⟨[], [], .nil, rfl, rfl, rfl, by simp [FullChunksUniform]⟩
  | cons atom atoms ih =>
    simp only [map_cons, parseFieldReprInner, parseSegment, bind, bind_eq_some_iff,
      Prod.exists, some.injEq, Prod.mk.injEq] at ok
    obtain ⟨first, after, ⟨x, mid, parsed, rfl, rfl⟩, tail, last, others, rfl, rfl⟩ := ok
    obtain ⟨bytes, repeated, head⟩ := atomDecoded hash parsed
    obtain ⟨bytes', repeated', writes, v2, v3, sameLength, sameIff⟩ := ih others
    refine ⟨bytes ++ bytes', repeated ++ repeated', .atom head.native writes, ?_, ?_, ?_, ?_⟩
    · rw [V2.fabDecodeToBytes] at v2 ⊢
      simp only [map_cons, fabDecodeWith, head.v2, bind, Except.bind, v2]
    · rw [V3.fabDecodeToBytes] at v3 ⊢
      simp only [map_cons, fabDecodeWith, head.v3, bind, Except.bind, v3]
    · rw [length_append, length_append, head.sameLength, sameLength]
    · rw [FullChunksUniform, ← head.rest, ← head.sameIff, ← sameIff]
      constructor
      · intro same
        exact append_inj same head.sameLength
      · rintro ⟨rfl, rfl⟩
        rfl

theorem parsedDecoded {av : AlignedValue}
    (parsed : parseFieldRepr (atoms.map .atom) repr = some av) :
    ∃ bytes repeated, av.binaryRepr hash = some bytes ∧
      V2.fabDecodeToBytes (atoms.map .atom) repr = .ok bytes ∧
      V3.fabDecodeToBytes (atoms.map .atom) repr = .ok repeated ∧
      (repeated = bytes ↔ FullChunksUniform atoms repr) := by
  simp only [Alignment.parseFieldRepr, bind, bind_eq_some_iff, Prod.exists, some.injEq] at parsed
  obtain ⟨value, rest, inner, rfl⟩ := parsed
  obtain ⟨bytes, repeated, writes, v2, v3, -, sameIff⟩ := atomsDecoded hash inner
  exact ⟨bytes, repeated, binaryReprUncheckedOfWrites writes, v2, v3, sameIff⟩

end

/- The circuit hashes the bytes of the parsed value: always in version 2, in version 3
exactly when no atom has two different full chunks. -/
theorem fabDecodeAgrees (hash : TransientHash) (atoms : List AlignmentAtom) (repr : List Fr)
    (av : AlignedValue) (parsed : parseFieldRepr (atoms.map .atom) repr = some av) :
    ∃ bytes, av.binaryRepr hash = some bytes ∧
      V2.fabDecodeToBytes (atoms.map .atom) repr = .ok bytes ∧
      (V3.fabDecodeToBytes (atoms.map .atom) repr = .ok bytes ↔ FullChunksUniform atoms repr) := by
  obtain ⟨bytes, repeated, native, v2, v3, sameIff⟩ := parsedDecoded hash parsed
  refine ⟨bytes, native, v2, ?_⟩
  rw [v3, ← sameIff, Except.ok.injEq]

def constantHash : TransientHash := fun _ => 1

def bytesAndField : List AlignmentAtom := [.bytes 63, .field]

theorem equalChunksAgree :
    ∃ av, parseFieldRepr (bytesAndField.map .atom) [5, 7, 7, 9] = some av ∧
      ∃ bytes, av.binaryRepr constantHash = some bytes ∧
        V2.fabDecodeToBytes (bytesAndField.map .atom) [5, 7, 7, 9] = .ok bytes ∧
        V3.fabDecodeToBytes (bytesAndField.map .atom) [5, 7, 7, 9] = .ok bytes := by
  obtain ⟨av, parsed⟩ : ∃ av,
      parseFieldRepr (bytesAndField.map .atom) [5, 7, 7, 9] = some av :=
    isSome_iff_exists.mp (by decide +kernel)
  obtain ⟨bytes, native, v2, v3⟩ := fabDecodeAgrees constantHash _ _ av parsed
  exact ⟨av, parsed, bytes, native, v2, v3.mpr (by decide +kernel)⟩

theorem differentChunksDisagree :
    (parseFieldRepr [.atom (.bytes 62)] [1, 2]).bind (·.binaryRepr constantHash) =
      some (leBytes 31 2 ++ leBytes 31 1) ∧
    V2.fabDecodeToBytes [.atom (.bytes 62)] [1, 2] = .ok (leBytes 31 2 ++ leBytes 31 1) ∧
    V3.fabDecodeToBytes [.atom (.bytes 62)] [1, 2] = .ok (leBytes 31 2 ++ leBytes 31 2) := by
  decide +kernel

end MidnightLedger.Zkir

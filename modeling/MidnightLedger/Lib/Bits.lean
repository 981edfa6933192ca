import Mathlib.Data.Nat.Digits.Lemmas

/-! Bit strings, least significant bit first: the number a string denotes, the
string of a given width for a number, and the comparison that walks two strings of
one width from the top. -/
namespace BitString
open List

def bitsNat : List Bool → Nat
  | [] => 0
  | bit :: bits => bit.toNat + 2 * bitsNat bits

def natBits : Nat → Nat → List Bool
  | 0, _ => []
  | width + 1, n => (n % 2 == 1) :: natBits width (n / 2)

@[simp] theorem natBitsLength (width n : Nat) : (natBits width n).length = width := by
  induction width generalizing n with
  | zero => rfl
  | succ width ih => simp [natBits, ih]

theorem bitsNatNatBits (width n : Nat) : bitsNat (natBits width n) = n % 2 ^ width := by
  induction width generalizing n with
  | zero => simp [natBits, bitsNat, Nat.mod_one]
  | succ width ih =>
    rw [natBits, bitsNat, ih, Nat.pow_succ', Nat.mod_mul]
    rcases Nat.mod_two_eq_zero_or_one n with even | odd
    · simp [even]
    · simp [odd]

theorem bitsNatLt (bits : List Bool) : bitsNat bits < 2 ^ bits.length := by
  induction bits with
  | nil => simp [bitsNat]
  | cons bit bits ih =>
    have one := Bool.toNat_lt bit
    rw [bitsNat, length_cons, Nat.pow_succ']
    omega

theorem natBitsBitsNat (bits : List Bool) : natBits bits.length (bitsNat bits) = bits := by
  induction bits with
  | nil => rfl
  | cons bit bits ih =>
    have low : (bit.toNat + 2 * bitsNat bits) % 2 = bit.toNat := by
      cases bit <;> simp
    have high : (bit.toNat + 2 * bitsNat bits) / 2 = bitsNat bits := by
      omega
    rw [length_cons, natBits, bitsNat, low, high, ih]
    cases bit <;> rfl

theorem bitsNatAppend (low high : List Bool) :
    bitsNat (low ++ high) = bitsNat low + 2 ^ low.length * bitsNat high := by
  induction low with
  | nil => simp [bitsNat]
  | cons bit low ih =>
    rw [cons_append, bitsNat, ih, bitsNat, length_cons, Nat.pow_succ']
    ring

variable {width : Nat}

theorem natBitsTake {k : Nat} (short : k ≤ width) (n : Nat) :
    (natBits width n).take k = natBits k n := by
  induction k generalizing width n with
  | zero => simp [natBits]
  | succ k ih =>
    obtain ⟨width, rfl⟩ : ∃ w, width = w + 1 := ⟨width - 1, by omega⟩
    rw [natBits, take_succ_cons, ih (by omega), natBits]

theorem natBitsDrop (width k n : Nat) :
    (natBits width n).drop k = natBits (width - k) (n / 2 ^ k) := by
  induction k generalizing width n with
  | zero => simp
  | succ k ih =>
    cases width with
    | zero => simp [natBits]
    | succ width =>
      rw [natBits, drop_succ_cons, ih, Nat.div_div_eq_div_mul, Nat.pow_succ', Nat.add_sub_add_right]

theorem natBitsAnyFalse {n : Nat} :
    (natBits width n).any (fun b => b) = false ↔ n % 2 ^ width = 0 := by
  rw [← bitsNatNatBits]
  generalize natBits width n = bits
  induction bits with
  | nil => simp [bitsNat]
  | cons bit bits ih =>
    cases bit with
    | false => simp [bitsNat, ih]
    | true => simp [bitsNat]

theorem natBitsJoin (low high n : Nat) :
    natBits low n ++ natBits high (n / 2 ^ low) = natBits (low + high) n := by
  induction low generalizing n with
  | zero => simp [natBits]
  | succ low ih =>
    rw [natBits, cons_append, Nat.pow_succ', ← Nat.div_div_eq_div_mul, ih,
      show low + 1 + high = low + high + 1 by omega, natBits]

def compareBits (left right : List Bool) : Ordering :=
  (left.reverse.zip right.reverse).foldl
    (fun decided pair => decided.then (compare pair.1 pair.2)) .eq

theorem decidedStays (pairs : List (Bool × Bool)) (decided : Ordering) :
    pairs.foldl (fun decided pair => decided.then (compare pair.1 pair.2)) decided = decided.then
        (pairs.foldl (fun decided pair => decided.then (compare pair.1 pair.2)) .eq) := by
  induction pairs generalizing decided with
  | nil => cases decided <;> rfl
  | cons pair pairs ih =>
    rw [foldl_cons, foldl_cons, ih, ih (Ordering.then .eq _)]
    cases decided <;> rfl

theorem compareBitsSnoc (left right : List Bool) (a b : Bool) :
    compareBits (left ++ [a]) (right ++ [b]) = (compare a b).then (compareBits left right) := by
  rw [compareBits, reverse_append, reverse_append, reverse_singleton,
    reverse_singleton, singleton_append, singleton_append, zip_cons_cons, foldl_cons, decidedStays]
  rfl

theorem compareBitsNat {left right : List Bool} (same : left.length = right.length) :
    compareBits left right = compare (bitsNat left) (bitsNat right) := by
  induction left using List.reverseRecOn generalizing right with
  | nil =>
    rw [eq_nil_of_length_eq_zero same.symm]
    rfl
  | append_singleton left a ih =>
    rcases eq_nil_or_concat right with rfl | ⟨right, b, rfl⟩
    · simp at same
    have widths : left.length = right.length := by simpa using same
    have below : bitsNat left < 2 ^ right.length := widths ▸ bitsNatLt left
    have bound := bitsNatLt right
    rw [concat_eq_append, compareBitsSnoc, ih widths, bitsNatAppend, bitsNatAppend, widths]
    -- equal top bits leave the comparison to the rest; different ones outweigh it
    cases a with
    | false =>
      cases b with
      | false => simp [bitsNat, Ordering.then]
      | true =>
        refine ((Nat.compare_eq_lt).mpr ?_).symm
        simp only [bitsNat, Bool.toNat]
        simp
        omega
    | true =>
      cases b with
      | false =>
        refine ((Nat.compare_eq_gt).mpr ?_).symm
        simp only [bitsNat, Bool.toNat]
        simp
        omega
      | true => 
        simp [bitsNat, Ordering.then, Nat.compare_eq_ite_lt]

end BitString

import Mathlib.Data.Nat.Digits.Defs
import Mathlib.Data.List.DropRight

/-! Little-endian byte strings as numbers, normal forms without trailing zeros, and the split of a
byte string into equal chunks. -/
namespace ByteString
open List

abbrev Bytes := List UInt8

def leNat (bs : Bytes) : Nat := Nat.ofDigits 256 (bs.map UInt8.toNat)

def leBytes : (width : Nat) → Nat → Bytes
  | 0, _ => []
  | width + 1, n => UInt8.ofNat n :: leBytes width (n / 256)

def ascii (text : String) : Bytes := text.toList.map (fun c => UInt8.ofNat c.toNat)

@[simp] theorem leNatNil : leNat [] = 0 := by simp [leNat]

@[simp] theorem leNatCons (b : UInt8) (bs : Bytes) : leNat (b :: bs) = b.toNat + 256 * leNat bs := by
  simp [leNat, Nat.ofDigits_cons]

theorem leNatAppend (a b : Bytes) : leNat (a ++ b) = leNat a + 256 ^ a.length * leNat b := by
  simp [leNat, Nat.ofDigits_append]

theorem leNatZeros (n : Nat) : leNat (replicate n 0) = 0 := by
  simp [leNat]

theorem leNatAppendZeros (bs : Bytes) (n : Nat) : leNat (bs ++ replicate n 0) = leNat bs := by
  rw [leNatAppend, leNatZeros, Nat.mul_zero, Nat.add_zero]

theorem leNatLt (bs : Bytes) : leNat bs < 256 ^ bs.length := by
  induction bs with
  | nil => simp
  | cons b bs ih =>
    have byte := b.toNat_lt
    simp only [leNatCons, length_cons, Nat.pow_succ]
    omega

@[simp] theorem leBytesLength (width n : Nat) : (leBytes width n).length = width := by
  induction width generalizing n with
  | zero => rfl
  | succ width ih => simp [leBytes, ih]

theorem leNatLeBytes (width n : Nat) : leNat (leBytes width n) = n % 256 ^ width := by
  induction width generalizing n with
  | zero => simp [leBytes, Nat.mod_one]
  | succ width ih =>
    have byte : (UInt8.ofNat n).toNat = n % 256 := by simp
    rw [leBytes, leNatCons, ih, byte, Nat.pow_succ, Nat.mul_comm (256 ^ width), Nat.mod_mul]

theorem leBytesLeNat (bs : Bytes) : leBytes bs.length (leNat bs) = bs := by
  induction bs with
  | nil => rfl
  | cons b bs ih =>
    have byte := b.toNat_lt
    have low : UInt8.ofNat (b.toNat + 256 * leNat bs) = b := by
      apply UInt8.toNat_inj.mp
      simp only [UInt8.toNat_ofNat']
      omega
    have high : (b.toNat + 256 * leNat bs) / 256 = leNat bs := by omega
    rw [length_cons, leNatCons, leBytes, low, high, ih]

variable {a b bs : Bytes} {n k : Nat}

theorem leNatInjOfLength (length : a.length = b.length) (same : leNat a = leNat b) : a = b := by
  rw [← leBytesLeNat a, ← leBytesLeNat b, length, same]

/- A byte string that does not end in zero is determined by its number alone:
the missing high bytes are the zeros that were left out. -/
def normalForm (bs : Bytes) : Bool := bs.getLast? != some 0

def trimZeros (bs : Bytes) : Bytes := bs.rdropWhile (· == 0)

theorem trimZerosAppend (bs : Bytes) : ∃ n, bs = trimZeros bs ++ replicate n 0 := by
  induction bs using reverseRecOn with
  | nil => exact ⟨0, rfl⟩
  | append_singleton bs b ih =>
    by_cases zero : b = 0
    · obtain ⟨n, split⟩ := ih
      refine ⟨n + 1, ?_⟩
      have trimmed : trimZeros (bs ++ [b]) = trimZeros bs := by simp [trimZeros, zero]
      rw [trimmed, replicate_succ', ← append_assoc, ← split, zero]
    · exact ⟨0, by simp [trimZeros, zero]⟩

theorem leNatTrimZeros (bs : Bytes) : leNat (trimZeros bs) = leNat bs := by
  obtain ⟨n, split⟩ := trimZerosAppend bs
  conv_rhs => rw [split]
  rw [leNatAppendZeros]

theorem trimZerosLength (bs : Bytes) : (trimZeros bs).length ≤ bs.length :=
  ( rdropWhile_prefix (· == 0) (l := bs)).length_le

theorem trimZerosNormal (bs : Bytes) : normalForm (trimZeros bs) := by
  by_cases empty : trimZeros bs = []
  · simp [normalForm, empty]
  · have last := rdropWhile_last_not (· == 0) bs empty
    simp only [beq_iff_eq] at last
    have nonzero : (trimZeros bs).getLast empty ≠ 0 := last
    simpa [normalForm, getLast?_eq_getLast_of_ne_nil empty] using nonzero

theorem normalZeros (normal : normalForm (bs ++ replicate n 0)) : n = 0 := by
  cases n with
  | zero => rfl
  | succ n =>
    rw [replicate_succ', ← append_assoc] at normal
    simp [normalForm] at normal

theorem leNatInjOfNormal (left : normalForm a) (right : normalForm b)
    (same : leNat a = leNat b) : a = b := by
  -- pad the shorter string to the longer one's length; normality makes the padding empty
  have padded : ∀ {a b : Bytes}, a.length ≤ b.length → normalForm b = true →
      leNat a = leNat b → a = b := by
    intro a b shorter normal same
    have equal : a ++ replicate (b.length - a.length) 0 = b :=
      leNatInjOfLength (by simp; omega) (by rw [leNatAppendZeros, same])
    have none : b.length - a.length = 0 := normalZeros (by rw [equal]; exact normal)
    rw [← equal, none]
    simp
  rcases Nat.le_total a.length b.length with shorter | longer
  · exact padded shorter right same
  · exact (padded longer left same.symm).symm

/- Chunks of `k` bytes from the front; the last one may be shorter. The count is
the recursion's measure, so the function evaluates by plain unfolding. -/
def divCeil (n k : Nat) : Nat := (n + (k - 1)) / k

def splitChunks (k : Nat) : (count : Nat) → Bytes → List Bytes
  | 0, _ => []
  | count + 1, bs => bs.take k :: splitChunks k count (bs.drop k)

def chunks (k : Nat) (bs : Bytes) : List Bytes := splitChunks k (divCeil bs.length k) bs

theorem divCeilMul (positive : 0 < k) : n ≤ k * divCeil n k := by
  have split := Nat.div_add_mod (n + (k - 1)) k
  have rest := Nat.mod_lt (n + (k - 1)) positive
  unfold divCeil
  omega

theorem divCeilMono {m : Nat} (le : n ≤ m) : divCeil n k ≤ divCeil m k :=
  Nat.div_le_div_right (by omega)

@[simp] theorem splitChunksLength (k count : Nat) (bs : Bytes) :
    (splitChunks k count bs).length = count := by
  induction count generalizing bs with
  | zero => rfl
  | succ count ih => simp [splitChunks, ih]

@[simp] theorem chunksLength (k : Nat) (bs : Bytes) :
    (chunks k bs).length = divCeil bs.length k := splitChunksLength ..

theorem splitChunksBound {count : Nat} {chunk : Bytes} (mem : chunk ∈ splitChunks k count bs) :
    chunk.length ≤ k := by
  induction count generalizing bs with
  | zero => simp [splitChunks] at mem
  | succ count ih =>
    rcases mem_cons.mp mem with rfl | rest
    · exact length_take_le k bs
    · exact ih rest

theorem leNatTakeDrop (k : Nat) (bs : Bytes) :
    leNat (bs.take k) + 256 ^ k * leNat (bs.drop k) = leNat bs := by
  by_cases short : bs.length ≤ k
  · simp [take_of_length_le short, drop_of_length_le short]
  · have length : (bs.take k).length = k := by simp; omega
    conv_rhs => rw [← take_append_drop k bs, leNatAppend, length]

theorem splitChunksDigits {count : Nat} (enough : bs.length ≤ k * count) :
    Nat.ofDigits (256 ^ k) ((splitChunks k count bs).map leNat) = leNat bs := by
  induction count generalizing bs with
  | zero => simp [splitChunks, eq_nil_of_length_eq_zero (by omega : bs.length = 0)]
  | succ count ih =>
    have rest : (bs.drop k).length ≤ k * count := by
      simp
      omega
    rw [splitChunks, map_cons, Nat.ofDigits_cons, ih rest]
    exact leNatTakeDrop k bs

theorem chunksDigits (positive : 0 < k) (bs : Bytes) :
    Nat.ofDigits (256 ^ k) ((chunks k bs).map leNat) = leNat bs :=
  splitChunksDigits (divCeilMul positive)

end ByteString

import MidnightLedger.Lib.Bytes

/-! The primary field of the proof system, its byte conversions and what a proof is made from
(transient-crypto/src/curve.rs, repr.rs, hash.rs, proofs.rs). The hash permutation stays a
parameter. -/
namespace MidnightLedger
open ByteString

def fieldModulus : Nat := 0x73eda753299d7d483339d80809a1d80553bda402fffe5bfeffffffff00000001

instance : NeZero fieldModulus := ⟨by decide⟩

abbrev Fr := Fin fieldModulus

def frBits : Nat := 255
def frBytes : Nat := 32
def frBytesStored : Nat := 31

theorem fieldModulusUpper : fieldModulus < 2 ^ frBits := by decide

namespace Fr

def ofNat (n : Nat) : Fr := Fin.ofNat fieldModulus n

theorem ofNatVal (n : Nat) : (ofNat n).val = n % fieldModulus := rfl

theorem ofNatInj {n m : Nat} (left : n < fieldModulus) (right : m < fieldModulus)
    (same : ofNat n = ofNat m) : n = m := by
  have vals := congrArg Fin.val same
  rwa [ofNatVal, ofNatVal, Nat.mod_eq_of_lt left, Nat.mod_eq_of_lt right] at vals

/- `from_repr` accepts canonical representatives only. -/
def fromLeBytes (bytes : Bytes) : Option Fr :=
  if bytes.length ≤ frBytes then
    if canonical : leNat bytes < fieldModulus then some ⟨leNat bytes, canonical⟩ else none
  else none

def fromUniformBytes (bytes : Bytes) : Fr := ofNat (leNat bytes)

def asLeBytes (f : Fr) : Bytes := leBytes frBytes f.val

theorem valLtBytes (f : Fr) : f.val < 256 ^ frBytes := by
  have upper : fieldModulus < 256 ^ frBytes := by decide
  omega

@[simp] theorem asLeBytesLength (f : Fr) : f.asLeBytes.length = frBytes := leBytesLength ..

theorem leNatAsLeBytes (f : Fr) : leNat f.asLeBytes = f.val := by
  rw [asLeBytes, leNatLeBytes, Nat.mod_eq_of_lt (valLtBytes f)]

variable {bytes : Bytes}

theorem storedLt (short : bytes.length ≤ frBytesStored) : leNat bytes < fieldModulus := by
  have value := leNatLt bytes
  have wider : 256 ^ bytes.length ≤ 256 ^ frBytesStored := Nat.pow_le_pow_right (by decide) short
  have upper : 256 ^ frBytesStored < fieldModulus := by decide
  omega

theorem fromLeBytesStored (short : bytes.length ≤ frBytesStored) :
    fromLeBytes bytes = some (ofNat (leNat bytes)) := by
  have canonical := storedLt short
  have fits : bytes.length ≤ frBytes := by unfold frBytesStored at short; unfold frBytes; omega
  simp only [fromLeBytes, if_pos fits, dif_pos canonical, Option.some.injEq]
  exact Fin.ext (Nat.mod_eq_of_lt canonical).symm

def toU16 (f : Fr) : Option Nat := if f.val < 2 ^ 16 then some f.val else none

end Fr

/- `[u8]::field_repr`: full chunks are taken from the end of the slice, after a
first element that holds the stray bytes. `none` is the panic of its `expect`.
The first argument counts the remaining iterations of the loop. -/
def bytesFieldReprLoop : Nat → Bytes → Option (List Fr)
  | 0, _ => some []
  | remaining + 1, slice => do
    let stray := slice.length % frBytesStored
    let start := if stray ≠ 0 then slice.length - stray
      else slice.length - min frBytesStored slice.length
    let head ← Fr.fromLeBytes (slice.drop start)
    let tail ← bytesFieldReprLoop remaining (slice.take start)
    some (head :: tail)

def bytesFieldRepr (bytes : Bytes) : Option (List Fr) :=
  bytesFieldReprLoop (divCeil bytes.length frBytesStored) bytes

theorem bytesFieldReprLoopTotal (remaining : Nat) (slice : Bytes) :
    ∃ repr, bytesFieldReprLoop remaining slice = some repr ∧ repr.length = remaining := by
  induction remaining generalizing slice with
  | zero => exact ⟨[], rfl, rfl⟩
  | succ remaining ih =>
    rw [bytesFieldReprLoop]
    generalize hstart : (if slice.length % frBytesStored ≠ 0 then
      slice.length - slice.length % frBytesStored
      else slice.length - min frBytesStored slice.length) = start
    have short : (slice.drop start).length ≤ frBytesStored := by
      have stray := Nat.mod_lt slice.length (by decide : 0 < frBytesStored)
      rw [List.length_drop, ← hstart]
      split <;> omega
    obtain ⟨tail, rest, length⟩ := ih (slice.take start)
    exact ⟨Fr.ofNat (leNat (slice.drop start)) :: tail,
      by simp [Fr.fromLeBytesStored short, rest], by simp [length]⟩

theorem bytesFieldReprTotal (bytes : Bytes) :
    ∃ repr, bytesFieldRepr bytes = some repr ∧ repr.length = divCeil bytes.length frBytesStored :=
  bytesFieldReprLoopTotal ..

abbrev TransientHash := List Fr → Fr

def transientCommit (hash : TransientHash) (value : List Fr) (opening : Fr) : Fr :=
  hash (opening :: value)

structure ProofPreimage where
  inputs : List Fr
  privateTranscript : List Fr
  publicTranscriptInputs : List Fr
  publicTranscriptOutputs : List Fr
  bindingInput : Fr
  communicationsCommitment : Option (Fr × Fr)
  keyLocation : String
  deriving DecidableEq, Repr

end MidnightLedger

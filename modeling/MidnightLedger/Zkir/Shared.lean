import MidnightLedger.Zkir.FabDecode

/-! What the circuits take from outside this repository (hash functions, the embedded curve,
secp256k1), and the parts that the interpreters of both versions share. -/
namespace MidnightLedger.Zkir
open ByteString Fab List

def jubjubOrder : Nat := 0x0e7db4ea6533afa906673b0101343b00a6682093ccc81082d0970e5ed6f72cb7

structure Primitives where
  Point : Type
  Scalar : Type
  SecpPoint : Type
  SecpBase : Type
  SecpScalar : Type
  decPoint : DecidableEq Point
  decScalar : DecidableEq Scalar
  decSecpPoint : DecidableEq SecpPoint
  decSecpBase : DecidableEq SecpBase
  decSecpScalar : DecidableEq SecpScalar
  transientHash : TransientHash
  persistentHash : Bytes → Bytes
  keccak256 : Bytes → Bytes
  hashToCurve : List Fr → Point
  invert : Fr → Option Fr
  -- the embedded curve
  identity : Point
  generator : Point
  newPoint : Fr → Fr → Option Point
  coordinates : Point → Fr × Fr
  pointAdd : Point → Point → Point
  pointNeg : Point → Point
  pointMul : Point → Scalar → Point
  scalarOfNat : Nat → Scalar
  scalarFr : Scalar → Fr
  decodePoint : Fr → Fr → Option Point
  decodeScalar : Fr → Option Scalar
  /- Elements that the circuit appends to the public form of a scalar. -/
  scalarPadding : Nat
  -- secp256k1
  secpIdentity : SecpPoint
  secpGenerator : SecpPoint
  secpNeg : SecpPoint → SecpPoint
  secpMul : SecpPoint → SecpScalar → SecpPoint
  baseZero : SecpBase
  baseMul : SecpBase → SecpBase → SecpBase
  baseNeg : SecpBase → SecpBase
  baseInvert : SecpBase → Option SecpBase
  secpScalarZero : SecpScalar
  secpScalarMul : SecpScalar → SecpScalar → SecpScalar
  secpScalarNeg : SecpScalar → SecpScalar
  secpScalarInvert : SecpScalar → Option SecpScalar
  encodeSecpPoint : SecpPoint → List Fr
  encodeBase : SecpBase → List Fr
  encodeSecpScalar : SecpScalar → List Fr
  decodeSecpPoint : List Fr → Option SecpPoint
  decodeBase : List Fr → Option SecpBase
  decodeSecpScalar : List Fr → Option SecpScalar
  persistentHashLength : ∀ bytes, (persistentHash bytes).length = 32
  keccak256Length : ∀ bytes, (keccak256 bytes).length = 32
  newPointCoordinates : ∀ {x y p}, newPoint x y = some p → coordinates p = (x, y)
  scalarReduced : ∀ n, scalarOfNat (n % jubjubOrder) = scalarOfNat n
  decodePointInverse : ∀ {x y p}, decodePoint x y = some p → coordinates p = (x, y)
  decodeScalarInverse : ∀ {x s}, decodeScalar x = some s → scalarFr s = x
  decodeSecpPointInverse : ∀ {xs p}, decodeSecpPoint xs = some p → encodeSecpPoint p = xs
  decodeBaseInverse : ∀ {xs b}, decodeBase xs = some b → encodeBase b = xs
  decodeSecpScalarInverse : ∀ {xs s}, decodeSecpScalar xs = some s → encodeSecpScalar s = xs

namespace Primitives

variable (P : Primitives)

instance : DecidableEq P.Point := P.decPoint
instance : DecidableEq P.Scalar := P.decScalar
instance : DecidableEq P.SecpPoint := P.decSecpPoint
instance : DecidableEq P.SecpBase := P.decSecpBase
instance : DecidableEq P.SecpScalar := P.decSecpScalar

end Primitives

def hashFieldVec (hash : Bytes) : Native (List Fr) :=
  match bytesFieldRepr hash with
  | some repr => .ok repr
  | none => .error (.panic "field conversion")

def assembleBytes (bytes : Bytes) : Circuit Fr := do
  let first ← index bytes 0
  let limbs := (bytes.zipIdx.drop 1).map (fun limb =>
    Fr.ofNat limb.1.toNat * (range (limb.2 * 8)).foldl (fun acc _ => acc * 2) 1)
  .ok (limbs.foldl (· + ·) (Fr.ofNat first.toNat))

def hashCells (hash : Bytes) : Circuit (List Fr) := do
  let last ← index hash 31
  let rest ← assembleBytes (hash.take 31)
  .ok [Fr.ofNat last.toNat, rest]

theorem doubled (n : Nat) : (range n).foldl (fun acc _ => acc * 2) (1 : Fr) = Fr.ofNat (2 ^ n) := by
  induction n with
  | zero => rfl
  | succ n ih =>
    rw [range_succ, foldl_append, ih, Nat.pow_succ, ofNatMul]
    rfl

theorem limbsSum (bytes : Bytes) (start : Nat) (acc : Nat) : ((bytes.zipIdx start).map (fun limb =>
      Fr.ofNat limb.1.toNat * (range (limb.2 * 8)).foldl (fun acc _ => acc * 2) 1)).foldl
        (· + ·) (Fr.ofNat acc) = Fr.ofNat (acc + 256 ^ start * leNat bytes) := by
  induction bytes generalizing start acc with
  | nil => simp
  | cons b bytes ih =>
    have power : 2 ^ (start * 8) = 256 ^ start := by
      rw [Nat.mul_comm, Nat.pow_mul]
    rw [zipIdx_cons, map_cons, foldl_cons, doubled, ← ofNatMul, ← ofNatAdd, ih,
      leNatCons, power, Nat.pow_succ]
    congr 1
    ring

theorem assembleBytesEq {bytes : Bytes} (nonempty : bytes ≠ []) :
    assembleBytes bytes = .ok (Fr.ofNat (leNat bytes)) := by
  obtain ⟨b, rest, rfl⟩ := exists_cons_of_ne_nil nonempty
  have sum := limbsSum rest 1 b.toNat
  simp only [assembleBytes, index, bind, Except.bind, zipIdx_cons, getElem?_cons_zero,
    drop_succ_cons, drop_zero, Nat.zero_add, sum, leNatCons, Nat.pow_one]

theorem hashCellsEq {hash : Bytes} (length : hash.length = 32) :
    ∃ fields, hashFieldVec hash = .ok fields ∧ hashCells hash = .ok fields ∧ fields.length = 2 := by
  have enough : (hash.take 31).length = 31 := by simp [length]
  have tail : (hash.drop 31).length = 1 := by simp [length]
  obtain ⟨last, single⟩ := length_eq_one_iff.mp tail
  have lastAt : index hash 31 = .ok last := by
    have found : hash[31]? = some last := by
      have : (hash.drop 31)[0]? = some last := by rw [single]; rfl
      simpa using this
    rw [index, found]
  have nonempty : hash.take 31 ≠ [] := by
    intro none
    simp [none] at enough
  have short : (hash.take 31).length ≤ frBytesStored := by rw [enough]; rfl
  have one : ([last] : Bytes).length ≤ frBytesStored := by simp [frBytesStored]
  refine ⟨[Fr.ofNat last.toNat, Fr.ofNat (leNat (hash.take 31))], ?_, ?_, rfl⟩
  · have count : divCeil hash.length frBytesStored = 2 := by rw [length]; rfl
    have first : bytesFieldReprLoop 1 (hash.take 31) = some [Fr.ofNat (leNat (hash.take 31))] := by
      rw [bytesFieldReprLoop, enough]
      simp [frBytesStored, bytesFieldReprLoop, Fr.fromLeBytesStored short]
    rw [hashFieldVec, bytesFieldRepr, count, bytesFieldReprLoop, length]
    simp [frBytesStored, single, Fr.fromLeBytesStored one, first]
  · simp [hashCells, lastAt, assembleBytesEq nonempty, bind, Except.bind]

open Loops

def boolOf (val : Fr) : Native Bool :=
  if val = 0 then .ok false
  else if val = 1 then .ok true
  else .error (.returned "Expected boolean")

def persistentHashNative (P : Primitives) (hash : Bytes → Bytes) (alignment : Fab.Alignment)
    (inputs : List Fr) : Native (List Fr) :=
  match Alignment.parseFieldRepr alignment inputs with
  | none => .error (.returned "Inputs did not match alignment")
  | some value =>
    match value.binaryRepr P.transientHash with
    | none => .error (.panic "binary representation")
    | some repr => hashFieldVec (hash repr)

def divModNative (val : Fr) (bits : UInt32) : Native (Fr × Fr) :=
  if bits.toNat > frBytesStored * 8 then .error (.returned "Excessive bit count")
  else do
    let valBits ← idxBits val none
    .ok (fromBits (valBits.drop bits.toNat), fromBits (valBits.take bits.toNat))

def lessThanNative (a b : Fr) (bits : UInt32) : Native Fr := do
  let aBits ← idxBits a (some bits.toNat)
  let bBits ← idxBits b (some bits.toNat)
  .ok (boolFr (fromBits aBits < fromBits bBits))

def checkTranscript (mode : Arithmetic) (transcript pis : List Fr) (inputsIdx count : Nat) :
    Native Unit :=
  (range count).forM (fun i => do
    let start ← mode.sub 64 inputsIdx count
    let consumed ← mode.add 64 start i
    let first ← mode.sub 64 pis.length count
    let position ← mode.add 64 first i
    let computed ← index pis position
    if transcript[consumed]? ≠ some computed then
      .error (.returned "Public transcript input mismatch")
    else .ok ())

/- A cell may not differ from the prepared sequence, as far as that goes. -/
def seqPush (expected cells : List Fr) (cell : Fr) : Circuit (List Fr) :=
  match expected[cells.length]? with
  | some value =>
    if value ≠ cell then
      .error (.returned "Misalignment between prepare and synthesize runs. This is a bug.")
    else .ok (cells ++ [cell])
  | none => .ok (cells ++ [cell])

def leadingInputs (committed : Bool) (preimage : ProofPreimage) : Native (List Fr) :=
  if committed then
    match preimage.communicationsCommitment with
    | some commitment => .ok [preimage.bindingInput, commitment.1]
    | none => .error (.returned "Expected communications commitment")
  else .ok [preimage.bindingInput]

def checkCommitment (P : Primitives) (committed : Bool) (preimage : ProofPreimage)
    (outputs : List Fr) : Native Unit :=
  if committed then
    match preimage.communicationsCommitment with
    | none => .error (.returned "Expected communications randomness")
    | some (commitment, randomness) =>
      if commitment ≠ transientCommit P.transientHash (preimage.inputs ++ outputs) randomness then
        .error (.returned "Communications commitment mismatch")
      else .ok ()
  else .ok ()

def leadingCells (committed : Bool) (expected : List Fr) (bindingInput : Fr)
    (commComm : Option (Fr × Fr)) : Circuit (List Fr) := do
  let cells ← seqPush expected [] bindingInput
  if committed then
    match commComm with
    | none => .error (.panic "Communication commitment not present despite preproc.")
    | some commitment => seqPush expected cells commitment.1
  else .ok cells

/- The committed cells, which the circuit encodes only where a commitment is asked for. -/
def constrainCommitment (P : Primitives) (committed : Bool) (chips : Chips)
    (commComm : Option (Fr × Fr)) (publicInputs : List Fr) (encoded : Circuit (List Fr)) :
    Circuit Unit :=
  if committed then
    match commComm with
    | none => .error (.panic "Communication commitment not present despite preproc.")
    | some commitment => do
      let cells ← encoded
      chip "poseidon" chips.poseidon
      let second ← index publicInputs 1
      assertEqual (P.transientHash (commitment.2 :: cells)) second
  else .ok ()

def reconstituteRangesCell (mode : Arithmetic) (divisor modulus : Fr) (bits : UInt32) :
    Circuit Fr := do
  let high ← mode.sub 32 frBits bits.toNat
  assertLowerThanFixed divisor (2 ^ high)
  assertLowerThanFixed modulus (2 ^ bits.toNat)
  .ok (1 * modulus + Fr.ofNat (2 ^ bits.toNat) * divisor + 0)

def optionFree (alignment : Fab.Alignment) : Bool :=
  alignment.all (fun segment => match segment with
    | .atom _ => true
    | .option _ => false)

variable {val divisor modulus : Fr} {bits : UInt32}

theorem boolOfBit {b : Bool} (ok : boolOf val = .ok b) : toBit val = .ok b ∧ val = boolFr b := by
  unfold boolOf at ok
  split at ok
  · rename_i zero
    cases ok
    subst zero
    exact ⟨rfl, rfl⟩
  · obtain ⟨one, ok⟩ := thenOk.mp ok
    cases ok
    subst one
    exact ⟨rfl, rfl⟩

theorem seqPushOk {expected cells : List Fr} {cell : Fr}
    (grown : cells ++ [cell] <+: expected) : seqPush expected cells cell = .ok (cells ++ [cell]) := by
  obtain ⟨rest, rfl⟩ := grown
  simp [seqPush]

section Commitments

variable {committed : Bool} {preimage : ProofPreimage} {pis : List Fr}
  (leading : leadingInputs committed preimage = .ok pis)

include leading

theorem leadingCellsOk {expected : List Fr} (grown : pis <+: expected) :
    leadingCells committed expected preimage.bindingInput preimage.communicationsCommitment =
      .ok pis := by
  unfold leadingInputs at leading
  unfold leadingCells
  split at leading
  · rename_i asked
    split at leading <;> try contradiction
    rename_i pair present
    cases leading
    have one : [] ++ [preimage.bindingInput] <+: expected :=
      (prefix_append [preimage.bindingInput] [pair.1]).trans grown
    rw [seqPushOk one, okBind, if_pos asked, present]
    exact seqPushOk grown
  · rename_i plain
    cases leading
    have one : [] ++ [preimage.bindingInput] <+: expected := grown
    rw [seqPushOk one, okBind, if_neg plain]
    rfl

theorem commitmentConstrained {P : Primitives} {chips : Chips} {outputs publicInputs : List Fr}
    {encoded : Circuit (List Fr)} (checked : checkCommitment P committed preimage outputs = .ok ())
    (poseidon : committed → chips.poseidon) (grown : pis <+: publicInputs)
    (cells : encoded = .ok (preimage.inputs ++ outputs)) :
    constrainCommitment P committed chips preimage.communicationsCommitment publicInputs encoded =
      .ok () := by
  unfold leadingInputs at leading
  unfold checkCommitment at checked
  unfold constrainCommitment
  split
  · rename_i asked
    rw [if_pos asked] at leading checked
    split at checked <;> try contradiction
    rename_i value randomness present
    rw [present] at leading ⊢
    cases leading
    obtain ⟨same, checked⟩ := elseOk.mp checked
    obtain ⟨rest, whole⟩ := grown
    have second : index publicInputs 1 = .ok value := by
      rw [← whole]
      rfl
    have equal : value = P.transientHash (randomness :: (preimage.inputs ++ outputs)) :=
      not_not.mp same
    simp only [cells, chip, poseidon asked, okBind, second, ← equal, assertEqual, require,
      decide_true, if_true]
  · rfl

end Commitments

theorem lessThanCell (mode : Arithmetic) {a b : Fr} (ok : lessThanNative a b bits = .ok val) :
    ∃ even, mode.add 32 bits.toNat (bits.toNat % 2) = .ok even ∧
      lowerThan a b (max even 4) = .ok (a.val < b.val) ∧ val = boolFr (a.val < b.val) := by
  obtain ⟨aBits, aOk, rest⟩ := bindOk.mp ok
  obtain ⟨bBits, bOk, last⟩ := bindOk.mp rest
  obtain ⟨width, aSmall, rfl⟩ := idxBitsSome.mp aOk
  obtain ⟨-, bSmall, rfl⟩ := idxBitsSome.mp bOk
  have noOverflow : bits.toNat + bits.toNat % 2 < 2 ^ 32 := by
    unfold frBits at width
    omega
  have wider : 2 ^ bits.toNat ≤ 2 ^ max (bits.toNat + bits.toNat % 2) 4 :=
    Nat.pow_le_pow_right (by decide) (by omega)
  have value : ∀ {x : Fr}, x.val < 2 ^ bits.toNat →
      fromBits (BitString.natBits bits.toNat x.val) = x := by
    intro x small
    rw [fromBitsEq, BitString.bitsNatNatBits, Nat.mod_eq_of_lt small, ofNatSelf]
  rw [value aSmall, value bSmall] at last
  refine ⟨bits.toNat + bits.toNat % 2, if_pos noOverflow, ?_, (Except.ok.inj last).symm⟩
  have left : a.val < 2 ^ max (bits.toNat + bits.toNat % 2) 4 := aSmall.trans_le wider
  have right : b.val < 2 ^ max (bits.toNat + bits.toNat % 2) 4 := bSmall.trans_le wider
  simp only [lowerThan, require, left, right, and_self, decide_true, if_true, okBind]

theorem divModCell (ok : divModNative val bits = .ok (divisor, modulus)) :
    Zkir.divModPowerOfTwo val bits = .ok (divisor, modulus) := by
  unfold divModNative at ok
  obtain ⟨narrow, ok⟩ := elseOk.mp ok
  have inside : bits.toNat ≤ frBits := by unfold frBytesStored at narrow; unfold frBits; omega
  have whole : val.val < 2 ^ 256 := val.isLt.trans (by decide)
  have high : val.val / 2 ^ bits.toNat < 2 ^ (256 - bits.toNat) := by
    have wide : bits.toNat ≤ 256 := by unfold frBits at inside; omega
    rw [Nat.div_lt_iff_lt_mul (by positivity), ← Nat.pow_add, Nat.sub_add_cancel wide]
    exact whole
  have wide : bits.toNat ≤ 256 := by unfold frBits at inside; omega
  rw [divModValue inside]
  simp only [idxBits, okBind, toBitsEq, BitString.natBitsDrop, BitString.natBitsTake wide,
    fromBitsEq, BitString.bitsNatNatBits, Nat.mod_eq_of_lt high] at ok
  exact ok

theorem rangesCellOk (mode : Arithmetic)
    (ok : reconstituteNative divisor modulus bits.toNat = .ok val) :
    reconstituteRangesCell mode divisor modulus bits = .ok val := by
  obtain ⟨⟨-, narrow⟩, ⟨low, high⟩, -, rfl⟩ := reconstituteNativeIff.mp ok
  have inside : bits.toNat ≤ frBits := by unfold frBytesStored at narrow; unfold frBits; omega
  have sub : mode.sub 32 frBits bits.toNat = .ok (frBits - bits.toNat) := if_pos inside
  have sum : 1 * modulus + Fr.ofNat (2 ^ bits.toNat) * divisor + 0 =
      Fr.ofNat (divisor.val * 2 ^ bits.toNat + modulus.val) := by
    rw [← combined, Fin.one_mul, Fin.add_zero]
    exact Fin.ext (by rw [Fin.val_add, Fin.val_add, Nat.add_comm])
  simp only [reconstituteRangesCell, sub, okBind, assertLowerThanFixed, require, low, high,
    decide_true, if_true, sum]

theorem optionFreeAtoms {alignment : Fab.Alignment} (free : optionFree alignment = true) :
    ∃ atoms : List AlignmentAtom, alignment = atoms.map .atom := by
  induction alignment with
  | nil => exact ⟨[], rfl⟩
  | cons segment rest ih =>
    simp only [optionFree, all_cons, Bool.and_eq_true] at free
    obtain ⟨atoms, rfl⟩ := ih free.2
    cases segment with
    | atom a => exact ⟨a :: atoms, rfl⟩
    | option branches => simp at free

end MidnightLedger.Zkir

import MidnightLedger.Lib.Simulation
import MidnightLedger.Zkir.Shared

/-! Version 2 programs and their two interpreters (zkir/src/ir_vm.rs): `preprocess` produces the
witness, `circuit` synthesizes on it and follows step by step. A circuit cell is its value in the
honest assignment. The one instruction that the circuit cannot follow is a persistent hash over an
alignment with options. -/
namespace MidnightLedger.Zkir.V2
open ByteString Fab BitString

abbrev Index := Nat

inductive Instruction where
  | assert (cond : Index)
  | condSelect (bit a b : Index)
  | constrainBits (var : Index) (bits : UInt32)
  | constrainEq (a b : Index)
  | constrainToBoolean (var : Index)
  | copy (var : Index)
  | declarePubInput (var : Index)
  | piSkip (guard : Option Index) (count : UInt32)
  | ecAdd (aX aY bX bY : Index)
  | ecMul (aX aY scalar : Index)
  | ecMulGenerator (scalar : Index)
  | hashToCurve (inputs : List Index)
  | loadImm (imm : Fr)
  | divModPowerOfTwo (var : Index) (bits : UInt32)
  | reconstituteField (divisor modulus : Index) (bits : UInt32)
  | output (var : Index)
  | transientHash (inputs : List Index)
  | persistentHash (alignment : Fab.Alignment) (inputs : List Index)
  | testEq (a b : Index)
  | add (a b : Index)
  | mul (a b : Index)
  | neg (a : Index)
  | not (a : Index)
  | lessThan (a b : Index) (bits : UInt32)
  | publicInput (guard : Option Index)
  | privateInput (guard : Option Index)
  deriving Repr

structure IrSource where
  version : IrMinorVersion
  numInputs : Nat
  doCommunicationsCommitment : Bool
  instructions : List Instruction
  deriving Repr

structure Preprocessed where
  memory : List Fr
  pis : List Fr
  piSkips : List (Option Nat)
  bindingInput : Fr
  commComm : Option (Fr × Fr)
  deriving DecidableEq, Repr

structure PreState where
  memory : List Fr
  pis : List Fr
  piSkips : List (Option Nat)
  publicTranscriptInputsIdx : Nat
  publicTranscriptOutputsIdx : Nat
  privateTranscriptOutputsIdx : Nat
  outputs : List Fr
  deriving DecidableEq, Repr

def PreState.push (st : PreState) (values : List Fr) : PreState :=
  { st with memory := st.memory ++ values }

def idx (memory : List Fr) (i : Index) : Native Fr :=
  match memory[i]? with
  | some val => .ok val
  | none => .error (.returned "index out of bounds")

def idxBool (memory : List Fr) (i : Index) : Native Bool := do
  let val ← idx memory i
  boolOf val

def guardOff (memory : List Fr) : Option Index → Native Bool
  | none => .ok false
  | some guard => do
    let on ← idxBool memory guard
    .ok (!on)

def idxPoint (P : Primitives) (memory : List Fr) (x y : Index) : Native P.Point := do
  let x ← idx memory x
  let y ← idx memory y
  match P.newPoint x y with
  | some point => .ok point
  | none => .error (.returned "Elliptic curve point not on curve")

def fromPoint (P : Primitives) (point : P.Point) : List Fr :=
  [(P.coordinates point).1, (P.coordinates point).2]

/- `Mul<Fr>` subtracts the embedded modulus until the scalar is below it. -/
def mulFr (P : Primitives) (point : P.Point) (scalar : Fr) : P.Point :=
  P.pointMul point (P.scalarOfNat (scalar.val % jubjubOrder))

def nextOf (transcript : List Fr) (position : Nat) (exhausted : String) : Native Fr :=
  match transcript[position]? with
  | some val => .ok val
  | none => .error (.returned exhausted)

def preprocessStep (P : Primitives) (mode : Arithmetic) (preimage : ProofPreimage)
    (st : PreState) : Instruction → Native PreState
  | .add a b => do
    let a ← idx st.memory a
    let b ← idx st.memory b
    .ok (st.push [a + b])
  | .mul a b => do
    let a ← idx st.memory a
    let b ← idx st.memory b
    .ok (st.push [a * b])
  | .neg a => do
    let a ← idx st.memory a
    .ok (st.push [-a])
  | .not a => do
    let a ← idxBool st.memory a
    .ok (st.push [boolFr (!a)])
  | .constrainEq a b => do
    let a ← idx st.memory a
    let b ← idx st.memory b
    if a ≠ b then .error (.returned "Failed equality constraint") else .ok st
  | .condSelect bit a b => do
    let bit ← idxBool st.memory bit
    let a ← idx st.memory a
    let b ← idx st.memory b
    .ok (st.push [if bit then a else b])
  | .assert cond => do
    let cond ← idxBool st.memory cond
    if !cond then .error (.returned "Failed direct assertion") else .ok st
  | .testEq a b => do
    let a ← idx st.memory a
    let b ← idx st.memory b
    .ok (st.push [boolFr (a == b)])
  | .publicInput guard => do
    let skipped ← guardOff st.memory guard
    if skipped then .ok (st.push [0])
    else do
      let val ← nextOf preimage.publicTranscriptOutputs st.publicTranscriptOutputsIdx
        "Ran out of public transcript outputs"
      .ok { st.push [val] with publicTranscriptOutputsIdx := st.publicTranscriptOutputsIdx + 1 }
  | .declarePubInput var => do
    let val ← idx st.memory var
    let next ← mode.add 64 st.publicTranscriptInputsIdx 1
    .ok { st with pis := st.pis ++ [val], publicTranscriptInputsIdx := next }
  | .privateInput guard => do
    let skipped ← guardOff st.memory guard
    if skipped then .ok (st.push [0])
    else do
      let val ← nextOf preimage.privateTranscript st.privateTranscriptOutputsIdx
        "Ran out of private transcript outputs"
      .ok { st.push [val] with privateTranscriptOutputsIdx := st.privateTranscriptOutputsIdx + 1 }
  | .copy var => do
    let val ← idx st.memory var
    .ok (st.push [val])
  | .constrainToBoolean var => do
    let _ ← idxBool st.memory var
    .ok st
  | .constrainBits var bits => do
    let val ← idx st.memory var
    let _ ← idxBits val (some bits.toNat)
    .ok st
  | .divModPowerOfTwo var bits => do
    let val ← idx st.memory var
    let (divisor, modulus) ← divModNative val bits
    .ok (st.push [divisor, modulus])
  | .reconstituteField divisor modulus bits => do
    let divisor ← idx st.memory divisor
    let modulus ← idx st.memory modulus
    let val ← reconstituteNative divisor modulus bits.toNat
    .ok (st.push [val])
  | .lessThan a b bits => do
    let a ← idx st.memory a
    let b ← idx st.memory b
    let val ← lessThanNative a b bits
    .ok (st.push [val])
  | .transientHash inputs => do
    let inputs ← inputs.mapM (idx st.memory)
    .ok (st.push [P.transientHash inputs])
  | .persistentHash alignment inputs => do
    let inputs ← inputs.mapM (idx st.memory)
    let fields ← persistentHashNative P P.persistentHash alignment inputs
    .ok (st.push fields)
  | .piSkip guard count => do
    let skipped ← guardOff st.memory guard
    if skipped then do
      let back ← mode.sub 64 st.publicTranscriptInputsIdx count.toNat
      .ok { st with piSkips := st.piSkips ++ [some count.toNat], publicTranscriptInputsIdx := back }
    else do
      checkTranscript mode preimage.publicTranscriptInputs st.pis st.publicTranscriptInputsIdx
        count.toNat
      .ok { st with piSkips := st.piSkips ++ [none] }
  | .loadImm imm => .ok (st.push [imm])
  | .output var => do
    let val ← idx st.memory var
    .ok { st with outputs := st.outputs ++ [val] }
  | .ecAdd aX aY bX bY => do
    let a ← idxPoint P st.memory aX aY
    let b ← idxPoint P st.memory bX bY
    .ok (st.push (fromPoint P (P.pointAdd a b)))
  | .hashToCurve inputs => do
    let inputs ← inputs.mapM (idx st.memory)
    .ok (st.push (fromPoint P (P.hashToCurve inputs)))
  | .ecMul aX aY scalar => do
    let a ← idxPoint P st.memory aX aY
    let scalar ← idx st.memory scalar
    .ok (st.push (fromPoint P (mulFr P a scalar)))
  | .ecMulGenerator scalar => do
    let scalar ← idx st.memory scalar
    .ok (st.push (fromPoint P (mulFr P P.generator scalar)))

def preprocess (P : Primitives) (mode : Arithmetic) (src : IrSource) (preimage : ProofPreimage) :
    Native Preprocessed :=
  if preimage.inputs.length ≠ src.numInputs then
    .error (.returned "Expected another number of inputs")
  else do
    let pis ← leadingInputs src.doCommunicationsCommitment preimage
    let st ← Simulation.run (preprocessStep P mode preimage)
      ⟨preimage.inputs, pis, [], 0, 0, 0, []⟩ src.instructions
    if preimage.publicTranscriptInputs.length ≠ st.publicTranscriptInputsIdx ∨
        preimage.publicTranscriptOutputs.length ≠ st.publicTranscriptOutputsIdx ∨
        preimage.privateTranscript.length ≠ st.privateTranscriptOutputsIdx then
      .error (.returned "Transcripts not fully consumed")
    else do
      checkCommitment P src.doCommunicationsCommitment preimage st.outputs
      .ok ⟨st.memory, st.pis, st.piSkips, preimage.bindingInput, preimage.communicationsCommitment⟩

open Instruction

structure CircuitState where
  memory : List Fr
  publicInputs : List Fr
  outputs : List Fr
  deriving DecidableEq, Repr

def memPush (witness : Preprocessed) (st : CircuitState) (cells : List Fr) :
    Circuit CircuitState := do
  let memory ← cells.foldlM (seqPush witness.memory) st.memory
  .ok { st with memory }

def piPush (witness : Preprocessed) (st : CircuitState) (cell : Fr) : Circuit CircuitState := do
  let publicInputs ← seqPush witness.pis st.publicInputs cell
  .ok { st with publicInputs }

def cellAt (memory : List Fr) (i : Index) : Circuit Fr :=
  match memory[i]? with
  | some cell => .ok cell
  | none => .error (.returned "missing index")

def eccFromParts (P : Primitives) (chips : Chips) (x y : Fr) : Circuit P.Point :=
  match P.newPoint x y with
  | none => .error (.returned "invalid point")
  | some point => do
    chip "jubjub" chips.jubjub
    assertEqual x (P.coordinates point).1
    assertEqual y (P.coordinates point).2
    .ok point

def reconstituteCell (version : IrMinorVersion) (mode : Arithmetic) (divisor modulus : Fr)
    (bits : UInt32) : Circuit Fr :=
  match version with
  | .v0 => do
    let high ← mode.sub 64 frBits bits.toNat
    let divisorBits ← assignedToLeBits divisor (some high)
    let modulusBits ← assignedToLeBits modulus (some bits.toNat)
    .ok (fromBits (modulusBits ++ divisorBits))
  | .v1 | .v2 => reconstituteRangesCell mode divisor modulus bits

/- The value of an input comes from the witness; under a guard it must be zero
unless the guard is on. -/
def inputCell (witness : Preprocessed) (memory : List Fr) (guard : Option Index) : Circuit Fr := do
  let guard ← match guard with
    | none => .ok none
    | some guard => do
      let cell ← cellAt memory guard
      .ok (some cell)
  if memory.length > witness.memory.length then .error (.returned "witness too short")
  else do
    let value ← index witness.memory memory.length
    match guard with
    | none => .ok value
    | some guard => do
      let guardBit ← toBit guard
      assertNonZero (boolFr ((value = 0) || guardBit))
      .ok value

def circuitStep (P : Primitives) (version : IrMinorVersion) (mode : Arithmetic) (chips : Chips)
    (witness : Preprocessed) (st : CircuitState) : Instruction → Circuit CircuitState
  | .assert cond => do
    let cond ← cellAt st.memory cond
    assertNonZero cond
    .ok st
  | .condSelect bit a b =>
    match version with
    | .v0 => do
      let bit ← cellAt st.memory bit
      let b ← cellAt st.memory b
      let a ← cellAt st.memory a
      memPush witness st [if bit = 0 then b else a]
    | .v1 | .v2 => do
      let bit ← cellAt st.memory bit
      let bit ← toBit bit
      let a ← cellAt st.memory a
      let b ← cellAt st.memory b
      memPush witness st [if bit then a else b]
  | .constrainBits var bits =>
    match version with
    | .v0 => do
      let var ← cellAt st.memory var
      let _ ← assignedToLeBits var (some bits.toNat)
      .ok st
    | .v1 | .v2 =>
      if bits.toNat < frBits then do
        let var ← cellAt st.memory var
        assertLowerThanFixed var (2 ^ bits.toNat)
        .ok st
      else .ok st
  | .constrainEq a b => do
    let a ← cellAt st.memory a
    let b ← cellAt st.memory b
    assertEqual a b
    .ok st
  | .constrainToBoolean var => do
    let var ← cellAt st.memory var
    let _ ← toBit var
    .ok st
  | .copy var => do
    let var ← cellAt st.memory var
    memPush witness st [var]
  | .declarePubInput var => do
    let var ← cellAt st.memory var
    piPush witness st var
  | .piSkip _ _ => .ok st
  | .loadImm imm => memPush witness st [imm]
  | .output var => do
    let var ← cellAt st.memory var
    .ok { st with outputs := st.outputs ++ [var] }
  | .transientHash inputs => do
    let inputs ← inputs.mapM (cellAt st.memory)
    chip "poseidon" chips.poseidon
    memPush witness st [P.transientHash inputs]
  | .persistentHash alignment inputs => do
    let inputs ← inputs.mapM (cellAt st.memory)
    let bytes ← fabDecodeToBytes alignment inputs
    chip "sha2_256" chips.sha2
    let cells ← hashCells (P.persistentHash bytes)
    memPush witness st cells
  | .testEq a b => do
    let a ← cellAt st.memory a
    let b ← cellAt st.memory b
    memPush witness st [boolFr (a == b)]
  | .add a b => do
    let a ← cellAt st.memory a
    let b ← cellAt st.memory b
    memPush witness st [a + b]
  | .mul a b => do
    let a ← cellAt st.memory a
    let b ← cellAt st.memory b
    memPush witness st [a * b]
  | .neg a => do
    let a ← cellAt st.memory a
    memPush witness st [-a]
  | .not a => do
    let a ← cellAt st.memory a
    memPush witness st [boolFr (a = 0)]
  | .lessThan a b bits => do
    let a ← cellAt st.memory a
    let b ← cellAt st.memory b
    let even ← mode.add 32 bits.toNat (bits.toNat % 2)
    let lower ← lowerThan a b (max even 4)
    memPush witness st [boolFr lower]
  | .publicInput guard | .privateInput guard => do
    let value ← inputCell witness st.memory guard
    memPush witness st [value]
  | .divModPowerOfTwo var bits => do
    let var ← cellAt st.memory var
    let (divisor, modulus) ← Zkir.divModPowerOfTwo var bits
    memPush witness st [divisor, modulus]
  | .reconstituteField divisor modulus bits => do
    let divisor ← cellAt st.memory divisor
    let modulus ← cellAt st.memory modulus
    let cell ← reconstituteCell version mode divisor modulus bits
    memPush witness st [cell]
  | .ecAdd aX aY bX bY => do
    let aX ← cellAt st.memory aX
    let aY ← cellAt st.memory aY
    let a ← eccFromParts P chips aX aY
    let bX ← cellAt st.memory bX
    let bY ← cellAt st.memory bY
    let b ← eccFromParts P chips bX bY
    memPush witness st (fromPoint P (P.pointAdd a b))
  | .ecMul aX aY scalar => do
    let aX ← cellAt st.memory aX
    let aY ← cellAt st.memory aY
    let a ← eccFromParts P chips aX aY
    let scalar ← cellAt st.memory scalar
    memPush witness st (fromPoint P (P.pointMul a (P.scalarOfNat scalar.val)))
  | .ecMulGenerator scalar => do
    chip "jubjub" chips.jubjub
    let scalar ← cellAt st.memory scalar
    memPush witness st (fromPoint P (P.pointMul P.generator (P.scalarOfNat scalar.val)))
  | .hashToCurve inputs => do
    let inputs ← inputs.mapM (cellAt st.memory)
    chip "hash_to_curve" (chips.jubjub && chips.poseidon)
    memPush witness st (fromPoint P (P.hashToCurve inputs))

def usedChips (src : IrSource) : Chips where
  jubjub := src.instructions.any
      (· matches .ecAdd .. | .ecMul .. | .ecMulGenerator .. | .hashToCurve ..) ||
    src.instructions.any (· matches .hashToCurve ..)
  poseidon := (src.doCommunicationsCommitment ||
      src.instructions.any (· matches .transientHash ..)) ||
    src.instructions.any (· matches .hashToCurve ..)
  sha2 := src.instructions.any (· matches .persistentHash ..)
  keccak := false
  secp256k1 := false

def initialCells (src : IrSource) (witness : Preprocessed) : Circuit CircuitState := do
  if witness.memory.length < src.numInputs then
    .error (.panic "range end index out of range for slice")
  else do
    let publicInputs ← leadingCells src.doCommunicationsCommitment witness.pis
      witness.bindingInput witness.commComm
    .ok ⟨witness.memory.take src.numInputs, publicInputs, []⟩

def circuit (P : Primitives) (mode : Arithmetic) (src : IrSource) (witness : Preprocessed) :
    Circuit (List Fr × List Fr) := do
  let start ← initialCells src witness
  let st ← Simulation.run (circuitStep P src.version mode (usedChips src) witness) start
    src.instructions
  constrainCommitment P src.doCommunicationsCommitment (usedChips src) witness.commComm
    st.publicInputs (.ok (start.memory ++ st.outputs))
  .ok (st.memory, st.publicInputs)

open Loops List PreState Simulation

variable {memory : List Fr} {witness : Preprocessed} {P : Primitives} {version : IrMinorVersion}
  {mode : Arithmetic} {preimage : ProofPreimage} {ins : Instruction} {src : IrSource} {i : Index}
  {val : Fr} {chips : Chips} {st : PreState} {pis : List Fr}

theorem idxCell (ok : idx memory i = .ok val) : cellAt memory i = .ok val := by
  unfold idx at ok
  unfold cellAt
  cases found : memory[i]? with
  | none => simp [found] at ok
  | some cell => simpa [found] using ok

theorem idxCells {is : List Index} {vals : List Fr} (ok : is.mapM (idx memory) = .ok vals) :
    is.mapM (cellAt memory) = .ok vals := by
  induction is generalizing vals with
  | nil => exact ok
  | cons i is ih =>
    rw [mapM_cons] at ok ⊢
    obtain ⟨val, first, rest⟩ := bindOk.mp ok
    obtain ⟨tail, others, last⟩ := bindOk.mp rest
    rw [idxCell first, okBind, ih others, okBind]
    exact last

theorem idxBoolCell {b : Bool} (ok : idxBool memory i = .ok b) :
    cellAt memory i = .ok (boolFr b) ∧ toBit (boolFr b) = .ok b := by
  obtain ⟨val, found, isBool⟩ := bindOk.mp ok
  obtain ⟨bit, rfl⟩ := boolOfBit isBool
  exact ⟨idxCell found, bit⟩

theorem memPushOk (st : CircuitState) {cells : List Fr}
    (grown : st.memory ++ cells <+: witness.memory) :
    memPush witness st cells = .ok { st with memory := st.memory ++ cells } := by
  have pushed : ∀ {memory : List Fr}, memory ++ cells <+: witness.memory →
      cells.foldlM (seqPush witness.memory) memory = .ok (memory ++ cells) := by
    clear grown
    induction cells with
    | nil => intro memory _; simp [pure, Except.pure]
    | cons cell cells ih =>
      intro memory grown
      have assoc : memory ++ cell :: cells = (memory ++ [cell]) ++ cells := by simp
      rw [assoc] at grown ⊢
      rw [foldlM_cons, seqPushOk ((prefix_append _ _).trans grown), okBind]
      exact ih grown
  rw [memPush, pushed grown, okBind]

theorem pointCells {j : Index} {p : P.Point} (enabled : chips.jubjub)
    (ok : idxPoint P memory i j = .ok p) :
    ∃ x y, cellAt memory i = .ok x ∧ cellAt memory j = .ok y ∧
      eccFromParts P chips x y = .ok p := by
  obtain ⟨x, foundX, rest⟩ := bindOk.mp ok
  obtain ⟨y, foundY, last⟩ := bindOk.mp rest
  cases made : P.newPoint x y with
  | none => simp [made] at last
  | some q =>
    rw [made] at last
    cases last
    refine ⟨x, y, idxCell foundX, idxCell foundY, ?_⟩
    simp [eccFromParts, made, P.newPointCoordinates made, chip, enabled, assertEqual, require,
      bind, Except.bind]

theorem reconstitutedCell {divisor modulus : Fr} {bits : UInt32}
    (ok : reconstituteNative divisor modulus bits.toNat = .ok val) :
    reconstituteCell version mode divisor modulus bits = .ok val := by
  obtain ⟨⟨-, narrow⟩, ⟨low, high⟩, -, rfl⟩ := reconstituteNativeIff.mp ok
  have inside : bits.toNat ≤ frBits := by unfold frBytesStored at narrow; unfold frBits; omega
  have sub : mode.sub 64 frBits bits.toNat = .ok (frBits - bits.toNat) := if_pos inside
  have bitsSum : fromBits (natBits bits.toNat modulus.val ++
      natBits (frBits - bits.toNat) divisor.val) =
      Fr.ofNat (divisor.val * 2 ^ bits.toNat + modulus.val) := by
    rw [fromBitsEq, bitsNatAppend, natBitsLength, bitsNatNatBits,
      bitsNatNatBits, Nat.mod_eq_of_lt low, Nat.mod_eq_of_lt high, Nat.mul_comm,
      Nat.add_comm]
  cases version with
  | v0 =>
    simp only [reconstituteCell, sub, okBind, assignedToLeBits, require, low, high, decide_true,
      if_true, bitsSum]
  | v1 => exact rangesCellOk mode ok
  | v2 => exact rangesCellOk mode ok

theorem inputCellOk {guard : Option Index} {skipped : Bool}
    (ok : guardOff memory guard = .ok skipped) (zero : skipped → val = 0)
    (grown : memory ++ [val] <+: witness.memory) : inputCell witness memory guard = .ok val := by
  obtain ⟨rest, whole⟩ := grown
  have next : index witness.memory memory.length = .ok val := by
    rw [← whole]
    simp [index]
  have room : ¬ memory.length > witness.memory.length := by
    rw [← whole]
    simp
  cases guard with
  | none => simp only [inputCell, okBind, room, if_false, next]
  | some guard =>
    obtain ⟨on, found, same⟩ := bindOk.mp ok
    obtain ⟨cell, bit⟩ := idxBoolCell found
    have allowed : assertNonZero (boolFr ((decide (val = 0)) || on)) = .ok () := by
      have accepted : assertNonZero (boolFr true) = .ok () := rfl
      cases on with
      | true => rw [Bool.or_true, accepted]
      | false =>
        cases same
        rw [decide_eq_true (zero rfl), Bool.true_or, accepted]
    simp only [inputCell, cell, okBind, room, if_false, next, bit, allowed]

def Instruction.optionFree : Instruction → Bool
  | .persistentHash alignment _ => Zkir.optionFree alignment
  | _ => true

def Instruction.enabled (chips : Chips) : Instruction → Bool
  | .ecAdd .. | .ecMul .. | .ecMulGenerator .. => chips.jubjub
  | .hashToCurve .. => chips.jubjub && chips.poseidon
  | .transientHash .. => chips.poseidon
  | .persistentHash .. => chips.sha2
  | _ => true

theorem persistentHashCells {hash : Bytes → Bytes} (length : ∀ bytes, (hash bytes).length = 32)
    {alignment : Fab.Alignment} {inputs fields : List Fr} (free : Zkir.optionFree alignment)
    (ok : persistentHashNative P hash alignment inputs = .ok fields) :
    ∃ bytes, fabDecodeToBytes alignment inputs = .ok bytes ∧
      hashCells (hash bytes) = .ok fields := by
  obtain ⟨atoms, rfl⟩ := optionFreeAtoms free
  unfold persistentHashNative at ok
  split at ok <;> try contradiction
  rename_i value parsed
  obtain ⟨bytes, _, native, decoded, -⟩ := parsedDecoded P.transientHash parsed
  rw [native] at ok
  obtain ⟨same, vec, cells, -⟩ := hashCellsEq (length bytes)
  rw [show fields = same from Except.ok.inj (ok.symm.trans vec)]
  exact ⟨bytes, decoded, cells⟩

def PreState.view (st : PreState) : CircuitState := ⟨st.memory, st.pis, st.outputs⟩

def Follows (st : PreState) (cells : CircuitState) : Prop := cells = st.view

def Grown (s t : PreState) : Prop := s.memory <+: t.memory ∧ s.pis <+: t.pis

theorem stepSimulates {next : PreState} (ok : preprocessStep P mode preimage st ins = .ok next)
    (free : ins.optionFree) (enabled : ins.enabled chips)
    (memory : next.memory <+: witness.memory) (pis : next.pis <+: witness.pis) :
    circuitStep P version mode chips witness st.view ins = .ok next.view := by
  cases ins with
  | assert cond =>
    obtain ⟨b, found, last⟩ := bindOk.mp ok
    obtain ⟨cell, -⟩ := idxBoolCell found
    cases b with
    | false => simp at last
    | true =>
      cases last
      have accepted : assertNonZero (boolFr true) = .ok () := rfl
      simp only [circuitStep, view, cell, okBind, accepted]
  | condSelect bit a b =>
    obtain ⟨on, found, ok⟩ := bindOk.mp ok
    obtain ⟨left, foundA, ok⟩ := bindOk.mp ok
    obtain ⟨right, foundB, rfl⟩ := pureOk.mp ok
    obtain ⟨cell, isBit⟩ := idxBoolCell found
    have pushed := memPushOk st.view memory
    cases version with
    | v0 =>
      simp only [circuitStep, view, cell, idxCell foundA, idxCell foundB, okBind]
      cases on with
      | true => exact pushed
      | false => exact pushed
    | v1 | v2 =>
      simp only [circuitStep, view, cell, isBit, idxCell foundA, idxCell foundB, okBind]
      exact pushed
  | constrainBits var bits =>
    obtain ⟨val, found, ok⟩ := bindOk.mp ok
    obtain ⟨valBits, bounded, rfl⟩ := pureOk.mp ok
    obtain ⟨width, small, rfl⟩ := idxBitsSome.mp bounded
    cases version with
    | v0 =>
      simp only [circuitStep, view, idxCell found, okBind, assignedToLeBits, require,
        small, decide_true, if_true]
    | v1 | v2 =>
      simp only [circuitStep, view, width, if_true, idxCell found, okBind,
        assertLowerThanFixed, require, small, decide_true]
  | constrainEq a b =>
    obtain ⟨left, foundA, ok⟩ := bindOk.mp ok
    obtain ⟨right, foundB, last⟩ := bindOk.mp ok
    obtain ⟨same, last⟩ := elseOk.mp last
    cases last
    have equal : left = right := not_not.mp same
    simp only [circuitStep, view, idxCell foundA, idxCell foundB, okBind, assertEqual,
      require, equal, decide_true, if_true]
  | constrainToBoolean var =>
    obtain ⟨b, found, rfl⟩ := pureOk.mp ok
    obtain ⟨cell, isBit⟩ := idxBoolCell found
    simp only [circuitStep, view, cell, isBit, okBind]
  | copy var | neg a =>
    obtain ⟨val, found, rfl⟩ := pureOk.mp ok
    simp only [circuitStep, view, idxCell found, okBind]
    exact memPushOk st.view memory
  | declarePubInput var =>
    obtain ⟨val, found, ok⟩ := bindOk.mp ok
    obtain ⟨after, -, rfl⟩ := pureOk.mp ok
    simp only [circuitStep, view, idxCell found, okBind, piPush, seqPushOk pis]
  | piSkip guard count =>
    obtain ⟨skipped, -, ok⟩ := bindOk.mp ok
    cases skipped with
    | true =>
      obtain ⟨back, -, rfl⟩ := pureOk.mp ok
      rfl
    | false =>
      obtain ⟨_, -, rfl⟩ := pureOk.mp ok
      rfl
  | loadImm imm =>
    cases ok
    exact memPushOk st.view memory
  | output var =>
    obtain ⟨val, found, rfl⟩ := pureOk.mp ok
    simp only [circuitStep, view, idxCell found, okBind]
  | transientHash inputs =>
    obtain ⟨vals, found, rfl⟩ := pureOk.mp ok
    simp only [circuitStep, view, idxCells found, okBind, chip, show chips.poseidon from enabled, if_true]
    exact memPushOk st.view memory
  | persistentHash alignment inputs =>
    obtain ⟨vals, found, ok⟩ := bindOk.mp ok
    obtain ⟨fields, hashed, rfl⟩ := pureOk.mp ok
    obtain ⟨bytes, decoded, cells⟩ := persistentHashCells P.persistentHashLength free hashed
    simp only [circuitStep, view, idxCells found, okBind, decoded, cells, chip,
      show chips.sha2 from enabled, if_true]
    exact memPushOk st.view memory
  | testEq a b | add a b | mul a b =>
    obtain ⟨left, foundA, ok⟩ := bindOk.mp ok
    obtain ⟨right, foundB, rfl⟩ := pureOk.mp ok
    simp only [circuitStep, view, idxCell foundA, idxCell foundB, okBind]
    exact memPushOk st.view memory
  | not a =>
    obtain ⟨b, found, rfl⟩ := pureOk.mp ok
    obtain ⟨cell, -⟩ := idxBoolCell found
    have negated : boolFr (decide (boolFr b = 0)) = boolFr (!b) := by cases b <;> rfl
    simp only [circuitStep, view, cell, okBind, negated]
    exact memPushOk st.view memory
  | lessThan a b bits =>
    obtain ⟨left, foundA, ok⟩ := bindOk.mp ok
    obtain ⟨right, foundB, ok⟩ := bindOk.mp ok
    obtain ⟨val, compared, rfl⟩ := pureOk.mp ok
    obtain ⟨even, sum, lower, rfl⟩ := lessThanCell mode compared
    simp only [circuitStep, view, idxCell foundA, idxCell foundB, okBind, sum, lower]
    exact memPushOk st.view memory
  | publicInput guard | privateInput guard =>
    obtain ⟨skipped, guarded, ok⟩ := bindOk.mp ok
    cases skipped with
    | true =>
      cases ok
      have input := inputCellOk guarded (fun _ => rfl) memory
      simp only [circuitStep, view, input, okBind]
      exact memPushOk st.view memory
    | false =>
      obtain ⟨val, -, rfl⟩ := pureOk.mp ok
      have input := inputCellOk guarded (by simp) memory
      simp only [circuitStep, view, input, okBind]
      exact memPushOk st.view memory
  | divModPowerOfTwo var bits =>
    obtain ⟨val, found, ok⟩ := bindOk.mp ok
    obtain ⟨⟨divisor, modulus⟩, split, rfl⟩ := pureOk.mp ok
    simp only [circuitStep, view, idxCell found, okBind, divModCell split]
    exact memPushOk st.view memory
  | reconstituteField divisor modulus bits =>
    obtain ⟨high, foundHigh, ok⟩ := bindOk.mp ok
    obtain ⟨low, foundLow, ok⟩ := bindOk.mp ok
    obtain ⟨val, joined, rfl⟩ := pureOk.mp ok
    simp only [circuitStep, view, idxCell foundHigh, idxCell foundLow, okBind,
      reconstitutedCell joined]
    exact memPushOk st.view memory
  | ecAdd aX aY bX bY =>
    obtain ⟨p, foundA, ok⟩ := bindOk.mp ok
    obtain ⟨q, foundB, rfl⟩ := pureOk.mp ok
    obtain ⟨_, _, axCell, ayCell, pCell⟩ := pointCells enabled foundA
    obtain ⟨_, _, bxCell, byCell, qCell⟩ := pointCells enabled foundB
    simp only [circuitStep, view, axCell, ayCell, pCell, bxCell, byCell, qCell, okBind]
    exact memPushOk st.view memory
  | ecMul aX aY scalar =>
    obtain ⟨p, foundA, ok⟩ := bindOk.mp ok
    obtain ⟨s, foundS, rfl⟩ := pureOk.mp ok
    obtain ⟨ax, ay, axCell, ayCell, pCell⟩ := pointCells enabled foundA
    simp only [circuitStep, view, axCell, ayCell, pCell, idxCell foundS, okBind,
      ← P.scalarReduced s.val]
    exact memPushOk st.view memory
  | ecMulGenerator scalar =>
    obtain ⟨s, foundS, rfl⟩ := pureOk.mp ok
    simp only [circuitStep, view, chip, show chips.jubjub from enabled, if_true, idxCell foundS, okBind,
      ← P.scalarReduced s.val]
    exact memPushOk st.view memory
  | hashToCurve inputs =>
    obtain ⟨vals, found, rfl⟩ := pureOk.mp ok
    simp only [circuitStep, view, idxCells found, okBind, chip,
      show (chips.jubjub && chips.poseidon) = true from enabled, if_true]
    exact memPushOk st.view memory

theorem pushGrown (st : PreState) (values : List Fr) : Grown st (st.push values) :=
  ⟨prefix_append _ _, prefix_rfl⟩

theorem stepGrown {next : PreState} (ok : preprocessStep P mode preimage st ins = .ok next) :
    Grown st next := by
  cases ins with
  | piSkip guard count =>
    obtain ⟨skipped, -, ok⟩ := bindOk.mp ok
    cases skipped with
    | true =>
      obtain ⟨back, -, rfl⟩ := pureOk.mp ok
      exact ⟨prefix_rfl, prefix_rfl⟩
    | false =>
      obtain ⟨_, -, rfl⟩ := pureOk.mp ok
      exact ⟨prefix_rfl, prefix_rfl⟩
  | publicInput guard | privateInput guard =>
    obtain ⟨skipped, -, ok⟩ := bindOk.mp ok
    cases skipped with
    | true =>
      cases ok
      exact pushGrown st _
    | false =>
      obtain ⟨val, -, rfl⟩ := pureOk.mp ok
      exact ⟨prefix_append _ _, prefix_rfl⟩
  | _ =>
    simp only [preprocessStep, bindOk, Prod.exists] at ok
    grind [Grown, push, prefix_append]

theorem runGrown {final : PreState} {program : List Instruction}
    (ok : run (preprocessStep P mode preimage) st program = .ok final) : Grown st final := by
  have self : ∀ s, Grown s s := fun _ => ⟨prefix_rfl, prefix_rfl⟩
  have chain : ∀ {a b c}, Grown a b → Grown b c → Grown a c :=
    fun left right => ⟨left.1.trans right.1, left.2.trans right.2⟩
  exact runGrows _ self chain (fun _ => stepGrown) ok

theorem usedEnabled (mem : ins ∈ src.instructions) : ins.enabled (usedChips src) := by
  cases ins with
  | ecAdd | ecMul | ecMulGenerator =>
    exact Bool.or_eq_true_iff.mpr (.inl (any_eq_true.mpr ⟨_, mem, rfl⟩))
  | hashToCurve inputs =>
    have used : src.instructions.any (· matches .hashToCurve ..) = true :=
      any_eq_true.mpr ⟨_, mem, rfl⟩
    exact Bool.and_eq_true_iff.mpr
      ⟨Bool.or_eq_true_iff.mpr (.inr used), Bool.or_eq_true_iff.mpr (.inr used)⟩
  | transientHash inputs =>
    have used : src.instructions.any (· matches .transientHash ..) = true :=
      any_eq_true.mpr ⟨_, mem, rfl⟩
    exact Bool.or_eq_true_iff.mpr (.inl (Bool.or_eq_true_iff.mpr (.inr used)))
  | persistentHash alignment inputs => exact any_eq_true.mpr ⟨_, mem, rfl⟩
  | _ => rfl

theorem steppedOptionFree {st next : CircuitState}
    (ok : circuitStep P version mode chips witness st ins = .ok next) : ins.optionFree := by
  have decoded : ∀ {alignment : Fab.Alignment} {inputs : List Fr} {bytes : Bytes},
      fabDecodeWith fabDecodeToBytesAtom alignment inputs = .ok bytes →
      Zkir.optionFree alignment = true := by
    intro alignment
    induction alignment with
    | nil => intros; rfl
    | cons segment rest ih =>
      intro inputs bytes ok
      cases segment with
      | option branches => simp [fabDecodeWith] at ok
      | atom a =>
        obtain ⟨⟨first, after⟩, -, ok⟩ := bindOk.mp ok
        obtain ⟨tail, others, -⟩ := bindOk.mp ok
        simpa [Zkir.optionFree] using ih others
  cases ins with
  | persistentHash alignment inputs =>
    obtain ⟨cells, -, ok⟩ := bindOk.mp ok
    obtain ⟨bytes, read, -⟩ := bindOk.mp ok
    exact decoded read
  | _ => rfl

theorem preparedRun (prepared : preprocess P mode src preimage = .ok witness) :
    preimage.inputs.length = src.numInputs ∧ ∃ pis final,
      leadingInputs src.doCommunicationsCommitment preimage = .ok pis ∧
      run (preprocessStep P mode preimage) ⟨preimage.inputs, pis, [], 0, 0, 0, []⟩
        src.instructions = .ok final ∧
      checkCommitment P src.doCommunicationsCommitment preimage final.outputs = .ok () ∧
      (witness.memory = final.memory ∧ witness.pis = final.pis) ∧
      (witness.bindingInput = preimage.bindingInput ∧
        witness.commComm = preimage.communicationsCommitment) := by
  unfold preprocess at prepared
  obtain ⟨count, prepared⟩ := elseOk.mp prepared
  obtain ⟨pis, leading, ok⟩ := bindOk.mp prepared
  obtain ⟨final, runs, ok⟩ := bindOk.mp ok
  split at ok <;> try contradiction
  obtain ⟨_, committed, rfl⟩ := pureOk.mp ok
  exact ⟨not_not.mp count, pis, final, leading, runs, committed, ⟨rfl, rfl⟩, ⟨rfl, rfl⟩⟩

theorem initialCellsOk (witness : Preprocessed) (count : preimage.inputs.length = src.numInputs)
    (leading : leadingInputs src.doCommunicationsCommitment preimage = .ok pis)
    (bound : witness.bindingInput = preimage.bindingInput)
    (commitment : witness.commComm = preimage.communicationsCommitment)
    (memory : preimage.inputs <+: witness.memory) (grown : pis <+: witness.pis) :
    initialCells src witness = .ok ⟨preimage.inputs, pis, []⟩ := by
  obtain ⟨rest, whole⟩ := memory
  have enough : ¬ witness.memory.length < src.numInputs := by
    rw [← whole, length_append]
    omega
  have taken : witness.memory.take src.numInputs = preimage.inputs := by
    rw [← whole, ← count, take_left]
  rw [initialCells, if_neg enough, bound, commitment, leadingCellsOk leading grown, okBind, taken]

theorem preparedSynthesizes (P : Primitives) (mode : Arithmetic)
    (prepared : preprocess P mode src preimage = .ok witness) :
    circuit P mode src witness = .ok (witness.memory, witness.pis) ↔
      ∀ ins ∈ src.instructions, ins.optionFree := by
  constructor
  · intro ok ins mem
    obtain ⟨start, -, ok⟩ := bindOk.mp ok
    obtain ⟨final, runs, -⟩ := bindOk.mp ok
    obtain ⟨before, after, stepped⟩ := runStepped runs ins mem
    exact steppedOptionFree stepped
  · intro free
    obtain ⟨count, pis, final, leading, runs, committed, ⟨memory, samePis⟩, bound, commitment⟩ :=
      preparedRun prepared
    have grown := runGrown runs
    have good : Along (preprocessStep P mode preimage)
        (fun _ ins => ins.optionFree = true ∧ ins.enabled (usedChips src) = true)
        ⟨preimage.inputs, pis, [], 0, 0, 0, []⟩ src.instructions :=
      alongOfForall (fun ins mem _ => ⟨free ins mem, usedEnabled mem⟩)
    have simulates : ∀ {st : PreState} {cells : CircuitState} {ins : Instruction}
        {next : PreState} {rest : List Instruction}, Follows st cells →
        (ins.optionFree = true ∧ ins.enabled (usedChips src) = true) →
        preprocessStep P mode preimage st ins = .ok next →
        run (preprocessStep P mode preimage) next rest = .ok final →
        ∃ cells', circuitStep P src.version mode (usedChips src) witness cells ins = .ok cells' ∧
          Follows next cells' := by
      rintro st _ ins next rest rfl ⟨free, enabled⟩ stepped after
      have later := runGrown after
      rw [Grown, ← memory, ← samePis] at later
      exact ⟨next.view, stepSimulates stepped free enabled later.1 later.2, rfl⟩
    have aligned : Follows ⟨preimage.inputs, pis, [], 0, 0, 0, []⟩ ⟨preimage.inputs, pis, []⟩ := rfl
    obtain ⟨_, synthesized, rfl⟩ := lockstep simulates aligned good runs
    have poseidon : src.doCommunicationsCommitment → (usedChips src).poseidon := fun asked => by
      simp [usedChips, asked]
    have constrained := commitmentConstrained leading committed poseidon grown.2 rfl
    rw [Grown, ← memory, ← samePis] at grown
    have start := initialCellsOk witness count leading bound commitment grown.1 grown.2
    rw [circuit, start, okBind, synthesized, okBind, commitment]
    simp only [view, constrained, okBind, memory, samePis]

end MidnightLedger.Zkir.V2

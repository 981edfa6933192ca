import MidnightLedger.Lib.Simulation
import MidnightLedger.Zkir.Shared

/-! Version 3 programs on typed values (zkir-v3/src/ir_types.rs, ir_instructions/ and ir_vm.rs):
`preprocess`, and circuit synthesis on a prepared witness. Memory is a map from identifiers to typed
values; the newest entry of an identifier is the one that counts. -/
namespace MidnightLedger.Zkir.V3
open ByteString Fab

inductive IrType where
  | native
  | jubjubPoint
  | jubjubScalar
  | secp256k1Point
  | secp256k1Base
  | secp256k1Scalar
  deriving DecidableEq, Repr

def IrType.encodedLen : IrType → Nat
  | .native => 1
  | .jubjubPoint => 2
  | .jubjubScalar => 1
  | .secp256k1Point => 8
  | .secp256k1Base => 4
  | .secp256k1Scalar => 4

inductive IrValue (P : Primitives) where
  | native (x : Fr)
  | jubjubPoint (p : P.Point)
  | jubjubScalar (s : P.Scalar)
  | secp256k1Point (p : P.SecpPoint)
  | secp256k1Base (b : P.SecpBase)
  | secp256k1Scalar (s : P.SecpScalar)
  deriving DecidableEq

variable {P : Primitives}

def IrValue.getType : IrValue P → IrType
  | .native _ => .native
  | .jubjubPoint _ => .jubjubPoint
  | .jubjubScalar _ => .jubjubScalar
  | .secp256k1Point _ => .secp256k1Point
  | .secp256k1Base _ => .secp256k1Base
  | .secp256k1Scalar _ => .secp256k1Scalar

def IrValue.default : IrType → IrValue P
  | .native => .native 0
  | .jubjubPoint => .jubjubPoint P.identity
  | .jubjubScalar => .jubjubScalar (P.scalarOfNat 0)
  | .secp256k1Point => .secp256k1Point P.secpIdentity
  | .secp256k1Base => .secp256k1Base P.baseZero
  | .secp256k1Scalar => .secp256k1Scalar P.secpScalarZero

def IrValue.toNative : IrValue P → Except Fault Fr
  | .native x => .ok x
  | _ => .error (.returned "cannot convert to Native")

def typeChip (chips : Chips) : IrType → Bool
  | .native => true
  | .jubjubPoint | .jubjubScalar => chips.jubjub
  | .secp256k1Point | .secp256k1Base | .secp256k1Scalar => chips.secp256k1

def encodeOffcircuit : IrValue P → List Fr
  | .native x => [x]
  | .jubjubPoint p => [(P.coordinates p).1, (P.coordinates p).2]
  | .jubjubScalar s => [P.scalarFr s]
  | .secp256k1Point p => P.encodeSecpPoint p
  | .secp256k1Base b => P.encodeBase b
  | .secp256k1Scalar s => P.encodeSecpScalar s

/- A scalar may come back with further elements, which must be zero. -/
def encodeIncircuit (chips : Chips) (value : IrValue P) : Circuit (List Fr) := do
  chip "as_public_input" (typeChip chips value.getType)
  match value with
  | .jubjubScalar s => do
    let encoded := P.scalarFr s :: List.replicate P.scalarPadding 0
    (encoded.drop 1).forM (fun x => require "assert_zero" (x = 0))
    .ok (encoded.take 1)
  | _ => .ok (encodeOffcircuit value)

def decodeOffcircuit (encoded : List Fr) (valT : IrType) : Native (IrValue P) :=
  let decoded : Option (IrValue P) := match valT with
    | .native => match encoded with
      | [x] => some (.native x)
      | _ => none
    | .jubjubPoint => match encoded with
      | [x, y] => (P.decodePoint x y).map .jubjubPoint
      | _ => none
    | .jubjubScalar => match encoded with
      | [x] => (P.decodeScalar x).map .jubjubScalar
      | _ => none
    | .secp256k1Point => (P.decodeSecpPoint encoded).map .secp256k1Point
    | .secp256k1Base => (P.decodeBase encoded).map .secp256k1Base
    | .secp256k1Scalar => (P.decodeSecpScalar encoded).map .secp256k1Scalar
  match decoded with
  | some value => .ok value
  | none => .error (.returned "Failed to decode")

def assignIncircuit (chips : Chips) (valT : IrType) (value : IrValue P) : Circuit (IrValue P) :=
  if value.getType ≠ valT then .error (.returned "cannot convert")
  else do
    chip "assign" (typeChip chips valT)
    .ok value

def decodeIncircuit (chips : Chips) (encoded : List Fr) (valT : IrType) : Circuit (IrValue P) := do
  let value ← decodeOffcircuit encoded valT
  let decoded ← assignIncircuit chips valT value
  let encodingOfDecoded ← encodeIncircuit chips decoded
  if encodingOfDecoded.length ≠ encoded.length then
    .error (.returned "Cannot decode elements")
  else do
    (encodingOfDecoded.zip encoded).forM (fun pair => assertEqual pair.1 pair.2)
    .ok decoded

def addOffcircuit : IrValue P → IrValue P → Native (IrValue P)
  | .native a, .native b => .ok (.native (a + b))
  | .jubjubPoint p, .jubjubPoint q => .ok (.jubjubPoint (P.pointAdd p q))
  | _, _ => .error (.returned "Unsupported addition")

def addIncircuit (chips : Chips) : IrValue P → IrValue P → Circuit (IrValue P)
  | .native a, .native b => .ok (.native (a + b))
  | .jubjubPoint p, .jubjubPoint q => do
    chip "jubjub" chips.jubjub
    .ok (.jubjubPoint (P.pointAdd p q))
  | _, _ => .error (.returned "Unsupported addition")

def mulOffcircuit : IrValue P → IrValue P → Native (IrValue P)
  | .native a, .native b => .ok (.native (a * b))
  | .secp256k1Base s, .secp256k1Base r => .ok (.secp256k1Base (P.baseMul s r))
  | .secp256k1Scalar s, .secp256k1Scalar r => .ok (.secp256k1Scalar (P.secpScalarMul s r))
  | _, _ => .error (.returned "Unsupported multiplication")

def mulIncircuit (chips : Chips) : IrValue P → IrValue P → Circuit (IrValue P)
  | .native a, .native b => .ok (.native (a * b))
  | .secp256k1Base s, .secp256k1Base r => do
    chip "secp256k1" chips.secp256k1
    .ok (.secp256k1Base (P.baseMul s r))
  | .secp256k1Scalar s, .secp256k1Scalar r => do
    chip "secp256k1" chips.secp256k1
    .ok (.secp256k1Scalar (P.secpScalarMul s r))
  | _, _ => .error (.returned "Unsupported multiplication")

def negOffcircuit : IrValue P → Native (IrValue P)
  | .native a => .ok (.native (-a))
  | .jubjubPoint p => .ok (.jubjubPoint (P.pointNeg p))
  | .secp256k1Point p => .ok (.secp256k1Point (P.secpNeg p))
  | .secp256k1Base s => .ok (.secp256k1Base (P.baseNeg s))
  | .secp256k1Scalar s => .ok (.secp256k1Scalar (P.secpScalarNeg s))
  | .jubjubScalar _ => .error (.returned "Unsupported negation")

def negIncircuit (chips : Chips) : IrValue P → Circuit (IrValue P)
  | .native a => .ok (.native (-a))
  | .jubjubPoint p => do
    chip "jubjub" chips.jubjub
    .ok (.jubjubPoint (P.pointNeg p))
  | .secp256k1Point p => do
    chip "secp256k1" chips.secp256k1
    .ok (.secp256k1Point (P.secpNeg p))
  | .secp256k1Base s => do
    chip "secp256k1" chips.secp256k1
    .ok (.secp256k1Base (P.baseNeg s))
  | .secp256k1Scalar s => do
    chip "secp256k1" chips.secp256k1
    .ok (.secp256k1Scalar (P.secpScalarNeg s))
  | .jubjubScalar _ => .error (.returned "Unsupported negation")

def invertible (fault : Fault) {α : Type} (wrap : α → IrValue P) :
    Option α → Except Fault (IrValue P)
  | some inverse => .ok (wrap inverse)
  | none => .error fault

def invOffcircuit : IrValue P → Native (IrValue P)
  | .native a => invertible (.returned "cannot invert zero") .native (P.invert a)
  | .secp256k1Base s => invertible (.returned "cannot invert zero") .secp256k1Base (P.baseInvert s)
  | .secp256k1Scalar s =>
    invertible (.returned "cannot invert zero") .secp256k1Scalar (P.secpScalarInvert s)
  | _ => .error (.returned "Unsupported inversion")

def invIncircuit (chips : Chips) : IrValue P → Circuit (IrValue P)
  | .native a => invertible (.unsatisfied "inv") .native (P.invert a)
  | .secp256k1Base s => do
    chip "secp256k1" chips.secp256k1
    invertible (.unsatisfied "inv") .secp256k1Base (P.baseInvert s)
  | .secp256k1Scalar s => do
    chip "secp256k1" chips.secp256k1
    invertible (.unsatisfied "inv") .secp256k1Scalar (P.secpScalarInvert s)
  | _ => .error (.returned "Unsupported inversion")

def constrainEqOffcircuit (a b : IrValue P) : Native Unit :=
  if a.getType ≠ b.getType then .error (.returned "Unsupported constrain_eq")
  else if a ≠ b then .error (.returned "Equality constraint failed")
  else .ok ()

/- Scalars of the embedded curve are compared outside the circuit only. -/
def constrainEqIncircuit (chips : Chips) (a b : IrValue P) : Circuit Unit :=
  if a.getType ≠ b.getType ∨ a.getType = .jubjubScalar then
    .error (.returned "Unsupported constrain_eq")
  else do
    chip "assert_equal" (typeChip chips a.getType)
    assertEqual a b

def selectOffcircuit (bit : Bool) (a b : IrValue P) : Native (IrValue P) :=
  if a.getType ≠ b.getType then .error (.returned "Unsupported cond_select")
  else .ok (if bit then a else b)

def selectIncircuit (chips : Chips) (bit : Bool) (a b : IrValue P) : Circuit (IrValue P) :=
  if a.getType ≠ b.getType ∨ a.getType = .jubjubScalar then
    .error (.returned "Unsupported cond_select")
  else do
    chip "select" (typeChip chips a.getType)
    .ok (if bit then a else b)

def testEqOffcircuit (a b : IrValue P) : Native Bool :=
  if a.getType ≠ b.getType ∨ a.getType = .jubjubScalar then
    .error (.returned "Unsupported test_eq")
  else .ok (a = b)

def testEqIncircuit (chips : Chips) (a b : IrValue P) : Circuit Bool :=
  if a.getType ≠ b.getType ∨ a.getType = .jubjubScalar then
    .error (.returned "Unsupported test_eq")
  else do
    chip "is_equal" (typeChip chips a.getType)
    .ok (a = b)

def ecMulOffcircuit : IrValue P → IrValue P → Native (IrValue P)
  | .jubjubPoint p, .jubjubScalar s => .ok (.jubjubPoint (P.pointMul p s))
  | .secp256k1Point p, .secp256k1Scalar s => .ok (.secp256k1Point (P.secpMul p s))
  | _, _ => .error (.returned "Unsupported EC multiplication")

def ecMulIncircuit (chips : Chips) : IrValue P → IrValue P → Circuit (IrValue P)
  | .jubjubPoint p, .jubjubScalar s => do
    chip "jubjub" chips.jubjub
    .ok (.jubjubPoint (P.pointMul p s))
  | .secp256k1Point p, .secp256k1Scalar s => do
    chip "secp256k1" chips.secp256k1
    .ok (.secp256k1Point (P.secpMul p s))
  | _, _ => .error (.returned "Unsupported EC multiplication")

def generatorFor : IrType → Except Fault (IrValue P)
  | .jubjubScalar => .ok (.jubjubPoint P.generator)
  | .secp256k1Scalar => .ok (.secp256k1Point P.secpGenerator)
  | _ => .error (.returned "Unsupported EcMulGenerator for scalar")

abbrev Identifier := String

inductive Operand where
  | variable (id : Identifier)
  | immediate (imm : Fr)
  deriving DecidableEq, Repr

structure TypedIdentifier where
  name : Identifier
  valT : IrType
  deriving DecidableEq, Repr

inductive Instruction where
  | encode (input : Operand) (outputs : List Identifier)
  | decode (inputs : List Operand) (valT : IrType) (output : Identifier)
  | assert (cond : Operand)
  | condSelect (bit a b : Operand) (output : Identifier)
  | constrainBits (val : Operand) (bits : UInt32)
  | constrainEq (a b : Operand)
  | constrainToBoolean (val : Operand)
  | copy (val : Operand) (output : Identifier)
  | impact (guard : Operand) (inputs : List Operand)
  | ecMul (a scalar : Operand) (output : Identifier)
  | ecMulGenerator (scalar : Operand) (output : Identifier)
  | hashToCurve (inputs : List Operand) (output : Identifier)
  | divModPowerOfTwo (val : Operand) (bits : UInt32) (outputs : List Identifier)
  | reconstituteField (divisor modulus : Operand) (bits : UInt32) (output : Identifier)
  | transientHash (inputs : List Operand) (output : Identifier)
  | persistentHash (alignment : Fab.Alignment) (inputs : List Operand) (outputs : List Identifier)
  | keccak256 (alignment : Fab.Alignment) (inputs : List Operand) (outputs : List Identifier)
  | testEq (a b : Operand) (output : Identifier)
  | add (a b : Operand) (output : Identifier)
  | mul (a b : Operand) (output : Identifier)
  | neg (a : Operand) (output : Identifier)
  | inv (a : Operand) (output : Identifier)
  | not (a : Operand) (output : Identifier)
  | lessThan (a b : Operand) (bits : UInt32) (output : Identifier)
  | jubjubScalarFromNative (native : Operand) (output : Identifier)
  | publicInput (guard : Option Operand) (valT : IrType) (output : Identifier)
  | privateInput (guard : Option Operand) (valT : IrType) (output : Identifier)
  | output (vals : List Operand)
  deriving Repr

def Instruction.assigned : Instruction → List Identifier
  | .encode _ outputs | .divModPowerOfTwo _ _ outputs | .persistentHash _ _ outputs
  | .keccak256 _ _ outputs => outputs
  | .decode _ _ name | .condSelect _ _ _ name | .copy _ name | .ecMul _ _ name
  | .ecMulGenerator _ name | .hashToCurve _ name | .reconstituteField _ _ _ name
  | .transientHash _ name | .testEq _ _ name | .add _ _ name | .mul _ _ name
  | .neg _ name | .inv _ name | .not _ name | .lessThan _ _ _ name
  | .jubjubScalarFromNative _ name | .publicInput _ _ name | .privateInput _ _ name => [name]
  | .assert _ | .constrainBits _ _ | .constrainEq _ _ | .constrainToBoolean _ | .impact _ _
  | .output _ => []

structure IrSource where
  inputs : List TypedIdentifier
  outputs : List IrType
  doCommunicationsCommitment : Bool
  instructions : List Instruction
  deriving Repr

variable (P : Primitives)

abbrev Memory := List (Identifier × IrValue P)

structure Preprocessed where
  memory : Memory P
  pis : List Fr
  piSkips : List (Option Nat)
  bindingInput : Fr
  commComm : Option (Fr × Fr)
  deriving DecidableEq

structure PreState where
  memory : Memory P
  pis : List Fr
  piSkips : List (Option Nat)
  publicTranscriptInputsIdx : Nat
  publicTranscriptOutputsIdx : Nat
  privateTranscriptOutputsIdx : Nat
  outputs : List (IrValue P)

variable {P}

def resolveOperand (memory : Memory P) : Operand → Except Fault (IrValue P)
  | .variable id => match memory.lookup id with
    | some value => .ok value
    | none => .error (.returned "variable not found")
  | .immediate imm => .ok (.native imm)

def resolveNative (memory : Memory P) (operand : Operand) : Except Fault Fr := do
  let value ← resolveOperand memory operand
  value.toNative

def resolveOperandBool (memory : Memory P) (operand : Operand) : Native Bool := do
  let val ← resolveNative memory operand
  boolOf val

def guardOff (memory : Memory P) : Option Operand → Native Bool
  | none => .ok false
  | some guard => do
    let on ← resolveOperandBool memory guard
    .ok (!on)

def PreState.insert (st : PreState P) (id : Identifier) (value : IrValue P) : PreState P :=
  { st with memory := (id, value) :: st.memory }

def PreState.insertAll (st : PreState P) (entries : List (Identifier × IrValue P)) : PreState P :=
  { st with memory := entries.reverse ++ st.memory }

def decodeInputs : List TypedIdentifier → List Fr → Memory P → Native (Memory P)
  | [], raw, memory =>
    if raw.isEmpty then .ok memory else .error (.returned "Expected another number of raw inputs")
  | id :: ids, raw, memory =>
    if raw.length < id.valT.encodedLen then .error (.returned "Not enough raw inputs")
    else do
      let value ← decodeOffcircuit (raw.take id.valT.encodedLen) id.valT
      decodeInputs ids (raw.drop id.valT.encodedLen) ((id.name, value) :: memory)

def readTranscript (transcript : List Fr) (start : Nat) (valT : IrType) : Native (IrValue P) :=
  if transcript.length < start + valT.encodedLen then
    .error (.panic "range end index out of range for slice")
  else decodeOffcircuit ((transcript.drop start).take valT.encodedLen) valT

def twoOutputs (outputs : List Identifier) (message : String) :
    Except Fault (Identifier × Identifier) :=
  match outputs with
  | [first, second] => .ok (first, second)
  | _ => .error (.returned message)

def nativeToJubjubScalar (x : Fr) : P.Scalar :=
  P.scalarOfNat (leNat (x.asLeBytes ++ List.replicate 32 0))

def checkedOutputs (memory : Memory P) :
    List Operand → List IrType → Except Fault (List (IrValue P))
  | val :: vals, expectedT :: rest => do
    let value ← resolveOperand memory val
    if value.getType ≠ expectedT then
      .error (.returned "Output position: signature declares another type")
    else do
      let values ← checkedOutputs memory vals rest
      .ok (value :: values)
  | _, _ => .ok []

def hashStep (P : Primitives) (hash : Bytes → Bytes) (st : PreState P)
    (alignment : Fab.Alignment) (inputs : List Operand) (outputs : List Identifier) :
    Native (PreState P) := do
  let (first, second) ← twoOutputs outputs "PersistentHash requires exactly 2 outputs"
  let inputs ← inputs.mapM (resolveNative st.memory)
  let fields ← persistentHashNative P hash alignment inputs
  match fields with
  | low :: high :: _ => .ok (st.insertAll [(first, .native low), (second, .native high)])
  | _ => .error (.returned "PersistentHash did not produce expected output")

def preprocessStep (mode : Arithmetic) (outputTypes : List IrType) (preimage : ProofPreimage)
    (st : PreState P) : Instruction → Native (PreState P)
  | .encode input outputs => do
    let val ← resolveOperand st.memory input
    let encoded := encodeOffcircuit val
    if encoded.length ≠ outputs.length then
      .error (.returned "Unexpected output length of encode instruction")
    else .ok (st.insertAll (outputs.zip (encoded.map .native)))
  | .decode inputs valT output => do
    let rawInputs ← inputs.mapM (resolveNative st.memory)
    let decoded ← decodeOffcircuit rawInputs valT
    .ok (st.insert output decoded)
  | .add a b output => do
    let a ← resolveOperand st.memory a
    let b ← resolveOperand st.memory b
    let result ← addOffcircuit a b
    .ok (st.insert output result)
  | .mul a b output => do
    let a ← resolveOperand st.memory a
    let b ← resolveOperand st.memory b
    let result ← mulOffcircuit a b
    .ok (st.insert output result)
  | .neg a output => do
    let a ← resolveOperand st.memory a
    let result ← negOffcircuit a
    .ok (st.insert output result)
  | .inv a output => do
    let a ← resolveOperand st.memory a
    let result ← invOffcircuit a
    .ok (st.insert output result)
  | .not a output => do
    let a ← resolveOperandBool st.memory a
    .ok (st.insert output (.native (boolFr (!a))))
  | .constrainEq a b => do
    let a ← resolveOperand st.memory a
    let b ← resolveOperand st.memory b
    constrainEqOffcircuit a b
    .ok st
  | .condSelect bit a b output => do
    let bit ← resolveOperandBool st.memory bit
    let a ← resolveOperand st.memory a
    let b ← resolveOperand st.memory b
    let result ← selectOffcircuit bit a b
    .ok (st.insert output result)
  | .assert cond => do
    let cond ← resolveOperandBool st.memory cond
    if !cond then .error (.returned "Failed direct assertion") else .ok st
  | .testEq a b output => do
    let a ← resolveOperand st.memory a
    let b ← resolveOperand st.memory b
    let result ← testEqOffcircuit a b
    .ok (st.insert output (.native (boolFr result)))
  | .publicInput guard valT output => do
    let skipped ← guardOff st.memory guard
    if skipped then .ok (st.insert output (.default valT))
    else do
      let val ← readTranscript preimage.publicTranscriptOutputs st.publicTranscriptOutputsIdx valT
      .ok { st.insert output val with
        publicTranscriptOutputsIdx := st.publicTranscriptOutputsIdx + valT.encodedLen }
  | .privateInput guard valT output => do
    let skipped ← guardOff st.memory guard
    if skipped then .ok (st.insert output (.default valT))
    else do
      let val ← readTranscript preimage.privateTranscript st.privateTranscriptOutputsIdx valT
      .ok { st.insert output val with
        privateTranscriptOutputsIdx := st.privateTranscriptOutputsIdx + valT.encodedLen }
  | .copy val output => do
    let val ← resolveOperand st.memory val
    .ok (st.insert output val)
  | .constrainToBoolean val => do
    let _ ← resolveOperandBool st.memory val
    .ok st
  | .constrainBits val bits => do
    let val ← resolveNative st.memory val
    let _ ← idxBits val (some bits.toNat)
    .ok st
  | .divModPowerOfTwo val bits outputs => do
    let (first, second) ← twoOutputs outputs "DivModPowerOfTwo requires exactly 2 outputs"
    let val ← resolveNative st.memory val
    let (divisor, modulus) ← divModNative val bits
    .ok (st.insertAll [(first, .native divisor), (second, .native modulus)])
  | .reconstituteField divisor modulus bits output => do
    let modulus ← resolveNative st.memory modulus
    let divisor ← resolveNative st.memory divisor
    let val ← reconstituteNative divisor modulus bits.toNat
    .ok (st.insert output (.native val))
  | .lessThan a b bits output => do
    let a ← resolveNative st.memory a
    let b ← resolveNative st.memory b
    let val ← lessThanNative a b bits
    .ok (st.insert output (.native val))
  | .jubjubScalarFromNative native output => do
    let x ← resolveNative st.memory native
    .ok (st.insert output (.jubjubScalar (nativeToJubjubScalar x)))
  | .transientHash inputs output => do
    let inputs ← inputs.mapM (resolveNative st.memory)
    .ok (st.insert output (.native (P.transientHash inputs)))
  | .persistentHash alignment inputs outputs =>
    hashStep P P.persistentHash st alignment inputs outputs
  | .keccak256 alignment inputs outputs => hashStep P P.keccak256 st alignment inputs outputs
  | .impact guard inputs => do
    let values ← inputs.mapM (resolveNative st.memory)
    let pis := st.pis ++ values
    let declared ← mode.add 64 st.publicTranscriptInputsIdx inputs.length
    let on ← resolveOperandBool st.memory guard
    if !on then do
      let back ← mode.sub 64 declared inputs.length
      .ok { st with
        pis, piSkips := st.piSkips ++ [some inputs.length], publicTranscriptInputsIdx := back }
    else do
      checkTranscript mode preimage.publicTranscriptInputs pis declared inputs.length
      .ok { st with
        pis, piSkips := st.piSkips ++ [none], publicTranscriptInputsIdx := declared }
  | .hashToCurve inputs output => do
    let inputs ← inputs.mapM (resolveNative st.memory)
    .ok (st.insert output (.jubjubPoint (P.hashToCurve inputs)))
  | .ecMul a scalar output => do
    let p ← resolveOperand st.memory a
    let s ← resolveOperand st.memory scalar
    let r ← ecMulOffcircuit p s
    .ok (st.insert output r)
  | .ecMulGenerator scalar output => do
    let s ← resolveOperand st.memory scalar
    let p ← generatorFor s.getType
    let r ← ecMulOffcircuit p s
    .ok (st.insert output r)
  | .output vals =>
    if vals.length ≠ outputTypes.length then
      .error (.returned "Output: signature declares another number of return values")
    else do
      let values ← checkedOutputs st.memory vals outputTypes
      .ok { st with outputs := st.outputs ++ values }

def preprocess (P : Primitives) (mode : Arithmetic) (src : IrSource) (preimage : ProofPreimage) :
    Native (Preprocessed P) := do
  let memory ← decodeInputs src.inputs preimage.inputs []
  let pis ← leadingInputs src.doCommunicationsCommitment preimage
  let st ← Simulation.run (preprocessStep mode src.outputs preimage)
    ⟨memory, pis, [], 0, 0, 0, []⟩ src.instructions
  if preimage.publicTranscriptInputs.length ≠ st.publicTranscriptInputsIdx ∨
      preimage.publicTranscriptOutputs.length ≠ st.publicTranscriptOutputsIdx ∨
      preimage.privateTranscript.length ≠ st.privateTranscriptOutputsIdx then
    .error (.returned "Transcripts not fully consumed")
  else do
    checkCommitment P src.doCommunicationsCommitment preimage (st.outputs.flatMap encodeOffcircuit)
    .ok ⟨st.memory, st.pis, st.piSkips, preimage.bindingInput, preimage.communicationsCommitment⟩

structure CircuitState (P : Primitives) where
  memory : Memory P
  publicInputs : List Fr
  outputs : List (IrValue P)

def cellOf (memory : Memory P) : Operand → Circuit (IrValue P)
  | .variable id => match memory.lookup id with
    | some value => .ok value
    | none => .error (.returned "value not in memory")
  | .immediate imm => .ok (.native imm)

def nativeCell (memory : Memory P) (operand : Operand) : Circuit Fr := do
  let value ← cellOf memory operand
  value.toNative

/- A value may not differ from the one the witness has under its identifier. -/
def memInsert (witness : Preprocessed P) (st : CircuitState P) (id : Identifier)
    (value : IrValue P) : Circuit (CircuitState P) :=
  match witness.memory.lookup id with
  | some expected =>
    if expected ≠ value then
      .error (.returned "Misalignment between prepare and synthesize runs. This is a bug.")
    else .ok { st with memory := (id, value) :: st.memory }
  | none => .ok { st with memory := (id, value) :: st.memory }

def memInsertAll (witness : Preprocessed P) (st : CircuitState P)
    (entries : List (Identifier × IrValue P)) : Circuit (CircuitState P) :=
  entries.foldlM (fun st entry => memInsert witness st entry.1 entry.2) st

def piPush (witness : Preprocessed P) (st : CircuitState P) (cell : Fr) :
    Circuit (CircuitState P) := do
  let publicInputs ← seqPush witness.pis st.publicInputs cell
  .ok { st with publicInputs }

/- The value of an input comes from the witness; the guard is not looked at. -/
def inputCell (chips : Chips) (witness : Preprocessed P) (st : CircuitState P) (valT : IrType)
    (output : Identifier) : Circuit (CircuitState P) :=
  match witness.memory.lookup output with
  | none => .error (.returned "Output not found in witness memory")
  | some value => do
    let cell ← assignIncircuit chips valT value
    memInsert witness st output cell

def hashCellStep (hash : Bytes → Bytes) (enabled : Bool) (witness : Preprocessed P)
    (st : CircuitState P) (alignment : Fab.Alignment) (inputs : List Operand)
    (outputs : List Identifier) : Circuit (CircuitState P) := do
  let (first, second) ← twoOutputs outputs "Unexpected output length of persistent hash instruction"
  let inputs ← inputs.mapM (nativeCell st.memory)
  let bytes ← fabDecodeToBytes alignment inputs
  chip "hash" enabled
  let cells ← hashCells (hash bytes)
  let low ← index cells 0
  let high ← index cells 1
  memInsertAll witness st [(first, .native low), (second, .native high)]

def outputCells (memory : Memory P) : List Operand → List IrType → Circuit (List (IrValue P))
  | val :: vals, expectedT :: rest => do
    let value ← cellOf memory val
    if value.getType ≠ expectedT then
      .error (.returned "Output position: signature declares another type")
    else do
      let values ← outputCells memory vals rest
      .ok (value :: values)
  | _, _ => .ok []

def circuitStep (mode : Arithmetic) (chips : Chips) (outputTypes : List IrType)
    (witness : Preprocessed P) (st : CircuitState P) : Instruction → Circuit (CircuitState P)
  | .encode input outputs => do
    let val ← cellOf st.memory input
    let encoded ← encodeIncircuit chips val
    if encoded.length ≠ outputs.length then
      .error (.returned "Unexpected output length of encode instruction")
    else memInsertAll witness st (outputs.zip (encoded.map .native))
  | .decode inputs valT output => do
    let rawInputs ← inputs.mapM (nativeCell st.memory)
    let decoded ← decodeIncircuit chips rawInputs valT
    memInsert witness st output decoded
  | .assert cond => do
    let cond ← nativeCell st.memory cond
    assertNonZero cond
    .ok st
  | .condSelect bit a b output => do
    let bit ← nativeCell st.memory bit
    let bit ← toBit bit
    let a ← cellOf st.memory a
    let b ← cellOf st.memory b
    let result ← selectIncircuit chips bit a b
    memInsert witness st output result
  | .constrainBits val bits => do
    let x ← nativeCell st.memory val
    let _ ← assignedToLeBits x (some bits.toNat)
    .ok st
  | .constrainEq a b => do
    let a ← cellOf st.memory a
    let b ← cellOf st.memory b
    constrainEqIncircuit chips a b
    .ok st
  | .constrainToBoolean val => do
    let x ← nativeCell st.memory val
    let _ ← toBit x
    .ok st
  | .copy val output => do
    let val ← cellOf st.memory val
    memInsert witness st output val
  | .impact guard inputs => do
    let guard ← nativeCell st.memory guard
    let on ← toBit guard
    inputs.foldlM (fun st input => do
      let x ← nativeCell st.memory input
      piPush witness st (if on then x else 0)) st
  | .transientHash inputs output => do
    let inputs ← inputs.mapM (nativeCell st.memory)
    chip "poseidon" chips.poseidon
    memInsert witness st output (.native (P.transientHash inputs))
  | .persistentHash alignment inputs outputs =>
    hashCellStep P.persistentHash chips.sha2 witness st alignment inputs outputs
  | .keccak256 alignment inputs outputs =>
    hashCellStep P.keccak256 chips.keccak witness st alignment inputs outputs
  | .testEq a b output => do
    let a ← cellOf st.memory a
    let b ← cellOf st.memory b
    let bit ← testEqIncircuit chips a b
    memInsert witness st output (.native (boolFr bit))
  | .add a b output => do
    let a ← cellOf st.memory a
    let b ← cellOf st.memory b
    let result ← addIncircuit chips a b
    memInsert witness st output result
  | .mul a b output => do
    let a ← cellOf st.memory a
    let b ← cellOf st.memory b
    let result ← mulIncircuit chips a b
    memInsert witness st output result
  | .neg a output => do
    let a ← cellOf st.memory a
    let result ← negIncircuit chips a
    memInsert witness st output result
  | .inv a output => do
    let a ← cellOf st.memory a
    let result ← invIncircuit chips a
    memInsert witness st output result
  | .not a output => do
    let a ← nativeCell st.memory a
    let bit ← toBit a
    memInsert witness st output (.native (boolFr (!bit)))
  | .lessThan a b bits output => do
    let a ← nativeCell st.memory a
    let b ← nativeCell st.memory b
    let even ← mode.add 32 bits.toNat (bits.toNat % 2)
    let lower ← lowerThan a b (max even 4)
    memInsert witness st output (.native (boolFr lower))
  | .jubjubScalarFromNative native output => do
    let x ← nativeCell st.memory native
    let bytes ← assignedToLeBytes x none
    chip "jubjub" chips.jubjub
    memInsert witness st output (.jubjubScalar (P.scalarOfNat (leNat bytes % jubjubOrder)))
  | .publicInput _ valT output | .privateInput _ valT output =>
    inputCell chips witness st valT output
  | .divModPowerOfTwo val bits outputs => do
    let (first, second) ← twoOutputs outputs
      "Unexpected output length of DivModPowerOfTwo instruction"
    let val ← nativeCell st.memory val
    let (divisor, modulus) ← Zkir.divModPowerOfTwo val bits
    memInsertAll witness st [(first, .native divisor), (second, .native modulus)]
  | .reconstituteField divisor modulus bits output => do
    let divisor ← nativeCell st.memory divisor
    let modulus ← nativeCell st.memory modulus
    let cell ← reconstituteRangesCell mode divisor modulus bits
    memInsert witness st output (.native cell)
  | .ecMul a scalar output => do
    let p ← cellOf st.memory a
    let s ← cellOf st.memory scalar
    let r ← ecMulIncircuit chips p s
    memInsert witness st output r
  | .ecMulGenerator scalar output => do
    let s ← cellOf st.memory scalar
    let p ← generatorFor s.getType
    chip "assign_fixed" (typeChip chips p.getType)
    let r ← ecMulIncircuit chips p s
    memInsert witness st output r
  | .hashToCurve inputs output => do
    let inputs ← inputs.mapM (nativeCell st.memory)
    chip "hash_to_curve" (chips.jubjub && chips.poseidon)
    memInsert witness st output (.jubjubPoint (P.hashToCurve inputs))
  | .output vals =>
    if vals.length ≠ outputTypes.length then
      .error (.returned "Output: signature declares another number of return values")
    else do
      let values ← outputCells st.memory vals outputTypes
      .ok { st with outputs := st.outputs ++ values }

def IrSource.involvesTypes (src : IrSource) (targets : List IrType) : Bool :=
  src.inputs.any (fun id => targets.contains id.valT) ||
    src.instructions.any (fun ins => match ins with
      | .decode _ valT _ | .publicInput _ valT _ | .privateInput _ valT _ => targets.contains valT
      | _ => false)

def usedChips (src : IrSource) : Chips where
  jubjub := src.involvesTypes [.jubjubPoint, .jubjubScalar] ||
    src.instructions.any (· matches .hashToCurve ..)
  poseidon := src.doCommunicationsCommitment ||
    src.instructions.any (· matches .transientHash .. | .hashToCurve ..)
  sha2 := src.instructions.any (· matches .persistentHash ..)
  keccak := src.instructions.any (· matches .keccak256 ..)
  secp256k1 := src.involvesTypes [.secp256k1Point, .secp256k1Base, .secp256k1Scalar]

def assignInputs (chips : Chips) (witness : Preprocessed P) :
    List TypedIdentifier → Memory P → Circuit (Memory P)
  | [], memory => .ok memory
  | id :: ids, memory => do
    let value := (witness.memory.lookup id.name).getD (.native 0)
    let assigned ← assignIncircuit chips id.valT value
    assignInputs chips witness ids ((id.name, assigned) :: memory)

def initialCells (chips : Chips) (src : IrSource) (witness : Preprocessed P) :
    Circuit (CircuitState P) := do
  let memory ← assignInputs chips witness src.inputs []
  let publicInputs ← leadingCells src.doCommunicationsCommitment witness.pis witness.bindingInput
    witness.commComm
  .ok ⟨memory, publicInputs, []⟩

def encodeCells (chips : Chips) : List (IrValue P) → Circuit (List Fr)
  | [] => .ok []
  | value :: values => do
    let cells ← encodeIncircuit chips value
    let rest ← encodeCells chips values
    .ok (cells ++ rest)

def encodeCommitted (chips : Chips) (src : IrSource) (st : CircuitState P) : Circuit (List Fr) := do
  let inputs ← encodeCells chips (src.inputs.filterMap (fun id => st.memory.lookup id.name))
  let outputs ← encodeCells chips st.outputs
  .ok (inputs ++ outputs)

def synthesize (chips : Chips) (mode : Arithmetic) (src : IrSource) (witness : Preprocessed P) :
    Circuit (Memory P × List Fr) := do
  let start ← initialCells chips src witness
  let st ← Simulation.run (circuitStep mode chips src.outputs witness) start src.instructions
  constrainCommitment P src.doCommunicationsCommitment chips witness.commComm st.publicInputs
    (encodeCommitted chips src st)
  .ok (st.memory, st.publicInputs)

def circuit (mode : Arithmetic) (src : IrSource) (witness : Preprocessed P) :
    Circuit (Memory P × List Fr) :=
  synthesize (usedChips src) mode src witness

end MidnightLedger.Zkir.V3

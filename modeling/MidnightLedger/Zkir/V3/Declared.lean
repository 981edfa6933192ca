import MidnightLedger.Lib.Notes
import MidnightLedger.Zkir.V3.Prepared

/-! Synthesis of a version 3 program without a witness, as key generation runs it (`circuit` of
zkir-v3/src/ir_vm.rs): a cell is its type, assertions cannot fail, and the parts of the standard
library that are used are noted. They are compared with those that the program declares
(`used_chips`); `JubjubScalarFromNative` makes a scalar and names no type. -/
namespace MidnightLedger.Zkir.V3
open ByteString Fab Notes
open Notes.Noted (withinBind withinOf withinNote withinThen noteThen withinPure withinFold bindOutcome
  bindNotes followsBind followsSkip followsNote followsPure)

inductive Part where
  | jubjub
  | poseidon
  | sha2
  | keccak
  | secp256k1
  deriving DecidableEq, Repr

def Part.on (part : Part) (chips : Chips) : Bool :=
  match part with
  | .jubjub => chips.jubjub
  | .poseidon => chips.poseidon
  | .sha2 => chips.sha2
  | .keccak => chips.keccak
  | .secp256k1 => chips.secp256k1

abbrev Layout := Noted Part Fault

def typeParts : IrType → List Part
  | .native => []
  | .jubjubPoint | .jubjubScalar => [.jubjub]
  | .secp256k1Point | .secp256k1Base | .secp256k1Scalar => [.secp256k1]

abbrev Types := List (Identifier × IrType)

structure LayoutState where
  types : Types
  outputs : List IrType

namespace LayoutState

def insert (st : LayoutState) (id : Identifier) (type : IrType) : LayoutState :=
  { st with types := (id, type) :: st.types }

def insertAll (st : LayoutState) (entries : Types) : LayoutState :=
  { st with types := entries.reverse ++ st.types }

end LayoutState

def cellType (types : Types) : Operand → Except Fault IrType
  | .variable id => match types.lookup id with
    | some type => .ok type
    | none => .error (.returned "value not in memory")
  | .immediate _ => .ok .native

def nativeType (types : Types) (operand : Operand) : Except Fault Unit := do
  let type ← cellType types operand
  if type = .native then .ok () else .error (.returned "cannot convert to Native")

def addType : IrType → IrType → Except Fault IrType
  | .native, .native => .ok .native
  | .jubjubPoint, .jubjubPoint => .ok .jubjubPoint
  | _, _ => .error (.returned "Unsupported addition")

def mulType : IrType → IrType → Except Fault IrType
  | .native, .native => .ok .native
  | .secp256k1Base, .secp256k1Base => .ok .secp256k1Base
  | .secp256k1Scalar, .secp256k1Scalar => .ok .secp256k1Scalar
  | _, _ => .error (.returned "Unsupported multiplication")

def negType : IrType → Except Fault IrType
  | .jubjubScalar => .error (.returned "Unsupported negation")
  | type => .ok type

def invType : IrType → Except Fault IrType
  | .native => .ok .native
  | .secp256k1Base => .ok .secp256k1Base
  | .secp256k1Scalar => .ok .secp256k1Scalar
  | _ => .error (.returned "Unsupported inversion")

/- Selection and comparison take two cells of one type, other than scalars of the embedded
curve. -/
def pairType (message : String) (a b : IrType) : Except Fault IrType :=
  if a ≠ b ∨ a = .jubjubScalar then .error (.returned message) else .ok a

def ecMulType : IrType → IrType → Except Fault IrType
  | .jubjubPoint, .jubjubScalar => .ok .jubjubPoint
  | .secp256k1Point, .secp256k1Scalar => .ok .secp256k1Point
  | _, _ => .error (.returned "Unsupported EC multiplication")

def generatorType : IrType → Except Fault IrType
  | .jubjubScalar => .ok .jubjubPoint
  | .secp256k1Scalar => .ok .secp256k1Point
  | _ => .error (.returned "Unsupported EcMulGenerator for scalar")

def operate (type : Except Fault IrType) : Layout IrType := do
  let type ← Noted.of type
  Noted.note (typeParts type)
  pure type

def fabLayout : Fab.Alignment → Nat → Except Fault Unit
  | [], _ => .ok ()
  | .atom .field :: rest, cells =>
    if cells = 0 then .error (.returned "cannot decode field element from no data")
    else fabLayout rest (cells - 1)
  | .atom (.bytes length) :: rest, cells =>
    if cells < expectedSize length.toNat then
      .error (.returned "cannot decode bytes from to little data")
    else fabLayout rest (cells - expectedSize length.toNat)
  | .atom .compress :: _, _ =>
    .error (.returned "Cannot decode compressed value from field elements")
  | .option _ :: _, _ => .error
    (.returned "in-circuit decoding of alignment options is not yet implemented!")

def hashLayout (part : Part) (st : LayoutState) (alignment : Fab.Alignment)
    (inputs : List Operand) (outputs : List Identifier) : Layout LayoutState := do
  let (first, second) ← Noted.of
    (twoOutputs outputs "Unexpected output length of persistent hash instruction")
  Noted.of (inputs.forM (nativeType st.types))
  Noted.of (fabLayout alignment inputs.length)
  Noted.note [part]
  pure (st.insertAll [(first, .native), (second, .native)])

def outputTypesOf (types : Types) : List Operand → List IrType → Except Fault (List IrType)
  | val :: vals, expectedT :: rest => do
    let type ← cellType types val
    if type ≠ expectedT then
      .error (.returned "Output position: signature declares another type")
    else do
      let others ← outputTypesOf types vals rest
      .ok (type :: others)
  | _, _ => .ok []

def layoutStep (mode : Arithmetic) (outputTypes : List IrType) (st : LayoutState) :
    Instruction → Layout LayoutState
  | .encode input outputs => do
    let type ← Noted.of (cellType st.types input)
    Noted.note (typeParts type)
    if type.encodedLen ≠ outputs.length then
      Noted.of (.error (.returned "Unexpected output length of encode instruction"))
    else pure (st.insertAll (outputs.map fun id => (id, .native)))
  | .decode inputs valT output => do
    Noted.of (inputs.forM (nativeType st.types))
    Noted.note (typeParts valT)
    if valT.encodedLen ≠ inputs.length then
      Noted.of (.error (.returned "Cannot decode elements"))
    else pure (st.insert output valT)
  | .assert cond | .constrainBits cond _ | .constrainToBoolean cond => do
    Noted.of (nativeType st.types cond)
    pure st
  | .condSelect bit a b output => do
    Noted.of (nativeType st.types bit)
    let a ← Noted.of (cellType st.types a)
    let b ← Noted.of (cellType st.types b)
    let type ← operate (pairType "Unsupported cond_select" a b)
    pure (st.insert output type)
  | .constrainEq a b => do
    let a ← Noted.of (cellType st.types a)
    let b ← Noted.of (cellType st.types b)
    let _ ← operate (pairType "Unsupported constrain_eq" a b)
    pure st
  | .copy val output => do
    let type ← Noted.of (cellType st.types val)
    pure (st.insert output type)
  | .impact guard inputs => do
    Noted.of (nativeType st.types guard)
    Noted.of (inputs.forM (nativeType st.types))
    pure st
  | .transientHash inputs output => do
    Noted.of (inputs.forM (nativeType st.types))
    Noted.note [.poseidon]
    pure (st.insert output .native)
  | .persistentHash alignment inputs outputs => hashLayout .sha2 st alignment inputs outputs
  | .keccak256 alignment inputs outputs => hashLayout .keccak st alignment inputs outputs
  | .testEq a b output => do
    let a ← Noted.of (cellType st.types a)
    let b ← Noted.of (cellType st.types b)
    let _ ← operate (pairType "Unsupported test_eq" a b)
    pure (st.insert output .native)
  | .add a b output => do
    let a ← Noted.of (cellType st.types a)
    let b ← Noted.of (cellType st.types b)
    let type ← operate (addType a b)
    pure (st.insert output type)
  | .mul a b output => do
    let a ← Noted.of (cellType st.types a)
    let b ← Noted.of (cellType st.types b)
    let type ← operate (mulType a b)
    pure (st.insert output type)
  | .neg a output => do
    let a ← Noted.of (cellType st.types a)
    let type ← operate (negType a)
    pure (st.insert output type)
  | .inv a output => do
    let a ← Noted.of (cellType st.types a)
    let type ← operate (invType a)
    pure (st.insert output type)
  | .not a output => do
    Noted.of (nativeType st.types a)
    pure (st.insert output .native)
  | .lessThan a b bits output => do
    Noted.of (nativeType st.types a)
    Noted.of (nativeType st.types b)
    let _ ← Noted.of (mode.add 32 bits.toNat (bits.toNat % 2))
    pure (st.insert output .native)
  | .jubjubScalarFromNative native output => do
    Noted.of (nativeType st.types native)
    Noted.note [.jubjub]
    pure (st.insert output .jubjubScalar)
  | .publicInput _ valT output | .privateInput _ valT output => do
    Noted.note (typeParts valT)
    pure (st.insert output valT)
  | .divModPowerOfTwo val bits outputs => do
    let (first, second) ← Noted.of (twoOutputs outputs
      "Unexpected output length of DivModPowerOfTwo instruction")
    Noted.of (nativeType st.types val)
    if frBits < bits.toNat then
      Noted.of (.error (.panic "range end index out of range for slice"))
    else pure (st.insertAll [(first, .native), (second, .native)])
  | .reconstituteField divisor modulus bits output => do
    Noted.of (nativeType st.types divisor)
    Noted.of (nativeType st.types modulus)
    let _ ← Noted.of (mode.sub 32 frBits bits.toNat)
    pure (st.insert output .native)
  | .ecMul a scalar output => do
    let p ← Noted.of (cellType st.types a)
    let s ← Noted.of (cellType st.types scalar)
    let type ← operate (ecMulType p s)
    pure (st.insert output type)
  | .ecMulGenerator scalar output => do
    let s ← Noted.of (cellType st.types scalar)
    let p ← operate (generatorType s)
    let type ← operate (ecMulType p s)
    pure (st.insert output type)
  | .hashToCurve inputs output => do
    Noted.of (inputs.forM (nativeType st.types))
    Noted.note [.jubjub, .poseidon]
    pure (st.insert output .jubjubPoint)
  | .output vals =>
    if vals.length ≠ outputTypes.length then
      Noted.of (.error (.returned "Output: signature declares another number of return values"))
    else do
      let types ← Noted.of (outputTypesOf st.types vals outputTypes)
      pure { st with outputs := st.outputs ++ types }

def layoutInputs (st : LayoutState) (ids : List TypedIdentifier) : Layout LayoutState :=
  ids.foldlM (fun st id => do
    Noted.note (typeParts id.valT)
    pure (st.insert id.name id.valT)) st

def layoutCommitment (src : IrSource) (st : LayoutState) : Layout Unit :=
  if src.doCommunicationsCommitment then do
    Noted.note ((src.inputs.filterMap fun id => st.types.lookup id.name).flatMap typeParts)
    Noted.note (st.outputs.flatMap typeParts)
    Noted.note [.poseidon]
  else pure ()

def layout (mode : Arithmetic) (src : IrSource) : Layout Unit := do
  let start ← layoutInputs ⟨[], []⟩ src.inputs
  let st ← src.instructions.foldlM (layoutStep mode src.outputs) start
  layoutCommitment src st

open Loops List

variable {P : Primitives} {chips : Chips}

/- A native value is made a scalar, before any hash whose alignment the circuit cannot decode
ends the synthesis. -/
def convertsFirst : List Instruction → Bool
  | [] => false
  | .jubjubScalarFromNative _ _ :: _ => true
  | .persistentHash alignment _ _ :: rest | .keccak256 alignment _ _ :: rest =>
    optionFree alignment && convertsFirst rest
  | _ :: rest => convertsFirst rest

def Instruction.converts : Instruction → Bool
  | .jubjubScalarFromNative _ _ => true
  | _ => false

def CoveredTypes (chips : Chips) (types : Types) : Prop :=
  ∀ entry ∈ types, typeChip chips entry.2 = true

structure Covered (chips : Chips) (st : LayoutState) : Prop where
  types : CoveredTypes chips st.types
  outputs : ∀ type ∈ st.outputs, typeChip chips type = true

variable {type : IrType} {st : LayoutState}

theorem typePartsOn (on : typeChip chips type) : ∀ part ∈ typeParts type, part.on chips := by
  cases type with
  | native => exact forall_mem_nil _
  | jubjubPoint | jubjubScalar | secp256k1Point | secp256k1Base | secp256k1Scalar =>
    exact forall_mem_singleton.mpr on

variable {ins : Instruction} {alignment : Fab.Alignment} {rest : List Instruction} {id : Identifier}
  {types : Types} {mode : Arithmetic} {outputTypes : List IrType} {src : IrSource}

theorem Covered.insert (covered : Covered chips st) (on : typeChip chips type) :
    Covered chips (st.insert id type) :=
  ⟨forall_mem_cons.mpr ⟨on, covered.types⟩, covered.outputs⟩

theorem Covered.insertAll (covered : Covered chips st) {entries : Types}
    (on : CoveredTypes chips entries) : Covered chips (st.insertAll entries) := by
  refine ⟨forall_mem_append.mpr ⟨fun entry mem => ?_, covered.types⟩, covered.outputs⟩
  exact on entry (mem_reverse.mp mem)

variable {operand : Operand}

theorem cellTypeOn (covered : CoveredTypes chips types)
    (ok : cellType types operand = .ok type) : typeChip chips type := by
  cases operand with
  | immediate imm =>
    cases ok
    rfl
  | «variable» id =>
    simp only [cellType] at ok
    split at ok <;> try contradiction
    rename_i found
    cases ok
    exact covered _ (lookupMem found)

variable {vals : List Operand}

theorem outputTypesOn (covered : CoveredTypes chips types)
    {expected found : List IrType} (ok : outputTypesOf types vals expected = .ok found) :
    ∀ type ∈ found, typeChip chips type := by
  induction vals generalizing expected found with
  | nil =>
    cases ok
    exact forall_mem_nil _
  | cons val vals ih =>
    cases expected with
    | nil =>
      cases ok
      exact forall_mem_nil _
    | cons expectedT rest =>
      obtain ⟨type, resolved, ok⟩ := bindOk.mp ok
      split at ok <;> try contradiction
      obtain ⟨others, more, rfl⟩ := pureOk.mp ok
      exact forall_mem_cons.mpr ⟨cellTypeOn covered resolved, ih more⟩

variable {message : String}

section Operations

variable {a b : IrType}

theorem addTypeOn (ok : addType a b = .ok type) (on : typeChip chips a) : typeChip chips type := by
  cases a <;> cases b <;> simp only [addType, reduceCtorEq] at ok <;> cases ok <;> exact on

theorem mulTypeOn (ok : mulType a b = .ok type) (on : typeChip chips a) : typeChip chips type := by
  cases a <;> cases b <;> simp only [mulType, reduceCtorEq] at ok <;> cases ok <;> exact on

theorem negTypeOn (ok : negType a = .ok type) (on : typeChip chips a) : typeChip chips type := by
  cases a <;> simp only [negType, reduceCtorEq] at ok <;> cases ok <;> exact on

theorem invTypeOn (ok : invType a = .ok type) (on : typeChip chips a) : typeChip chips type := by
  cases a <;> simp only [invType, reduceCtorEq] at ok <;> cases ok <;> exact on

theorem pairTypeOn (ok : pairType message a b = .ok type)
    (on : typeChip chips a) : typeChip chips type := by
  rw [pairType] at ok
  split at ok <;> cases ok
  exact on

theorem ecMulTypeOn (ok : ecMulType a b = .ok type) (on : typeChip chips a) :
    typeChip chips type := by
  cases a <;> cases b <;> simp only [ecMulType, reduceCtorEq] at ok <;> cases ok <;> exact on

theorem generatorTypeOn (ok : generatorType a = .ok type) (on : typeChip chips a) :
    typeChip chips type := by
  cases a <;> simp only [generatorType, reduceCtorEq] at ok <;> cases ok <;> exact on

end Operations

abbrev Declared (chips : Chips) {α : Type} (x : Layout α) (post : α → Prop) : Prop :=
  Noted.Within (fun part => part.on chips = true) x post

theorem operateDeclared {type : Except Fault IrType} (on : ∀ {t}, type = .ok t → typeChip chips t) :
    Declared chips (operate type) fun t => typeChip chips t := by
  refine withinBind (withinOf on) fun _ here => ?_
  refine noteThen (typePartsOn here) ?_
  exact withinPure here

variable {α : Type} {part : Part} {output : Identifier}

section Step

theorem cellDeclared (covered : Covered chips st) :
    Declared chips (Noted.of (cellType st.types operand)) fun t => typeChip chips t :=
  withinOf (cellTypeOn covered.types)

variable {a : Operand}

theorem failDeclared {fault : Fault} {post : α → Prop} :
    Declared chips (Noted.of (.error fault)) post := withinOf nofun

theorem coveredNatives (entries : List Identifier) :
    CoveredTypes chips (entries.map fun id => (id, .native)) := by
  intro entry mem
  obtain ⟨id, -, rfl⟩ := mem_map.mp mem
  rfl

theorem hashDeclared (on : part.on chips) (covered : Covered chips st)
    (alignment : Fab.Alignment) (inputs : List Operand) (outputs : List Identifier) :
    Declared chips (hashLayout part st alignment inputs outputs) (Covered chips) := by
  refine withinThen fun pair => ?_
  obtain ⟨first, second⟩ := pair
  refine withinThen fun _ => ?_
  refine withinThen fun _ => ?_
  refine noteThen (forall_mem_singleton.mpr on) ?_
  exact withinPure (covered.insertAll (coveredNatives [first, second]))

theorem binaryDeclared {b : Operand} {operation : IrType → IrType → Except Fault IrType}
    (on : ∀ {a b t}, operation a b = .ok t → typeChip chips a → typeChip chips t)
    (covered : Covered chips st) :
    Declared chips (do
      let a ← Noted.of (cellType st.types a)
      let b ← Noted.of (cellType st.types b)
      let type ← operate (operation a b)
      pure (st.insert output type)) (Covered chips) := by
  refine withinBind (cellDeclared covered) fun _ here => ?_
  refine withinBind (cellDeclared covered) fun _ _ => ?_
  refine withinBind (operateDeclared fun ok => on ok here) fun _ there => ?_
  exact withinPure (covered.insert there)

theorem unaryDeclared {operation : IrType → Except Fault IrType}
    (on : ∀ {a t}, operation a = .ok t → typeChip chips a → typeChip chips t)
    (covered : Covered chips st) :
    Declared chips (do
      let a ← Noted.of (cellType st.types a)
      let type ← operate (operation a)
      pure (st.insert output type)) (Covered chips) := by
  refine withinBind (cellDeclared covered) fun _ here => ?_
  refine withinBind (operateDeclared fun ok => on ok here) fun _ there => ?_
  exact withinPure (covered.insert there)

theorem stepDeclared (mode : Arithmetic) (outputTypes : List IrType)
    (enabled : ins.enabled chips) (converts : ins.converts → chips.jubjub)
    (covered : Covered chips st) :
    Declared chips (layoutStep mode outputTypes st ins) (Covered chips) := by
  cases ins with
  | encode input outputs =>
    refine withinBind (cellDeclared covered) fun _ here => ?_
    refine noteThen (typePartsOn here) ?_
    split
    · exact failDeclared
    · exact withinPure (covered.insertAll (coveredNatives outputs))
  | decode inputs valT output =>
    refine withinThen fun _ => ?_
    refine noteThen (typePartsOn enabled) ?_
    split
    · exact failDeclared
    · exact withinPure (covered.insert enabled)
  | assert cond | constrainBits cond bits | constrainToBoolean cond =>
    refine withinThen fun _ => ?_
    exact withinPure covered
  | condSelect bit a b output =>
    refine withinThen fun _ => ?_
    exact binaryDeclared pairTypeOn covered
  | constrainEq a b =>
    refine withinBind (cellDeclared covered) fun _ here => ?_
    refine withinBind (cellDeclared covered) fun _ _ => ?_
    refine withinBind (operateDeclared fun ok => pairTypeOn ok here) fun _ _ => ?_
    exact withinPure covered
  | copy val output =>
    refine withinBind (cellDeclared covered) fun _ here => ?_
    exact withinPure (covered.insert here)
  | impact guard inputs =>
    refine withinThen fun _ => ?_
    refine withinThen fun _ => ?_
    exact withinPure covered
  | transientHash inputs output =>
    refine withinThen fun _ => ?_
    have declared : ∀ part ∈ [Part.poseidon], part.on chips := forall_mem_singleton.mpr enabled
    refine noteThen declared ?_
    exact withinPure (covered.insert rfl)
  | persistentHash alignment inputs outputs =>
    have declared : Part.sha2.on chips := enabled
    exact hashDeclared declared covered alignment inputs outputs
  | keccak256 alignment inputs outputs =>
    have declared : Part.keccak.on chips := enabled
    exact hashDeclared declared covered alignment inputs outputs
  | testEq a b output =>
    refine withinBind (cellDeclared covered) fun _ here => ?_
    refine withinBind (cellDeclared covered) fun _ _ => ?_
    refine withinBind (operateDeclared fun ok => pairTypeOn ok here) fun _ _ => ?_
    exact withinPure (covered.insert rfl)
  | add a b output => exact binaryDeclared addTypeOn covered
  | mul a b output => exact binaryDeclared mulTypeOn covered
  | neg a output => exact unaryDeclared negTypeOn covered
  | inv a output => exact unaryDeclared invTypeOn covered
  | not a output =>
    refine withinThen fun _ => ?_
    exact withinPure (covered.insert rfl)
  | lessThan a b bits output | reconstituteField divisor modulus bits output =>
    iterate 3 refine withinThen fun _ => ?_
    exact withinPure (covered.insert rfl)
  | jubjubScalarFromNative native output =>
    have on : chips.jubjub := converts rfl
    refine withinThen fun _ => ?_
    have declared : ∀ part ∈ [Part.jubjub], part.on chips := forall_mem_singleton.mpr on
    refine noteThen declared ?_
    exact withinPure (covered.insert on)
  | publicInput guard valT output | privateInput guard valT output =>
    refine noteThen (typePartsOn enabled) ?_
    exact withinPure (covered.insert enabled)
  | divModPowerOfTwo val bits outputs =>
    refine withinThen fun pair => ?_
    obtain ⟨first, second⟩ := pair
    refine withinThen fun _ => ?_
    split
    · exact failDeclared
    · exact withinPure (covered.insertAll (coveredNatives [first, second]))
  | ecMul a scalar output => exact binaryDeclared ecMulTypeOn covered
  | ecMulGenerator scalar output =>
    refine withinBind (cellDeclared covered) fun _ here => ?_
    refine withinBind (operateDeclared fun ok => generatorTypeOn ok here) fun _ there => ?_
    refine withinBind (operateDeclared fun ok => ecMulTypeOn ok there) fun _ last => ?_
    exact withinPure (covered.insert last)
  | hashToCurve inputs output =>
    obtain ⟨curve, poseidon⟩ := Bool.and_eq_true_iff.mp enabled
    refine withinThen fun _ => ?_
    have declared : ∀ part ∈ [Part.jubjub, Part.poseidon], part.on chips :=
      forall_mem_cons.mpr ⟨curve, forall_mem_singleton.mpr poseidon⟩
    refine noteThen declared ?_
    exact withinPure (covered.insert curve)
  | output vals =>
    rw [layoutStep]
    split
    · exact failDeclared
    · refine withinBind (withinOf (outputTypesOn covered.types)) fun _ each => ?_
      exact withinPure ⟨covered.types, forall_mem_append.mpr ⟨covered.outputs, each⟩⟩

end Step

theorem fabLayoutOption (free : optionFree alignment = false) (cells : Nat) :
    fabLayout alignment cells ≠ .ok () := by
  induction alignment generalizing cells with
  | nil => cases free
  | cons segment rest ih =>
    cases segment with
    | option branches => simp [fabLayout]
    | atom atom =>
      have later : optionFree rest = false := by simpa [optionFree] using free
      cases atom with
      | compress => simp [fabLayout]
      | field | bytes length =>
        rw [fabLayout]
        split
        · simp
        · exact ih later _

variable {next : LayoutState} {inputs : List Operand} {outputs : List Identifier}

theorem hashOptionFree (ok : (hashLayout part st alignment inputs outputs).outcome = .ok next) :
    optionFree alignment := by
  obtain ⟨⟨first, second⟩, -, rest⟩ := bindOutcome.mp ok
  obtain ⟨⟨⟩, -, rest⟩ := bindOutcome.mp rest
  obtain ⟨⟨⟩, decoded, -⟩ := bindOutcome.mp rest
  by_contra free
  exact fabLayoutOption (Bool.eq_false_iff.mpr free) _ decoded

theorem convertsHead (converts : ins.converts) : convertsFirst (ins :: rest) := by
  cases ins <;> cases converts
  rfl

theorem convertsTail (ok : (layoutStep mode outputTypes st ins).outcome = .ok next)
    (later : convertsFirst rest) : convertsFirst (ins :: rest) := by
  cases ins with
  | jubjubScalarFromNative native output => rfl
  | persistentHash alignment inputs outputs | keccak256 alignment inputs outputs =>
    rw [convertsFirst, hashOptionFree ok, later]
    rfl
  | _ => exact later

variable {instructions : List Instruction}

theorem runDeclared (enabled : ∀ ins ∈ instructions, ins.enabled chips)
    (converts : convertsFirst instructions → chips.jubjub)
    (covered : Covered chips st) :
    Declared chips (instructions.foldlM (layoutStep mode outputTypes) st) (Covered chips) := by
  induction instructions generalizing st with
  | nil => exact withinPure covered
  | cons ins rest ih =>
    have here := stepDeclared mode outputTypes (enabled ins mem_cons_self)
      (fun own => converts (convertsHead own)) covered
    refine withinBind here fun taken kept => ?_
    exact ih (forall_mem_cons.mp enabled).2 (fun later => converts (convertsTail taken later)) kept

variable {ids : List TypedIdentifier}

theorem inputsDeclared (on : ∀ id ∈ ids, typeChip chips id.valT)
    (covered : Covered chips st) : Declared chips (layoutInputs st ids) (Covered chips) := by
  refine withinFold (fun mem kept => ?_) covered
  refine noteThen (typePartsOn (on _ mem)) ?_
  exact withinPure (kept.insert (on _ mem))

theorem commitmentDeclared (poseidon : src.doCommunicationsCommitment → chips.poseidon)
    (covered : Covered chips st) : Declared chips (layoutCommitment src st) fun _ => True := by
  rw [layoutCommitment]
  split
  · rename_i committed
    have inputs : ∀ part ∈ (src.inputs.filterMap fun id => st.types.lookup id.name).flatMap typeParts,
        part.on chips = true := by
      intro part mem
      obtain ⟨type, among, inside⟩ := mem_flatMap.mp mem
      obtain ⟨id, -, found⟩ := mem_filterMap.mp among
      exact typePartsOn (covered.types _ (lookupMem found)) part inside
    have outputs : ∀ part ∈ st.outputs.flatMap typeParts, part.on chips := by
      intro part mem
      obtain ⟨type, among, inside⟩ := mem_flatMap.mp mem
      exact typePartsOn (covered.outputs type among) part inside
    have hash : ∀ part ∈ [Part.poseidon], part.on chips :=
      forall_mem_singleton.mpr (poseidon committed)
    refine noteThen inputs ?_
    exact withinBind (withinNote outputs) fun _ _ => withinNote hash
  · exact withinPure trivial

theorem layoutDeclared (mode : Arithmetic)
    (converts : convertsFirst src.instructions → (usedChips src).jubjub) :
    Declared (usedChips src) (layout mode src) fun _ => True := by
  have start : Covered (usedChips src) ⟨[], []⟩ := ⟨forall_mem_nil _, forall_mem_nil _⟩
  refine withinBind (inputsDeclared (fun id mem => inputChip mem) start) fun _ begun => ?_
  refine withinBind (runDeclared (fun ins mem => usedEnabled mem) converts begun)
    fun _ finished => ?_
  refine commitmentDeclared (fun committed => ?_) finished
  simp [usedChips, committed]

def typesOf (memory : Memory P) : Types := memory.map fun entry => (entry.1, entry.2.getType)

def PreState.layout (st : PreState P) : LayoutState :=
  ⟨typesOf st.memory, st.outputs.map IrValue.getType⟩

variable {memory : Memory P} {value : IrValue P} {operands : List Operand} {xs : List Fr}

theorem typesLookup (memory : Memory P) (id : Identifier) :
    (typesOf memory).lookup id = (memory.lookup id).map IrValue.getType := by
  induction memory with
  | nil => rfl
  | cons entry memory ih =>
    obtain ⟨name, value⟩ := entry
    rw [typesOf, map_cons, lookup_cons, lookup_cons]
    cases id == name with
    | true => rfl
    | false => exact ih

theorem cellTypeOf (ok : resolveOperand memory operand = .ok value) :
    cellType (typesOf memory) operand = .ok value.getType := by
  cases operand with
  | immediate imm =>
    cases ok
    rfl
  | «variable» id =>
    simp only [resolveOperand] at ok
    split at ok <;> try contradiction
    rename_i found
    cases ok
    simp only [cellType, typesLookup, found, Option.map_some]

theorem nativeTypeOf {x : Fr} (ok : resolveNative memory operand = .ok x) :
    nativeType (typesOf memory) operand = .ok () := by
  obtain ⟨value, found, last⟩ := bindOk.mp ok
  rw [nativeType, cellTypeOf found, okBind]
  cases value <;> simp only [IrValue.toNative, reduceCtorEq] at last
  exact if_pos rfl

theorem boolTypeOf {b : Bool} (ok : resolveOperandBool memory operand = .ok b) :
    nativeType (typesOf memory) operand = .ok () := by
  obtain ⟨x, found, -⟩ := bindOk.mp ok
  exact nativeTypeOf found

theorem nativeTypesOf (ok : operands.mapM (resolveNative memory) = .ok xs) :
    operands.forM (nativeType (typesOf memory)) = .ok () := by
  induction operands generalizing xs with
  | nil => rfl
  | cons operand operands ih =>
    rw [mapM_cons] at ok
    obtain ⟨x, first, rest⟩ := bindOk.mp ok
    obtain ⟨tail, others, last⟩ := bindOk.mp rest
    change (nativeType (typesOf memory) operand >>= fun _ =>
      operands.forM (nativeType (typesOf memory))) = _
    rw [nativeTypeOf first, okBind, ih others]

theorem outputTypesOfOk {expected : List IrType} {values : List (IrValue P)}
    (ok : checkedOutputs memory vals expected = .ok values) :
    outputTypesOf (typesOf memory) vals expected = .ok (values.map IrValue.getType) := by
  induction vals generalizing expected values with
  | nil =>
    cases ok
    rfl
  | cons val vals ih =>
    cases expected with
    | nil =>
      cases ok
      rfl
    | cons expectedT rest =>
      obtain ⟨value, found, ok⟩ := bindOk.mp ok
      obtain ⟨typed, ok⟩ := elseOk.mp ok
      obtain ⟨others, more, rfl⟩ := pureOk.mp ok
      rw [outputTypesOf, cellTypeOf found, okBind, if_neg typed, ih more, okBind]
      rfl

section Operations

variable {x y r : IrValue P}

theorem addTypeOf (ok : addOffcircuit x y = .ok r) :
    addType x.getType y.getType = .ok r.getType := by
  cases x <;> cases y <;> simp only [addOffcircuit, reduceCtorEq] at ok <;> cases ok <;> rfl

theorem mulTypeOf (ok : mulOffcircuit x y = .ok r) :
    mulType x.getType y.getType = .ok r.getType := by
  cases x <;> cases y <;> simp only [mulOffcircuit, reduceCtorEq] at ok <;> cases ok <;> rfl

theorem negTypeOf (ok : negOffcircuit x = .ok r) : negType x.getType = .ok r.getType := by
  cases x <;> simp only [negOffcircuit, reduceCtorEq] at ok <;> cases ok <;> rfl

theorem invTypeOf (ok : invOffcircuit x = .ok r) : invType x.getType = .ok r.getType := by
  cases x <;> simp only [invOffcircuit, reduceCtorEq] at ok
  all_goals
    obtain ⟨-, a, rfl⟩ := invertibleOk ok (.unsatisfied "inv")
    rfl

theorem ecMulTypeOf (ok : ecMulOffcircuit x y = .ok r) :
    ecMulType x.getType y.getType = .ok r.getType := by
  cases x <;> cases y <;> simp only [ecMulOffcircuit, reduceCtorEq] at ok <;> cases ok <;> rfl

theorem generatorTypeOf (ok : generatorFor type = .ok r) : generatorType type = .ok r.getType := by
  cases type <;> simp only [generatorFor, reduceCtorEq] at ok <;> cases ok <;> rfl

theorem pairTypeOf (same : x.getType = y.getType)
    (supported : x.getType ≠ .jubjubScalar) :
    pairType message x.getType y.getType = .ok x.getType := by
  refine if_neg ?_
  rintro (other | scalar)
  · exact other same
  · exact supported scalar

end Operations

theorem fabLaid {atoms : List AlignmentAtom} {repr rest : List Fr} {value : Value}
    (ok : parseFieldReprInner (atoms.map .atom) repr = some (value, rest)) :
    fabLayout (atoms.map .atom) repr.length = .ok () := by
  induction atoms generalizing repr value with
  | nil => rfl
  | cons atom atoms ih =>
    simp only [map_cons, parseFieldReprInner, parseSegment, bind, Option.bind_eq_some_iff,
      Prod.exists, Option.some.injEq, Prod.mk.injEq] at ok
    obtain ⟨first, after, ⟨x, mid, parsed, rfl, rfl⟩, tail, last, others, rfl, rfl⟩ := ok
    have later := ih others
    cases atom with
    | compress => simp [AlignmentAtom.parseFieldRepr] at parsed
    | field =>
      cases repr with
      | nil => simp [AlignmentAtom.parseFieldRepr] at parsed
      | cons f repr =>
        cases parsed
        exact later
    | bytes length =>
      obtain ⟨stray, els, reads⟩ := bytesParsed parsed
      have size : repr.length = expectedSize length.toNat + mid.length := by
        rw [reads.split, expectedSize, length_append, length_append, reads.strayLength,
          reads.elsLength]
        omega
      rw [map_cons, fabLayout, if_neg (by omega), size, Nat.add_sub_cancel_left]
      exact later

section Accepted

variable {preimage : ProofPreimage} {st next : PreState P}

/- Encodings have the length that `encoded_len` gives. -/
def EncodedLengths (P : Primitives) : Prop :=
  ∀ value : IrValue P, (encodeOffcircuit value).length = value.getType.encodedLen

def Scalarless (memory : Memory P) : Prop :=
  ∀ entry ∈ memory, entry.2.getType ≠ .jubjubScalar

theorem resolvedScalarless (scalarless : Scalarless memory)
    (ok : resolveOperand memory operand = .ok value) :
    value.getType ≠ .jubjubScalar :=
  resolvedHolds (Q := fun value => value.getType ≠ .jubjubScalar) (fun _ => nofun) scalarless ok

def Instruction.decodes : Instruction → Bool
  | .persistentHash alignment _ _ | .keccak256 alignment _ _ => optionFree alignment
  | _ => true

theorem insertLaid (st : PreState P) (id : Identifier) (value : IrValue P) :
    (st.insert id value).layout = st.layout.insert id value.getType := rfl

theorem insertAllLaid (st : PreState P) (entries : List (Identifier × IrValue P)) :
    (st.insertAll entries).layout = st.layout.insertAll (typesOf entries) := by
  simp [PreState.insertAll, PreState.layout, LayoutState.insertAll, typesOf]

theorem nativesLaid (sizes : xs.length = outputs.length) :
    typesOf (outputs.zip (xs.map (.native : Fr → IrValue P))) =
      outputs.map fun id => (id, .native) := by
  induction outputs generalizing xs with
  | nil => rfl
  | cons id outputs ih =>
    cases xs with
    | nil => cases sizes
    | cons x xs =>
      have rest := ih (Nat.succ.inj sizes)
      rw [typesOf] at rest
      rw [map_cons, map_cons, zip_cons_cons, typesOf, map_cons, rest]
      rfl

section

variable {x y : IrValue P}

theorem cellLaid : Noted.Follows (resolveOperand memory operand)
      (Noted.of (cellType (typesOf memory) operand) : Layout IrType) IrValue.getType :=
  fun _ => cellTypeOf

theorem nativeLaid : Noted.Follows (resolveNative memory operand)
      (Noted.of (nativeType (typesOf memory) operand) : Layout Unit) fun _ => () :=
  fun _ => nativeTypeOf

theorem boolLaid : Noted.Follows (resolveOperandBool memory operand)
      (Noted.of (nativeType (typesOf memory) operand) : Layout Unit) fun _ => () :=
  fun _ => boolTypeOf

theorem operandsLaid : Noted.Follows (operands.mapM (resolveNative memory))
      (Noted.of (operands.forM (nativeType (typesOf memory))) : Layout Unit) fun _ => () :=
  fun _ => nativeTypesOf

theorem operateLaid {x : Native α} {type : Except Fault IrType} (view : α → IrType)
    (typed : ∀ {a}, x = .ok a → type = .ok (view a)) : Noted.Follows x (operate type) view := by
  intro a ok
  rw [typed ok]
  rfl

variable {a b : Operand}

theorem binaryLaid {operation : IrValue P → IrValue P → Native (IrValue P)}
    {type : IrType → IrType → Except Fault IrType}
    (typed : ∀ {x y r}, operation x y = .ok r → type x.getType y.getType = .ok r.getType) :
    Noted.Follows (do
      let a ← resolveOperand st.memory a
      let b ← resolveOperand st.memory b
      let result ← operation a b
      .ok (st.insert output result)) (do
      let a ← Noted.of (cellType st.layout.types a)
      let b ← Noted.of (cellType st.layout.types b)
      let type ← operate (type a b)
      pure (st.layout.insert output type)) PreState.layout := by
  refine followsBind cellLaid fun _ => followsBind cellLaid fun _ => ?_
  exact followsBind (operateLaid _ typed) fun _ => followsPure rfl

theorem unaryLaid {operation : IrValue P → Native (IrValue P)} {type : IrType → Except Fault IrType}
    (typed : ∀ {x r}, operation x = .ok r → type x.getType = .ok r.getType) :
    Noted.Follows (do
      let a ← resolveOperand st.memory a
      let result ← operation a
      .ok (st.insert output result)) (do
      let a ← Noted.of (cellType st.layout.types a)
      let type ← operate (type a)
      pure (st.layout.insert output type)) PreState.layout := by
  refine followsBind cellLaid fun _ => ?_
  exact followsBind (operateLaid _ typed) fun _ => followsPure rfl

end

theorem hashLaid {hash : Bytes → Bytes} (ok : hashStep P hash st alignment inputs outputs = .ok next)
    (free : optionFree alignment) :
    (hashLayout part st.layout alignment inputs outputs).outcome = .ok next.layout := by
  obtain ⟨atoms, rfl⟩ := optionFreeAtoms free
  obtain ⟨⟨first, second⟩, named, ok⟩ := bindOk.mp ok
  obtain ⟨values, found, ok⟩ := bindOk.mp ok
  obtain ⟨fields, hashed, ok⟩ := bindOk.mp ok
  have decoded : fabLayout (atoms.map .atom) inputs.length = .ok () := by
    unfold persistentHashNative at hashed
    split at hashed <;> try contradiction
    rename_i value parsed
    simp only [Alignment.parseFieldRepr, bind, Option.bind_eq_some_iff, Prod.exists,
      Option.some.injEq] at parsed
    obtain ⟨inner, rest, parsed, -⟩ := parsed
    have cells := fabLaid parsed
    rwa [mapMLength found] at cells
  split at ok <;> try contradiction
  cases ok
  refine bindOutcome.mpr ⟨(first, second), (twoOutputsOk named _).1, ?_⟩
  refine bindOutcome.mpr ⟨(), nativeTypesOf found, ?_⟩
  refine bindOutcome.mpr ⟨(), decoded, ?_⟩
  rfl

theorem stepLaid (lengths : EncodedLengths P) (scalarless : Scalarless st.memory)
    (decodes : ins.decodes) :
    Noted.Follows (preprocessStep mode outputTypes preimage st ins)
      (layoutStep mode outputTypes st.layout ins) PreState.layout := by
  cases ins with
  | encode input outputs =>
    refine followsBind cellLaid fun {val} _ => followsNote fun next ok => ?_
    dsimp only at ok
    obtain ⟨sizes, ok⟩ := elseOk.mp ok
    cases ok
    have length : val.getType.encodedLen = outputs.length := (lengths val).symm.trans (not_not.mp sizes)
    rw [if_neg (not_not.mpr length), insertAllLaid, nativesLaid (not_not.mp sizes)]
    rfl
  | decode inputs valT output =>
    refine followsBind operandsLaid fun found => followsNote ?_
    refine followsSkip fun {value} decoded => ?_
    obtain ⟨typed, inverse⟩ := decodedType decoded
    have length : valT.encodedLen = inputs.length := by
      rw [← typed, ← lengths value, inverse, mapMLength found]
    rw [if_neg (not_not.mpr length)]
    exact followsPure (by rw [insertLaid, typed])
  | assert cond =>
    refine followsBind boolLaid fun {b} _ => ?_
    cases b with
    | false => rintro _ ⟨⟩
    | true => exact followsPure rfl
  | constrainBits val bits =>
    exact followsBind nativeLaid fun _ => followsSkip fun _ => followsPure rfl
  | constrainToBoolean val | not a output =>
    exact followsBind boolLaid fun _ => followsPure rfl
  | condSelect bit a b output =>
    refine followsBind boolLaid fun _ => followsBind cellLaid fun {left} found => ?_
    refine followsBind cellLaid fun {right} _ => ?_
    refine followsBind (operateLaid _ fun {result} selected => ?_) fun _ => followsPure rfl
    unfold selectOffcircuit at selected
    obtain ⟨types, selected⟩ := elseOk.mp selected
    have same : left.getType = right.getType := not_not.mp types
    have typed : result.getType = left.getType := by
      cases selected
      split
      · rfl
      · exact same.symm
    rw [typed]
    exact pairTypeOf same (resolvedScalarless scalarless found)
  | constrainEq a b =>
    refine followsBind cellLaid fun {left} found => followsBind cellLaid fun _ => ?_
    refine followsBind (operateLaid (fun _ => left.getType) fun equal => ?_)
      fun _ => followsPure rfl
    unfold constrainEqOffcircuit at equal
    obtain ⟨types, equal⟩ := elseOk.mp equal
    exact pairTypeOf (not_not.mp types) (resolvedScalarless scalarless found)
  | copy val output => exact followsBind cellLaid fun _ => followsPure rfl
  | impact guard inputs =>
    intro next ok
    obtain ⟨values, found, ok⟩ := bindOk.mp ok
    obtain ⟨declared, -, ok⟩ := bindOk.mp ok
    obtain ⟨on, guarded, ok⟩ := bindOk.mp ok
    have same : next.layout = st.layout := by
      cases on with
      | false =>
        obtain ⟨back, -, rfl⟩ := pureOk.mp ok
        rfl
      | true =>
        obtain ⟨-, -, rfl⟩ := pureOk.mp ok
        rfl
    refine bindOutcome.mpr ⟨(), boolTypeOf guarded, ?_⟩
    refine bindOutcome.mpr ⟨(), nativeTypesOf found, ?_⟩
    rw [same]
    rfl
  | transientHash inputs output | hashToCurve inputs output =>
    exact followsBind operandsLaid fun _ => followsNote (followsPure rfl)
  | persistentHash alignment inputs outputs | keccak256 alignment inputs outputs =>
    exact fun _ ok => hashLaid ok decodes
  | testEq a b output =>
    refine followsBind cellLaid fun {left} found => followsBind cellLaid fun _ => ?_
    refine followsBind (operateLaid (fun _ => left.getType) fun tested => ?_)
      fun _ => followsPure rfl
    unfold testEqOffcircuit at tested
    obtain ⟨supported, tested⟩ := elseOk.mp tested
    exact pairTypeOf (not_not.mp (not_or.mp supported).1) (resolvedScalarless scalarless found)
  | add a b output => exact binaryLaid addTypeOf
  | mul a b output => exact binaryLaid mulTypeOf
  | neg a output => exact unaryLaid negTypeOf
  | inv a output => exact unaryLaid invTypeOf
  | lessThan a b bits output =>
    refine followsBind nativeLaid fun _ => followsBind nativeLaid fun _ => ?_
    refine followsSkip fun compared => ?_
    obtain ⟨even, sum, -, -⟩ := lessThanCell mode compared
    rintro _ ⟨⟩
    exact bindOutcome.mpr ⟨even, sum, rfl⟩
  | jubjubScalarFromNative native output =>
    exact followsBind nativeLaid fun _ => followsNote (followsPure rfl)
  | publicInput guard valT output | privateInput guard valT output =>
    refine followsNote (followsSkip fun {skipped} _ => ?_)
    cases skipped with
    | true => exact followsPure (by rw [insertLaid, defaultType])
    | false =>
      refine followsSkip fun read => followsPure ?_
      exact congrArg (st.layout.insert output) (readType read).symm
  | divModPowerOfTwo val bits outputs =>
    intro next ok
    obtain ⟨⟨first, second⟩, named, ok⟩ := bindOk.mp ok
    obtain ⟨x, found, ok⟩ := bindOk.mp ok
    obtain ⟨⟨divisor, modulus⟩, split, rfl⟩ := pureOk.mp ok
    have narrow : ¬ frBits < bits.toNat := by
      unfold divModNative at split
      obtain ⟨bound, split⟩ := elseOk.mp split
      unfold frBytesStored at bound
      unfold frBits
      omega
    refine bindOutcome.mpr ⟨(first, second), (twoOutputsOk named _).1, ?_⟩
    refine bindOutcome.mpr ⟨(), nativeTypeOf found, ?_⟩
    rw [if_neg narrow, insertAllLaid]
    rfl
  | reconstituteField divisor modulus bits output =>
    refine followsSkip fun low => followsSkip fun high => followsSkip fun joined => ?_
    obtain ⟨rest, sub, -⟩ := bindOk.mp (rangesCellOk mode joined)
    rintro _ ⟨⟩
    refine bindOutcome.mpr ⟨(), nativeTypeOf high, ?_⟩
    refine bindOutcome.mpr ⟨(), nativeTypeOf low, ?_⟩
    exact bindOutcome.mpr ⟨rest, sub, rfl⟩
  | ecMul a scalar output => exact binaryLaid ecMulTypeOf
  | ecMulGenerator scalar output =>
    refine followsBind cellLaid fun _ => followsBind (operateLaid _ generatorTypeOf) fun _ => ?_
    exact followsBind (operateLaid _ ecMulTypeOf) fun _ => followsPure rfl
  | output vals =>
    rw [preprocessStep, layoutStep]
    split
    · rintro _ ⟨⟩
    · have outputs : Noted.Follows (checkedOutputs st.memory vals outputTypes)
          (Noted.of (outputTypesOf st.layout.types vals outputTypes) : Layout (List IrType))
          (map IrValue.getType) := fun _ => outputTypesOfOk
      exact followsBind outputs fun _ => followsPure (by simp [PreState.layout])

theorem convertsDecodes (first : convertsFirst (ins :: rest)) :
    ins.decodes ∧ (ins.converts ∨ convertsFirst rest) := by
  cases ins with
  | jubjubScalarFromNative native output => exact ⟨rfl, .inl rfl⟩
  | persistentHash alignment inputs outputs | keccak256 alignment inputs outputs =>
    obtain ⟨free, later⟩ := Bool.and_eq_true_iff.mp first
    exact ⟨free, .inr later⟩
  | _ => exact ⟨rfl, .inr first⟩

theorem coveredScalarless (covered : Covered chips st.layout) (off : chips.jubjub = false) :
    Scalarless st.memory := by
  intro entry mem scalar
  have on := covered.types (entry.1, entry.2.getType) (mem_map.mpr ⟨entry, mem, rfl⟩)
  rw [scalar] at on
  exact absurd (off.symm.trans on) Bool.false_ne_true

theorem conversionNoted (lengths : EncodedLengths P) {final : PreState P}
    (enabled : ∀ ins ∈ instructions, ins.enabled chips) (off : chips.jubjub = false)
    (covered : Covered chips st.layout) (first : convertsFirst instructions)
    (ok : Simulation.run (preprocessStep mode outputTypes preimage) st instructions = .ok final) :
    Part.jubjub ∈ (instructions.foldlM (layoutStep mode outputTypes) st.layout).notes := by
  induction instructions generalizing st with
  | nil => cases first
  | cons ins rest ih =>
    obtain ⟨next, taken, later⟩ := Simulation.runCons.mp ok
    obtain ⟨decodes, here⟩ := convertsDecodes first
    have laid := stepLaid lengths (coveredScalarless covered off) decodes taken
    cases own : ins.converts with
    | true =>
      cases ins <;> cases own
      obtain ⟨x, found, -⟩ := bindOk.mp taken
      refine bindNotes.mpr (.inl (bindNotes.mpr (.inr ⟨(), nativeTypeOf found, ?_⟩)))
      exact bindNotes.mpr (.inl (mem_singleton_self _))
    | false =>
      have after : convertsFirst rest := by
        rcases here with now | after
        · cases own.symm.trans now
        · exact after
      have kept := (stepDeclared mode outputTypes (enabled ins mem_cons_self)
        (fun now => nomatch own.symm.trans now) covered).result laid
      refine bindNotes.mpr (.inr ⟨next.layout, laid, ?_⟩)
      exact ih (forall_mem_cons.mp enabled).2 kept after later

theorem inputsLaid {entries : List (Identifier × IrValue P)}
    (matched : List.Forall₂ InputEntry ids entries) (st : LayoutState) :
    (layoutInputs st ids).outcome = .ok { st with types := (typesOf entries).reverse ++ st.types } := by
  induction matched generalizing st with
  | nil => rfl
  | @cons id entry ids entries same rest ih =>
    have later := ih (st.insert id.name id.valT)
    refine bindOutcome.mpr ⟨st.insert id.name id.valT, rfl, later.trans ?_⟩
    simp [LayoutState.insert, typesOf, same.1, same.2]

theorem layoutConverts (lengths : EncodedLengths P) {src : IrSource} {witness : Preprocessed P}
    (prepared : preprocess P mode src preimage = .ok witness)
    (first : convertsFirst src.instructions) (off : (usedChips src).jubjub = false) :
    Part.jubjub ∈ (layout mode src).notes := by
  obtain ⟨memory, pis, final, decoded, leading, runs, -⟩ := preparedRun prepared
  obtain ⟨entries, shape, matched, -⟩ := decodedInputs decoded
  have laid : (layoutInputs ⟨[], []⟩ src.inputs).outcome =
      .ok (⟨memory, pis, [], 0, 0, 0, []⟩ : PreState P).layout := by
    rw [inputsLaid matched, shape]
    simp [PreState.layout, typesOf]
  have start : Covered (usedChips src) ⟨[], []⟩ := ⟨forall_mem_nil _, forall_mem_nil _⟩
  have covered := (inputsDeclared (fun id mem => inputChip mem) start).result laid
  refine bindNotes.mpr (.inr ⟨_, laid, bindNotes.mpr (.inl ?_)⟩)
  exact conversionNoted lengths (fun ins mem => usedEnabled mem) off covered first runs

end Accepted

end MidnightLedger.Zkir.V3

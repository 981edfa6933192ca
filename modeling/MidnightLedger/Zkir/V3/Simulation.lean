import MidnightLedger.Zkir.V3.Program

/-! The circuit of a version 3 program follows `preprocess` as long as every step is `StepProvable`
and every identifier is assigned once: each operation computes inside the circuit what it computes
outside, on values whose chip is enabled. -/
namespace MidnightLedger.Zkir.V3
open ByteString Fab Loops

variable {chips : Chips} {P : Primitives}

def OnChip (chips : Chips) (value : IrValue P) : Prop := typeChip chips value.getType = true

variable {valT : IrType} {name : String} {α : Type} {encoded : List Fr} {x y r a b p s : IrValue P}

theorem chipOk {enabled : Bool} (on : enabled) : chip name enabled = .ok () := if_pos on

theorem chipThen {enabled : Bool} (on : enabled) (rest : Circuit α) :
    (do chip name enabled; rest) = rest := by
  rw [chipOk on, okBind]

variable {value : IrValue P}

theorem decodedType (ok : decodeOffcircuit encoded valT = .ok value) :
    value.getType = valT ∧ encodeOffcircuit value = encoded := by
  unfold decodeOffcircuit at ok
  simp only at ok
  split at ok <;> try contradiction
  rename_i found
  cases ok
  cases valT <;> simp only at found
  case native =>
    split at found <;> try contradiction
    cases found
    exact ⟨rfl, rfl⟩
  case jubjubPoint =>
    split at found <;> try contradiction
    obtain ⟨p, decoded, rfl⟩ := Option.map_eq_some_iff.mp found
    exact ⟨rfl, by simp [encodeOffcircuit, P.decodePointInverse decoded]⟩
  case jubjubScalar =>
    split at found <;> try contradiction
    obtain ⟨s, decoded, rfl⟩ := Option.map_eq_some_iff.mp found
    exact ⟨rfl, by simp [encodeOffcircuit, P.decodeScalarInverse decoded]⟩
  all_goals obtain ⟨a, decoded, rfl⟩ := Option.map_eq_some_iff.mp found
  case secp256k1Point => exact ⟨rfl, P.decodeSecpPointInverse decoded⟩
  case secp256k1Base => exact ⟨rfl, P.decodeBaseInverse decoded⟩
  case secp256k1Scalar => exact ⟨rfl, P.decodeSecpScalarInverse decoded⟩

theorem defaultType (valT : IrType) : (IrValue.default valT : IrValue P).getType = valT := by
  cases valT <;> rfl

theorem allOk {xs : List α} {check : α → Circuit Unit} (each : ∀ x ∈ xs, check x = .ok ()) :
    xs.forM check = .ok () := by
  induction xs with
  | nil => rfl
  | cons x xs ih =>
    have rest := ih (List.forall_mem_cons.mp each).2
    change (check x >>= fun _ => xs.forM check) = _
    rw [each x List.mem_cons_self, okBind, rest]

theorem equalCells (xs : List Fr) :
    (xs.zip xs).forM (fun pair => assertEqual pair.1 pair.2) = (.ok () : Circuit Unit) := by
  refine allOk ?_
  intro pair mem
  obtain ⟨i, inside, rfl⟩ := List.getElem_of_mem mem
  simp [assertEqual, require]

theorem encodeAgrees (on : OnChip chips value) :
    encodeIncircuit chips value = .ok (encodeOffcircuit value) := by
  cases value with
  | jubjubScalar s =>
    have zeros : ((P.scalarFr s :: List.replicate P.scalarPadding 0).drop 1).forM
        (fun x : Fr => require "assert_zero" (x = 0)) = .ok () := by
      refine allOk ?_
      intro x mem
      have zero : x = 0 := List.eq_of_mem_replicate mem
      simp [require, zero]
    rw [encodeIncircuit, chipOk on, okBind]
    simp only [zeros, okBind]
    rfl
  | native x | jubjubPoint p | secp256k1Point p | secp256k1Base b | secp256k1Scalar s =>
    exact chipThen on _

theorem assignAgrees (typed : value.getType = valT) (on : typeChip chips valT) :
    assignIncircuit chips valT value = .ok value := by
  rw [assignIncircuit, if_neg (not_not.mpr typed), chipOk on, okBind]

theorem decodeAgrees (ok : decodeOffcircuit encoded valT = .ok value) (on : typeChip chips valT) :
    decodeIncircuit chips encoded valT = .ok value := by
  obtain ⟨typed, inverse⟩ := decodedType ok
  have onChip : OnChip chips value := by rw [OnChip, typed]; exact on
  rw [decodeIncircuit, ok, okBind, assignAgrees typed on, okBind, encodeAgrees onChip, okBind,
    inverse, if_neg (by simp), equalCells, okBind]

theorem addAgrees (ok : addOffcircuit x y = .ok r) (on : OnChip chips x) :
    addIncircuit chips x y = .ok r ∧ OnChip chips r := by
  cases x <;> cases y <;> simp only [addOffcircuit, reduceCtorEq] at ok <;> cases ok
  · exact ⟨rfl, rfl⟩
  · exact ⟨chipThen on _, on⟩

theorem mulAgrees (ok : mulOffcircuit x y = .ok r) (on : OnChip chips x) :
    mulIncircuit chips x y = .ok r ∧ OnChip chips r := by
  cases x <;> cases y <;> simp only [mulOffcircuit, reduceCtorEq] at ok <;> cases ok
  · exact ⟨rfl, rfl⟩
  · exact ⟨chipThen on _, on⟩
  · exact ⟨chipThen on _, on⟩

theorem negAgrees (ok : negOffcircuit x = .ok r) (on : OnChip chips x) :
    negIncircuit chips x = .ok r ∧ OnChip chips r := by
  cases x <;> simp only [negOffcircuit, reduceCtorEq] at ok <;> cases ok
  · exact ⟨rfl, rfl⟩
  all_goals exact ⟨chipThen on _, on⟩

theorem invertibleOk {wrap : α → IrValue P} {inverse : Option α} {fault : Fault}
    (ok : invertible fault wrap inverse = .ok r) (other : Fault) :
    invertible other wrap inverse = .ok r ∧ ∃ a, r = wrap a := by
  cases inverse with
  | none => simp [invertible] at ok
  | some a =>
    cases ok
    exact ⟨rfl, a, rfl⟩

theorem invAgrees (ok : invOffcircuit x = .ok r) (on : OnChip chips x) :
    invIncircuit chips x = .ok r ∧ OnChip chips r := by
  cases x <;> simp only [invOffcircuit, reduceCtorEq] at ok
  · obtain ⟨inside, a, rfl⟩ := invertibleOk ok (.unsatisfied "inv")
    exact ⟨inside, rfl⟩
  all_goals
    obtain ⟨inside, a, rfl⟩ := invertibleOk ok (.unsatisfied "inv")
    exact ⟨(chipThen on _).trans inside, on⟩

theorem constrainEqAgrees (ok : constrainEqOffcircuit a b = .ok ()) (on : OnChip chips a)
    (supported : a.getType ≠ .jubjubScalar) :
    constrainEqIncircuit chips a b = .ok () := by
  unfold constrainEqOffcircuit at ok
  split at ok <;> try contradiction
  obtain ⟨same, ok⟩ := elseOk.mp ok
  have equal : a = b := not_not.mp same
  subst equal
  rw [constrainEqIncircuit, if_neg (by simp [supported]), chipOk on, okBind]
  simp [assertEqual, require]

theorem selectAgrees {bit : Bool} (ok : selectOffcircuit bit a b = .ok r) (on : OnChip chips a)
    (supported : a.getType ≠ .jubjubScalar) :
    selectIncircuit chips bit a b = .ok r ∧ OnChip chips r := by
  unfold selectOffcircuit at ok
  obtain ⟨types, ok⟩ := elseOk.mp ok
  have same : a.getType = b.getType := not_not.mp types
  cases ok
  have accepted : ¬ (a.getType ≠ b.getType ∨ a.getType = .jubjubScalar) := by
    simp only [not_or, not_not]
    exact ⟨same, supported⟩
  refine ⟨by rw [selectIncircuit, if_neg accepted, chipOk on, okBind], ?_⟩
  cases bit with
  | true => exact on
  | false =>
    rw [OnChip, same] at on
    exact on

theorem testEqAgrees {r : Bool} (ok : testEqOffcircuit a b = .ok r) (on : OnChip chips a) :
    testEqIncircuit chips a b = .ok r := by
  unfold testEqOffcircuit at ok
  obtain ⟨supported, ok⟩ := elseOk.mp ok
  rw [testEqIncircuit, if_neg supported, chipOk on, okBind]
  exact ok

theorem ecMulAgrees (ok : ecMulOffcircuit p s = .ok r) (on : OnChip chips p) :
    ecMulIncircuit chips p s = .ok r ∧ OnChip chips r := by
  cases p <;> cases s <;> simp only [ecMulOffcircuit, reduceCtorEq] at ok <;> cases ok
  all_goals exact ⟨chipThen on _, on⟩

theorem generatorOnChip (ok : generatorFor s.getType = .ok p) (on : OnChip chips s) :
    OnChip chips p := by
  cases s <;> simp only [IrValue.getType, generatorFor, reduceCtorEq] at ok <;> cases ok
  all_goals exact on

open List

variable {memory : Memory P} {operand : Operand}

theorem resolveCell (ok : resolveOperand memory operand = .ok value) :
    cellOf memory operand = .ok value := by
  cases operand with
  | immediate imm => exact ok
  | «variable» id =>
    simp only [resolveOperand] at ok
    simp only [cellOf]
    cases found : memory.lookup id with
    | none => simp [found] at ok
    | some cell => simpa [found] using ok

theorem resolveNativeCell {x : Fr} (ok : resolveNative memory operand = .ok x) :
    nativeCell memory operand = .ok x := by
  obtain ⟨value, found, last⟩ := bindOk.mp ok
  rw [nativeCell, resolveCell found, okBind, last]

theorem resolveNativeCells {operands : List Operand} {xs : List Fr}
    (ok : operands.mapM (resolveNative memory) = .ok xs) :
    operands.mapM (nativeCell memory) = .ok xs := by
  induction operands generalizing xs with
  | nil => exact ok
  | cons operand operands ih =>
    rw [mapM_cons] at ok ⊢
    obtain ⟨x, first, rest⟩ := bindOk.mp ok
    obtain ⟨tail, others, last⟩ := bindOk.mp rest
    rw [resolveNativeCell first, okBind, ih others, okBind]
    exact last

theorem resolveBoolCell {b : Bool} (ok : resolveOperandBool memory operand = .ok b) :
    nativeCell memory operand = .ok (boolFr b) ∧ toBit (boolFr b) = .ok b := by
  obtain ⟨x, found, isBool⟩ := bindOk.mp ok
  obtain ⟨bit, rfl⟩ := boolOfBit isBool
  exact ⟨resolveNativeCell found, bit⟩

variable {types : List IrType} {values : List (IrValue P)} {vals : List Operand}

theorem outputCellsOk (ok : checkedOutputs memory vals types = .ok values) :
    outputCells memory vals types = .ok values := by
  induction vals generalizing types values with
  | nil => cases types <;> exact ok
  | cons val vals ih =>
    cases types with
    | nil => exact ok
    | cons expectedT types =>
      obtain ⟨value, found, ok⟩ := bindOk.mp ok
      obtain ⟨typed, ok⟩ := elseOk.mp ok
      obtain ⟨rest, others, last⟩ := bindOk.mp ok
      rw [outputCells, resolveCell found, okBind, if_neg typed, ih others, okBind]
      exact last

def AllOnChip (chips : Chips) (memory : Memory P) : Prop :=
  ∀ entry ∈ memory, OnChip chips entry.2

variable {id : Identifier}

theorem lookupMem {β : Type} {entries : List (Identifier × β)} {held : β}
    (found : entries.lookup id = some held) : (id, held) ∈ entries := by
  obtain ⟨before, after, rfl, -⟩ := lookup_eq_some_iff.mp found
  exact mem_append_right _ mem_cons_self

theorem lookupUnique (unique : (memory.map Prod.fst).Nodup) (mem : (id, value) ∈ memory) :
    memory.lookup id = some value := by
  induction memory with
  | nil => simp at mem
  | cons entry memory ih =>
    obtain ⟨name, held⟩ := entry
    obtain ⟨fresh, rest⟩ := nodup_cons.mp unique
    rw [lookup_cons]
    rcases mem_cons.mp mem with same | inside
    · cases same
      simp
    · have other : id ≠ name := by
        rintro rfl
        exact fresh (mem_map.mpr ⟨(id, value), inside, rfl⟩)
      rw [show (id == name) = false from beq_false_of_ne other]
      exact ih rest inside

theorem resolvedHolds {Q : IrValue P → Prop} (natives : ∀ imm, Q (.native imm))
    (all : ∀ entry ∈ memory, Q entry.2) (ok : resolveOperand memory operand = .ok value) :
    Q value := by
  cases operand with
  | immediate imm =>
    cases ok
    exact natives imm
  | «variable» id =>
    simp only [resolveOperand] at ok
    split at ok <;> try contradiction
    rename_i found
    cases ok
    exact all _ (lookupMem found)

theorem resolveOnChip (all : AllOnChip chips memory)
    (ok : resolveOperand memory operand = .ok value) : OnChip chips value :=
  resolvedHolds (fun _ => rfl) all ok

variable {witness : Preprocessed P} {entries : List (Identifier × IrValue P)}

section

variable (unique : (witness.memory.map Prod.fst).Nodup) (st : CircuitState P)
include unique

theorem memInsertOk (mem : (id, value) ∈ witness.memory) :
    memInsert witness st id value = .ok { st with memory := (id, value) :: st.memory } := by
  rw [memInsert, lookupUnique unique mem]
  simp

theorem memInsertAllOk (mem : ∀ entry ∈ entries, entry ∈ witness.memory) :
    memInsertAll witness st entries = .ok { st with memory := entries.reverse ++ st.memory } := by
  induction entries generalizing st with
  | nil => rfl
  | cons entry entries ih =>
    have first := memInsertOk unique st (mem entry mem_cons_self)
    have rest := ih { st with memory := entry :: st.memory }
      (fun other inside => mem other (mem_cons_of_mem _ inside))
    rw [memInsertAll, foldlM_cons, first, okBind]
    rw [memInsertAll] at rest
    rw [rest]
    simp

end

def PreState.view (st : PreState P) : CircuitState P := ⟨st.memory, st.pis, st.outputs⟩

structure Sound (chips : Chips) (st : PreState P) : Prop where
  memory : AllOnChip chips st.memory
  outputs : ∀ value ∈ st.outputs, OnChip chips value

section Step

variable {st next : PreState P}

section

variable (unique : (witness.memory.map Prod.fst).Nodup) (sound : Sound chips st)

include unique sound

theorem insertFollows (on : OnChip chips value)
    (held : (st.insert id value).memory <:+ witness.memory) :
    memInsert witness st.view id value = .ok (st.insert id value).view ∧
      Sound chips (st.insert id value) := by
  refine ⟨memInsertOk unique st.view (held.mem mem_cons_self), ?_, sound.outputs⟩
  intro entry mem
  rcases mem_cons.mp mem with rfl | inside
  · exact on
  · exact sound.memory entry inside

theorem insertAllFollows (on : ∀ entry ∈ entries, OnChip chips entry.2)
    (held : (st.insertAll entries).memory <:+ witness.memory) :
    memInsertAll witness st.view entries = .ok (st.insertAll entries).view ∧
      Sound chips (st.insertAll entries) := by
  refine ⟨memInsertAllOk unique st.view ?_, ?_, sound.outputs⟩
  · exact fun entry mem => held.mem (mem_append_left _ (mem_reverse.mpr mem))
  · intro entry mem
    rcases mem_append.mp mem with new | old
    · exact on entry (mem_reverse.mp new)
    · exact sound.memory entry old

theorem inputFollows (typed : value.getType = valT)
    (on : typeChip chips valT) (held : (st.insert id value).memory <:+ witness.memory) :
    inputCell chips witness st.view valT id = .ok (st.insert id value).view ∧
      Sound chips (st.insert id value) := by
  have onChip : OnChip chips value := by rw [OnChip, typed]; exact on
  obtain ⟨pushed, kept⟩ := insertFollows unique sound onChip held
  have found := lookupUnique unique (held.mem mem_cons_self)
  refine ⟨?_, kept⟩
  simp only [inputCell, found, assignAgrees typed on, okBind, pushed]

end

theorem readType {transcript : List Fr} {start : Nat}
    (ok : readTranscript transcript start valT = .ok value) : value.getType = valT := by
  unfold readTranscript at ok
  split at ok <;> try contradiction
  exact (decodedType ok).1

theorem twoNative {first second : Identifier} {low high : Fr} :
    ∀ entry ∈ [(first, (.native low : IrValue P)), (second, .native high)],
      OnChip chips entry.2 := by
  intro entry mem
  rcases mem_cons.mp mem with rfl | mem
  · rfl
  · rw [mem_singleton.mp mem]
    rfl

variable {outputs : List Identifier} {inputs : List Operand}

theorem twoOutputsOk {message : String} {pair : Identifier × Identifier}
    (ok : twoOutputs outputs message = .ok pair) (other : String) :
    twoOutputs outputs other = .ok pair ∧ outputs = [pair.1, pair.2] := by
  unfold twoOutputs at ok ⊢
  split at ok <;> try contradiction
  cases ok
  exact ⟨rfl, rfl⟩

theorem hashFollows {hash : Bytes → Bytes} (length : ∀ bytes, (hash bytes).length = 32)
    {enabled : Bool} (chipOn : enabled) {alignment : Fab.Alignment}
    (ok : hashStep P hash st alignment inputs outputs = .ok next)
    (uniform : ∃ atoms : List AlignmentAtom, alignment = atoms.map .atom ∧
      ∀ values, inputs.mapM (resolveNative st.memory) = .ok values → FullChunksUniform atoms values)
    (unique : (witness.memory.map Prod.fst).Nodup) (sound : Sound chips st)
    (held : next.memory <:+ witness.memory) :
    hashCellStep hash enabled witness st.view alignment inputs outputs = .ok next.view ∧
      Sound chips next := by
  obtain ⟨atoms, rfl, same⟩ := uniform
  obtain ⟨⟨first, second⟩, named, ok⟩ := bindOk.mp ok
  obtain ⟨values, found, ok⟩ := bindOk.mp ok
  obtain ⟨fields, hashed, ok⟩ := bindOk.mp ok
  unfold persistentHashNative at hashed
  split at hashed <;> try contradiction
  rename_i value parsed
  obtain ⟨bytes, repeated, native, -, decoded, sameIff⟩ := parsedDecoded P.transientHash parsed
  rw [sameIff.mpr (same values found)] at decoded
  rw [native] at hashed
  obtain ⟨_, vec, cells, two⟩ := hashCellsEq (length bytes)
  cases hashed.symm.trans vec
  obtain ⟨low, high, rfl⟩ := length_eq_two.mp two
  cases ok
  obtain ⟨pushed, kept⟩ := insertAllFollows unique sound twoNative held
  refine ⟨?_, kept⟩
  simp only [hashCellStep, (twoOutputsOk named _).1, okBind, PreState.view,
    resolveNativeCells found, decoded, chipOk chipOn, cells, index, getElem?_cons_zero,
    getElem?_cons_succ]
  exact pushed

theorem impactFollows {values : List Fr} {on : Bool}
    (found : inputs.mapM (resolveNative st.memory) = .ok values)
    (allowed : on ∨ ∀ x ∈ values, x = 0) (st' : CircuitState P)
    (memory : st'.memory = st.memory) (pis : st'.publicInputs ++ values <+: witness.pis) :
    inputs.foldlM (fun (cells : CircuitState P) input => do
      let x ← nativeCell cells.memory input
      piPush witness cells (if on then x else 0)) st' =
        .ok { st' with publicInputs := st'.publicInputs ++ values } := by
  induction inputs generalizing values st' with
  | nil =>
    cases found
    simp [pure, Except.pure]
  | cons input inputs ih =>
    rw [mapM_cons] at found
    obtain ⟨x, first, rest⟩ := bindOk.mp found
    obtain ⟨tail, others, rfl⟩ := pureOk.mp rest
    have cell : (if on then x else 0) = x := by
      rcases allowed with yes | zeros
      · simp [yes]
      · simp [zeros x mem_cons_self]
    have assoc : st'.publicInputs ++ x :: tail = (st'.publicInputs ++ [x]) ++ tail := by simp
    rw [assoc] at pis ⊢
    have pushed : piPush witness st' x =
        .ok { st' with publicInputs := st'.publicInputs ++ [x] } := by
      rw [piPush, seqPushOk ((prefix_append _ _).trans pis), okBind]
    have later := ih others (allowed.imp id (fun zeros y mem => zeros y (mem_cons_of_mem _ mem)))
      { st' with publicInputs := st'.publicInputs ++ [x] } memory pis
    have resolved : nativeCell st'.memory input = .ok x := by
      rw [memory]
      exact resolveNativeCell first
    rw [foldlM_cons]
    simp only [resolved, okBind, cell, pushed]
    exact later

theorem jubjubScalarAgrees (x : Fr) :
    P.scalarOfNat (leNat x.asLeBytes % jubjubOrder) = nativeToJubjubScalar x := by
  rw [nativeToJubjubScalar, leNatAppendZeros, P.scalarReduced]

theorem checkedOnChip
    (all : AllOnChip chips st.memory) (ok : checkedOutputs st.memory vals types = .ok values) :
    ∀ value ∈ values, OnChip chips value := by
  induction vals generalizing types values with
  | nil =>
    cases ok
    simp
  | cons val vals ih =>
    cases types with
    | nil =>
      cases ok
      simp
    | cons expectedT types =>
      obtain ⟨value, found, ok⟩ := bindOk.mp ok
      split at ok <;> try contradiction
      obtain ⟨rest, others, rfl⟩ := pureOk.mp ok
      intro held mem
      rcases mem_cons.mp mem with rfl | mem
      · exact resolveOnChip all found
      · exact ih others held mem

end Step

def Instruction.enabled (chips : Chips) : Instruction → Bool
  | .decode _ valT _ | .publicInput _ valT _ | .privateInput _ valT _ => typeChip chips valT
  | .hashToCurve .. => chips.jubjub && chips.poseidon
  | .transientHash .. => chips.poseidon
  | .persistentHash .. => chips.sha2
  | .keccak256 .. => chips.keccak
  | _ => true

def StepProvable (chips : Chips) (st : PreState P) : Instruction → Prop
  | .constrainEq a _ | .condSelect _ a _ _ =>
    ∀ value, resolveOperand st.memory a = .ok value → value.getType ≠ .jubjubScalar
  | .impact guard inputs => resolveOperandBool st.memory guard = .ok true ∨
    ∀ values, inputs.mapM (resolveNative st.memory) = .ok values → ∀ x ∈ values, x = 0
  | .persistentHash alignment inputs _ | .keccak256 alignment inputs _ =>
    ∃ atoms : List AlignmentAtom, alignment = atoms.map .atom ∧
      ∀ values, inputs.mapM (resolveNative st.memory) = .ok values → FullChunksUniform atoms values
  | .jubjubScalarFromNative _ _ => chips.jubjub = true
  | _ => True

theorem stepSimulates {mode : Arithmetic} {outputTypes : List IrType}
    {preimage : ProofPreimage} {st next : PreState P}
    {ins : Instruction} (ok : preprocessStep mode outputTypes preimage st ins = .ok next)
    (enabled : ins.enabled chips) (provable : StepProvable chips st ins)
    (unique : (witness.memory.map Prod.fst).Nodup) (sound : Sound chips st)
    (memory : next.memory <:+ witness.memory) (pis : next.pis <+: witness.pis) :
    circuitStep mode chips outputTypes witness st.view ins = .ok next.view ∧ Sound chips next := by
  cases ins with
  | encode input outputs =>
    obtain ⟨val, found, ok⟩ := bindOk.mp ok
    dsimp only at ok
    obtain ⟨sizes, ok⟩ := elseOk.mp ok
    cases ok
    obtain ⟨pushed, kept⟩ := insertAllFollows unique sound (by
      intro entry mem
      obtain ⟨x, -, same⟩ := mem_map.mp (of_mem_zip mem).2
      rw [← same]
      rfl) memory
    have encoded := encodeAgrees (resolveOnChip sound.memory found)
    simp only [circuitStep, PreState.view, resolveCell found, okBind, encoded, if_neg sizes]
    exact ⟨pushed, kept⟩
  | decode inputs valT output =>
    obtain ⟨raw, found, ok⟩ := bindOk.mp ok
    obtain ⟨value, decoded, rfl⟩ := pureOk.mp ok
    have onChip : OnChip chips value := by
      rw [OnChip, (decodedType decoded).1]
      exact enabled
    simp only [circuitStep, PreState.view, resolveNativeCells found, okBind,
      decodeAgrees decoded enabled]
    exact insertFollows unique sound onChip memory
  | assert cond =>
    obtain ⟨b, found, last⟩ := bindOk.mp ok
    obtain ⟨cell, -⟩ := resolveBoolCell found
    cases b with
    | false => simp at last
    | true =>
      cases last
      have accepted : assertNonZero (boolFr true) = .ok () := rfl
      simp only [circuitStep, PreState.view, cell, okBind, accepted]
      exact ⟨trivial, sound⟩
  | condSelect bit a b output =>
    obtain ⟨on, found, ok⟩ := bindOk.mp ok
    obtain ⟨left, foundA, ok⟩ := bindOk.mp ok
    obtain ⟨right, foundB, ok⟩ := bindOk.mp ok
    obtain ⟨result, selected, rfl⟩ := pureOk.mp ok
    obtain ⟨cell, isBit⟩ := resolveBoolCell found
    obtain ⟨inside, onChip⟩ := selectAgrees selected (resolveOnChip sound.memory foundA)
      (provable left foundA)
    simp only [circuitStep, PreState.view, cell, isBit, resolveCell foundA, resolveCell foundB,
      okBind, inside]
    exact insertFollows unique sound onChip memory
  | constrainBits val bits =>
    obtain ⟨x, found, ok⟩ := bindOk.mp ok
    obtain ⟨valBits, bounded, rfl⟩ := pureOk.mp ok
    obtain ⟨-, small, rfl⟩ := idxBitsSome.mp bounded
    simp only [circuitStep, PreState.view, resolveNativeCell found, okBind, assignedToLeBits,
      require, small, decide_true, if_true]
    exact ⟨trivial, sound⟩
  | constrainEq a b =>
    obtain ⟨left, foundA, ok⟩ := bindOk.mp ok
    obtain ⟨right, foundB, ok⟩ := bindOk.mp ok
    obtain ⟨⟨⟩, equal, rfl⟩ := pureOk.mp ok
    have inside := constrainEqAgrees equal (resolveOnChip sound.memory foundA)
      (provable left foundA)
    simp only [circuitStep, PreState.view, resolveCell foundA, resolveCell foundB, okBind, inside]
    exact ⟨trivial, sound⟩
  | constrainToBoolean val =>
    obtain ⟨b, found, rfl⟩ := pureOk.mp ok
    obtain ⟨cell, isBit⟩ := resolveBoolCell found
    simp only [circuitStep, PreState.view, cell, isBit, okBind]
    exact ⟨trivial, sound⟩
  | copy val output =>
    obtain ⟨value, found, rfl⟩ := pureOk.mp ok
    simp only [circuitStep, PreState.view, resolveCell found, okBind]
    exact insertFollows unique sound (resolveOnChip sound.memory found) memory
  | impact guard inputs =>
    obtain ⟨values, found, ok⟩ := bindOk.mp ok
    obtain ⟨declared, -, ok⟩ := bindOk.mp ok
    obtain ⟨on, guarded, ok⟩ := bindOk.mp ok
    obtain ⟨cell, isBit⟩ := resolveBoolCell guarded
    have allowed : on = true ∨ ∀ x ∈ values, x = 0 := by
      rcases provable with yes | zeros
      · exact .inl (Except.ok.inj (guarded.symm.trans yes))
      · exact .inr (zeros values found)
    have shape : next.view = { st.view with publicInputs := st.pis ++ values } ∧
        next.memory = st.memory ∧ next.outputs = st.outputs ∧ next.pis = st.pis ++ values := by
      cases on with
      | false =>
        obtain ⟨back, -, rfl⟩ := pureOk.mp ok
        exact ⟨rfl, rfl, rfl, rfl⟩
      | true =>
        obtain ⟨-, -, rfl⟩ := pureOk.mp ok
        exact ⟨rfl, rfl, rfl, rfl⟩
    obtain ⟨view, sameMemory, sameOutputs, samePis⟩ := shape
    rw [samePis] at pis
    refine ⟨?_, sameMemory ▸ sound.memory, sameOutputs ▸ sound.outputs⟩
    simp only [circuitStep, PreState.view, cell, isBit, okBind] at view ⊢
    rw [view]
    exact impactFollows found allowed st.view rfl pis
  | transientHash inputs output =>
    obtain ⟨values, found, rfl⟩ := pureOk.mp ok
    have poseidon : chips.poseidon := enabled
    simp only [circuitStep, PreState.view, resolveNativeCells found, okBind, chipOk poseidon]
    exact insertFollows unique sound rfl memory
  | persistentHash alignment inputs outputs =>
    exact hashFollows P.persistentHashLength enabled ok provable unique sound memory
  | keccak256 alignment inputs outputs =>
    exact hashFollows P.keccak256Length enabled ok provable unique sound memory
  | testEq a b output =>
    obtain ⟨left, foundA, ok⟩ := bindOk.mp ok
    obtain ⟨right, foundB, ok⟩ := bindOk.mp ok
    obtain ⟨bit, tested, rfl⟩ := pureOk.mp ok
    simp only [circuitStep, PreState.view, resolveCell foundA, resolveCell foundB, okBind,
      testEqAgrees tested (resolveOnChip sound.memory foundA)]
    exact insertFollows unique sound rfl memory
  | add a b output =>
    obtain ⟨left, foundA, ok⟩ := bindOk.mp ok
    obtain ⟨right, foundB, ok⟩ := bindOk.mp ok
    obtain ⟨result, computed, rfl⟩ := pureOk.mp ok
    obtain ⟨inside, onChip⟩ := addAgrees computed (resolveOnChip sound.memory foundA)
    simp only [circuitStep, PreState.view, resolveCell foundA, resolveCell foundB, okBind, inside]
    exact insertFollows unique sound onChip memory
  | mul a b output =>
    obtain ⟨left, foundA, ok⟩ := bindOk.mp ok
    obtain ⟨right, foundB, ok⟩ := bindOk.mp ok
    obtain ⟨result, computed, rfl⟩ := pureOk.mp ok
    obtain ⟨inside, onChip⟩ := mulAgrees computed (resolveOnChip sound.memory foundA)
    simp only [circuitStep, PreState.view, resolveCell foundA, resolveCell foundB, okBind, inside]
    exact insertFollows unique sound onChip memory
  | neg a output =>
    obtain ⟨value, found, ok⟩ := bindOk.mp ok
    obtain ⟨result, computed, rfl⟩ := pureOk.mp ok
    obtain ⟨inside, onChip⟩ := negAgrees computed (resolveOnChip sound.memory found)
    simp only [circuitStep, PreState.view, resolveCell found, okBind, inside]
    exact insertFollows unique sound onChip memory
  | inv a output =>
    obtain ⟨value, found, ok⟩ := bindOk.mp ok
    obtain ⟨result, computed, rfl⟩ := pureOk.mp ok
    obtain ⟨inside, onChip⟩ := invAgrees computed (resolveOnChip sound.memory found)
    simp only [circuitStep, PreState.view, resolveCell found, okBind, inside]
    exact insertFollows unique sound onChip memory
  | not a output =>
    obtain ⟨b, found, rfl⟩ := pureOk.mp ok
    obtain ⟨cell, isBit⟩ := resolveBoolCell found
    simp only [circuitStep, PreState.view, cell, isBit, okBind]
    exact insertFollows unique sound rfl memory
  | lessThan a b bits output =>
    obtain ⟨left, foundA, ok⟩ := bindOk.mp ok
    obtain ⟨right, foundB, ok⟩ := bindOk.mp ok
    obtain ⟨val, compared, rfl⟩ := pureOk.mp ok
    obtain ⟨even, sum, lower, rfl⟩ := lessThanCell mode compared
    simp only [circuitStep, PreState.view, resolveNativeCell foundA, resolveNativeCell foundB,
      okBind, sum, lower]
    exact insertFollows unique sound rfl memory
  | jubjubScalarFromNative native output =>
    obtain ⟨x, found, rfl⟩ := pureOk.mp ok
    simp only [circuitStep, PreState.view, resolveNativeCell found, okBind, assignedToLeBytes,
      chipOk provable, jubjubScalarAgrees]
    exact insertFollows unique sound provable memory
  | publicInput guard valT output | privateInput guard valT output =>
    obtain ⟨skipped, -, ok⟩ := bindOk.mp ok
    cases skipped with
    | true =>
      cases ok
      exact inputFollows unique sound (defaultType valT) enabled memory
    | false =>
      obtain ⟨value, read, rfl⟩ := pureOk.mp ok
      obtain ⟨taken, kept⟩ := inputFollows unique sound (readType read) enabled memory
      exact ⟨taken, kept.memory, kept.outputs⟩
  | divModPowerOfTwo val bits outputs =>
    obtain ⟨⟨first, second⟩, named, ok⟩ := bindOk.mp ok
    obtain ⟨x, found, ok⟩ := bindOk.mp ok
    obtain ⟨⟨divisor, modulus⟩, split, rfl⟩ := pureOk.mp ok
    simp only [circuitStep, PreState.view, (twoOutputsOk named _).1, resolveNativeCell found,
      okBind, divModCell split]
    exact insertAllFollows unique sound twoNative memory
  | reconstituteField divisor modulus bits output =>
    obtain ⟨low, foundLow, ok⟩ := bindOk.mp ok
    obtain ⟨high, foundHigh, ok⟩ := bindOk.mp ok
    obtain ⟨val, joined, rfl⟩ := pureOk.mp ok
    simp only [circuitStep, PreState.view, resolveNativeCell foundLow,
      resolveNativeCell foundHigh, okBind, rangesCellOk mode joined]
    exact insertFollows unique sound rfl memory
  | ecMul a scalar output =>
    obtain ⟨point, foundA, ok⟩ := bindOk.mp ok
    obtain ⟨factor, foundB, ok⟩ := bindOk.mp ok
    obtain ⟨result, computed, rfl⟩ := pureOk.mp ok
    obtain ⟨inside, onChip⟩ := ecMulAgrees computed (resolveOnChip sound.memory foundA)
    simp only [circuitStep, PreState.view, resolveCell foundA, resolveCell foundB, okBind, inside]
    exact insertFollows unique sound onChip memory
  | ecMulGenerator scalar output =>
    obtain ⟨factor, found, ok⟩ := bindOk.mp ok
    obtain ⟨generator, known, ok⟩ := bindOk.mp ok
    obtain ⟨result, computed, rfl⟩ := pureOk.mp ok
    have generatorOn := generatorOnChip known (resolveOnChip sound.memory found)
    obtain ⟨inside, onChip⟩ := ecMulAgrees computed generatorOn
    simp only [circuitStep, PreState.view, resolveCell found, okBind, known, chipOk generatorOn,
      inside]
    exact insertFollows unique sound onChip memory
  | hashToCurve inputs output =>
    obtain ⟨values, found, rfl⟩ := pureOk.mp ok
    have both : (chips.jubjub && chips.poseidon) := enabled
    have curve : chips.jubjub := (Bool.and_eq_true_iff.mp both).1
    simp only [circuitStep, PreState.view, resolveNativeCells found, okBind, chipOk both]
    exact insertFollows unique sound curve memory
  | output vals =>
    simp only [preprocessStep] at ok
    obtain ⟨sizes, ok⟩ := elseOk.mp ok
    obtain ⟨values, found, rfl⟩ := pureOk.mp ok
    simp only [circuitStep, PreState.view, if_neg sizes, outputCellsOk found, okBind]
    refine ⟨trivial, sound.memory, ?_⟩
    intro value mem
    rcases mem_append.mp mem with old | new
    · exact sound.outputs value old
    · exact checkedOnChip sound.memory found value new

end MidnightLedger.Zkir.V3

import MidnightLedger.Zkir.V3.Simulation

/-! Whole runs of version 3 programs: the circuit arrives at the memory and the public inputs that
`preprocess` has returned. -/
namespace MidnightLedger.Zkir.V3
open ByteString Fab Loops List Simulation

variable {P : Primitives}

structure Grown (assigned : List Identifier) (st next : PreState P) : Prop where
  memory : ∃ entries : List (Identifier × IrValue P), next.memory = entries.reverse ++ st.memory ∧
    entries.map Prod.fst = assigned
  pis : st.pis <+: next.pis

theorem insertGrown (st : PreState P) (id : Identifier) (value : IrValue P) :
    Grown [id] st (st.insert id value) :=
  ⟨⟨[(id, value)], rfl, rfl⟩, prefix_rfl⟩

theorem keptGrown (st : PreState P) : Grown [] st st := ⟨⟨[], rfl, rfl⟩, prefix_rfl⟩

variable {st final : PreState P} {outputTypes : List IrType} {ins : Instruction}
  {ids : List TypedIdentifier} {memory : Memory P} {chips : Chips} {pis : List Fr}
  {next : PreState P}

theorem hashGrown {hash : Bytes → Bytes} {alignment : Fab.Alignment} {inputs : List Operand}
    {outputs : List Identifier} (ok : hashStep P hash st alignment inputs outputs = .ok next) :
    Grown outputs st next := by
  obtain ⟨⟨first, second⟩, named, ok⟩ := bindOk.mp ok
  obtain ⟨values, -, ok⟩ := bindOk.mp ok
  obtain ⟨fields, -, ok⟩ := bindOk.mp ok
  split at ok <;> try contradiction
  cases ok
  rw [(twoOutputsOk named "").2]
  exact ⟨⟨_, rfl, rfl⟩, prefix_rfl⟩

variable {mode : Arithmetic} {preimage : ProofPreimage} {src : IrSource}
  {entries : List (Identifier × IrValue P)} {witness : Preprocessed P}

theorem stepGrown (ok : preprocessStep mode outputTypes preimage st ins = .ok next) :
    Grown ins.assigned st next := by
  cases ins with
  | encode input outputs =>
    obtain ⟨val, -, ok⟩ := bindOk.mp ok
    dsimp only at ok
    obtain ⟨sizes, ok⟩ := elseOk.mp ok
    cases ok
    refine ⟨⟨_, rfl, map_fst_zip ?_⟩, prefix_rfl⟩
    rw [length_map]
    exact (not_not.mp sizes).ge
  | divModPowerOfTwo val bits outputs =>
    obtain ⟨⟨first, second⟩, named, ok⟩ := bindOk.mp ok
    obtain ⟨x, -, ok⟩ := bindOk.mp ok
    obtain ⟨⟨divisor, modulus⟩, -, rfl⟩ := pureOk.mp ok
    rw [Instruction.assigned, (twoOutputsOk named "").2]
    exact ⟨⟨_, rfl, rfl⟩, prefix_rfl⟩
  | persistentHash alignment inputs outputs | keccak256 alignment inputs outputs =>
    exact hashGrown ok
  | publicInput guard valT output | privateInput guard valT output =>
    obtain ⟨skipped, -, ok⟩ := bindOk.mp ok
    cases skipped with
    | true =>
      cases ok
      exact insertGrown st _ _
    | false =>
      obtain ⟨value, -, rfl⟩ := pureOk.mp ok
      exact ⟨(insertGrown st _ _).memory, prefix_rfl⟩
  | impact guard inputs =>
    obtain ⟨values, -, ok⟩ := bindOk.mp ok
    obtain ⟨declared, -, ok⟩ := bindOk.mp ok
    obtain ⟨on, -, ok⟩ := bindOk.mp ok
    cases on with
    | true =>
      obtain ⟨-, -, rfl⟩ := pureOk.mp ok
      exact ⟨(keptGrown st).memory, prefix_append _ _⟩
    | false =>
      obtain ⟨back, -, rfl⟩ := pureOk.mp ok
      exact ⟨(keptGrown st).memory, prefix_append _ _⟩
  | output vals =>
    simp only [preprocessStep] at ok
    split at ok <;> try contradiction
    obtain ⟨values, -, rfl⟩ := pureOk.mp ok
    exact ⟨(keptGrown st).memory, prefix_rfl⟩
  | assert cond =>
    obtain ⟨b, -, last⟩ := bindOk.mp ok
    split at last <;> try contradiction
    cases last
    exact keptGrown st
  | constrainBits val bits =>
    obtain ⟨x, -, ok⟩ := bindOk.mp ok
    obtain ⟨valBits, -, rfl⟩ := pureOk.mp ok
    exact keptGrown st
  | constrainEq a b =>
    simp only [preprocessStep, bindOk] at ok
    obtain ⟨_, -, _, -, _, -, last⟩ := ok
    cases last
    exact keptGrown st
  | constrainToBoolean val =>
    obtain ⟨b, -, rfl⟩ := pureOk.mp ok
    exact keptGrown st
  | _ =>
    simp only [preprocessStep, bindOk] at ok
    grind [insertGrown, Instruction.assigned]

theorem runGrown {program : List Instruction}
    (ok : run (preprocessStep mode outputTypes preimage) st program = .ok final) :
    Grown (program.flatMap Instruction.assigned) st final := by
  induction program generalizing st with
  | nil =>
    rw [← runNil.mp ok]
    exact keptGrown st
  | cons ins program ih =>
    obtain ⟨next, taken, rest⟩ := runCons.mp ok
    obtain ⟨⟨first, memory, names⟩, pis⟩ := stepGrown taken
    obtain ⟨⟨others, memory', names'⟩, pis'⟩ := ih rest
    refine ⟨⟨first ++ others, ?_, ?_⟩, pis.trans pis'⟩
    · rw [memory', memory, reverse_append, append_assoc]
    · rw [map_append, names, names', flatMap_cons]

theorem involvedChip {valT : IrType}
    (involved : ∀ targets : List IrType, valT ∈ targets → src.involvesTypes targets) :
    typeChip (usedChips src) valT := by
  cases valT with
  | native => rfl
  | jubjubPoint | jubjubScalar =>
    simp only [typeChip, usedChips, Bool.or_eq_true]
    exact .inl (involved _ (by simp))
  | secp256k1Point | secp256k1Base | secp256k1Scalar =>
    exact involved _ (by simp)

theorem inputChip {id : TypedIdentifier} (mem : id ∈ src.inputs) :
    typeChip (usedChips src) id.valT := by
  refine involvedChip (fun targets inside => ?_)
  simp only [IrSource.involvesTypes, Bool.or_eq_true, any_eq_true, contains_iff_mem]
  exact .inl ⟨id, mem, inside⟩

theorem usedEnabled (mem : ins ∈ src.instructions) : ins.enabled (usedChips src) := by
  cases ins with
  | decode inputs valT output | publicInput guard valT output | privateInput guard valT output =>
    refine involvedChip (fun targets inside => ?_)
    simp only [IrSource.involvesTypes, Bool.or_eq_true, any_eq_true]
    exact .inr ⟨_, mem, contains_iff_mem.mpr inside⟩
  | hashToCurve inputs output =>
    refine Bool.and_eq_true_iff.mpr ⟨?_, ?_⟩ <;>
      exact Bool.or_eq_true_iff.mpr (.inr (any_eq_true.mpr ⟨_, mem, rfl⟩))
  | transientHash inputs output =>
    exact Bool.or_eq_true_iff.mpr (.inr (any_eq_true.mpr ⟨_, mem, rfl⟩))
  | persistentHash alignment inputs outputs | keccak256 alignment inputs outputs =>
    exact any_eq_true.mpr ⟨_, mem, rfl⟩
  | _ => rfl

def InputEntry (id : TypedIdentifier) (entry : Identifier × IrValue P) : Prop :=
  entry.1 = id.name ∧ entry.2.getType = id.valT

theorem decodedInputs {raw : List Fr} {after : Memory P}
    (ok : decodeInputs ids raw memory = .ok after) :
    ∃ entries, after = entries.reverse ++ memory ∧ List.Forall₂ InputEntry ids entries ∧
      (entries.map Prod.snd).flatMap encodeOffcircuit = raw := by
  induction ids generalizing raw memory with
  | nil =>
    simp only [decodeInputs] at ok
    obtain ⟨empty, ok⟩ := thenOk.mp ok
    cases ok
    exact ⟨[], rfl, .nil, (isEmpty_iff.mp empty).symm⟩
  | cons id ids ih =>
    simp only [decodeInputs] at ok
    split at ok <;> try contradiction
    obtain ⟨value, decoded, rest⟩ := bindOk.mp ok
    obtain ⟨typed, inverse⟩ := decodedType decoded
    obtain ⟨entries, rfl, matched, encoded⟩ := ih rest
    refine ⟨(id.name, value) :: entries, by simp, .cons ⟨rfl, typed⟩ matched, ?_⟩
    rw [map_cons, flatMap_cons, inverse, encoded, take_append_drop]

theorem inputNames (matched : List.Forall₂ InputEntry ids entries) :
    entries.map Prod.fst = ids.map TypedIdentifier.name := by
  induction matched with
  | nil => rfl
  | cons same _ ih => rw [map_cons, map_cons, same.1, ih]

theorem inputsOnChip (matched : List.Forall₂ InputEntry src.inputs entries) :
    ∀ entry ∈ entries, OnChip (usedChips src) entry.2 := by
  intro entry mem
  obtain ⟨i, inside, rfl⟩ := getElem_of_mem mem
  have before : i < src.inputs.length := matched.length_eq ▸ inside
  have typed : entries[i].2.getType = src.inputs[i].valT := (matched.get before inside).2
  rw [OnChip, typed]
  exact inputChip (getElem_mem _)

theorem assignInputsOk {chips : Chips} (unique : (witness.memory.map Prod.fst).Nodup)
    (matched : List.Forall₂ InputEntry ids entries)
    (held : ∀ entry ∈ entries, entry ∈ witness.memory)
    (on : ∀ entry ∈ entries, OnChip chips entry.2) (memory : Memory P) :
    assignInputs chips witness ids memory = .ok (entries.reverse ++ memory) := by
  induction matched generalizing memory with
  | nil => rfl
  | @cons id entry ids entries same rest ih =>
    obtain ⟨name, value⟩ := entry
    obtain ⟨rfl, typed⟩ := same
    have found := lookupUnique unique (held _ mem_cons_self)
    have enabled : typeChip chips id.valT := typed ▸ on _ mem_cons_self
    have later := ih (forall_mem_cons.mp held).2
      (forall_mem_cons.mp on).2 ((id.name, value) :: memory)
    simp only [assignInputs, found, Option.getD_some, assignAgrees typed enabled, okBind, later]
    simp

theorem inputsFound (unique : (witness.memory.map Prod.fst).Nodup)
    (matched : List.Forall₂ InputEntry ids entries)
    (held : ∀ entry ∈ entries, entry ∈ witness.memory) :
    ids.filterMap (fun id => witness.memory.lookup id.name) = entries.map Prod.snd := by
  induction matched with
  | nil => rfl
  | @cons id entry ids entries same rest ih =>
    obtain ⟨name, value⟩ := entry
    obtain ⟨rfl, -⟩ := same
    have found := lookupUnique unique (held _ mem_cons_self)
    rw [filterMap_cons, found, ih (forall_mem_cons.mp held).2]
    rfl

theorem encodeCellsOk {values : List (IrValue P)} (on : ∀ value ∈ values, OnChip chips value) :
    encodeCells chips values = .ok (values.flatMap encodeOffcircuit) := by
  induction values with
  | nil => rfl
  | cons value values ih =>
    have rest := ih (forall_mem_cons.mp on).2
    rw [encodeCells, encodeAgrees (on value mem_cons_self), okBind, rest, okBind, flatMap_cons]

theorem preparedRun (prepared : preprocess P mode src preimage = .ok witness) :
    ∃ memory pis final, decodeInputs src.inputs preimage.inputs [] = .ok memory ∧
      leadingInputs src.doCommunicationsCommitment preimage = .ok pis ∧
      run (preprocessStep mode src.outputs preimage) ⟨memory, pis, [], 0, 0, 0, []⟩
        src.instructions = .ok final ∧
      checkCommitment P src.doCommunicationsCommitment preimage
        (final.outputs.flatMap encodeOffcircuit) = .ok () ∧
      (witness.memory = final.memory ∧ witness.pis = final.pis) ∧
      (witness.bindingInput = preimage.bindingInput ∧
        witness.commComm = preimage.communicationsCommitment) := by
  obtain ⟨memory, decoded, ok⟩ := bindOk.mp prepared
  obtain ⟨pis, leading, ok⟩ := bindOk.mp ok
  obtain ⟨final, runs, ok⟩ := bindOk.mp ok
  split at ok <;> try contradiction
  obtain ⟨_, committed, rfl⟩ := pureOk.mp ok
  exact ⟨memory, pis, final, decoded, leading, runs, committed, ⟨rfl, rfl⟩, ⟨rfl, rfl⟩⟩

theorem initialCellsOk (assigned : assignInputs chips witness src.inputs [] = .ok memory)
    (leading : leadingInputs src.doCommunicationsCommitment preimage = .ok pis)
    (bound : witness.bindingInput = preimage.bindingInput)
    (commitment : witness.commComm = preimage.communicationsCommitment)
    (grown : pis <+: witness.pis) : initialCells chips src witness = .ok ⟨memory, pis, []⟩ := by
  rw [initialCells, assigned, okBind, bound, commitment, leadingCellsOk leading grown, okBind]

theorem committedCells
    (found : src.inputs.filterMap (fun id => final.memory.lookup id.name) = entries.map Prod.snd)
    (raw : (entries.map Prod.snd).flatMap encodeOffcircuit = preimage.inputs)
    (inputsOn : ∀ entry ∈ entries, OnChip chips entry.2)
    (outputsOn : ∀ value ∈ final.outputs, OnChip chips value) :
    encodeCommitted chips src final.view =
      .ok (preimage.inputs ++ final.outputs.flatMap encodeOffcircuit) := by
  have inputs : encodeCells chips (entries.map Prod.snd) = .ok preimage.inputs := by
    rw [encodeCellsOk, raw]
    intro held mem
    obtain ⟨entry, inside, rfl⟩ := mem_map.mp mem
    exact inputsOn entry inside
  simp only [encodeCommitted, PreState.view, found, inputs, encodeCellsOk outputsOn, okBind]

def IrSource.assigned (src : IrSource) : List Identifier :=
  src.inputs.map TypedIdentifier.name ++ src.instructions.flatMap Instruction.assigned

def Provable (P : Primitives) (mode : Arithmetic) (src : IrSource) (preimage : ProofPreimage) :
    Prop :=
  ∀ (memory : Memory P) (pis : List Fr),
    decodeInputs src.inputs preimage.inputs [] = .ok memory →
    leadingInputs src.doCommunicationsCommitment preimage = .ok pis →
    Along (preprocessStep mode src.outputs preimage) (StepProvable (usedChips src))
      ⟨memory, pis, [], 0, 0, 0, []⟩ src.instructions

structure Follows (chips : Chips) (st : PreState P) (cells : CircuitState P) : Prop where
  view : cells = st.view
  sound : Sound chips st

theorem preparedSynthesizes (mode : Arithmetic) (once : src.assigned.Nodup)
    (prepared : preprocess P mode src preimage = .ok witness)
    (provable : Provable P mode src preimage) :
    circuit mode src witness = .ok (witness.memory, witness.pis) := by
  obtain ⟨memory, pis, final, decoded, leading, runs, committed, ⟨sameMemory, samePis⟩, bound,
    commitment⟩ := preparedRun prepared
  obtain ⟨entries, shape, matched, raw⟩ := decodedInputs decoded
  rw [append_nil] at shape
  obtain ⟨⟨added, whole, names⟩, grownPis⟩ := runGrown runs
  have unique : (witness.memory.map Prod.fst).Nodup := by
    have keys : witness.memory.map Prod.fst = src.assigned.reverse := by
      rw [sameMemory, whole, shape, IrSource.assigned, map_append, map_reverse,
        map_reverse, names, inputNames matched, reverse_append]
    rw [keys]
    exact nodup_reverse.mpr once
  have held : ∀ entry ∈ entries, entry ∈ witness.memory := by
    intro entry mem
    rw [sameMemory, whole, shape]
    exact mem_append_right _ (mem_reverse.mpr mem)
  have inputsOn := inputsOnChip matched
  have assigned := assignInputsOk unique matched held inputsOn []
  rw [append_nil, ← shape] at assigned
  have along := alongWith (provable memory pis decoded leading) (fun ins mem => usedEnabled mem)
  have simulates : ∀ {st : PreState P} {cells : CircuitState P} {ins : Instruction}
      {next : PreState P} {rest : List Instruction}, Follows (usedChips src) st cells →
      (StepProvable (usedChips src) st ins ∧ ins.enabled (usedChips src) = true) →
      preprocessStep mode src.outputs preimage st ins = .ok next →
      run (preprocessStep mode src.outputs preimage) next rest = .ok final →
      ∃ cells', circuitStep mode (usedChips src) src.outputs witness cells ins = .ok cells' ∧
        Follows (usedChips src) next cells' := by
    rintro st _ ins next rest ⟨rfl, sound⟩ ⟨good, enabled⟩ stepped after
    obtain ⟨⟨later, tail, -⟩, laterPis⟩ := runGrown after
    have suffix : next.memory <:+ witness.memory := by
      rw [sameMemory, tail]
      exact suffix_append _ _
    obtain ⟨taken, kept⟩ := stepSimulates stepped enabled good unique sound suffix
      (samePis ▸ laterPis)
    exact ⟨next.view, taken, rfl, kept⟩
  have start : Follows (usedChips src) (⟨memory, pis, [], 0, 0, 0, []⟩ : PreState P)
      ⟨memory, pis, []⟩ := by
    refine ⟨rfl, ?_, by simp⟩
    intro entry mem
    rw [shape] at mem
    exact inputsOn entry (mem_reverse.mp mem)
  obtain ⟨_, synthesized, rfl, sound⟩ := lockstep simulates start along runs
  have initial := initialCellsOk assigned leading bound commitment (samePis ▸ grownPis)
  have found := inputsFound unique matched held
  rw [sameMemory] at found
  have poseidon : src.doCommunicationsCommitment → (usedChips src).poseidon := fun asked => by
    simp [usedChips, asked]
  have constrained := commitmentConstrained leading committed poseidon grownPis
    (committedCells found raw inputsOn sound.outputs)
  rw [circuit, synthesize, initial, okBind, synthesized, okBind, commitment]
  simp only [PreState.view] at constrained ⊢
  rw [constrained, okBind, sameMemory, samePis]

end MidnightLedger.Zkir.V3

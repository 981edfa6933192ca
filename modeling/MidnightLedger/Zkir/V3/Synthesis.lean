import MidnightLedger.Zkir.Prepared
import MidnightLedger.Zkir.V3.Declared

/-! Synthesis of version 3 programs on a witness, with the declared parts of the standard library
and with all of them. -/
namespace MidnightLedger.Zkir.V3
open ByteString Fab Loops Notes Simulation List

variable {P : Primitives} {chips : Chips}

def allChips : Chips := ⟨true, true, true, true, true⟩

structure Same {α : Type} (x y : Circuit α) (post : α → Prop) : Prop where
  same : x = y
  result : ∀ {a}, x = .ok a → post a

variable {fault : Fault}

section Rules

variable {α β : Type} {x y : Circuit α} {post : α → Prop} {next : β → Prop}

theorem sameSelf (result : ∀ {a}, x = .ok a → post a) : Same x x post := ⟨rfl, result⟩

theorem sameError : Same (.error fault) (.error fault) post := sameSelf fun same => by cases same

theorem sameAny (x : Circuit α) : Same x x fun _ => True := ⟨rfl, fun _ => trivial⟩

theorem samePure {a : α} (holds : post a) : Same (.ok a) (.ok a) post :=
  ⟨rfl, fun ok => Except.ok.inj ok ▸ holds⟩

theorem sameBind {f g : α → Circuit β} (first : Same x y post)
    (second : ∀ {a}, x = .ok a → post a → Same (f a) (g a) next) :
    Same (x >>= f) (y >>= g) next := by
  obtain ⟨rfl, result⟩ := first
  cases taken : x with
  | error e => exact ⟨rfl, nofun⟩
  | ok a => exact second taken (result taken)

theorem sameThen {f g : α → Circuit β} (second : ∀ a, Same (f a) (g a) next) :
    Same (x >>= f) (x >>= g) next :=
  sameBind (sameAny x) fun _ _ => second _

theorem sameFold {σ ι : Type} {step other : σ → ι → Circuit σ} {invariant : σ → Prop} {xs : List ι}
    (each : ∀ {s i}, i ∈ xs → invariant s → Same (step s i) (other s i) invariant) {s : σ}
    (start : invariant s) : Same (xs.foldlM step s) (xs.foldlM other s) invariant := by
  induction xs generalizing s with
  | nil => exact samePure start
  | cons x xs ih =>
    refine sameBind (each mem_cons_self start) fun _ reached => ?_
    exact ih (fun mem => each (mem_cons_of_mem _ mem)) reached

end Rules

variable {enabled : Bool}

theorem chipSame {name : String} {other : Bool} (on : enabled) (too : other) :
    Same (chip name enabled) (chip name other) fun _ => True := by
  rw [on, too]
  exact sameAny _

theorem allOn (type : IrType) : typeChip allChips type := by cases type <;> rfl

variable {valT : IrType}

section Operations

variable {value x y : IrValue P}

theorem encodeSame (on : OnChip chips value) :
    Same (encodeIncircuit chips value) (encodeIncircuit allChips value) fun _ => True :=
  sameBind (chipSame on (allOn _)) fun _ _ => sameAny _

theorem assignSame (on : typeChip chips valT) (value : IrValue P) :
    Same (assignIncircuit chips valT value) (assignIncircuit allChips valT value)
      (OnChip chips) := by
  rw [assignIncircuit, assignIncircuit]
  split
  · exact sameError
  · rename_i typed
    refine sameBind (chipSame on (allOn _)) fun _ _ => samePure ?_
    rw [OnChip, not_not.mp typed]
    exact on

theorem decodeSame (on : typeChip chips valT) (encoded : List Fr) :
    Same (decodeIncircuit chips encoded valT : Circuit (IrValue P))
      (decodeIncircuit allChips encoded valT) (OnChip chips) := by
  refine sameThen fun _ => ?_
  refine sameBind (assignSame on _) fun _ onChip => ?_
  refine sameBind (encodeSame onChip) fun _ _ => ?_
  split
  · exact sameError
  · exact sameThen fun _ => samePure onChip

theorem nativeOnChip (a : Fr) : OnChip chips (.native a : IrValue P) := rfl

theorem addSame (on : OnChip chips x) :
    Same (addIncircuit chips x y) (addIncircuit allChips x y) (OnChip chips) := by
  cases x with
  | native a =>
    cases y with
    | native b => exact samePure (nativeOnChip (a + b))
    | _ => exact sameError
  | jubjubPoint p =>
    cases y with
    | jubjubPoint q => exact sameBind (chipSame on rfl) fun _ _ => samePure on
    | _ => exact sameError
  | _ => exact sameError

theorem mulSame (on : OnChip chips x) :
    Same (mulIncircuit chips x y) (mulIncircuit allChips x y) (OnChip chips) := by
  cases x with
  | native a =>
    cases y with
    | native b => exact samePure (nativeOnChip (a * b))
    | _ => exact sameError
  | secp256k1Base s =>
    cases y with
    | secp256k1Base r => exact sameBind (chipSame on rfl) fun _ _ => samePure on
    | _ => exact sameError
  | secp256k1Scalar s =>
    cases y with
    | secp256k1Scalar r => exact sameBind (chipSame on rfl) fun _ _ => samePure on
    | _ => exact sameError
  | _ => exact sameError

theorem negSame (on : OnChip chips x) :
    Same (negIncircuit chips x) (negIncircuit allChips x) (OnChip chips) := by
  cases x with
  | native a => exact samePure (nativeOnChip (-a))
  | jubjubScalar s => exact sameError
  | _ => exact sameBind (chipSame on rfl) fun _ _ => samePure on

theorem invertibleSame {α : Type} {wrap : α → IrValue P} {inverse : Option α}
    (on : ∀ a, OnChip chips (wrap a)) :
    Same (invertible fault wrap inverse) (invertible fault wrap inverse) (OnChip chips) := by
  cases inverse with
  | none => exact sameError
  | some a => exact samePure (on a)

section

variable (on : OnChip chips x)
include on

theorem invSame : Same (invIncircuit chips x) (invIncircuit allChips x) (OnChip chips) := by
  cases x with
  | native a => exact invertibleSame nativeOnChip
  | secp256k1Base s | secp256k1Scalar s =>
    exact sameBind (chipSame on rfl) fun _ _ => invertibleSame fun _ => on
  | _ => exact sameError

theorem constrainEqSame :
    Same (constrainEqIncircuit chips x y) (constrainEqIncircuit allChips x y) fun _ => True := by
  rw [constrainEqIncircuit, constrainEqIncircuit]
  split
  · exact sameError
  · exact sameBind (chipSame on (allOn _)) fun _ _ => sameAny _

theorem selectSame {bit : Bool} (too : OnChip chips y) :
    Same (selectIncircuit chips bit x y) (selectIncircuit allChips bit x y) (OnChip chips) := by
  rw [selectIncircuit, selectIncircuit]
  split
  · exact sameError
  · refine sameBind (chipSame on (allOn _)) fun _ _ => samePure ?_
    split
    · exact on
    · exact too

theorem testEqSame :
    Same (testEqIncircuit chips x y) (testEqIncircuit allChips x y) fun _ => True := by
  rw [testEqIncircuit, testEqIncircuit]
  split
  · exact sameError
  · exact sameBind (chipSame on (allOn _)) fun _ _ => sameAny _

theorem ecMulSame :
    Same (ecMulIncircuit chips x y) (ecMulIncircuit allChips x y) (OnChip chips) := by
  cases x with
  | jubjubPoint p =>
    cases y with
    | jubjubScalar s => exact sameBind (chipSame on rfl) fun _ _ => samePure on
    | _ => exact sameError
  | secp256k1Point p =>
    cases y with
    | secp256k1Scalar s => exact sameBind (chipSame on rfl) fun _ _ => samePure on
    | _ => exact sameError
  | _ => exact sameError

end

end Operations

structure SoundCells (chips : Chips) (st : CircuitState P) : Prop where
  memory : AllOnChip chips st.memory
  outputs : ∀ value ∈ st.outputs, OnChip chips value

variable {witness : Preprocessed P} {st : CircuitState P} {hash : Bytes → Bytes} {ins : Instruction}

section

variable (sound : SoundCells chips st)
include sound

theorem cellOnChip (operand : Operand) :
    Same (cellOf st.memory operand) (cellOf st.memory operand) (OnChip chips) := by
  cases operand with
  | immediate imm => exact samePure rfl
  | «variable» id =>
    rw [cellOf]
    split
    · rename_i found
      exact samePure (sound.memory _ (lookupMem found))
    · exact sameError

theorem insertSame {id : Identifier} {value : IrValue P} (on : OnChip chips value) :
    Same (memInsert witness st id value) (memInsert witness st id value) (SoundCells chips) := by
  have kept : SoundCells chips { st with memory := (id, value) :: st.memory } :=
    ⟨forall_mem_cons.mpr ⟨on, sound.memory⟩, sound.outputs⟩
  rw [memInsert]
  split
  · split
    · exact sameError
    · exact samePure kept
  · exact samePure kept

theorem insertAllSame {entries : List (Identifier × IrValue P)}
    (on : ∀ entry ∈ entries, OnChip chips entry.2) :
    Same (memInsertAll witness st entries) (memInsertAll witness st entries) (SoundCells chips) :=
  sameFold (fun mem kept => insertSame kept (on _ mem)) sound

theorem pushSame {cell : Fr} :
    Same (piPush witness st cell) (piPush witness st cell) (SoundCells chips) := by
  refine sameThen fun _ => ?_
  exact samePure ⟨sound.memory, sound.outputs⟩

theorem inputSame {output : Identifier} (on : typeChip chips valT) :
    Same (inputCell chips witness st valT output) (inputCell allChips witness st valT output)
      (SoundCells chips) := by
  rw [inputCell, inputCell]
  split
  · exact sameError
  · refine sameBind (assignSame on _) fun _ onChip => ?_
    exact insertSame sound onChip

end

theorem hashSame {other : Bool} (on : enabled)
    (too : other) (sound : SoundCells chips st) (alignment : Fab.Alignment)
    (inputs : List Operand) (outputs : List Identifier) :
    Same (hashCellStep hash enabled witness st alignment inputs outputs)
      (hashCellStep hash other witness st alignment inputs outputs) (SoundCells chips) := by
  refine sameThen fun pair => ?_
  refine sameThen fun _ => ?_
  refine sameThen fun _ => ?_
  refine sameBind (chipSame on too) fun _ _ => ?_
  iterate 3 refine sameThen fun _ => ?_
  exact insertAllSame sound twoNative

theorem outputsSame (sound : SoundCells chips st) (vals : List Operand) (types : List IrType) :
    Same (outputCells st.memory vals types) (outputCells st.memory vals types)
      fun values => ∀ value ∈ values, OnChip chips value := by
  induction vals generalizing types with
  | nil => exact samePure (forall_mem_nil _)
  | cons val vals ih =>
    cases types with
    | nil => exact samePure (forall_mem_nil _)
    | cons expectedT types =>
      refine sameBind (cellOnChip sound val) fun _ onChip => ?_
      split
      · exact sameError
      · refine sameBind (ih types) fun _ others => ?_
        exact samePure (forall_mem_cons.mpr ⟨onChip, others⟩)

theorem stepSame (mode : Arithmetic) (outputTypes : List IrType)
    (enabled : ins.enabled chips) (converts : ins.converts → chips.jubjub)
    (sound : SoundCells chips st) :
    Same (circuitStep mode chips outputTypes witness st ins)
      (circuitStep mode allChips outputTypes witness st ins) (SoundCells chips) := by
  cases ins with
  | encode input outputs =>
    refine sameBind (cellOnChip sound input) fun _ onChip => ?_
    refine sameBind (encodeSame onChip) fun _ _ => ?_
    split
    · exact sameError
    · refine insertAllSame sound fun entry mem => ?_
      obtain ⟨x, -, same⟩ := mem_map.mp (of_mem_zip mem).2
      rw [← same]
      rfl
  | decode inputs valT output =>
    refine sameThen fun _ => ?_
    refine sameBind (decodeSame enabled _) fun _ onChip => ?_
    exact insertSame sound onChip
  | assert cond | constrainBits cond bits | constrainToBoolean cond =>
    refine sameThen fun _ => ?_
    refine sameThen fun _ => ?_
    exact samePure sound
  | condSelect bit a b output =>
    refine sameThen fun _ => ?_
    refine sameThen fun _ => ?_
    refine sameBind (cellOnChip sound a) fun _ left => ?_
    refine sameBind (cellOnChip sound b) fun _ right => ?_
    refine sameBind (selectSame left right) fun _ onChip => ?_
    exact insertSame sound onChip
  | constrainEq a b =>
    refine sameBind (cellOnChip sound a) fun _ left => ?_
    refine sameBind (cellOnChip sound b) fun _ _ => ?_
    refine sameBind (constrainEqSame left) fun _ _ => ?_
    exact samePure sound
  | copy val output =>
    refine sameBind (cellOnChip sound val) fun _ onChip => ?_
    exact insertSame sound onChip
  | impact guard inputs =>
    refine sameThen fun _ => ?_
    refine sameThen fun _ => ?_
    refine sameFold (fun _ kept => ?_) sound
    exact sameThen fun _ => pushSame kept
  | transientHash inputs output =>
    refine sameThen fun _ => ?_
    refine sameBind (chipSame enabled rfl) fun _ _ => ?_
    exact insertSame sound rfl
  | persistentHash alignment inputs outputs | keccak256 alignment inputs outputs =>
    exact hashSame enabled rfl sound _ _ _
  | testEq a b output =>
    refine sameBind (cellOnChip sound a) fun _ left => ?_
    refine sameBind (cellOnChip sound b) fun _ _ => ?_
    refine sameBind (testEqSame left) fun _ _ => ?_
    exact insertSame sound rfl
  | add a b output =>
    refine sameBind (cellOnChip sound a) fun _ left => ?_
    refine sameBind (cellOnChip sound b) fun _ _ => ?_
    refine sameBind (addSame left) fun _ onChip => ?_
    exact insertSame sound onChip
  | mul a b output =>
    refine sameBind (cellOnChip sound a) fun _ left => ?_
    refine sameBind (cellOnChip sound b) fun _ _ => ?_
    refine sameBind (mulSame left) fun _ onChip => ?_
    exact insertSame sound onChip
  | neg a output =>
    refine sameBind (cellOnChip sound a) fun _ operand => ?_
    refine sameBind (negSame operand) fun _ onChip => ?_
    exact insertSame sound onChip
  | inv a output =>
    refine sameBind (cellOnChip sound a) fun _ operand => ?_
    refine sameBind (invSame operand) fun _ onChip => ?_
    exact insertSame sound onChip
  | not a output =>
    refine sameThen fun _ => ?_
    refine sameThen fun _ => ?_
    exact insertSame sound rfl
  | lessThan a b bits output =>
    iterate 4 refine sameThen fun _ => ?_
    exact insertSame sound rfl
  | jubjubScalarFromNative native output =>
    have on : chips.jubjub := converts rfl
    refine sameThen fun _ => ?_
    refine sameThen fun _ => ?_
    refine sameBind (chipSame on rfl) fun _ _ => ?_
    exact insertSame sound on
  | publicInput guard valT output | privateInput guard valT output => exact inputSame sound enabled
  | divModPowerOfTwo val bits outputs =>
    refine sameThen fun pair => ?_
    refine sameThen fun _ => ?_
    refine sameThen fun parts => ?_
    exact insertAllSame sound twoNative
  | reconstituteField divisor modulus bits output =>
    iterate 3 refine sameThen fun _ => ?_
    exact insertSame sound rfl
  | ecMul a scalar output =>
    refine sameBind (cellOnChip sound a) fun _ point => ?_
    refine sameBind (cellOnChip sound scalar) fun _ _ => ?_
    refine sameBind (ecMulSame point) fun _ onChip => ?_
    exact insertSame sound onChip
  | ecMulGenerator scalar output =>
    refine sameBind (cellOnChip sound scalar) fun _ factor => ?_
    have generator : ∀ {s : IrValue P}, OnChip chips s →
        Same (generatorFor s.getType : Circuit (IrValue P)) (generatorFor s.getType)
          (OnChip chips) := fun on => sameSelf fun known => generatorOnChip known on
    refine sameBind (generator factor) fun _ point => ?_
    refine sameBind (chipSame point (allOn _)) fun _ _ => ?_
    refine sameBind (ecMulSame point) fun _ onChip => ?_
    exact insertSame sound onChip
  | hashToCurve inputs output =>
    have both : (chips.jubjub && chips.poseidon) := enabled
    have curve : chips.jubjub := (Bool.and_eq_true_iff.mp both).1
    refine sameThen fun _ => ?_
    refine sameBind (chipSame both rfl) fun _ _ => ?_
    exact insertSame sound curve
  | output vals =>
    rw [circuitStep, circuitStep]
    split
    · exact sameError
    · refine sameBind (outputsSame sound vals outputTypes) fun _ each => ?_
      exact samePure ⟨sound.memory, forall_mem_append.mpr ⟨sound.outputs, each⟩⟩

variable {alignment : Fab.Alignment} {mode : Arithmetic} {outputTypes : List IrType}
  {src : IrSource}

theorem fabDecodeOption (free : optionFree alignment = false) (inputs : List Fr) (bytes : Bytes) :
    fabDecodeToBytes alignment inputs ≠ .ok bytes := by
  induction alignment generalizing inputs bytes with
  | nil => cases free
  | cons segment rest ih =>
    cases segment with
    | option branches => exact nofun
    | atom atom =>
      have later : optionFree rest = false := by simpa [optionFree] using free
      intro ok
      obtain ⟨⟨first, others⟩, -, ok⟩ := bindOk.mp ok
      obtain ⟨tail, decoded, -⟩ := bindOk.mp ok
      exact ih later others tail decoded

variable {next : CircuitState P}

theorem hashCellOptionFree {inputs : List Operand} {outputs : List Identifier}
    (ok : hashCellStep hash enabled witness st alignment inputs outputs = .ok next) :
    optionFree alignment := by
  obtain ⟨⟨first, second⟩, -, rest⟩ := bindOk.mp ok
  obtain ⟨values, -, rest⟩ := bindOk.mp rest
  obtain ⟨bytes, decoded, -⟩ := bindOk.mp rest
  by_contra free
  exact fabDecodeOption (Bool.eq_false_iff.mpr free) values bytes decoded

theorem synthesizedTail {rest : List Instruction}
    (ok : circuitStep mode chips outputTypes witness st ins = .ok next)
    (later : convertsFirst rest) : convertsFirst (ins :: rest) := by
  cases ins with
  | jubjubScalarFromNative native output => rfl
  | persistentHash alignment inputs outputs | keccak256 alignment inputs outputs =>
    rw [convertsFirst, hashCellOptionFree ok, later]
    rfl
  | _ => exact later

theorem runSame {instructions : List Instruction}
    (enabled : ∀ ins ∈ instructions, ins.enabled chips)
    (converts : convertsFirst instructions → chips.jubjub)
    (sound : SoundCells chips st) :
    Same (run (circuitStep mode chips outputTypes witness) st instructions)
      (run (circuitStep mode allChips outputTypes witness) st instructions) (SoundCells chips) := by
  induction instructions generalizing st with
  | nil => exact samePure sound
  | cons ins rest ih =>
    refine sameBind (stepSame mode outputTypes (enabled ins mem_cons_self)
      (fun own => converts (convertsHead own)) sound) fun taken kept => ?_
    exact ih (forall_mem_cons.mp enabled).2
      (fun later => converts (synthesizedTail taken later)) kept

theorem assignInputsSame {ids : List TypedIdentifier} {memory : Memory P}
    (on : ∀ id ∈ ids, typeChip chips id.valT) (all : AllOnChip chips memory) :
    Same (assignInputs chips witness ids memory) (assignInputs allChips witness ids memory)
      (AllOnChip chips) := by
  induction ids generalizing memory with
  | nil => exact samePure all
  | cons id ids ih =>
    refine sameBind (assignSame (on id mem_cons_self) _) fun _ onChip => ?_
    exact ih (forall_mem_cons.mp on).2 (forall_mem_cons.mpr ⟨onChip, all⟩)

theorem initialSame (on : ∀ id ∈ src.inputs, typeChip chips id.valT) :
    Same (initialCells chips src witness) (initialCells allChips src witness)
      (SoundCells chips) := by
  refine sameBind (assignInputsSame on (forall_mem_nil _)) fun _ all => ?_
  exact sameThen fun _ => samePure ⟨all, forall_mem_nil _⟩

theorem encodeCellsSame {values : List (IrValue P)} (on : ∀ value ∈ values, OnChip chips value) :
    Same (encodeCells chips values) (encodeCells allChips values) fun _ => True := by
  induction values with
  | nil => exact sameAny _
  | cons value values ih =>
    refine sameBind (encodeSame (on value mem_cons_self)) fun _ _ => ?_
    refine sameBind (ih (forall_mem_cons.mp on).2) fun _ _ => ?_
    exact sameAny _

theorem commitmentSame (poseidon : src.doCommunicationsCommitment → chips.poseidon)
    (sound : SoundCells chips st) :
    Same (constrainCommitment P src.doCommunicationsCommitment chips witness.commComm
        st.publicInputs (encodeCommitted chips src st))
      (constrainCommitment P src.doCommunicationsCommitment allChips witness.commComm
        st.publicInputs (encodeCommitted allChips src st)) fun _ => True := by
  unfold constrainCommitment
  split
  · rename_i committed
    split
    · exact sameAny _
    · have cells : Same (encodeCommitted chips src st) (encodeCommitted allChips src st)
          fun _ => True := by
        refine sameBind (encodeCellsSame fun value mem => ?_) fun _ _ => ?_
        · obtain ⟨id, -, found⟩ := mem_filterMap.mp mem
          exact sound.memory _ (lookupMem found)
        · exact sameBind (encodeCellsSame sound.outputs) fun _ _ => sameAny _
      refine sameBind cells fun _ _ => ?_
      exact sameBind (chipSame (poseidon committed) rfl) fun _ _ => sameAny _
  · exact sameAny _

theorem synthesisSame (mode : Arithmetic)
    (converts : convertsFirst src.instructions → (usedChips src).jubjub)
    (witness : Preprocessed P) :
    circuit mode src witness = synthesize allChips mode src witness := by
  have poseidon : src.doCommunicationsCommitment = true → (usedChips src).poseidon = true := by
    intro committed
    simp [usedChips, committed]
  have whole : Same (circuit mode src witness) (synthesize allChips mode src witness)
      fun _ => True := by
    refine sameBind (initialSame fun id mem => inputChip mem) fun _ begun => ?_
    refine sameBind (runSame (fun ins mem => usedEnabled mem) converts begun) fun _ finished => ?_
    refine sameBind (commitmentSame poseidon finished) fun _ _ => ?_
    exact sameAny _
  exact whole.same

/- What an accepted program uses is declared exactly if a conversion of a native value to a scalar
is accompanied by another use of the embedded curve; proving then never misses a part. -/
theorem partsDeclared (lengths : EncodedLengths P) {mode : Arithmetic} {src : IrSource}
    {preimage : ProofPreimage} {witness : Preprocessed P}
    (prepared : preprocess P mode src preimage = .ok witness) :
    ((∀ part ∈ (layout mode src).notes, part.on (usedChips src)) ↔
      (convertsFirst src.instructions → (usedChips src).jubjub)) ∧
    ((convertsFirst src.instructions → (usedChips src).jubjub) →
      ∀ given : Preprocessed P, circuit mode src given = synthesize allChips mode src given) := by
  refine ⟨⟨fun all first => ?_, fun converts => (layoutDeclared mode converts).notes⟩,
    fun converts given => synthesisSame mode converts given⟩
  by_contra off
  have noted := layoutConverts lengths prepared first (Bool.eq_false_iff.mpr off)
  exact off (all _ noted)

theorem pairLengths : EncodedLengths pairPrimitives := by
  intro value
  cases value <;> rfl

def conversionProgram (point : List TypedIdentifier) : IrSource :=
  ⟨⟨"x", .native⟩ :: point, [], false,
    [.jubjubScalarFromNative (.variable "x") "s", .ecMulGenerator (.variable "s") "p"]⟩

def conversionPrepared : Preprocessed pairPrimitives :=
  ⟨[("p", .jubjubPoint (5, 10)), ("s", .jubjubScalar (pairPrimitives.scalarOfNat 5)),
    ("q", .jubjubPoint (0, 1)), ("x", .native 5)], [8], [], 8, none⟩

theorem declaredConversion :
    preprocess pairPrimitives .checked (conversionProgram [⟨"q", .jubjubPoint⟩])
      (samplePreimage [5, 0, 1] [] none) = .ok conversionPrepared ∧
    circuit .checked (conversionProgram [⟨"q", .jubjubPoint⟩]) conversionPrepared =
      synthesize allChips .checked (conversionProgram [⟨"q", .jubjubPoint⟩]) conversionPrepared := by
  have prepared : preprocess pairPrimitives .checked (conversionProgram [⟨"q", .jubjubPoint⟩])
      (samplePreimage [5, 0, 1] [] none) = .ok conversionPrepared := by decide +kernel
  exact ⟨prepared, (partsDeclared pairLengths prepared).2 (fun _ => rfl) conversionPrepared⟩

theorem undeclaredConversion :
    (∃ witness, preprocess pairPrimitives .checked (conversionProgram [])
        (samplePreimage [5] [] none) = .ok witness ∧
      circuit .checked (conversionProgram []) witness = .error (.panic "jubjub")) ∧
    Part.jubjub ∈ (layout .checked (conversionProgram [])).notes ∧
    Part.jubjub.on (usedChips (conversionProgram [])) = false := by
  exact ⟨⟨_, rfl, rfl⟩, by decide +kernel, by decide⟩

end MidnightLedger.Zkir.V3

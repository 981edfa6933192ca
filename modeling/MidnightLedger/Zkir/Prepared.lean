import MidnightLedger.Zkir.V2.Program
import MidnightLedger.Zkir.V3.Prepared

/-! What can be prepared can be proved, for both versions of the circuit language. -/
namespace MidnightLedger.Zkir
open ByteString Fab List

/- Synthesis on a prepared witness returns its memory and its public inputs. In
version 2 the one exception is a hashed alignment with options, which the circuit does
not decode; in version 3 the steps must stay within `StepProvable`. -/
theorem preparedProves (P : Primitives) (mode : Arithmetic) :
    (∀ (src : V2.IrSource) (preimage : ProofPreimage) (witness : V2.Preprocessed),
      V2.preprocess P mode src preimage = .ok witness →
      (V2.circuit P mode src witness = .ok (witness.memory, witness.pis) ↔
        ∀ ins ∈ src.instructions, ins.optionFree = true)) ∧
    (∀ (src : V3.IrSource) (preimage : ProofPreimage) (witness : V3.Preprocessed P),
      src.assigned.Nodup → V3.preprocess P mode src preimage = .ok witness →
      V3.Provable P mode src preimage →
      V3.circuit mode src witness = .ok (witness.memory, witness.pis)) :=
  ⟨fun _ _ _ prepared => V2.preparedSynthesizes P mode prepared,
    fun _ _ _ once prepared provable => V3.preparedSynthesizes mode once prepared provable⟩

def sampleInvert (x : Fr) : Option Fr :=
  if x = 0 then none else some (Fr.ofNat (Nat.gcdA x.val fieldModulus % fieldModulus).toNat)

def padded (bytes : Bytes) : Bytes := (bytes ++ replicate 32 0).take 32

theorem paddedLength (bytes : Bytes) : (padded bytes).length = 32 := by
  simp [padded]

/- Points are pairs under addition, and a scalar or an element takes a few native ones. -/
def pairPrimitives : Primitives where
  Point := Fr × Fr
  Scalar := Fin jubjubOrder
  SecpPoint := Fr × Fr
  SecpBase := Fr
  SecpScalar := Fr
  decPoint := inferInstance
  decScalar := inferInstance
  decSecpPoint := inferInstance
  decSecpBase := inferInstance
  decSecpScalar := inferInstance
  transientHash := foldl (fun acc x => 3 * acc + x + 1) 0
  persistentHash := padded
  keccak256 := fun bytes => padded bytes.reverse
  hashToCurve := fun xs => (xs.foldl (· + ·) 0, 1)
  invert := sampleInvert
  identity := (0, 0)
  generator := (1, 2)
  newPoint := fun x y => some (x, y)
  coordinates := id
  pointAdd := fun p q => (p.1 + q.1, p.2 + q.2)
  pointNeg := fun p => (-p.1, -p.2)
  pointMul := fun p s => (Fr.ofNat s.val * p.1, Fr.ofNat s.val * p.2)
  scalarOfNat := fun n => ⟨n % jubjubOrder, Nat.mod_lt _ (by decide)⟩
  scalarFr := fun s => Fr.ofNat s.val
  decodePoint := fun x y => some (x, y)
  decodeScalar := fun x => if small : x.val < jubjubOrder then some ⟨x.val, small⟩ else none
  scalarPadding := 0
  secpIdentity := (0, 0)
  secpGenerator := (1, 2)
  secpNeg := fun p => (-p.1, -p.2)
  secpMul := fun p s => (s * p.1, s * p.2)
  baseZero := 0
  baseMul := (· * ·)
  baseNeg := (- ·)
  baseInvert := sampleInvert
  secpScalarZero := 0
  secpScalarMul := (· * ·)
  secpScalarNeg := (- ·)
  secpScalarInvert := sampleInvert
  encodeSecpPoint := fun p => [p.1, p.2, 0, 0, 0, 0, 0, 0]
  encodeBase := fun b => [b, 0, 0, 0]
  encodeSecpScalar := fun s => [s, 0, 0, 0]
  decodeSecpPoint := fun xs => let p := (xs.headD 0, xs.tail.headD 0)
    if [p.1, p.2, 0, 0, 0, 0, 0, 0] = xs then some p else none
  decodeBase := fun xs => if [xs.headD 0, 0, 0, 0] = xs then some (xs.headD 0) else none
  decodeSecpScalar := fun xs => if [xs.headD 0, 0, 0, 0] = xs then some (xs.headD 0) else none
  persistentHashLength := paddedLength
  keccak256Length := fun _ => paddedLength _
  newPointCoordinates := by rintro x y p ⟨⟩; rfl
  scalarReduced := fun n => Fin.ext (Nat.mod_mod n _)
  decodePointInverse := by rintro x y p ⟨⟩; rfl
  decodeScalarInverse := by
    intro x s decoded
    split at decoded <;> cases decoded
    exact Fin.ext (Nat.mod_eq_of_lt x.isLt)
  decodeSecpPointInverse := by
    intro xs p decoded
    dsimp only at decoded
    split at decoded <;> cases decoded
    assumption
  decodeBaseInverse := by
    intro xs b decoded
    split at decoded <;> cases decoded
    assumption
  decodeSecpScalarInverse := by
    intro xs s decoded
    split at decoded <;> cases decoded
    assumption

def samplePreimage (inputs declared : List Fr) (commitment : Option (Fr × Fr)) : ProofPreimage :=
  ⟨inputs, [], declared, [], 8, commitment, "sample"⟩

theorem returnsOf {ε α : Type} {x : Except ε α} (ok : x.toBool = true) : ∃ a, x = .ok a := by
  cases x with
  | error e => simp [Except.toBool] at ok
  | ok a => exact ⟨a, rfl⟩

def declaredHashV2 : V2.IrSource :=
  ⟨.v2, 1, false, [.loadImm 4, .add 0 1, .transientHash [2], .declarePubInput 3, .piSkip none 1]⟩

def declaredHashV3 : V3.IrSource :=
  ⟨[⟨"x", .native⟩], [], true,
    [.add (.variable "x") (.immediate 4) "sum", .transientHash [.variable "sum"] "hash",
      .impact (.immediate 1) [.variable "hash"]]⟩

theorem declaredHashProves :
    (∃ witness, V2.preprocess pairPrimitives .checked declaredHashV2
        (samplePreimage [3] [8] none) = .ok witness ∧
      V2.circuit pairPrimitives .checked declaredHashV2 witness =
        .ok (witness.memory, witness.pis)) ∧
    (∃ witness, V3.preprocess pairPrimitives .checked declaredHashV3
        (samplePreimage [3] [8] (some (25, 6))) = .ok witness ∧
      V3.circuit .checked declaredHashV3 witness = .ok (witness.memory, witness.pis)) := by
  have both := preparedProves pairPrimitives .checked
  constructor
  · obtain ⟨witness, prepared⟩ : ∃ witness, V2.preprocess pairPrimitives .checked declaredHashV2
        (samplePreimage [3] [8] none) = .ok witness := returnsOf (by decide +kernel)
    exact ⟨witness, prepared, (both.1 _ _ _ prepared).mpr (by decide)⟩
  · obtain ⟨witness, prepared⟩ : ∃ witness, V3.preprocess pairPrimitives .checked declaredHashV3
        (samplePreimage [3] [8] (some (25, 6))) = .ok witness := returnsOf (by decide +kernel)
    have provable : V3.Provable pairPrimitives .checked declaredHashV3
        (samplePreimage [3] [8] (some (25, 6))) := by
      intro memory pis decoded leading
      refine Simulation.alongOfForall (fun ins mem st => ?_)
      simp only [declaredHashV3, mem_cons, not_mem_nil, or_false] at mem
      rcases mem with rfl | rfl | rfl
      · trivial
      · trivial
      · exact .inl rfl
    exact ⟨witness, prepared, both.2 _ _ _ (by decide) prepared provable⟩

def hashedOption : V2.IrSource :=
  ⟨.v2, 2, false, [.persistentHash [.option [[.atom .field]]] [0, 1]]⟩

theorem hashedOptionNotProved :
    V2.preprocess pairPrimitives .checked hashedOption (samplePreimage [0, 5] [] none) =
      .ok ⟨[0, 5, 0, 327680], [8], [], 8, none⟩ ∧
    V2.circuit pairPrimitives .checked hashedOption ⟨[0, 5, 0, 327680], [8], [], 8, none⟩ =
      .error (.returned
        "in-circuit decoding of alignment options is not yet implemented!") := by
  decide +kernel

end MidnightLedger.Zkir

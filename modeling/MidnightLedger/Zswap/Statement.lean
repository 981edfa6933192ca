import MidnightLedger.Onchain.Ops
import MidnightLedger.Zswap.Ledger

/-! The statement that the proof of a Zswap input is verified against (zswap/src/lib.rs,
zswap/src/verify.rs): the memo element, then a program whose operands are the public parts of
the input. -/
namespace MidnightLedger.Zswap
open ByteString PrefixCodes Fab Onchain MidnightLedger.Ledger List Option

def memoBytesPerField : Nat := 31

def memoDomain : Bytes := ascii "midnight:zswap-memo[v1]"

/- A chunk is copied into a zeroed buffer. -/
def memoFields (m : Bytes) : Option (List Fr) := do
  let packed ← (chunks memoBytesPerField m).mapM (fun chunk =>
    Fr.fromLeBytes (chunk ++ replicate (memoBytesPerField - chunk.length) 0))
  some (Fr.ofNat (m.length % 2 ^ 64) :: packed)

def memoPreimage (hash : TransientHash) (m : Bytes) : Option (List Fr) := do
  let fields ← memoFields m
  let domain ← Fr.fromLeBytes memoDomain
  some (hash [domain] :: fields)

def memoToField (hash : TransientHash) (m : Bytes) : Option Fr :=
  (memoPreimage hash m).map hash

def memoStatementElement (hash : TransientHash) : Option Bytes → Option Fr
  | some m => memoToField hash m
  | none => some 0

/- What is assumed of the hash on the preimages in question: none of them collide and none
hashes to zero. No function into the field has both on all lists. -/
structure HashSound (hash : TransientHash) (preimages : Set (List Fr)) : Prop where
  injective : ∀ p ∈ preimages, ∀ q ∈ preimages, hash p = hash q → p = q
  nonzero : ∀ p ∈ preimages, hash p ≠ 0

theorem memoFieldsSome (m : Bytes) : memoFields m = some (Fr.ofNat (m.length % 2 ^ 64) ::
      (chunks memoBytesPerField m).map (fun chunk => Fr.ofNat (leNat chunk))) := by
  have each : ∀ chunk ∈ chunks memoBytesPerField m,
      Fr.fromLeBytes (chunk ++ replicate (memoBytesPerField - chunk.length) 0) =
        some (Fr.ofNat (leNat chunk)) := by
    intro chunk mem
    have short : chunk.length ≤ memoBytesPerField := splitChunksBound mem
    rw [Fr.fromLeBytesStored, leNatAppendZeros]
    rw [length_append, length_replicate, Nat.add_sub_cancel' short]
    exact Nat.le_refl _
  rw [memoFields, Loops.mapMSome each]
  rfl

variable {m other : Bytes}

/- The number of chunks bounds the length up to one chunk, the prefix settles the rest. -/
theorem memoFieldsInj (same : memoFields m = memoFields other) : m = other := by
  rw [memoFieldsSome, memoFieldsSome, some.injEq, cons.injEq] at same
  obtain ⟨lengths, packed⟩ := same
  have room : 2 ^ 64 < fieldModulus := by decide
  have low : ∀ n, n % 2 ^ 64 < fieldModulus := fun n => Nat.lt_trans (Nat.mod_lt n (by decide)) room
  have residues := Fr.ofNatInj (low _) (low _) lengths
  have counts := congrArg length packed
  simp only [length_map, chunksLength, divCeil, memoBytesPerField] at counts
  have length : m.length = other.length := by omega
  have values : ∀ bytes : Bytes, (chunks memoBytesPerField bytes).map leNat =
      ((chunks memoBytesPerField bytes).map (fun chunk => Fr.ofNat (leNat chunk))).map Fin.val := by
    intro bytes
    rw [List.map_map]
    exact map_congr_left fun _ mem =>
      (Nat.mod_eq_of_lt (Fr.storedLt (splitChunksBound mem))).symm
  refine leNatInjOfLength length ?_
  have positive : 0 < memoBytesPerField := by decide
  rw [← chunksDigits positive m, ← chunksDigits positive other, values, values, packed]

theorem memoDomainSome : Fr.fromLeBytes memoDomain = some (Fr.ofNat (leNat memoDomain)) :=
  Fr.fromLeBytesStored (by decide)

theorem memoPreimageSome (hash : TransientHash) (m : Bytes) : ∃ fields, memoFields m = some fields ∧
      memoPreimage hash m = some (hash [Fr.ofNat (leNat memoDomain)] :: fields) := by
  refine ⟨_, memoFieldsSome m, ?_⟩
  rw [memoPreimage, memoFieldsSome, memoDomainSome]
  rfl

variable {hash : TransientHash}

theorem memoPreimageInj {preimage : List Fr} (first : memoPreimage hash m = some preimage)
    (second : memoPreimage hash other = some preimage) : m = other := by
  obtain ⟨fields, packed, whole⟩ := memoPreimageSome hash m
  obtain ⟨fields', packed', whole'⟩ := memoPreimageSome hash other
  have same := (whole.symm.trans first).trans (whole'.symm.trans second).symm
  simp only [some.injEq, cons.injEq, true_and] at same
  exact memoFieldsInj (by rw [packed, packed', same])

def memoPreimages (hash : TransientHash) (memos : List (Option Bytes)) : Set (List Fr) :=
  {p | ∃ m, some m ∈ memos ∧ memoPreimage hash m = some p}

theorem memoStatementTotal (hash : TransientHash) (memo : Option Bytes) :
    ∃ element, memoStatementElement hash memo = some element := by
  cases memo with
  | none => exact ⟨0, rfl⟩
  | some m =>
    obtain ⟨fields, -, whole⟩ := memoPreimageSome hash m
    exact ⟨_, by rw [memoStatementElement, memoToField, whole]; rfl⟩

theorem memoStatementInj {memo other : Option Bytes} {element : Fr}
    (sound : HashSound hash (memoPreimages hash [memo, other]))
    (first : memoStatementElement hash memo = some element)
    (second : memoStatementElement hash other = some element) : memo = other := by
  -- The element of a memo is the hash of its preimage and not zero.
  have hashed : ∀ m, some m ∈ [memo, other] → memoStatementElement hash (some m) = some element →
      ∃ p ∈ memoPreimages hash [memo, other], memoPreimage hash m = some p ∧ hash p = element ∧
        element ≠ 0 := by
    intro m mem written
    obtain ⟨p, whole, value⟩ := map_eq_some_iff.mp written
    have inside : p ∈ memoPreimages hash [memo, other] := ⟨m, mem, whole⟩
    exact ⟨p, inside, whole, value, value ▸ sound.nonzero p inside⟩
  cases memo with
  | none =>
    cases other with
    | none => rfl
    | some m =>
      obtain ⟨_, _, _, _, nonzero⟩ := hashed m (by simp) second
      exact absurd (some.inj first).symm nonzero
  | some m =>
    obtain ⟨p, inside, whole, value, nonzero⟩ := hashed m (by simp) first
    cases other with
    | none => exact absurd (some.inj second).symm nonzero
    | some m' =>
      obtain ⟨q, inside', whole', value', -⟩ := hashed m' (by simp) second
      have same := sound.injective p inside q inside' (value.trans value'.symm)
      exact congrArg some (memoPreimageInj whole (same ▸ whole'))

def filterInvalid {R : Type} (ops : List (Op R)) : List (Op R) :=
  ops.filter fun op =>
    match op with
    | .idx _ _ path => !path.isEmpty
    | .ins _ n => n != 0
    | _ => true

def nextValue : StateT (List AlignedValue) Option AlignedValue := do
  match ← get with
  | [] => failure
  | value :: rest =>
    set rest
    pure value

def withOutputs (prog : List (Op Unit)) (values : List AlignedValue) :
    Option (List (Op AlignedValue)) :=
  ((filterInvalid prog).mapM (Op.translate fun _ => nextValue)).run' values

def caddrOpLen : U32 := 12

instance : Aligned Pedersen where
  alignment := [.atom .field, .atom .field]
  toValue p := [fieldAtom p.x, fieldAtom p.y]
  fits p := ⟨_, .atom (fieldAtomFits p.x) (.atom (fieldAtomFits p.y) .nil)⟩
  short p := by
    intro atom mem
    have small : frBytes < 2 ^ 32 := by decide
    rcases mem_pair.mp mem with rfl | rfl
    · exact Nat.lt_of_le_of_lt (fieldAtomLength p.x) small
    · exact Nat.lt_of_le_of_lt (fieldAtomLength p.y) small

theorem pedersenRepr (hash : TransientHash) (p : Pedersen) :
    fieldReprUnchecked hash (Aligned.toValue p) (Aligned.alignment Pedersen) = some [p.x, p.y] := by
  have writes : Writes 0 (atomFieldReprUnchecked hash) Alignment.fieldLen
      (Aligned.alignment Pedersen) (Aligned.toValue p) ([p.x] ++ ([p.y] ++ [])) :=
    .atom (fieldAtomRepr hash p.x) (.atom (fieldAtomRepr hash p.y) .nil)
  exact fieldReprUncheckedOfWrites writes

instance : Determined Pedersen where
  determined hash p q out first second := by
    rw [pedersenRepr] at first second
    have same := some.inj (first.trans second.symm)
    simp only [cons.injEq, and_true] at same
    cases p
    cases q
    simp only [Pedersen.mk.injEq]
    exact same

namespace Input

def contractProgram (contract : Option ContractAddress) : Option (List (Op Unit)) :=
  match contract with
  | some addr => cellWrite [key (3 : UInt8)] false (.of addr.hash)
  | none => some [.noop caddrOpLen]

def program (inp : Input) : Option (List (Op Unit)) := do
  let contract ← contractProgram inp.contractAddress
  let commitment ← cellWrite [key (2 : UInt8)] false (.of inp.valueCommitment)
  some (historicMerkleTreeCheckRoot [key (0 : UInt8)] false (.of inp.merkleTreeRoot) ++
    setInsert [key (1 : UInt8)] false (.of inp.nullifier) ++ contract ++
    cellRead [key (5 : UInt8)] false ++ commitment)

def statement (hash : TransientHash) (inp : Input) (segment : Segment) : Option (List Fr) := do
  let prog ← inp.program
  let memo ← memoStatementElement hash inp.memo
  let ops ← withOutputs prog [.of true, .of segment]
  let repr ← programRepr hash ops
  some (memo :: repr)

/- The operations of the statement: empty paths and inserts of depth zero are dropped, the
reads are filled in. -/
def contractOperations (contract : Option ContractAddress) : List (Op AlignedValue) :=
  match contract with
  | some addr => [.push false (.cell (.of (3 : UInt8)))] ++
      ([.push true (.cell (.of addr.hash))] ++ [.ins false 1])
  | none => [.noop caddrOpLen]

def operations (inp : Input) (segment : Segment) : List (Op AlignedValue) :=
  [.dup 0, .idx false false [key (0 : UInt8)], .idx false false [key (2 : UInt8)]] ++
  ([.push false (.cell (.of inp.merkleTreeRoot))] ++
  ([.member, .popeq true (.of true), .idx false true [key (1 : UInt8)]] ++
  ([.push false (.cell (.of inp.nullifier))] ++
  ([.push true .null, .ins false 1, .ins true 1] ++
  (contractOperations inp.contractAddress ++
  ([.dup 0, .idx false false [key (5 : UInt8)]] ++
  ([.popeq false (.of segment)] ++
  ([.push false (.cell (.of (2 : UInt8)))] ++
  ([.push true (.cell (.of inp.valueCommitment))] ++ [.ins false 1])))))))))

theorem programOutputs (inp : Input) (segment : Segment) :
    (inp.program.bind fun prog => withOutputs prog [.of true, .of segment]) =
      some (inp.operations segment) := by
  obtain ⟨nullifier, commitment, contract, root, memo⟩ := inp
  cases contract with
  | none => rfl
  | some addr => rfl

section

variable (hash : TransientHash)

theorem splitsContract (contract other : Option ContractAddress) :
    Splits (programRepr hash (contractOperations contract))
      (programRepr hash (contractOperations other)) (contract = other) := by
  -- A contract starts with the opcode of a push, its absence with a zero.
  have apart : opcode (0x10 + Bool.toUInt8 false) ≠ 0 := by decide
  have pushed : ∀ (addr : ContractAddress) (a : List Fr),
      programRepr hash (contractOperations (some addr)) = some a →
      ∃ out, a = opcode (0x10 + Bool.toUInt8 false) :: out := by
    intro addr a written
    obtain ⟨head, tail, first, -, rfl⟩ := writeAllCons.mp written
    rw [Op.fieldRepr] at first
    obtain ⟨out, -, last⟩ := bind_eq_some_iff.mp first
    cases last
    exact ⟨out ++ tail, rfl⟩
  have absent : ∀ a : List Fr, programRepr hash (contractOperations none) = some a →
      ∃ out, a = 0 :: out := by
    intro a written
    cases written
    exact ⟨_, rfl⟩
  cases contract with
  | none =>
    cases other with
    | none => exact (splitsSelf _).imp fun _ => rfl
    | some addr => exact splitsApart apart.symm absent (pushed addr)
  | some addr =>
    cases other with
    | none => exact splitsApart apart (pushed addr) absent
    | some addr' =>
      refine (splitsAppend (splitsSelf _)
        (splitsAppend (splitsSingle (splitsPushCell hash addr.hash addr'.hash true))
          (splitsSelf _))).imp ?_
      rintro ⟨-, same, -⟩
      exact congrArg some (congrArg ContractAddress.mk same)

theorem splitsOperations (inp other : Input) (segment segment' : Segment) :
    Splits (programRepr hash (inp.operations segment))
      (programRepr hash (other.operations segment'))
      (inp.merkleTreeRoot = other.merkleTreeRoot ∧ inp.nullifier = other.nullifier ∧
        inp.contractAddress = other.contractAddress ∧ segment = segment' ∧
        inp.valueCommitment = other.valueCommitment) := by
  refine (splitsAppend (splitsSelf _)
    (splitsAppend (splitsSingle (splitsPushCell hash inp.merkleTreeRoot other.merkleTreeRoot false))
    (splitsAppend (splitsSelf _)
    (splitsAppend (splitsSingle (splitsPushCell hash inp.nullifier other.nullifier false))
    (splitsAppend (splitsSelf _)
    (splitsAppend (splitsContract hash inp.contractAddress other.contractAddress)
    (splitsAppend (splitsSelf _)
    (splitsAppend (splitsSingle (splitsPopeq hash segment segment' false))
    (splitsAppend (splitsSelf _)
    (splitsAppend (splitsSingle
      (splitsPushCell hash inp.valueCommitment other.valueCommitment true))
      (splitsSelf _))))))))))).imp ?_
  rintro ⟨-, root, -, nullifier, -, contract, -, segments, -, commitment, -⟩
  exact ⟨root, nullifier, contract, segments, commitment⟩

theorem contractOperationsTotal (contract : Option ContractAddress) :
    ∀ op ∈ contractOperations contract, ∃ out, op.fieldRepr hash = some out := by
  cases contract with
  | none =>
    intro op mem
    cases mem_singleton.mp mem
    exact ⟨_, rfl⟩
  | some addr =>
    have push := pushCellTotal hash true addr.hash
    have slot := pushCellTotal hash false (3 : UInt8)
    simp only [contractOperations, cons_append, nil_append, forall_mem_cons]
    exact ⟨slot, push, ⟨_, rfl⟩, nofun⟩

theorem operationsTotal (inp : Input) (segment : Segment) :
    ∃ out, programRepr hash (inp.operations segment) = some out := by
  refine writeAllTotal fun op mem => ?_
  have path : ∀ (cached pushPath : Bool) (slot : UInt8),
      ∃ out, (Op.idx cached pushPath [key slot]).fieldRepr hash = some out :=
    fun cached pushPath slot => idxTotal hash cached pushPath slot
  simp only [operations, cons_append, nil_append, mem_cons, mem_append,
    not_mem_nil, or_false] at mem
  rcases mem with rfl | rfl | rfl | rfl | rfl | rfl | rfl | rfl | rfl | rfl | rfl | inside | rfl |
    rfl | rfl | rfl | rfl | rfl
  · exact ⟨_, rfl⟩
  · exact path false false 0
  · exact path false false 2
  · exact pushCellTotal hash false inp.merkleTreeRoot
  · exact ⟨_, rfl⟩
  · exact popeqTotal hash true true
  · exact path false true 1
  · exact pushCellTotal hash false inp.nullifier
  · exact ⟨_, rfl⟩
  · exact ⟨_, rfl⟩
  · exact ⟨_, rfl⟩
  · exact contractOperationsTotal hash inp.contractAddress op inside
  · exact ⟨_, rfl⟩
  · exact path false false 5
  · exact popeqTotal hash false segment
  · exact pushCellTotal hash false (2 : UInt8)
  · exact pushCellTotal hash true inp.valueCommitment
  · exact ⟨_, rfl⟩

end

theorem statementSome {hash : TransientHash} {inp : Input} {segment : Segment} {out : List Fr} :
    inp.statement hash segment = some out ↔
      ∃ memo repr, memoStatementElement hash inp.memo = some memo ∧
        programRepr hash (inp.operations segment) = some repr ∧ out = memo :: repr := by
  have outputs := programOutputs inp segment
  obtain ⟨prog, built, filled⟩ := bind_eq_some_iff.mp outputs
  simp only [statement, built, filled, bind, bind_some, bind_eq_some_iff, some.injEq]
  constructor
  · rintro ⟨memo, first, repr, second, rfl⟩
    exact ⟨memo, repr, first, second, rfl⟩
  · rintro ⟨memo, repr, first, second, rfl⟩
    exact ⟨memo, first, repr, second, rfl⟩

theorem statementBinds (hash : TransientHash) (inp other : Input) (segment segment' : Segment)
    (sound : HashSound hash (memoPreimages hash [inp.memo, other.memo])) :
    ∃ left right, inp.statement hash segment = some left ∧
      other.statement hash segment' = some right ∧
      (left = right → inp.memo = other.memo ∧ inp.nullifier = other.nullifier ∧
        inp.merkleTreeRoot = other.merkleTreeRoot ∧ inp.contractAddress = other.contractAddress ∧
        inp.valueCommitment = other.valueCommitment ∧ segment = segment') := by
  obtain ⟨memo, element⟩ := memoStatementTotal hash inp.memo
  obtain ⟨memo', element'⟩ := memoStatementTotal hash other.memo
  obtain ⟨repr, written⟩ := operationsTotal hash inp segment
  obtain ⟨repr', written'⟩ := operationsTotal hash other segment'
  refine ⟨memo :: repr, memo' :: repr', statementSome.mpr ⟨memo, repr, element, written, rfl⟩,
    statementSome.mpr ⟨memo', repr', element', written', rfl⟩, ?_⟩
  intro same
  obtain ⟨rfl, reprs⟩ := cons.inj same
  have memos : inp.memo = other.memo := memoStatementInj sound element element'
  obtain ⟨⟨root, nullifier, contract, segments, commitment⟩, -⟩ :=
    splitsOperations hash inp other segment segment' written written'
      (congrArg (· ++ []) reprs)
  exact ⟨memos, nullifier, root, contract, commitment, segments⟩

def sampleInput : Input where
  nullifier := 7
  valueCommitment := ⟨3, 4⟩
  contractAddress := none
  merkleTreeRoot := 11
  memo := some [104, 105, 0]

def strippedInput : Input := { sampleInput with memo := none }

theorem strippedMemoStatement :
    sampleInput.statement radixHash 1 ≠ strippedInput.statement radixHash 1 := by
  have sound : HashSound radixHash
      (memoPreimages radixHash [sampleInput.memo, strippedInput.memo]) := by
    have only : ∀ p ∈ memoPreimages radixHash [sampleInput.memo, strippedInput.memo],
        memoPreimage radixHash [104, 105, 0] = some p := by
      rintro p ⟨m, mem, whole⟩
      simp only [sampleInput, strippedInput, mem_cons, some.injEq, not_mem_nil,
        or_false, reduceCtorEq] at mem
      exact mem ▸ whole
    refine ⟨fun p left q right _ => some.inj ((only p left).symm.trans (only q right)), ?_⟩
    intro p inside zero
    have hashed : memoToField radixHash [104, 105, 0] = some (radixHash p) := by
      rw [memoToField, only p inside, map_some]
    rw [zero] at hashed
    exact absurd hashed (by decide +kernel)
  obtain ⟨left, right, first, second, binds⟩ :=
    statementBinds radixHash sampleInput strippedInput 1 1 sound
  rw [first, second]
  intro same
  exact absurd (binds (some.inj same)).1 (by decide)

end Input

end MidnightLedger.Zswap

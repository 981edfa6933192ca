import Mathlib.Data.ZMod.Basic
import Mathlib.Data.String.Basic
import MidnightLedger.Zswap.Coins
import MidnightLedger.Zswap.Merge
import MidnightLedger.Zswap.Statement

/-! What a proof preimage tells of the coin it was made for (zswap/src/structure.rs,
transient-crypto/src/proofs.rs, transient-crypto/src/repr.rs), where `none` stands for a panic.
Building inputs, outputs, transients and offers from coins, and moving them to another segment
(zswap/src/construct.rs, zswap/src/local.rs). The randomness that the source draws is an
argument. -/
namespace MidnightLedger.Zswap
open ByteString Fab MidnightLedger.Ledger List Option

def embeddedModulus : ℕ := 0x0e7db4ea6533afa906673b0101343b00a6682093ccc81082d0970e5ed6f72cb7

instance : NeZero embeddedModulus := ⟨by decide⟩

abbrev EmbeddedFr := ZMod embeddedModulus

namespace EmbeddedFr

def asLeBytes (r : EmbeddedFr) : Bytes := leBytes frBytes (ZMod.val r)

def fromLeBytes (bytes : Bytes) : Option EmbeddedFr :=
  if bytes.length ≤ frBytes then
    if leNat bytes < embeddedModulus then some (leNat bytes : EmbeddedFr) else none
  else none

def toFr (r : EmbeddedFr) : Option Fr := Fr.fromLeBytes (asLeBytes r)

def ofFr (f : Fr) : Option EmbeddedFr := fromLeBytes f.asLeBytes

theorem toFrSome (r : EmbeddedFr) : ∃ f, toFr r = some f ∧ ofFr f = some r := by
  have small : ZMod.val r < embeddedModulus := ZMod.val_lt r
  have below : embeddedModulus < fieldModulus := by decide
  have room : fieldModulus < 256 ^ frBytes := by decide
  have value : leNat (asLeBytes r) = ZMod.val r := by
    rw [asLeBytes, leNatLeBytes, Nat.mod_eq_of_lt (by omega)]
  have length : (asLeBytes r).length ≤ frBytes := (leBytesLength ..).le
  refine ⟨⟨ZMod.val r, by omega⟩, ?_, ?_⟩
  · simp only [toFr, Fr.fromLeBytes, if_pos length, value]
    rw [dif_pos (by omega)]
  · simp only [ofFr, fromLeBytes, Fr.asLeBytesLength, Fr.leNatAsLeBytes, le_refl, if_true,
      if_pos small]
    rw [ZMod.natCast_val, ZMod.cast_id]

end EmbeddedFr

/- The prime order subgroup of the embedded curve and the hash into it, outside of this
repository. A point is stored by its coordinates. -/
structure EmbeddedCurve where
  Point : Type
  group : AddCommGroup Point
  scalars : Module EmbeddedFr Point
  generator : Point
  hashToCurve : ShieldedTokenType → Segment → Point
  affine : Point → Pedersen
  point : Pedersen → Point
  pointAffine : ∀ g, point (affine g) = g

attribute [instance] EmbeddedCurve.group EmbeddedCurve.scalars

def EmbeddedCurve.commit (C : EmbeddedCurve) (type : ShieldedTokenType) (segment : Segment)
    (v r : EmbeddedFr) : C.Point :=
  r • C.generator + v • C.hashToCurve type segment

theorem EmbeddedCurve.commitZero (C : EmbeddedCurve) (type : ShieldedTokenType) (segment : Segment)
    (r : EmbeddedFr) : C.commit type segment 0 r = r • C.generator := by
  rw [commit, zero_smul, add_zero]

abbrev PreimageKey :=
  List Fr ×ₗ List Fr ×ₗ List Fr ×ₗ List Fr ×ₗ Fr ×ₗ WithBot (Fr ×ₗ Fr) ×ₗ String

def preimageKey (preimage : ProofPreimage) : PreimageKey :=
  toLex (preimage.inputs, toLex (preimage.privateTranscript, toLex (preimage.publicTranscriptInputs,
    toLex (preimage.publicTranscriptOutputs, toLex (preimage.bindingInput,
      toLex (optionKey toLex preimage.communicationsCommitment, preimage.keyLocation))))))

theorem preimageKeyInjective : Function.Injective preimageKey := by
  rintro ⟨inputs, priv, pubIn, pubOut, binding, comm, key⟩ ⟨_, _, _, _, _, _, _⟩ same
  simp only [preimageKey, toLex.injective.eq_iff, Prod.mk.injEq] at same
  obtain ⟨rfl, rfl, rfl, rfl, rfl, comms, rfl⟩ := same
  cases optionKeyInjective toLex.injective comms
  rfl

instance : LinearOrder ProofPreimage := LinearOrder.lift' preimageKey preimageKeyInjective

section Repr

def hashRepr (hash : HashOutput) : Option (List Fr) := bytesFieldRepr (hashBytes hash)

def hashOfBytes (bytes : Bytes) : HashOutput := BitVec.ofNat 256 (leNat bytes.reverse)

/- `from_field_repr` of 32 bytes: the last byte comes first, then the other 31. -/
def hashFromRepr : List Fr → Option HashOutput
  | [first, second] => do
    let last ← bytesFrom 1 first
    let others ← bytesFrom 31 second
    some (hashOfBytes (others ++ last))
  | _ => none

theorem hashOfHashBytes (hash : HashOutput) : hashOfBytes (hashBytes hash) = hash := by
  have room : 2 ^ 256 = 256 ^ 32 := by decide
  have value : leNat (hashBytes hash).reverse = hash.toNat := by
    rw [hashBytes, reverse_reverse, leNatLeBytes, ← room, Nat.mod_eq_of_lt hash.isLt]
  refine BitVec.eq_of_toNat_eq ?_
  rw [hashOfBytes, BitVec.toNat_ofNat, value, Nat.mod_eq_of_lt hash.isLt]

variable {bytes : Bytes}

theorem bytesRepr32 (length : bytes.length = 32) : bytesFieldRepr bytes =
    some [Fr.ofNat (leNat (bytes.drop 31)), Fr.ofNat (leNat (bytes.take 31))] := by
  have shortLast : (bytes.drop 31).length ≤ frBytesStored := by
    rw [length_drop, length]
    decide
  have others : (bytes.take 31).length = 31 := by
    rw [length_take, length]
    rfl
  have shortOthers : (bytes.take 31).length ≤ frBytesStored := others.le
  have first : bytesFieldReprLoop 2 bytes = (Fr.fromLeBytes (bytes.drop 31)).bind fun head =>
      (bytesFieldReprLoop 1 (bytes.take 31)).bind fun tail => some (head :: tail) := by
    rw [bytesFieldReprLoop, length]
    rfl
  have second : bytesFieldReprLoop 1 (bytes.take 31) =
      (Fr.fromLeBytes (bytes.take 31)).bind fun head => some [head] := by
    rw [bytesFieldReprLoop, others]
    rfl
  have count : divCeil 32 frBytesStored = 2 := by decide
  rw [bytesFieldRepr, length, count, first, second, Fr.fromLeBytesStored shortLast,
    Fr.fromLeBytesStored shortOthers]
  rfl

theorem bytesFromOfNat {k : ℕ} (length : bytes.length = k) (short : k ≤ frBytesStored) :
    bytesFrom k (Fr.ofNat (leNat bytes)) = some bytes := by
  have value : (Fr.ofNat (leNat bytes)).val = leNat bytes := by
    rw [Fr.ofNatVal, Nat.mod_eq_of_lt (Fr.storedLt (length ▸ short))]
  have wide : k ≤ frBytes := short.trans (by decide)
  rw [bytesFromEq wide, value, if_pos (length ▸ leNatLt bytes), ← length, leBytesLeNat]

theorem hashFromHashRepr (hash : HashOutput) :
    ∃ a b, hashRepr hash = some [a, b] ∧ hashFromRepr [a, b] = some hash := by
  have length := hashBytesLength hash
  refine ⟨_, _, bytesRepr32 length, ?_⟩
  have last : ((hashBytes hash).drop 31).length = 1 := by rw [length_drop, length]
  have others : ((hashBytes hash).take 31).length = 31 := by rw [length_take, length]; rfl
  simp only [hashFromRepr, bytesFromOfNat last (by decide), bytesFromOfNat others (by decide)]
  exact congrArg some ((congrArg hashOfBytes (take_append_drop 31 _)).trans (hashOfHashBytes hash))

end Repr

namespace CoinInfo

def fieldSize : ℕ := 5

def fieldRepr (coin : CoinInfo) : Option (List Fr) := do
  let nonce ← hashRepr coin.nonce
  let type ← hashRepr coin.type.hash
  some (nonce ++ (type ++ [Fr.ofNat coin.value.toNat]))

def valueFromRepr : List Fr → Option U128
  | [f] => if f.val < 2 ^ 128 then some (BitVec.ofNat 128 f.val) else none
  | _ => none

def fromFieldRepr (repr : List Fr) : Option CoinInfo :=
  if repr.length < 2 then none
  else do
    let nonce ← hashFromRepr (repr.take 2)
    if (repr.drop 2).length < 2 then none
    else do
      let type ← hashFromRepr ((repr.drop 2).take 2)
      if (repr.drop 4).length < 1 then none
      else do
        let value ← valueFromRepr ((repr.drop 4).take 1)
        if (repr.drop 5).length = 0 then some ⟨nonce, ⟨type⟩, value⟩ else none

theorem fromCoinRepr (coin : CoinInfo) : ∃ fields, coin.fieldRepr = some fields ∧
    fields.length = fieldSize ∧ fromFieldRepr fields = some coin := by
  obtain ⟨a, b, nonce, nonceBack⟩ := hashFromHashRepr coin.nonce
  obtain ⟨c, d, type, typeBack⟩ := hashFromHashRepr coin.type.hash
  have small : coin.value.toNat < fieldModulus := by
    have room : 2 ^ 128 < fieldModulus := by decide
    omega
  have value : (Fr.ofNat coin.value.toNat).val = coin.value.toNat := by
    rw [Fr.ofNatVal, Nat.mod_eq_of_lt small]
  have valueBack : valueFromRepr [Fr.ofNat coin.value.toNat] = some coin.value := by
    rw [valueFromRepr, value, if_pos coin.value.isLt]
    refine congrArg some (BitVec.eq_of_toNat_eq ?_)
    rw [BitVec.toNat_ofNat, Nat.mod_eq_of_lt coin.value.isLt]
  refine ⟨[a, b, c, d, Fr.ofNat coin.value.toNat], ?_, rfl, ?_⟩
  · rw [fieldRepr, nonce, type]
    rfl
  · simp only [fromFieldRepr, take, drop, nonceBack, typeBack, valueBack]
    rfl

end CoinInfo

def committedCoin (preimage : ProofPreimage) : Option CoinInfo :=
  if preimage.inputs.length < 1 + CoinInfo.fieldSize then none
  else CoinInfo.fromFieldRepr
    ((preimage.inputs.drop (preimage.inputs.length - 1 - CoinInfo.fieldSize)).take CoinInfo.fieldSize)

def committedRandomness (preimage : ProofPreimage) : Option EmbeddedFr := do
  let last ← preimage.inputs.getLast?
  EmbeddedFr.ofFr last

variable {preimage : ProofPreimage} {coin : CoinInfo}

theorem preimageCoin {front fields : List Fr} {rc : Fr} (written : coin.fieldRepr = some fields)
    (inputs : preimage.inputs = front ++ (fields ++ [rc])) :
    committedCoin preimage = some coin ∧ committedRandomness preimage = EmbeddedFr.ofFr rc := by
  obtain ⟨fields', again, length, back⟩ := coin.fromCoinRepr
  cases written.symm.trans again
  have total : preimage.inputs.length = front.length + (CoinInfo.fieldSize + 1) := by
    rw [inputs, length_append, length_append, length]
    rfl
  refine ⟨?_, ?_⟩
  · rw [committedCoin, if_neg (by omega), total,
      show front.length + (CoinInfo.fieldSize + 1) - 1 - CoinInfo.fieldSize = front.length by omega,
      inputs, drop_left, ← length, take_left, back]
  · rw [committedRandomness, inputs, ← append_assoc, getLast?_concat]
    exact bind_some rc EmbeddedFr.ofFr

def segmentOf (f : Fr) : Option Segment := if small : f.val < 65536 then some ⟨f.val, small⟩ else none

def aimedSegment (preimage : ProofPreimage) : Option Segment := do
  let last ← preimage.publicTranscriptOutputs.getLast?
  segmentOf last

variable {segment : Segment}

theorem preimageSegment (front : List Fr)
    (outputs : preimage.publicTranscriptOutputs = front ++ [Fr.ofNat segment.val]) :
    aimedSegment preimage = some segment := by
  have bound : segment.val < 65536 := segment.isLt
  have value : (Fr.ofNat segment.val).val = segment.val := by
    rw [Fr.ofNatVal, Nat.mod_eq_of_lt (bound.trans (by decide))]
  have back : segmentOf (Fr.ofNat segment.val) = some segment := by
    rw [segmentOf, dif_pos (by rw [value]; exact bound)]
    exact congrArg some (Fin.ext value)
  rw [aimedSegment, outputs, getLast?_concat]
  exact (bind_some _ segmentOf).trans back

/- `try_into().unwrap_or(i128::MAX)` of a coin value, and the negation of outputs. -/
def saturatingI128 (value : U128) : I128 := if value.toNat < 2 ^ 127 then value else BitVec.intMax 128

def saturatingNeg (value : I128) : I128 :=
  if value = BitVec.intMin 128 then BitVec.intMax 128 else -value

theorem saturatingI128Small {value : U128} (small : value.toNat < 2 ^ 127) :
    (saturatingI128 value).toInt = value.toNat := by
  rw [saturatingI128, if_pos small, BitVec.toInt_eq_toNat_cond, if_pos (by omega)]

section

variable {value : I128} (nonnegative : 0 ≤ value.toInt)
include nonnegative

theorem nonnegativeNotMin : value ≠ BitVec.intMin 128 := by
  intro same
  rw [same, BitVec.toInt_intMin] at nonnegative
  exact absurd nonnegative (by decide)

theorem saturatingNegToInt : (saturatingNeg value).toInt = -value.toInt := by
  have apart := nonnegativeNotMin nonnegative
  rw [saturatingNeg, if_neg apart, BitVec.toInt_neg_of_ne_intMin apart]

theorem saturatingNegTwice : saturatingNeg (saturatingNeg value) = value := by
  have apart := nonnegativeNotMin nonnegative
  have negated : -value ≠ BitVec.intMin 128 := by
    intro same
    rw [BitVec.neg_eq_iff_eq_neg, BitVec.neg_intMin] at same
    exact apart same
  rw [saturatingNeg, saturatingNeg, if_neg apart, if_neg negated, BitVec.neg_neg]

end

def inputDelta (inp : WithProof Input ProofPreimage) : Option (ShieldedTokenType × I128) := do
  let coin ← committedCoin inp.proof
  some (coin.type, saturatingI128 coin.value)

def outputDelta (out : WithProof Output ProofPreimage) : Option (ShieldedTokenType × I128) := do
  let coin ← committedCoin out.proof
  some (coin.type, saturatingNeg (saturatingI128 coin.value))

def inputRandomness (inp : WithProof Input ProofPreimage) : Option EmbeddedFr :=
  committedRandomness inp.proof

/- Negated, since the commitments of outputs are subtracted. -/
def outputRandomness (out : WithProof Output ProofPreimage) : Option EmbeddedFr := do
  let rc ← committedRandomness out.proof
  some (-rc)

open Onchain PrefixCodes Loops Words MerkleTrees

/- What building an offer uses from outside of this repository. -/
structure Building (E : Type) where
  curve : EmbeddedCurve
  cryptography : Cryptography E
  hashing : TreeHashing
  transientHash : TransientHash
  ciphertextToField : Bytes → Fr

inductive OfferCreationFailed where
  | memoOnContractOwnedInput
  | treeNotRehashed
  | invalidIndex (index : ℕ)
  | notContractOwned
  | merkleTreeError (e : MerkleTrees.InvalidUpdate)
  deriving DecidableEq, Repr

def flaggedRepr (flag : Bool) (first second : HashOutput) : Option (List Fr) := do
  let first ← hashRepr first
  let second ← hashRepr second
  some (Fr.ofNat flag.toNat :: (first ++ second))

def SenderEvidence.fieldRepr : SenderEvidence → Option (List Fr)
  | .user secretKey => flaggedRepr true secretKey 0
  | .contract address => flaggedRepr false 0 address.hash

def Recipient.fieldRepr : Recipient → Option (List Fr)
  | .user publicKey => flaggedRepr true publicKey 0
  | .contract address => flaggedRepr false 0 address.hash

def pathRepr (path : List (Fr × Bool)) : List Fr :=
  path.flatMap fun entry => [entry.1, Fr.ofNat entry.2.toNat]

def QualifiedCoinInfo.info (coin : QualifiedCoinInfo) : CoinInfo :=
  ⟨coin.nonce, coin.type, coin.value⟩

def answered (value : AlignedValue) (prog : List (Op Unit)) : List (Op AlignedValue) :=
  prog.map fun op => Id.run (op.translate fun _ => pure value)

def contractWrite (contract : Option ContractAddress) : Option (List (Op AlignedValue)) :=
  match contract with
  | some addr => cellWrite [key (3 : UInt8)] false (.of addr.hash)
  | none => some []

def segmentProgram (segment : Segment) (commitment : Pedersen) : Option (List (Op AlignedValue)) := do
  let write ← cellWrite [key (2 : UInt8)] false (.of commitment)
  some (answered (.of segment) (cellRead [key (5 : UInt8)] false) ++ write)

def historicMerkleTreeInsertHash (f : List Key) (cached : Bool) (hash : AlignedValue) :
    List (Op AlignedValue) :=
  [.idx cached true f, .idx false true [key (0 : UInt8)], .dup 2, .idx false false [key (1 : UInt8)],
    .push true (.cell hash), .ins false 1, .ins true 1, .idx false true [key (1 : UInt8)], .addi 1,
    .ins true 1, .idx false true [key (2 : UInt8)], .dup 2, .idx false false [key (0 : UInt8)],
    .root, .push true .null, .ins false 1, .ins true (UInt8.ofNat f.length + 1)]

variable {E : Type}

section

variable (B : Building E)

def transcriptRepr (prog : List (Op AlignedValue)) : Option (List Fr) :=
  programRepr B.transientHash (filterInvalid prog)

def segmentRepr (segment : Segment) (commitment : Pedersen) : Option (List Fr) := do
  let prog ← segmentProgram segment commitment
  transcriptRepr B prog

def inputTranscript (root : Fr) (nullifier : Nullifier) (contract : Option ContractAddress)
    (segment : Segment) (commitment : Pedersen) : Option (List Fr) := do
  let write ← contractWrite contract
  let ending ← segmentProgram segment commitment
  transcriptRepr B (answered (.of true) (historicMerkleTreeCheckRoot [key (0 : UInt8)] false (.of root)) ++
    setInsert [key (1 : UInt8)] false (.of nullifier) ++ write ++ ending)

def outputTranscript (coinCom : Commitment) (contract : Option ContractAddress) (segment : Segment)
    (commitment : Pedersen) : Option (List Fr) := do
  let write ← contractWrite contract
  let ending ← segmentProgram segment commitment
  transcriptRepr B (historicMerkleTreeInsertHash [key (0 : UInt8)] false (.of coinCom) ++ write ++ ending)

def newInput {A : Type} (rc : EmbeddedFr) (coin : QualifiedCoinInfo) (segment : Option Segment)
    (sk : SenderEvidence) (tree : CommitmentTree A) (memo : Option Bytes) :
    Outcome OfferCreationFailed (WithProof Input ProofPreimage) :=
  if memo.isSome ∧ sk.contractAddress.isSome then reject .memoOnContractOwnedInput
  else do
    let rcField ← okOr .panic (EmbeddedFr.toFr rc)
    let nullifier := coin.info.nullifier B.cryptography sk
    let commitment := B.curve.affine
      (B.curve.commit coin.type (segment.getD 0) (coin.value.toNat : EmbeddedFr) rc)
    let root ← okOr (.error .treeNotRehashed) (tree.root B.hashing)
    let evidence ← okOr .panic sk.fieldRepr
    let path ← mapFault (fun _ => .invalidIndex coin.mtIndex) (tree.pathForLeaf B.hashing coin.mtIndex)
    let leaf ← okOr .panic
      (hashRepr (coin.info.commitment B.cryptography (sk.recipient B.cryptography)))
    let fields ← okOr .panic coin.info.fieldRepr
    let transcript ← okOr .panic
      (inputTranscript B root nullifier sk.contractAddress (segment.getD 0) commitment)
    let binding ← okOr .panic (memoStatementElement B.transientHash memo)
    .ok {
      erased := {
        nullifier := nullifier
        valueCommitment := commitment
        contractAddress := sk.contractAddress
        merkleTreeRoot := root
        memo := memo }
      proof := {
        inputs := (evidence ++ (leaf ++ pathRepr path)) ++ (fields ++ [rcField])
        privateTranscript := []
        publicTranscriptInputs := transcript
        publicTranscriptOutputs := [1, Fr.ofNat (segment.getD 0).val]
        bindingInput := binding
        communicationsCommitment := none
        keyLocation := "midnight/zswap/spend" } }

def Recipient.contractAddress : Recipient → Option ContractAddress
  | .user _ => none
  | .contract address => some address

def newOutput (rc : EmbeddedFr) (coin : CoinInfo) (segment : Option Segment) (recipient : Recipient)
    (ciphertext : Option Bytes) : Outcome OfferCreationFailed (WithProof Output ProofPreimage) := do
  let rcField ← okOr .panic (EmbeddedFr.toFr rc)
  let coinCom := coin.commitment B.cryptography recipient
  let commitment := B.curve.affine
    (B.curve.commit coin.type (segment.getD 0) (coin.value.toNat : EmbeddedFr) rc)
  let evidence ← okOr .panic recipient.fieldRepr
  let fields ← okOr .panic coin.fieldRepr
  let transcript ← okOr .panic
    (outputTranscript B coinCom recipient.contractAddress (segment.getD 0) commitment)
  .ok {
    erased := {
      coinCom := coinCom
      valueCommitment := commitment
      contractAddress := recipient.contractAddress
      ciphertext := ciphertext }
    proof := {
      inputs := evidence ++ (fields ++ [rcField])
      privateTranscript := []
      publicTranscriptInputs := transcript
      publicTranscriptOutputs := [Fr.ofNat (segment.getD 0).val]
      bindingInput := (ciphertext.map B.ciphertextToField).getD 0
      communicationsCommitment := none
      keyLocation := "midnight/zswap/output" } }

abbrev ProvedTransient := WithProof Transient (ProofPreimage ×ₗ ProofPreimage)

def transientOf (input : WithProof Input ProofPreimage) (output : WithProof Output ProofPreimage) :
    ProvedTransient where
  erased := {
    nullifier := input.erased.nullifier
    coinCom := output.erased.coinCom
    valueCommitmentInput := input.erased.valueCommitment
    valueCommitmentOutput := output.erased.valueCommitment
    contractAddress := output.erased.contractAddress
    ciphertext := output.erased.ciphertext }
  proof := toLex (input.proof, output.proof)

def treeOf (output : WithProof Output ProofPreimage) :
    Outcome OfferCreationFailed (CommitmentTree Unit) := do
  let tree ← lift .merkleTreeError (Tree.tryUpdateHash zswapTreeHeight
    (Tree.blank zswapTreeHeight) 0 output.erased.coinCom ())
  .ok (Tree.rehash B.hashing tree)

def spendFromOutput (rc : EmbeddedFr) (secretKey : HashOutput) (coin : QualifiedCoinInfo)
    (segment : Option Segment) (output : WithProof Output ProofPreimage) :
    Outcome OfferCreationFailed ProvedTransient := do
  let tree ← treeOf B output
  let input ← newInput B rc coin segment (.user secretKey) tree none
  .ok (transientOf input output)

def newFromContractOwnedOutput (rc : EmbeddedFr) (coin : QualifiedCoinInfo) (segment : Option Segment)
    (output : WithProof Output ProofPreimage) : Outcome OfferCreationFailed ProvedTransient := do
  let tree ← treeOf B output
  let addr ← okOr (.error .notContractOwned) output.erased.contractAddress
  let input ← newInput B rc coin segment (.contract addr) tree none
  .ok (transientOf input output)

def retargetProof (preimage : ProofPreimage) (segment : Segment) (commitment : Pedersen)
    (outputs : List Fr) : Option ProofPreimage := do
  let ending ← segmentRepr B segment commitment
  if preimage.publicTranscriptInputs.length < ending.length then none
  else some { preimage with
    publicTranscriptInputs := preimage.publicTranscriptInputs.take
      (preimage.publicTranscriptInputs.length - ending.length) ++ ending
    publicTranscriptOutputs := outputs }

def retargetInput (inp : WithProof Input ProofPreimage) (segment : Segment) :
    Option (WithProof Input ProofPreimage) := do
  let delta ← inputDelta inp
  let rc ← inputRandomness inp
  let commitment := B.curve.affine (B.curve.commit delta.1 segment (delta.2.toInt : EmbeddedFr) rc)
  let proof ← retargetProof B inp.proof segment commitment [1, Fr.ofNat segment.val]
  some ⟨{ inp.erased with valueCommitment := commitment }, proof⟩

def retargetOutput (out : WithProof Output ProofPreimage) (segment : Segment) :
    Option (WithProof Output ProofPreimage) := do
  let delta ← outputDelta out
  let randomness ← outputRandomness out
  let commitment := B.curve.affine
    (B.curve.commit delta.1 segment ((saturatingNeg delta.2).toInt : EmbeddedFr) (-randomness))
  let proof ← retargetProof B out.proof segment commitment [Fr.ofNat segment.val]
  some ⟨{ out.erased with valueCommitment := commitment }, proof⟩

def asProvedInput (io : ProvedTransient) : WithProof Input ProofPreimage :=
  ⟨io.erased.asInput B.hashing, (ofLex io.proof).1⟩

def asProvedOutput (io : ProvedTransient) : WithProof Output ProofPreimage :=
  ⟨io.erased.asOutput, (ofLex io.proof).2⟩

def retargetTransient (io : ProvedTransient) (segment : Segment) : Option ProvedTransient := do
  let input ← retargetInput B (asProvedInput B io) segment
  let output ← retargetOutput B (asProvedOutput io) segment
  some (transientOf input output)

def transientRandomness (io : ProvedTransient) : Option EmbeddedFr := do
  let first ← inputRandomness (asProvedInput B io)
  let second ← outputRandomness (asProvedOutput io)
  some (first + second)

namespace OfferWith

/- `Offer::new`; nothing at all is no offer. -/
def new (build : Build) (inputs : List (WithProof Input ProofPreimage))
    (outputs : List (WithProof Output ProofPreimage)) (transient : List ProvedTransient) :
    Outcome MalformedOffer (Option (OfferWith ProofPreimage)) :=
  if inputs.isEmpty ∧ outputs.isEmpty ∧ transient.isEmpty then .ok none
  else do
    let first ← okOr .panic (inputs.mapM inputDelta)
    let second ← okOr .panic (outputs.mapM outputDelta)
    let res ← normalize build ⟨inputs, outputs, transient, first ++ second⟩
    .ok (some res)

def retargetSegment (offer : OfferWith ProofPreimage) (segment : Segment) :
    Option (OfferWith ProofPreimage) := do
  let inputs ← offer.inputs.mapM fun inp => retargetInput B inp segment
  let outputs ← offer.outputs.mapM fun out => retargetOutput B out segment
  let transient ← offer.transient.mapM fun io => retargetTransient B io segment
  some ⟨inputs, outputs, transient, offer.deltas⟩

def bindingRandomness (offer : OfferWith ProofPreimage) : Option EmbeddedFr := do
  let inputs ← offer.inputs.mapM inputRandomness
  let outputs ← offer.outputs.mapM outputRandomness
  let transient ← offer.transient.mapM (transientRandomness B)
  some ((inputs ++ outputs ++ transient).foldl (· + ·) 0)

end OfferWith

end

variable {commitment : Pedersen} {transcript : List Fr} {B : Building E}

section Transcripts

def codeSize (T : Type) [Aligned T] : ℕ :=
  Alignment.fieldSize (Aligned.alignment T) + Alignment.fieldLen (Aligned.alignment T)

def Writes (hash : TransientHash) (prog : List (Op AlignedValue)) (size : ℕ) : Prop :=
  ∃ out, programRepr hash prog = some out ∧ out.length = size

theorem Writes.cons {hash : TransientHash} {op : Op AlignedValue} {prog : List (Op AlignedValue)}
    {size rest : ℕ} (first : ∃ out, op.fieldRepr hash = some out ∧ out.length = size)
    (others : Writes hash prog rest) : Writes hash (op :: prog) (size + rest) := by
  obtain ⟨head, written, length⟩ := first
  obtain ⟨tail, others, length'⟩ := others
  refine ⟨head ++ tail, writeAllCons.mpr ⟨head, tail, written, others, rfl⟩, ?_⟩
  rw [length_append, length, length']

section

variable (hash : TransientHash) {T : Type} [Aligned T] (x : T)

theorem popeqSize (cached : Bool) :
    ∃ out, (Op.popeq cached (.of x)).fieldRepr hash = some out ∧ out.length = 1 + codeSize T := by
  obtain ⟨out, written, length⟩ := ofReprExact hash x
  refine ⟨_, by rw [Op.fieldRepr, written]; rfl, ?_⟩
  rw [length_cons, length, codeSize]
  omega

theorem pushCellSize (storage : Bool) : ∃ out,
    (Op.push storage (.cell (.of x))).fieldRepr hash = some out ∧ out.length = 2 + codeSize T := by
  obtain ⟨out, written, length⟩ := ofReprExact hash x
  refine ⟨_, by rw [Op.fieldRepr, StateValue.fieldRepr, written]; rfl, ?_⟩
  rw [length_cons, length_cons, length, codeSize]
  omega

theorem idxSize (cached pushPath : Bool) : ∃ out,
    (Op.idx cached pushPath [key x]).fieldRepr hash = some out ∧ out.length = 1 + codeSize T := by
  obtain ⟨out, written, length⟩ := ofReprExact hash x
  refine ⟨_, by rw [Op.fieldRepr, mapM_cons, key, Key.fieldRepr, written]; rfl, ?_⟩
  simp [length, codeSize]
  omega

end

def segmentReprSize : ℕ :=
  1 + ((1 + codeSize UInt8) + ((1 + codeSize Segment) + ((2 + codeSize UInt8) +
    ((2 + codeSize Pedersen) + (1 + 0)))))

theorem segmentReprSome (B : Building E) (segment : Segment) (commitment : Pedersen) :
    ∃ out, segmentRepr B segment commitment = some out ∧ out.length = segmentReprSize := by
  have written : Writes B.transientHash
      [.dup 0, .idx false false [key (5 : UInt8)], .popeq false (.of segment),
        .push false (.cell (.of (2 : UInt8))), .push true (.cell (.of commitment)), .ins false 1]
      segmentReprSize :=
    .cons ⟨_, rfl, rfl⟩ (.cons (idxSize _ _ _ _) (.cons (popeqSize _ _ _)
      (.cons (pushCellSize _ _ _) (.cons (pushCellSize _ _ _) (.cons ⟨_, rfl, rfl⟩ ⟨[], rfl, rfl⟩)))))
  exact written

def EndsWith (B : Building E) (segment : Segment) (commitment : Pedersen) (transcript : List Fr) :
    Prop :=
  ∃ lead ending, segmentRepr B segment commitment = some ending ∧ transcript = lead ++ ending

theorem transcriptEnds {front ending : List (Op AlignedValue)}
    (program : segmentProgram segment commitment = some ending)
    (written : transcriptRepr B (front ++ ending) = some transcript) :
    EndsWith B segment commitment transcript := by
  rw [transcriptRepr, filterInvalid, filter_append] at written
  obtain ⟨lead, last, -, second, rfl⟩ := writeAllAppend.mp written
  exact ⟨lead, last, by rw [segmentRepr, program]; exact second, rfl⟩

variable {contract : Option ContractAddress}

theorem inputTranscriptEnds {root : Fr} {nullifier : Nullifier}
    (written : inputTranscript B root nullifier contract segment commitment = some transcript) :
    EndsWith B segment commitment transcript := by
  obtain ⟨write, -, rest⟩ := bind_eq_some_iff.mp written
  obtain ⟨ending, program, last⟩ := bind_eq_some_iff.mp rest
  exact transcriptEnds program last

theorem outputTranscriptEnds {coinCom : Commitment}
    (written : outputTranscript B coinCom contract segment commitment = some transcript) :
    EndsWith B segment commitment transcript := by
  obtain ⟨write, -, rest⟩ := bind_eq_some_iff.mp written
  obtain ⟨ending, program, last⟩ := bind_eq_some_iff.mp rest
  exact transcriptEnds program last

end Transcripts

section Openings

variable {target : Segment} {rc : EmbeddedFr}

structure Opens (B : Building E) (segment : Segment) (coin : CoinInfo) (rc : EmbeddedFr)
    (commitment : Pedersen) (preimage : ProofPreimage) : Prop where
  committed : commitment = B.curve.affine
    (B.curve.commit coin.type segment (coin.value.toNat : EmbeddedFr) rc)
  coin : committedCoin preimage = some coin
  randomness : committedRandomness preimage = some rc
  transcript : EndsWith B segment commitment preimage.publicTranscriptInputs
  aimed : aimedSegment preimage = some segment

theorem opensOf {front fields : List Fr} {last : Fr} (committed : commitment = B.curve.affine
      (B.curve.commit coin.type segment (coin.value.toNat : EmbeddedFr) rc))
    (field : EmbeddedFr.toFr rc = some last) (written : coin.fieldRepr = some fields)
    (inputs : preimage.inputs = front ++ (fields ++ [last]))
    (transcript : EndsWith B segment commitment preimage.publicTranscriptInputs)
    (aimed : aimedSegment preimage = some segment) : Opens B segment coin rc commitment preimage := by
  obtain ⟨f, again, back⟩ := EmbeddedFr.toFrSome rc
  cases field.symm.trans again
  obtain ⟨read, randomness⟩ := preimageCoin written inputs
  exact ⟨committed, read, randomness.trans back, transcript, aimed⟩

variable {chosen : Option Segment}

theorem newInputOpens {A : Type} {qualified : QualifiedCoinInfo} {sk : SenderEvidence}
    {tree : CommitmentTree A} {memo : Option Bytes} {inp : WithProof Input ProofPreimage}
    (ok : newInput B rc qualified chosen sk tree memo = .ok inp) :
    Opens B (chosen.getD 0) qualified.info rc inp.erased.valueCommitment inp.proof ∧
      inp.erased.memo = memo ∧ (memo.isSome → inp.erased.contractAddress = none) ∧
      inputTranscript B inp.erased.merkleTreeRoot inp.erased.nullifier inp.erased.contractAddress
        (chosen.getD 0) inp.erased.valueCommitment = some inp.proof.publicTranscriptInputs ∧
      memoStatementElement B.transientHash inp.erased.memo = some inp.proof.bindingInput := by
  have allowed : ¬ (memo.isSome ∧ sk.contractAddress.isSome) := by
    intro refused
    rw [newInput, if_pos refused] at ok
    cases ok
  rw [newInput, if_neg allowed] at ok
  obtain ⟨last, field, ok⟩ := bindOk.mp ok
  obtain ⟨root, -, ok⟩ := bindOk.mp ok
  obtain ⟨evidence, -, ok⟩ := bindOk.mp ok
  obtain ⟨path, -, ok⟩ := bindOk.mp ok
  obtain ⟨leaf, -, ok⟩ := bindOk.mp ok
  obtain ⟨fields, written, ok⟩ := bindOk.mp ok
  obtain ⟨transcript, program, ok⟩ := bindOk.mp ok
  obtain ⟨binding, bound, done⟩ := bindOk.mp ok
  obtain rfl := Except.ok.inj done
  refine ⟨opensOf rfl (okOrOk.mp field) (okOrOk.mp written) rfl
    (inputTranscriptEnds (okOrOk.mp program)) (preimageSegment [1] rfl), rfl, fun carried => ?_,
    okOrOk.mp program, okOrOk.mp bound⟩
  by_contra owned
  exact allowed ⟨carried, isSome_iff_ne_none.mpr owned⟩

theorem newOutputOpens {recipient : Recipient} {ciphertext : Option Bytes}
    {out : WithProof Output ProofPreimage}
    (ok : newOutput B rc coin chosen recipient ciphertext = .ok out) :
    Opens B (chosen.getD 0) coin rc out.erased.valueCommitment out.proof := by
  obtain ⟨last, field, ok⟩ := bindOk.mp ok
  obtain ⟨evidence, -, ok⟩ := bindOk.mp ok
  obtain ⟨fields, written, ok⟩ := bindOk.mp ok
  obtain ⟨transcript, program, rfl⟩ := pureOk.mp ok
  exact opensOf rfl (okOrOk.mp field) (okOrOk.mp written) rfl
    (outputTranscriptEnds (okOrOk.mp program)) (preimageSegment [] rfl)

theorem retargetOpens (front : List Fr) (opens : Opens B segment coin rc commitment preimage)
    {moved : Pedersen}
    (committed : moved = B.curve.affine
      (B.curve.commit coin.type target (coin.value.toNat : EmbeddedFr) rc)) :
    ∃ proof, retargetProof B preimage target moved (front ++ [Fr.ofNat target.val]) = some proof ∧
      Opens B target coin rc moved proof := by
  obtain ⟨lead, ending, old, whole⟩ := opens.transcript
  obtain ⟨out, again, length⟩ := segmentReprSome B segment commitment
  cases old.symm.trans again
  obtain ⟨fresh, written, length'⟩ := segmentReprSome B target moved
  have room : ¬ preimage.publicTranscriptInputs.length < fresh.length := by
    rw [whole, length_append, length, length']
    omega
  have done : retargetProof B preimage target moved (front ++ [Fr.ofNat target.val]) = some { preimage with
      publicTranscriptInputs := preimage.publicTranscriptInputs.take
        (preimage.publicTranscriptInputs.length - fresh.length) ++ fresh
      publicTranscriptOutputs := front ++ [Fr.ofNat target.val] } := by
    rw [retargetProof, written]
    exact if_neg room
  exact ⟨_, done, committed, opens.coin, opens.randomness, ⟨_, fresh, written, rfl⟩,
    preimageSegment front rfl⟩

end Openings

/- What stands in a statement for the write of an address that there is not. -/
def absentWrite : Option ContractAddress → List Fr
  | some _ => []
  | none => replicate caddrOpLen.toNat 0

theorem contractWriteSize (hash : TransientHash) (addr : ContractAddress) :
    Writes hash (Input.contractOperations (some addr)) caddrOpLen.toNat := by
  have written : Writes hash [.push false (.cell (.of (3 : UInt8))),
      .push true (.cell (.of addr.hash)), .ins false 1] (2 + codeSize UInt8 +
        (2 + codeSize HashOutput + (1 + 0))) :=
    .cons (pushCellSize _ _ _) (.cons (pushCellSize _ _ _) (.cons ⟨_, rfl, rfl⟩ ⟨[], rfl, rfl⟩))
  exact written

/- The operations before those of the contract, as both sides write them. -/
def spendOperations (root : Fr) (nullifier : Nullifier) : List (Op AlignedValue) :=
  [.dup 0, .idx false false [key (0 : UInt8)], .idx false false [key (2 : UInt8)],
    .push false (.cell (.of root)), .member, .popeq true (.of true),
    .idx false true [key (1 : UInt8)], .push false (.cell (.of nullifier)), .push true .null,
    .ins false 1, .ins true 1]

def segmentOperations (segment : Segment) (commitment : Pedersen) : List (Op AlignedValue) :=
  [.dup 0, .idx false false [key (5 : UInt8)], .popeq false (.of segment),
    .push false (.cell (.of (2 : UInt8))), .push true (.cell (.of commitment)), .ins false 1]

theorem inputStatement (inp : Input) {memo : Fr}
    (written : inputTranscript B inp.merkleTreeRoot inp.nullifier inp.contractAddress segment
      inp.valueCommitment = some transcript)
    (bound : memoStatementElement B.transientHash inp.memo = some memo) :
    ∃ lead ending, segmentRepr B segment inp.valueCommitment = some ending ∧
      transcript = lead ++ ending ∧ inp.statement B.transientHash segment =
        some (memo :: (lead ++ (absentWrite inp.contractAddress ++ ending))) := by
  obtain ⟨nullifier, commitment, contract, root, carried⟩ := inp
  cases contract with
  | none =>
    have program : programRepr B.transientHash
        (spendOperations root nullifier ++ segmentOperations segment commitment) =
          some transcript := written
    obtain ⟨lead, ending, first, last, rfl⟩ := writeAllAppend.mp program
    have padded : programRepr B.transientHash (spendOperations root nullifier ++
        (.noop caddrOpLen :: segmentOperations segment commitment)) =
          some (lead ++ (absentWrite none ++ ending)) :=
      writeAllAppend.mpr ⟨lead, _, first, writeAllCons.mpr ⟨_, _, rfl, last, rfl⟩, rfl⟩
    exact ⟨lead, ending, last, rfl, Input.statementSome.mpr ⟨memo, _, bound, padded, rfl⟩⟩
  | some addr =>
    have program : programRepr B.transientHash ((spendOperations root nullifier ++
        Input.contractOperations (some addr)) ++ segmentOperations segment commitment) =
          some transcript := written
    obtain ⟨lead, ending, first, last, rfl⟩ := writeAllAppend.mp program
    exact ⟨lead, ending, last, rfl, Input.statementSome.mpr ⟨memo, _, bound, program, rfl⟩⟩

end MidnightLedger.Zswap

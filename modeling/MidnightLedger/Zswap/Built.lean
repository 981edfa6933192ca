import Mathlib.Algebra.BigOperators.Group.Finset.Basic
import Mathlib.Algebra.BigOperators.Group.List.Basic
import Mathlib.Tactic.Abel
import Mathlib.Algebra.Module.Prod
import MidnightLedger.Zswap.Construct

/-! The excess of an offer (`offer_well_formed_common` in zswap/src/verify.rs), what `new`, `merge`
and `retarget_segment` keep, and that an offer built from coins carries the excess that its
randomness opens. -/
namespace MidnightLedger.Zswap
open ByteString Maps Loops Words Listings MerkleTrees MidnightLedger.Ledger List EmbeddedCurve

def maxMemoBytes : ℕ := 512

def checkMemoLen (length : ℕ) : Except MalformedOffer Unit :=
  if length = 0 then .error .emptyMemo
  else if maxMemoBytes < length then .error (.memoTooLarge length maxMemoBytes)
  else .ok ()

def memoWellFormed (memo : Option Bytes) (contract : Option ContractAddress) :
    Except MalformedOffer Unit :=
  match memo with
  | none => .ok ()
  | some memo =>
    match contract with
    | some address => .error (.memoOnContractOwnedInput address)
    | none => checkMemoLen memo.length

namespace OfferWith

variable {P : Type} [LinearOrder P]

instance (offer : OfferWith P) : Decidable offer.Normal :=
  decidable_of_iff (offer.inputs.Pairwise (· ≤ ·) ∧ offer.outputs.Pairwise (· ≤ ·) ∧
    offer.transient.Pairwise (· ≤ ·) ∧ (offer.deltas.Pairwise fun a b => a.1 < b.1) ∧
    ∀ delta ∈ offer.deltas, delta.2 ≠ 0)
    ⟨fun ⟨inputs, outputs, transient, increasing, nonzero⟩ =>
      ⟨inputs, outputs, transient, ⟨increasing, nonzero⟩⟩,
    fun normal => ⟨normal.inputs, normal.outputs, normal.transient, normal.deltas.increasing,
      normal.deltas.nonzero⟩⟩

def ioPoints (C : EmbeddedCurve) (offer : OfferWith P) : List C.Point :=
  (offer.inputs.map fun inp => C.point inp.erased.valueCommitment) ++
    (offer.outputs.map fun out => -C.point out.erased.valueCommitment) ++
    offer.transient.map fun io =>
      C.point io.erased.valueCommitmentInput - C.point io.erased.valueCommitmentOutput

def deltaPoints (C : EmbeddedCurve) (offer : OfferWith P) (segment : Segment) : List C.Point :=
  offer.deltas.map fun delta => C.commit delta.1 segment (delta.2.toInt : EmbeddedFr) 0

def wellFormedCommon (C : EmbeddedCurve) (offer : OfferWith P) (segment : Segment) :
    Except MalformedOffer C.Point :=
  if ¬ offer.Normal then .error .notNormalized
  else do
    offer.inputs.forM fun inp => memoWellFormed inp.erased.memo inp.erased.contractAddress
    .ok ((offer.ioPoints C).foldl (· + ·) 0 - (offer.deltaPoints C segment).foldl (· + ·) 0)

end OfferWith

section Weights

variable {G : Type} [AddCommGroup G] {T : Type} (base : T → G)

def weighed (deltas : List (T × I128)) : G :=
  (deltas.map fun delta => delta.2.toInt • base delta.1).sum

theorem weighedAppend (left right : List (T × I128)) :
    weighed base (left ++ right) = weighed base left + weighed base right := by
  rw [weighed, map_append, sum_append, weighed, weighed]

variable [LinearOrder T]

theorem weighedBalances {deltas : List (T × I128)} {tokens : Finset T}
    (covered : ∀ delta ∈ deltas, delta.1 ∈ tokens) :
    weighed base deltas = ∑ t ∈ tokens, balance deltas t • base t := by
  induction deltas with
  | nil => simp [weighed, balance]
  | cons delta deltas ih =>
    have rest := ih (forall_mem_cons.mp covered).2
    have here := covered delta mem_cons_self
    simp only [balanceCons, add_smul, Finset.sum_add_distrib]
    rw [← rest]
    simp [weighed, ite_smul, here]

theorem weighedSame {left right : List (T × I128)} (same : ∀ t, balance left t = balance right t) :
    weighed base left = weighed base right := by
  have inside : ∀ {deltas : List (T × I128)}, deltas ⊆ left ++ right →
      ∀ delta ∈ deltas, delta.1 ∈ ((left ++ right).map Prod.fst).toFinset := by
    intro deltas sub delta mem
    exact mem_toFinset.mpr (mem_map_of_mem (sub mem))
  rw [weighedBalances base (inside (subset_append_left left right)),
    weighedBalances base (inside (subset_append_right left right))]
  exact Finset.sum_congr rfl fun t _ => by rw [same]

end Weights

variable {E X : Type} {rc rc' : EmbeddedFr} {out : WithProof Output ProofPreimage}
  {segment : Segment} {coin : CoinInfo} {inp : WithProof Input ProofPreimage} {io : ProvedTransient}
  {B : Building E}

section Parts

def CoinInfo.Small (coin : CoinInfo) : Prop := coin.value.toNat < 2 ^ 127

structure HonestInput (B : Building E) (inp : WithProof Input ProofPreimage) (segment : Segment)
    (coin : CoinInfo) (rc : EmbeddedFr) : Prop where
  opens : Opens B segment coin rc inp.erased.valueCommitment inp.proof
  small : coin.Small
  memo : memoWellFormed inp.erased.memo inp.erased.contractAddress = .ok ()

structure HonestOutput (B : Building E) (out : WithProof Output ProofPreimage) (segment : Segment)
    (coin : CoinInfo) (rc : EmbeddedFr) : Prop where
  opens : Opens B segment coin rc out.erased.valueCommitment out.proof
  small : coin.Small

structure HonestTransient (B : Building E) (io : ProvedTransient) (spent created : Segment)
    (coin : CoinInfo) (rc rc' : EmbeddedFr) : Prop where
  input : Opens B spent coin rc io.erased.valueCommitmentInput (ofLex io.proof).1
  output : Opens B created coin rc' io.erased.valueCommitmentOutput (ofLex io.proof).2
  small : coin.Small

def deltaOf {X : Type} (delta : X → Option (ShieldedTokenType × I128)) (x : X) :
    ShieldedTokenType × I128 := (delta x).getD (⟨0⟩, 0)

theorem Opens.point {commitment : Pedersen} {preimage : ProofPreimage}
    (opens : Opens B segment coin rc commitment preimage) :
    B.curve.point commitment = (coin.value.toNat : ℤ) • B.curve.hashToCurve coin.type segment +
      rc • B.curve.generator := by
  rw [opens.committed, B.curve.pointAffine, commit, add_comm, ← Int.cast_natCast,
    Int.cast_smul_eq_zsmul]

theorem HonestInput.delta (honest : HonestInput B inp segment coin rc) :
    inputDelta inp = some (coin.type, saturatingI128 coin.value) ∧
      (saturatingI128 coin.value).toInt = coin.value.toNat := by
  refine ⟨?_, saturatingI128Small honest.small⟩
  rw [inputDelta, honest.opens.coin]
  rfl

section

variable (honest : HonestOutput B out segment coin rc)

include honest

theorem HonestOutput.delta :
    outputDelta out = some (coin.type, saturatingNeg (saturatingI128 coin.value)) ∧
      (saturatingNeg (saturatingI128 coin.value)).toInt = -(coin.value.toNat : ℤ) := by
  have value := saturatingI128Small honest.small
  refine ⟨?_, ?_⟩
  · rw [outputDelta, honest.opens.coin]
    rfl
  · rw [saturatingNegToInt (by omega), value]

theorem HonestOutput.randomness : outputRandomness out = some (-rc) := by
  rw [outputRandomness, honest.opens.randomness]
  rfl

end

structure Adds (B : Building E) (segment : Segment) (point : B.curve.Point)
    (delta : Option (ShieldedTokenType × I128)) (randomness : Option EmbeddedFr)
    (d : ShieldedTokenType × I128) (r : EmbeddedFr) : Prop where
  delta : delta = some d
  randomness : randomness = some r
  point : point = d.2.toInt • B.curve.hashToCurve d.1 segment + r • B.curve.generator

theorem HonestInput.adds (honest : HonestInput B inp segment coin rc) :
    Adds B segment (B.curve.point inp.erased.valueCommitment) (inputDelta inp)
      (inputRandomness inp) (coin.type, saturatingI128 coin.value) rc where
  delta := honest.delta.1
  randomness := honest.opens.randomness
  point := by rw [honest.opens.point, honest.delta.2]

theorem HonestOutput.adds (honest : HonestOutput B out segment coin rc) :
    Adds B segment (-B.curve.point out.erased.valueCommitment) (outputDelta out)
      (outputRandomness out) (coin.type, saturatingNeg (saturatingI128 coin.value)) (-rc) where
  delta := honest.delta.1
  randomness := honest.randomness
  point := by rw [honest.opens.point, honest.delta.2, neg_add, neg_smul, neg_smul]

theorem HonestTransient.adds (honest : HonestTransient B io segment segment coin rc rc') :
    transientRandomness B io = some (rc + -rc') ∧
      B.curve.point io.erased.valueCommitmentInput - B.curve.point io.erased.valueCommitmentOutput =
        (rc + -rc') • B.curve.generator := by
  refine ⟨?_, ?_⟩
  · have first : inputRandomness (asProvedInput B io) = some rc := honest.input.randomness
    have second : outputRandomness (asProvedOutput io) = some (-rc') := by
      rw [outputRandomness, asProvedOutput, honest.output.randomness]
      rfl
    rw [transientRandomness, first, second]
    rfl
  · rw [honest.input.point, honest.output.point, add_smul, neg_smul]
    abel

variable {randomness : X → Option EmbeddedFr}

theorem partsAdd (xs : List X) (segment : Segment) (point : X → B.curve.Point)
    {delta : X → Option (ShieldedTokenType × I128)}
    (each : ∀ x ∈ xs, ∃ d r, Adds B segment (point x) (delta x) (randomness x) d r) :
    ∃ rs, xs.mapM randomness = some rs ∧ (xs.map point).sum =
      weighed (fun t => B.curve.hashToCurve t segment) (xs.map (deltaOf delta)) +
        rs.sum • B.curve.generator := by
  induction xs with
  | nil => exact ⟨[], rfl, by simp [weighed]⟩
  | cons x xs ih =>
    obtain ⟨rs, rest, sums⟩ := ih (forall_mem_cons.mp each).2
    obtain ⟨d, r, adds⟩ := each x mem_cons_self
    refine ⟨r :: rs, ?_, ?_⟩
    · rw [mapM_cons, adds.randomness, rest]
      rfl
    · have read : deltaOf delta x = d := by rw [deltaOf, adds.delta]; rfl
      rw [map_cons, sum_cons, sums, adds.point, map_cons, read, sum_cons,
        add_smul, weighed, weighed, map_cons, sum_cons]
      abel

theorem blindsAdd (xs : List X) (point : X → B.curve.Point)
    (each : ∀ x ∈ xs, ∃ r, randomness x = some r ∧ point x = r • B.curve.generator) :
    ∃ rs, xs.mapM randomness = some rs ∧ (xs.map point).sum = rs.sum • B.curve.generator := by
  induction xs with
  | nil => exact ⟨[], rfl, by simp⟩
  | cons x xs ih =>
    obtain ⟨rs, rest, sums⟩ := ih (forall_mem_cons.mp each).2
    obtain ⟨r, read, value⟩ := each x mem_cons_self
    refine ⟨r :: rs, ?_, ?_⟩
    · rw [mapM_cons, read, rest]
      rfl
    · rw [map_cons, sum_cons, sums, value, sum_cons, add_smul]

end Parts

variable {offer : OfferWith ProofPreimage}

structure OfferWith.AimsAt (offer : OfferWith ProofPreimage) (segment : Segment) : Prop where
  inputs : ∀ inp ∈ offer.inputs, aimedSegment inp.proof = some segment
  outputs : ∀ out ∈ offer.outputs, aimedSegment out.proof = some segment
  transient : ∀ io ∈ offer.transient,
    aimedSegment (ofLex io.proof).1 = some segment ∧ aimedSegment (ofLex io.proof).2 = some segment

def OfferWith.partDeltas (offer : OfferWith ProofPreimage) : List (ShieldedTokenType × I128) :=
  offer.inputs.map (deltaOf inputDelta) ++ offer.outputs.map (deltaOf outputDelta)

structure OfferWith.Distinct (offer : OfferWith ProofPreimage) : Prop where
  inputs : (offer.inputs.map fun inp => inp.erased.nullifier).Nodup
  outputs : (offer.outputs.map fun out => out.erased.coinCom).Nodup
  transient : (offer.transient.map fun io => io.erased.nullifier).Nodup

structure OfferWith.Sound (B : Building E) (offer : OfferWith ProofPreimage) : Prop where
  inputs : ∀ inp ∈ offer.inputs, ∃ segment coin rc, HonestInput B inp segment coin rc
  outputs : ∀ out ∈ offer.outputs, ∃ segment coin rc, HonestOutput B out segment coin rc
  transient : ∀ io ∈ offer.transient,
    ∃ spent created coin rc rc', HonestTransient B io spent created coin rc rc'
  distinct : offer.Distinct
  normal : offer.Normal
  deltas : ∀ t, balance offer.deltas t = balance offer.partDeltas t

theorem OfferWith.Sound.excess (sound : offer.Sound B)
    (aims : offer.AimsAt segment) : ∃ r, offer.bindingRandomness B = some r ∧
      ∀ type, offer.wellFormedCommon B.curve segment = .ok (B.curve.commit type segment 0 r) := by
  obtain ⟨first, firstRead, firstSum⟩ := partsAdd offer.inputs segment
    (fun inp => B.curve.point inp.erased.valueCommitment) fun inp mem => by
      obtain ⟨aimed, coin, rc, honest⟩ := sound.inputs inp mem
      cases (aims.inputs inp mem).symm.trans honest.opens.aimed
      exact ⟨_, _, honest.adds⟩
  obtain ⟨second, secondRead, secondSum⟩ := partsAdd offer.outputs segment
    (fun out => -B.curve.point out.erased.valueCommitment) fun out mem => by
      obtain ⟨aimed, coin, rc, honest⟩ := sound.outputs out mem
      cases (aims.outputs out mem).symm.trans honest.opens.aimed
      exact ⟨_, _, honest.adds⟩
  obtain ⟨third, thirdRead, thirdSum⟩ := blindsAdd offer.transient (fun io =>
    B.curve.point io.erased.valueCommitmentInput - B.curve.point io.erased.valueCommitmentOutput)
    fun io mem => by
      obtain ⟨spent, created, coin, rc, rc', honest⟩ := sound.transient io mem
      cases (aims.transient io mem).1.symm.trans honest.input.aimed
      cases (aims.transient io mem).2.symm.trans honest.output.aimed
      exact ⟨_, honest.adds⟩
  have randomness : offer.bindingRandomness B = some (first.sum + second.sum + third.sum) := by
    rw [bindingRandomness, firstRead, secondRead, thirdRead]
    refine congrArg some ?_
    rw [← sum_eq_foldl, sum_append, sum_append]
  have deltas : (offer.deltaPoints B.curve segment).sum =
      weighed (fun t => B.curve.hashToCurve t segment) offer.deltas := by
    refine congrArg sum (map_congr_left fun delta _ => ?_)
    rw [commit, zero_smul, zero_add, Int.cast_smul_eq_zsmul]
  have sums : (offer.ioPoints B.curve).sum - (offer.deltaPoints B.curve segment).sum =
      (first.sum + second.sum + third.sum) • B.curve.generator := by
    rw [deltas, weighedSame _ sound.deltas, partDeltas, weighedAppend, ioPoints, sum_append,
      sum_append, firstSum, secondSum, thirdSum, add_smul, add_smul]
    abel
  have memos : offer.inputs.forM (fun inp =>
      memoWellFormed inp.erased.memo inp.erased.contractAddress) = .ok () := by
    refine forMOk.mpr fun inp mem => ?_
    obtain ⟨_, _, _, honest⟩ := sound.inputs inp mem
    exact honest.memo
  refine ⟨_, randomness, fun type => ?_⟩
  rw [wellFormedCommon, if_neg (not_not.mpr sound.normal), memos, okBind, ← sum_eq_foldl,
    ← sum_eq_foldl, sums, commitZero]

open Option OfferWith

variable {build : Build}

section Building

variable {other merged : OfferWith ProofPreimage}

theorem balancePerm {left right : List (ShieldedTokenType × I128)} (perm : left.Perm right)
    (t : ShieldedTokenType) : balance left t = balance right t :=
  ((perm.filter _).map _).sum_eq

variable {inputs : List (WithProof Input ProofPreimage)}

theorem inputDeltasRead
    (honest : ∀ inp ∈ inputs, ∃ segment coin rc, HonestInput B inp segment coin rc) :
    inputs.mapM inputDelta = some (inputs.map (deltaOf inputDelta)) := by
  refine mapMSome fun inp mem => ?_
  obtain ⟨_, _, _, made⟩ := honest inp mem
  rw [deltaOf, made.delta.1]
  rfl

variable {outputs : List (WithProof Output ProofPreimage)}

theorem outputDeltasRead
    (honest : ∀ out ∈ outputs, ∃ segment coin rc, HonestOutput B out segment coin rc) :
    outputs.mapM outputDelta = some (outputs.map (deltaOf outputDelta)) := by
  refine mapMSome fun out mem => ?_
  obtain ⟨_, _, _, made⟩ := honest out mem
  rw [deltaOf, made.delta.1]
  rfl

namespace OfferWith

theorem newSound {transient : List ProvedTransient}
    (ins : ∀ inp ∈ inputs, ∃ segment coin rc, HonestInput B inp segment coin rc)
    (outs : ∀ out ∈ outputs, ∃ segment coin rc, HonestOutput B out segment coin rc)
    (ios : ∀ io ∈ transient, ∃ spent created coin rc rc', HonestTransient B io spent created coin rc rc')
    (distinct : Distinct ⟨inputs, outputs, transient, []⟩)
    (fits : Representable (partDeltas ⟨inputs, outputs, transient, []⟩))
    (ok : new build inputs outputs transient = .ok (some offer)) : offer.Sound B := by
  have some_part : ¬ (inputs.isEmpty ∧ outputs.isEmpty ∧ transient.isEmpty) := by
    intro empty
    rw [new, if_pos empty] at ok
    cases ok
  rw [new, if_neg some_part, inputDeltasRead ins, outputDeltasRead outs] at ok
  obtain ⟨first, read, ok⟩ := bindOk.mp ok
  cases okOrOk.mp read
  obtain ⟨second, read, ok⟩ := bindOk.mp ok
  cases okOrOk.mp read
  obtain ⟨res, normalized, last⟩ := bindOk.mp ok
  cases Except.ok.inj last
  obtain ⟨deltas, summed, last⟩ := bindOk.mp normalized
  obtain rfl := Except.ok.inj last
  obtain ⟨normal, -⟩ := normalizeDeltasOk summed
  obtain ⟨deltas', again, sums⟩ := normalizeDeltasFit (ε := MalformedOffer) build fits
  cases summed.symm.trans again
  exact {
    inputs := fun inp mem => ins inp (memSorted.mp mem)
    outputs := fun out mem => outs out (memSorted.mp mem)
    transient := fun io mem => ios io (memSorted.mp mem)
    distinct := {
      inputs := ((sortedPerm inputs).map _).nodup_iff.mpr distinct.inputs
      outputs := ((sortedPerm outputs).map _).nodup_iff.mpr distinct.outputs
      transient := ((sortedPerm transient).map _).nodup_iff.mpr distinct.transient }
    normal := {
      inputs := sortedPairwise inputs
      outputs := sortedPairwise outputs
      transient := sortedPairwise transient
      deltas := normal }
    deltas := fun t => (sums t).trans (balancePerm
      (((sortedPerm inputs).map _).append ((sortedPerm outputs).map _)).symm t) }

structure Apart (offer other : OfferWith ProofPreimage) : Prop where
  inputs : ∀ x ∈ offer.inputs, ∀ y ∈ other.inputs, x.erased.nullifier ≠ y.erased.nullifier
  outputs : ∀ x ∈ offer.outputs, ∀ y ∈ other.outputs, x.erased.coinCom ≠ y.erased.coinCom
  transient : ∀ x ∈ offer.transient, ∀ y ∈ other.transient, x.erased.nullifier ≠ y.erased.nullifier

theorem nodupUnion {K : Type} [LinearOrder X] {key : X → K} {xs ys : List X}
    (left : (xs.map key).Nodup) (right : (ys.map key).Nodup)
    (apart : ∀ x ∈ xs, ∀ y ∈ ys, key x ≠ key y) :
    (union xs ys).Perm (xs ++ ys) ∧ ((union xs ys).map key).Nodup := by
  have perm := unionPerm left.of_map right.of_map
  refine ⟨perm, ((perm.map key).nodup_iff).mpr ?_⟩
  rw [map_append]
  refine nodup_append.mpr ⟨left, right, ?_⟩
  intro a first b second same
  obtain ⟨x, inside, rfl⟩ := mem_map.mp first
  obtain ⟨y, inside', rfl⟩ := mem_map.mp second
  exact apart x inside y inside' same

theorem mergeSound (first : offer.Sound B) (second : other.Sound B) (fits : offer.Summable other)
    (apart : offer.Apart other) (ok : offer.merge build other = .ok merged) : merged.Sound B := by
  have merge := mergeOk ok
  have disjoint : ¬ offer.Overlaps other := by
    intro overlap
    rw [mergeOverlapping overlap] at ok
    cases ok
  obtain ⟨merged', again, sums⟩ := mergeApart build disjoint fits
  cases ok.symm.trans again
  obtain ⟨inputs, distinctInputs⟩ :=
    nodupUnion first.distinct.inputs second.distinct.inputs apart.inputs
  obtain ⟨outputs, distinctOutputs⟩ :=
    nodupUnion first.distinct.outputs second.distinct.outputs apart.outputs
  obtain ⟨_, distinctTransient⟩ :=
    nodupUnion first.distinct.transient second.distinct.transient apart.transient
  rw [← merge.inputs] at inputs distinctInputs
  rw [← merge.outputs] at outputs distinctOutputs
  rw [← merge.transient] at distinctTransient
  refine {
    inputs := fun inp mem => ?_
    outputs := fun out mem => ?_
    transient := fun io mem => ?_
    distinct := ⟨distinctInputs, distinctOutputs, distinctTransient⟩
    normal := merge.isNormal
    deltas := fun t => ?_ }
  · rw [merge.inputs] at mem
    exact (memUnion.mp mem).elim (first.inputs inp) (second.inputs inp)
  · rw [merge.outputs] at mem
    exact (memUnion.mp mem).elim (first.outputs out) (second.outputs out)
  · rw [merge.transient] at mem
    exact (memUnion.mp mem).elim (first.transient io) (second.transient io)
  · have parts : merged.partDeltas.Perm (offer.partDeltas ++ other.partDeltas) := by
      refine ((inputs.map _).append (outputs.map _)).trans ?_
      rw [map_append, map_append, partDeltas, partDeltas, append_assoc, append_assoc]
      refine List.Perm.append_left _ ?_
      rw [← append_assoc, ← append_assoc]
      exact List.Perm.append_right _ perm_append_comm
    rw [sums, first.deltas, second.deltas, balancePerm parts, balanceAppend]

end OfferWith

theorem HonestInput.retargeted (honest : HonestInput B inp segment coin rc) (target : Segment) :
    ∃ moved, retargetInput B inp target = some moved ∧
      HonestInput B moved target coin rc ∧ moved.erased.nullifier = inp.erased.nullifier := by
  obtain ⟨read, value⟩ := honest.delta
  have committed : B.curve.affine (B.curve.commit coin.type target
        ((saturatingI128 coin.value).toInt : EmbeddedFr) rc) =
      B.curve.affine (B.curve.commit coin.type target (coin.value.toNat : EmbeddedFr) rc) := by
    rw [value, Int.cast_natCast]
  obtain ⟨proof, done, opens⟩ := retargetOpens [1] honest.opens committed
  refine ⟨⟨{ inp.erased with valueCommitment := _ }, proof⟩, ?_, ⟨opens, honest.small, honest.memo⟩,
    rfl⟩
  exact bind_eq_some_iff.mpr ⟨_, read, bind_eq_some_iff.mpr
    ⟨rc, honest.opens.randomness, bind_eq_some_iff.mpr ⟨proof, done, rfl⟩⟩⟩

theorem HonestOutput.retargeted (honest : HonestOutput B out segment coin rc) (target : Segment) :
    ∃ moved, retargetOutput B out target = some moved ∧
      HonestOutput B moved target coin rc ∧ moved.erased =
        { out.erased with valueCommitment := moved.erased.valueCommitment } := by
  obtain ⟨read, -⟩ := honest.delta
  have value := saturatingI128Small honest.small
  have committed : B.curve.affine (B.curve.commit coin.type target
        ((saturatingNeg (saturatingNeg (saturatingI128 coin.value))).toInt : EmbeddedFr) (- -rc)) =
      B.curve.affine (B.curve.commit coin.type target (coin.value.toNat : EmbeddedFr) rc) := by
    rw [saturatingNegTwice (by omega), value, Int.cast_natCast, neg_neg]
  obtain ⟨proof, done, opens⟩ := retargetOpens [] honest.opens committed
  refine ⟨⟨{ out.erased with valueCommitment := _ }, proof⟩, ?_, ⟨opens, honest.small⟩, rfl⟩
  exact bind_eq_some_iff.mpr ⟨_, read, bind_eq_some_iff.mpr
    ⟨-rc, honest.randomness, bind_eq_some_iff.mpr ⟨proof, done, rfl⟩⟩⟩

section

variable {spent created : Segment} (honest : HonestTransient B io spent created coin rc rc')

include honest

theorem HonestTransient.asInput : HonestInput B (asProvedInput B io) spent coin rc :=
  ⟨honest.input, honest.small, rfl⟩

theorem HonestTransient.asOutput : HonestOutput B (asProvedOutput io) created coin rc' :=
  ⟨honest.output, honest.small⟩

theorem HonestTransient.retargeted (target : Segment) :
    ∃ moved, retargetTransient B io target = some moved ∧
      HonestTransient B moved target target coin rc rc' ∧
        moved.erased.nullifier = io.erased.nullifier := by
  obtain ⟨inp, first, spending, nullifier⟩ := honest.asInput.retargeted target
  obtain ⟨out, second, creating, -⟩ := honest.asOutput.retargeted target
  refine ⟨transientOf inp out, ?_, ⟨spending.opens, creating.opens, honest.small⟩, nullifier⟩
  exact bind_eq_some_iff.mpr ⟨inp, first, bind_eq_some_iff.mpr ⟨out, second, rfl⟩⟩

end

def Moved {X K : Type} (keeps : X → K) (honest : X → Prop) (part moved : X) : Prop :=
  honest moved ∧ keeps moved = keeps part

def inputKeeps (inp : WithProof Input ProofPreimage) : HashOutput × ShieldedTokenType × I128 :=
  (inp.erased.nullifier, deltaOf inputDelta inp)

def outputKeeps (out : WithProof Output ProofPreimage) : HashOutput × ShieldedTokenType × I128 :=
  (out.erased.coinCom, deltaOf outputDelta out)

theorem inputMoves (target : Segment)
    (honest : ∃ segment coin rc, HonestInput B inp segment coin rc) :
    ∃ moved, retargetInput B inp target = some moved ∧
      Moved inputKeeps (fun inp => ∃ coin rc, HonestInput B inp target coin rc) inp moved := by
  obtain ⟨segment, coin, rc, honest⟩ := honest
  obtain ⟨moved, done, again, nullifier⟩ := honest.retargeted target
  refine ⟨moved, done, ⟨coin, rc, again⟩, ?_⟩
  rw [inputKeeps, inputKeeps, nullifier, deltaOf, deltaOf, again.delta.1, honest.delta.1]

theorem outputMoves (target : Segment)
    (honest : ∃ segment coin rc, HonestOutput B out segment coin rc) :
    ∃ moved, retargetOutput B out target = some moved ∧
      Moved outputKeeps (fun out => ∃ coin rc, HonestOutput B out target coin rc) out moved := by
  obtain ⟨segment, coin, rc, honest⟩ := honest
  obtain ⟨moved, done, again, coinCom⟩ := honest.retargeted target
  refine ⟨moved, done, ⟨coin, rc, again⟩, ?_⟩
  rw [outputKeeps, outputKeeps, coinCom, deltaOf, deltaOf, again.delta.1, honest.delta.1]

theorem transientMoves (target : Segment)
    (honest : ∃ spent created coin rc rc', HonestTransient B io spent created coin rc rc') :
    ∃ moved, retargetTransient B io target = some moved ∧ Moved (fun io => io.erased.nullifier)
        (fun io => ∃ coin rc rc', HonestTransient B io target target coin rc rc') io moved := by
  obtain ⟨spent, created, coin, rc, rc', honest⟩ := honest
  obtain ⟨moved, done, again, nullifier⟩ := honest.retargeted target
  exact ⟨moved, done, ⟨coin, rc, rc', again⟩, nullifier⟩

theorem keptOrder [LinearOrder X] {hash : X → HashOutput}
    (mono : Monotone fun x => hashKey (hash x)) {xs ys : List X} (ordered : xs.Pairwise (· ≤ ·))
    (distinct : (xs.map hash).Nodup) (same : ys.map hash = xs.map hash) : ys.Pairwise (· ≤ ·) := by
  refine pairwiseOfKeys mono ordered ?_ ?_
  · have keys := distinct.map hashKeyInjective
    rwa [List.map_map] at keys
  · have keys := congrArg (map hashKey) same
    rwa [List.map_map, List.map_map] at keys

theorem OfferWith.retargetSound (sound : offer.Sound B) (target : Segment) :
    ∃ moved, offer.retargetSegment B target = some moved ∧ moved.Sound B ∧ moved.AimsAt target := by
  obtain ⟨inputs, first, ins⟩ := mapMRelated fun inp mem => inputMoves target (sound.inputs inp mem)
  obtain ⟨outputs, second, outs⟩ :=
    mapMRelated fun out mem => outputMoves target (sound.outputs out mem)
  obtain ⟨transient, third, ios⟩ :=
    mapMRelated fun io mem => transientMoves target (sound.transient io mem)
  have nullifiers := relatedMap (fun moved => congrArg Prod.fst moved.2) ins
  have coinComs := relatedMap (fun moved => congrArg Prod.fst moved.2) outs
  have transients := relatedMap And.right ios
  have deltas : partDeltas ⟨inputs, outputs, transient, offer.deltas⟩ = offer.partDeltas :=
    congrArg₂ (· ++ ·) (relatedMap (fun moved => congrArg Prod.snd moved.2) ins)
      (relatedMap (fun moved => congrArg Prod.snd moved.2) outs)
  refine ⟨⟨inputs, outputs, transient, offer.deltas⟩, ?_, ?_, ?_⟩
  · rw [retargetSegment, first, second, third]
    rfl
  · exact {
      inputs := fun inp mem => by
        obtain ⟨_, _, ⟨coin, rc, honest⟩, -⟩ := relatedMem ins mem
        exact ⟨target, coin, rc, honest⟩
      outputs := fun out mem => by
        obtain ⟨_, _, ⟨coin, rc, honest⟩, -⟩ := relatedMem outs mem
        exact ⟨target, coin, rc, honest⟩
      transient := fun io mem => by
        obtain ⟨_, _, ⟨coin, rc, rc', honest⟩, -⟩ := relatedMem ios mem
        exact ⟨target, target, coin, rc, rc', honest⟩
      distinct := {
        inputs := nullifiers ▸ sound.distinct.inputs
        outputs := coinComs ▸ sound.distinct.outputs
        transient := transients ▸ sound.distinct.transient }
      normal := {
        inputs := keptOrder nullifierMonotone sound.normal.inputs sound.distinct.inputs nullifiers
        outputs := keptOrder coinComMonotone sound.normal.outputs sound.distinct.outputs coinComs
        transient :=
          keptOrder transientMonotone sound.normal.transient sound.distinct.transient transients
        deltas := sound.normal.deltas }
      deltas := fun t => by rw [deltas, sound.deltas] }
  · refine ⟨fun inp mem => ?_, fun out mem => ?_, fun io mem => ?_⟩
    · obtain ⟨_, _, ⟨_, _, honest⟩, -⟩ := relatedMem ins mem
      exact honest.opens.aimed
    · obtain ⟨_, _, ⟨_, _, honest⟩, -⟩ := relatedMem outs mem
      exact honest.opens.aimed
    · obtain ⟨_, _, ⟨_, _, _, honest⟩, -⟩ := relatedMem ios mem
      exact ⟨honest.input.aimed, honest.output.aimed⟩

end Building

structure Limits where
  coin : CoinInfo → Prop
  parts : OfferWith ProofPreimage → Prop
  merge : OfferWith ProofPreimage → OfferWith ProofPreimage → Prop

def Limits.unlimited : Limits := ⟨fun _ => True, fun _ => True, fun _ _ => True⟩

def Limits.fair : Limits where
  coin := CoinInfo.Small
  parts offer := offer.Distinct ∧ Representable offer.partDeltas
  merge offer other := offer.Apart other ∧ offer.Summable other

inductive MadeInput (B : Building E) (limits : Limits) (inp : WithProof Input ProofPreimage) : Prop
  | mk {A : Type} (rc : EmbeddedFr) (coin : QualifiedCoinInfo) (segment : Option Segment)
      (sk : SenderEvidence) (tree : CommitmentTree A) (memo : Option Bytes)
      (limit : limits.coin coin.info) (accepted : ∀ bytes ∈ memo, checkMemoLen bytes.length = .ok ())
      (made : newInput B rc coin segment sk tree memo = .ok inp)

inductive MadeOutput (B : Building E) (limits : Limits) (coin : CoinInfo)
    (out : WithProof Output ProofPreimage) : Prop
  | mk (rc : EmbeddedFr) (segment : Option Segment) (recipient : Recipient)
      (ciphertext : Option Bytes) (limit : limits.coin coin)
      (made : newOutput B rc coin segment recipient ciphertext = .ok out)

inductive MadeTransient (B : Building E) (limits : Limits) (io : ProvedTransient) : Prop
  | user (rc : EmbeddedFr) (secretKey : HashOutput) (coin : QualifiedCoinInfo)
      (segment : Option Segment) (out : WithProof Output ProofPreimage)
      (created : MadeOutput B limits coin.info out)
      (made : spendFromOutput B rc secretKey coin segment out = .ok io)
  | contract (rc : EmbeddedFr) (coin : QualifiedCoinInfo) (segment : Option Segment)
      (out : WithProof Output ProofPreimage) (created : MadeOutput B limits coin.info out)
      (made : newFromContractOwnedOutput B rc coin segment out = .ok io)

inductive Built (B : Building E) (build : Build) (limits : Limits) : OfferWith ProofPreimage → Prop
  | new {inputs : List (WithProof Input ProofPreimage)}
      {outputs : List (WithProof Output ProofPreimage)} {transient : List ProvedTransient}
      {offer : OfferWith ProofPreimage} (ins : ∀ inp ∈ inputs, MadeInput B limits inp)
      (outs : ∀ out ∈ outputs, ∃ coin, MadeOutput B limits coin out)
      (ios : ∀ io ∈ transient, MadeTransient B limits io)
      (limit : limits.parts ⟨inputs, outputs, transient, []⟩)
      (ok : new build inputs outputs transient = .ok (some offer)) :
      Built B build limits offer
  | merge {offer other merged : OfferWith ProofPreimage} (first : Built B build limits offer)
      (second : Built B build limits other) (limit : limits.merge offer other)
      (ok : offer.merge build other = .ok merged) : Built B build limits merged
  | retarget {offer moved : OfferWith ProofPreimage} (segment : Segment)
      (before : Built B build limits offer) (ok : offer.retargetSegment B segment = some moved) :
      Built B build limits moved

theorem MadeInput.honest (made : MadeInput B .fair inp) :
    ∃ segment coin rc, HonestInput B inp segment coin rc := by
  obtain ⟨rc, coin, segment, sk, tree, memo, small, accepted, made⟩ := made
  obtain ⟨opens, carried, userOwned, -⟩ := newInputOpens made
  refine ⟨segment.getD 0, coin.info, rc, opens, small, ?_⟩
  rw [carried]
  cases memo with
  | none => rfl
  | some bytes =>
    rw [userOwned rfl]
    exact accepted bytes rfl

theorem MadeOutput.honest
    (made : MadeOutput B .fair coin out) : ∃ segment rc, HonestOutput B out segment coin rc := by
  obtain ⟨rc, segment, recipient, ciphertext, small, made⟩ := made
  exact ⟨segment.getD 0, rc, newOutputOpens made, small⟩

theorem MadeTransient.honest (made : MadeTransient B .fair io) :
    ∃ spent created coin rc rc', HonestTransient B io spent created coin rc rc' := by
  cases made with
  | user rc secretKey coin segment out created made =>
    obtain ⟨target, rc', output⟩ := created.honest
    obtain ⟨tree, -, rest⟩ := bindOk.mp made
    obtain ⟨inp, spent, last⟩ := bindOk.mp rest
    obtain rfl := Except.ok.inj last
    exact ⟨segment.getD 0, target, coin.info, rc, rc', (newInputOpens spent).1, output.opens,
      output.small⟩
  | contract rc coin segment out created made =>
    obtain ⟨target, rc', output⟩ := created.honest
    obtain ⟨tree, -, rest⟩ := bindOk.mp made
    obtain ⟨addr, -, rest⟩ := bindOk.mp rest
    obtain ⟨inp, spent, last⟩ := bindOk.mp rest
    obtain rfl := Except.ok.inj last
    exact ⟨segment.getD 0, target, coin.info, rc, rc', (newInputOpens spent).1, output.opens,
      output.small⟩

theorem Built.sound (built : Built B build .fair offer) : offer.Sound B := by
  induction built with
  | new ins outs ios limit ok =>
    refine newSound (fun inp mem => (ins inp mem).honest) (fun out mem => ?_)
      (fun io mem => (ios io mem).honest) limit.1 limit.2 ok
    obtain ⟨coin, made⟩ := outs out mem
    obtain ⟨segment, rc, honest⟩ := made.honest
    exact ⟨segment, coin, rc, honest⟩
  | merge _ _ limit ok first second => exact mergeSound first second limit.2 limit.1 ok
  | retarget segment _ ok before =>
    obtain ⟨moved, again, sound, -⟩ := retargetSound before segment
    cases ok.symm.trans again
    exact sound

/- The excess of an offer built from coins is a commitment to zero under its binding
randomness, at the segment its parts are for; every segment can be chosen for them. -/
theorem builtExcess (built : Built B build .fair offer) :
    (∀ segment, offer.AimsAt segment → ∃ r, offer.bindingRandomness B = some r ∧
      ∀ type, offer.wellFormedCommon B.curve segment = .ok (B.curve.commit type segment 0 r)) ∧
    ∀ target, ∃ moved, offer.retargetSegment B target = some moved ∧ moved.AimsAt target := by
  refine ⟨fun segment aims => built.sound.excess aims, fun target => ?_⟩
  obtain ⟨moved, done, -, aims⟩ := retargetSound built.sound target
  exact ⟨moved, done, aims⟩

/- Two independent bases, each point stored by its two coefficients. -/
def planeCurve : EmbeddedCurve where
  Point := EmbeddedFr × EmbeddedFr
  group := inferInstance
  scalars := inferInstance
  generator := (1, 0)
  hashToCurve _ _ := (0, 1)
  affine g := ⟨Fr.ofNat (ZMod.val g.1), Fr.ofNat (ZMod.val g.2)⟩
  point p := ((p.x.val : EmbeddedFr), (p.y.val : EmbeddedFr))
  pointAffine g := by
    have back : ∀ x : EmbeddedFr, ((Fr.ofNat (ZMod.val x)).val : EmbeddedFr) = x := by
      intro x
      have small : ZMod.val x < embeddedModulus := ZMod.val_lt x
      have below : embeddedModulus < fieldModulus := by decide
      rw [Fr.ofNatVal, Nat.mod_eq_of_lt (small.trans below), ZMod.natCast_val, ZMod.cast_id]
    exact Prod.ext (back g.1) (back g.2)

def planeBuilding : Building Unit where
  curve := planeCurve
  cryptography := ⟨fun bytes => BitVec.ofNat 256 (leNat bytes), fun _ _ => none⟩
  hashing := ⟨fun _ => 0, fun _ _ => 0, 0⟩
  transientHash := fun _ => 1
  ciphertextToField := fun _ => 0

section Payments

variable {limits : Limits}

theorem paymentBuilt (made : MadeOutput planeBuilding limits coin out)
    (limit : limits.parts ⟨[], [out], [], []⟩) (ok : new .debug [] [out] [] = .ok (some offer)) :
    Built planeBuilding .debug limits offer := by
  refine .new (by simp) (fun other mem => ?_) (by simp) limit ok
  cases mem_singleton.mp mem
  exact ⟨coin, made⟩

theorem singleRepresentable (delta : ShieldedTokenType × I128) : Representable [delta] := by
  intro before prior t
  have few : before = [] ∨ before = [delta] := by
    obtain ⟨after, whole⟩ := prior
    match before, whole with
    | [], _ => exact .inl rfl
    | [x], whole => cases whole; exact .inr rfl
  have bounds : SignedRange 128 delta.2.toInt := ⟨delta.2.le_toInt, delta.2.toInt_lt⟩
  rcases few with rfl | rfl
  · exact (by decide : SignedRange 128 0)
  · rw [balanceCons]
    split
    · simpa [balance] using bounds
    · exact (by decide : SignedRange 128 0)

theorem paymentFair (out : WithProof Output ProofPreimage) :
    Limits.fair.parts ⟨[], [out], [], []⟩ :=
  ⟨⟨nodup_nil, nodup_singleton _, nodup_nil⟩, singleRepresentable _⟩

end Payments

def payingSeven : WithProof Output ProofPreimage :=
  value (newOutput planeBuilding 5 ⟨1, ⟨2⟩, 7⟩ none (.user 3) none) (by decide +kernel)

theorem sevenOffered : (new .debug [] [payingSeven] []).isOk = true := by decide +kernel

def sevenOffer : OfferWith ProofPreimage := (value _ sevenOffered).get (by decide +kernel)

theorem sevenBuilt : Built planeBuilding .debug .fair sevenOffer := by
  have made : MadeOutput planeBuilding .fair ⟨1, ⟨2⟩, 7⟩ payingSeven :=
    ⟨5, none, .user 3, none, (by decide : 7 < 2 ^ 127), valueOk _⟩
  refine paymentBuilt made (paymentFair payingSeven) ?_
  rw [valueOk sevenOffered, sevenOffer, some_get]

theorem sevenBalanced : ∃ r, sevenOffer.bindingRandomness planeBuilding = some r ∧
    ∀ type, sevenOffer.wellFormedCommon planeCurve 0 = .ok (planeCurve.commit type 0 0 r) :=
  (builtExcess sevenBuilt).1 0 ⟨by decide +kernel, by decide +kernel, by decide +kernel⟩

def largeCoin : CoinInfo := ⟨1, ⟨2⟩, 2 ^ 127⟩

def payingLarge : WithProof Output ProofPreimage :=
  value (newOutput planeBuilding 5 largeCoin none (.user 3) none) (by decide +kernel)

theorem largeOffered : (new .debug [] [payingLarge] []).isOk = true := by decide +kernel

def largeOffer : OfferWith ProofPreimage := (value _ largeOffered).get (by decide +kernel)

theorem largeBuilt : Built planeBuilding .debug .unlimited largeOffer := by
  have made : MadeOutput planeBuilding .unlimited largeCoin payingLarge :=
    ⟨5, none, .user 3, none, trivial, valueOk _⟩
  refine paymentBuilt made trivial ?_
  rw [valueOk largeOffered, largeOffer, some_get]

instance : DecidableEq planeCurve.Point := inferInstanceAs (DecidableEq (EmbeddedFr × EmbeddedFr))

theorem largeUnbalanced : Built planeBuilding .debug .unlimited largeOffer ∧ largeOffer.AimsAt 0 ∧
    largeOffer.bindingRandomness planeBuilding = some (-5) ∧
    largeOffer.wellFormedCommon planeCurve 0 = .ok (-5, -1) ∧
    ∀ type, planeCurve.commit type 0 0 (-5) ≠ (-5, -1) := by
  refine ⟨largeBuilt, ⟨by decide +kernel, by decide +kernel, by decide +kernel⟩, by decide +kernel,
    by decide +kernel, fun type => ?_⟩
  rw [commitZero]
  intro same
  exact absurd (congrArg Prod.snd same) (by decide +kernel : (-5 : EmbeddedFr) * 0 ≠ -1)

/- The statement that the verifier computes for a built input is the binding input and then the
public transcript of the proof preimage. For an input without a contract the zeros stand before
the read of the segment, as many as the write of any address takes. -/
theorem builtInputStatement {E A : Type} {B : Building E} {rc : EmbeddedFr} {coin : QualifiedCoinInfo}
    {segment : Option Segment} {sk : SenderEvidence} {tree : CommitmentTree A} {memo : Option Bytes}
    {inp : WithProof Input ProofPreimage}
    (made : newInput B rc coin segment sk tree memo = .ok inp) :
    (∃ lead ending, inp.proof.publicTranscriptInputs = lead ++ ending ∧
      segmentRepr B (segment.getD 0) inp.erased.valueCommitment = some ending ∧
      inp.erased.statement B.transientHash (segment.getD 0) = some (inp.proof.bindingInput ::
        (lead ++ (absentWrite inp.erased.contractAddress ++ ending)))) ∧
    ∀ addr, Writes B.transientHash (Input.contractOperations (some addr))
      (absentWrite none).length := by
  obtain ⟨-, -, -, written, bound⟩ := newInputOpens made
  obtain ⟨lead, ending, last, whole, statement⟩ := inputStatement inp.erased written bound
  refine ⟨⟨lead, ending, whole, last, statement⟩, fun addr => ?_⟩
  rw [absentWrite, length_replicate]
  exact contractWriteSize B.transientHash addr

theorem sevenSpendable : (treeOf planeBuilding payingSeven).isOk = true := by decide +kernel

def spendingSeven : WithProof Input ProofPreimage :=
  value (newInput planeBuilding 6 ⟨1, ⟨2⟩, 7, 0⟩ (some 4) (.user 3) (value _ sevenSpendable) (some [9]))
    (by decide +kernel)

theorem sevenStatement : ∃ lead ending, spendingSeven.proof.publicTranscriptInputs = lead ++ ending ∧
    spendingSeven.erased.statement planeBuilding.transientHash 4 =
      some (spendingSeven.proof.bindingInput :: (lead ++ (absentWrite none ++ ending))) := by
  have owned : spendingSeven.erased.contractAddress = none := by decide +kernel
  have made : newInput planeBuilding 6 _ (some 4) _ _ _ = .ok spendingSeven := valueOk _
  obtain ⟨⟨lead, ending, whole, -, statement⟩, -⟩ := builtInputStatement made
  rw [owned] at statement
  exact ⟨lead, ending, whole, statement⟩

end MidnightLedger.Zswap

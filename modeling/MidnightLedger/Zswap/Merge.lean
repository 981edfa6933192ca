import Mathlib.Data.Prod.Lex
import Mathlib.Data.List.Lex
import Mathlib.Order.WithBot
import MidnightLedger.Zswap.Ledger
import MidnightLedger.Lib.Listings

/-! The derived orders on the parts of an offer and the merge of offers (`normalize_deltas`,
`Offer::normalize`, `Offer::merge` in zswap/src/structure.rs). Here an offer keeps its proofs, and
its deltas are words. -/
namespace MidnightLedger.Zswap
open ByteString MidnightLedger.Ledger AList

def hashKey (hash : HashOutput) : ℕ := hash.toNat

def bytesKey (bytes : Bytes) : List ℕ := bytes.map UInt8.toNat

def optionKey {α β : Type} (key : α → β) : Option α → WithBot β
  | none => ⊥
  | some a => (key a : WithBot β)

theorem hashKeyInjective : Function.Injective hashKey := fun _ _ same => BitVec.eq_of_toNat_eq same

theorem bytesKeyInjective : Function.Injective bytesKey :=
  List.map_injective_iff.mpr fun _ _ same => UInt8.toNat_inj.mp same

theorem optionKeyInjective {α β : Type} {key : α → β} (injective : Function.Injective key) :
    Function.Injective (optionKey key) := by
  rintro (- | a) (- | b) same
  · rfl
  · cases same
  · cases same
  · exact congrArg some (injective (WithBot.coe_injective same))

def addressKey (address : ContractAddress) : ℕ := hashKey address.hash

theorem addressKeyInjective : Function.Injective addressKey := by
  rintro ⟨a⟩ ⟨b⟩ same
  exact congrArg ContractAddress.mk (hashKeyInjective same)

instance : LinearOrder ShieldedTokenType :=
  LinearOrder.lift' (fun type => hashKey type.hash) fun ⟨_⟩ ⟨_⟩ same =>
    congrArg ShieldedTokenType.mk (hashKeyInjective same)

instance : LinearOrder Pedersen :=
  LinearOrder.lift' (fun p => (toLex (p.x, p.y) : Fr ×ₗ Fr)) fun ⟨_, _⟩ ⟨_, _⟩ same => by
    cases toLex.injective same
    rfl

abbrev InputKey := ℕ ×ₗ Pedersen ×ₗ WithBot ℕ ×ₗ Fr ×ₗ WithBot (List ℕ)

def Input.sortKey (inp : Input) : InputKey :=
  toLex (hashKey inp.nullifier, toLex (inp.valueCommitment,
    toLex (optionKey addressKey inp.contractAddress, toLex (inp.merkleTreeRoot,
      optionKey bytesKey inp.memo))))

theorem Input.sortKeyInjective : Function.Injective Input.sortKey := by
  rintro ⟨nullifier, commitment, contract, root, memo⟩ ⟨_, _, _, _, _⟩ same
  simp only [Input.sortKey, toLex.injective.eq_iff, Prod.mk.injEq] at same
  obtain ⟨nullifiers, rfl, contracts, rfl, memos⟩ := same
  cases hashKeyInjective nullifiers
  cases optionKeyInjective addressKeyInjective contracts
  cases optionKeyInjective bytesKeyInjective memos
  rfl

instance : LinearOrder Input := LinearOrder.lift' Input.sortKey Input.sortKeyInjective

abbrev OutputKey := ℕ ×ₗ Pedersen ×ₗ WithBot ℕ ×ₗ WithBot (List ℕ)

def Output.sortKey (out : Output) : OutputKey :=
  toLex (hashKey out.coinCom, toLex (out.valueCommitment,
    toLex (optionKey addressKey out.contractAddress, optionKey bytesKey out.ciphertext)))

theorem Output.sortKeyInjective : Function.Injective Output.sortKey := by
  rintro ⟨coinCom, commitment, contract, ciphertext⟩ ⟨_, _, _, _⟩ same
  simp only [Output.sortKey, toLex.injective.eq_iff, Prod.mk.injEq] at same
  obtain ⟨commitments, rfl, contracts, ciphertexts⟩ := same
  cases hashKeyInjective commitments
  cases optionKeyInjective addressKeyInjective contracts
  cases optionKeyInjective bytesKeyInjective ciphertexts
  rfl

instance : LinearOrder Output := LinearOrder.lift' Output.sortKey Output.sortKeyInjective

abbrev TransientKey :=
  ℕ ×ₗ ℕ ×ₗ Pedersen ×ₗ Pedersen ×ₗ WithBot ℕ ×ₗ WithBot (List ℕ)

def Transient.sortKey (io : Transient) : TransientKey :=
  toLex (hashKey io.nullifier, toLex (hashKey io.coinCom, toLex (io.valueCommitmentInput,
    toLex (io.valueCommitmentOutput, toLex (optionKey addressKey io.contractAddress,
      optionKey bytesKey io.ciphertext)))))

theorem Transient.sortKeyInjective : Function.Injective Transient.sortKey := by
  rintro ⟨nullifier, coinCom, inCom, outCom, contract, ciphertext⟩ ⟨_, _, _, _, _, _⟩ same
  simp only [Transient.sortKey, toLex.injective.eq_iff, Prod.mk.injEq] at same
  obtain ⟨nullifiers, commitments, rfl, rfl, contracts, ciphertexts⟩ := same
  cases hashKeyInjective nullifiers
  cases hashKeyInjective commitments
  cases optionKeyInjective addressKeyInjective contracts
  cases optionKeyInjective bytesKeyInjective ciphertexts
  rfl

instance : LinearOrder Transient := LinearOrder.lift' Transient.sortKey Transient.sortKeyInjective

/- A part of an offer with the proof that `erase_proof` drops, its last field. -/
structure WithProof (X P : Type) where
  erased : X
  proof : P
  deriving DecidableEq, Repr

instance {X P : Type} [LinearOrder X] [LinearOrder P] : LinearOrder (WithProof X P) :=
  LinearOrder.lift' (fun part => (toLex (part.erased, part.proof) : X ×ₗ P))
    fun ⟨_, _⟩ ⟨_, _⟩ same => by
      cases toLex.injective same
      rfl

variable {P : Type}

theorem nullifierMonotone [LinearOrder P] :
    Monotone fun inp : WithProof Input P => hashKey inp.erased.nullifier :=
  fun _ _ le => Prod.Lex.monotone_fst _ _ (Prod.Lex.monotone_fst _ _ le)

theorem coinComMonotone [LinearOrder P] :
    Monotone fun out : WithProof Output P => hashKey out.erased.coinCom :=
  fun _ _ le => Prod.Lex.monotone_fst _ _ (Prod.Lex.monotone_fst _ _ le)

theorem transientMonotone [LinearOrder P] :
    Monotone fun io : WithProof Transient P => hashKey io.erased.nullifier :=
  fun _ _ le => Prod.Lex.monotone_fst _ _ (Prod.Lex.monotone_fst _ _ le)

open Maps Words Loops Listings List

abbrev I128 := BitVec 128

inductive MalformedOffer where
  | nonDisjointCoinMerge
  | notNormalized
  | emptyMemo
  | memoTooLarge (size limit : ℕ)
  | memoOnContractOwnedInput (address : ContractAddress)
  deriving DecidableEq, Repr

section Deltas

variable {T : Type} [LinearOrder T]

def addDelta {ε : Type} (build : Build) (map : Map T I128) (delta : T × I128) :
    Outcome ε (Map T I128) := do
  let sum ← plainAddSigned build ((map.lookup delta.1).getD 0) delta.2
  .ok (map.insert delta.1 sum)

def deltaLe (a b : T × I128) : Prop := a.1 < b.1 ∨ a.1 = b.1 ∧ a.2.toInt ≤ b.2.toInt

instance : DecidableRel (deltaLe (T := T)) := fun _ _ => inferInstanceAs (Decidable (_ ∨ _))

def normalizeDeltas {ε : Type} (build : Build) (deltas : List (T × I128)) :
    Outcome ε (List (T × I128)) := do
  let map ← deltas.foldlM (addDelta build) ∅
  .ok (((sortedIter map).filter fun delta => delta.2 ≠ 0).insertionSort deltaLe)

def amount (deltas : List (T × I128)) (t : T) : I128 :=
  ((deltas.filter fun delta => delta.1 = t).map Prod.snd).sum

def balance (deltas : List (T × I128)) (t : T) : Int :=
  ((deltas.filter fun delta => delta.1 = t).map fun delta => delta.2.toInt).sum

/- The sums that the fold forms on its way are numbers of the word. -/
def Representable (deltas : List (T × I128)) : Prop :=
  ∀ before, before <+: deltas → ∀ t, SignedRange 128 (balance before t)

section

variable (delta : T × I128) (deltas : List (T × I128)) (t : T)

theorem amountCons :
    amount (delta :: deltas) t = (if delta.1 = t then delta.2 else 0) + amount deltas t := by
  simp only [amount, filter_cons, decide_eq_true_eq]
  split <;> simp

theorem balanceCons : balance (delta :: deltas) t =
      (if delta.1 = t then delta.2.toInt else 0) + balance deltas t := by
  simp only [balance, filter_cons, decide_eq_true_eq]
  split <;> simp

end

theorem amountAppend (first second : List (T × I128)) (t : T) :
    amount (first ++ second) t = amount first t + amount second t := by
  rw [amount, filter_append, map_append, sum_append, amount, amount]

theorem balanceAppend (first second : List (T × I128)) (t : T) :
    balance (first ++ second) t = balance first t + balance second t := by
  rw [balance, filter_append, map_append, sum_append, balance, balance]

structure NormalDeltas (deltas : List (T × I128)) : Prop where
  increasing : deltas.Pairwise fun a b => a.1 < b.1
  nonzero : ∀ delta ∈ deltas, delta.2 ≠ 0

variable {deltas : List (T × I128)} {t : T} {map : Map T I128}

theorem amountAbsent (absent : ∀ delta ∈ deltas, delta.1 ≠ t) :
    amount deltas t = 0 ∧ balance deltas t = 0 := by
  have none : deltas.filter (fun delta => delta.1 = t) = [] := by
    refine filter_eq_nil_iff.mpr fun delta mem => ?_
    simpa using absent delta mem
  rw [amount, balance, none]
  exact ⟨rfl, rfl⟩

theorem amountPresent {v : I128} (increasing : deltas.Pairwise fun a b => a.1 < b.1)
    (present : (t, v) ∈ deltas) :
    amount deltas t = v ∧ balance deltas t = v.toInt := by
  induction deltas with
  | nil => cases present
  | cons delta deltas ih =>
    obtain ⟨first, rest⟩ := pairwise_cons.mp increasing
    rw [amountCons, balanceCons]
    rcases mem_cons.mp present with rfl | inside
    · obtain ⟨words, numbers⟩ := amountAbsent fun delta mem => ne_of_gt (first delta mem)
      rw [if_pos rfl, if_pos rfl, words, numbers]
      simp
    · have apart : delta.1 ≠ t := ne_of_lt (first _ inside)
      obtain ⟨words, numbers⟩ := ih rest inside
      rw [if_neg apart, if_neg apart, words, numbers]
      simp

theorem NormalDeltas.mem (normal : NormalDeltas deltas) {v : I128} :
    (t, v) ∈ deltas ↔ v ≠ 0 ∧ v = amount deltas t := by
  constructor
  · intro mem
    exact ⟨normal.nonzero _ mem, (amountPresent normal.increasing mem).1.symm⟩
  · rintro ⟨nonzero, value⟩
    by_contra missing
    have absent : ∀ delta ∈ deltas, delta.1 ≠ t := by
      rintro ⟨t', v'⟩ mem rfl
      have held := (amountPresent normal.increasing mem).1
      exact missing (by rwa [value, held])
    exact nonzero (value.trans (amountAbsent absent).1)

theorem NormalDeltas.unique {left right : List (T × I128)} (first : NormalDeltas left)
    (second : NormalDeltas right) (same : ∀ t, amount left t = amount right t) : left = right := by
  have distinct : ∀ {deltas : List (T × I128)}, NormalDeltas deltas → deltas.Nodup := by
    intro deltas normal
    exact normal.increasing.imp fun less equal => absurd (congrArg Prod.fst equal) (ne_of_lt less)
  have members : ∀ delta, delta ∈ left ↔ delta ∈ right := by
    rintro ⟨t, v⟩
    rw [first.mem, second.mem, same]
  have perm := (perm_ext_iff_of_nodup (distinct first) (distinct second)).mpr members
  exact perm.eq_of_pairwise (fun a b _ _ less more => absurd less (lt_asymm more))
    first.increasing second.increasing

theorem NormalDeltas.value (normal : NormalDeltas deltas) (t : T) :
    balance deltas t = (amount deltas t).toInt := by
  by_cases present : ∃ v, (t, v) ∈ deltas
  · obtain ⟨v, mem⟩ := present
    obtain ⟨words, numbers⟩ := amountPresent normal.increasing mem
    rw [words, numbers]
  · have absent : ∀ delta ∈ deltas, delta.1 ≠ t := by
      rintro ⟨t', v'⟩ mem rfl
      exact present ⟨v', mem⟩
    obtain ⟨words, numbers⟩ := amountAbsent absent
    rw [words, numbers]
    rfl

variable {ε : Type} {build : Build}

theorem addDeltaLookup {next : Map T I128} {delta : T × I128}
    (ok : (addDelta build map delta : Outcome ε _) = .ok next) (t : T) :
    (next.lookup t).getD 0 = (map.lookup t).getD 0 + if delta.1 = t then delta.2 else 0 := by
  obtain ⟨sum, added, rfl⟩ := pureOk.mp ok
  cases plainAddSignedOk added
  by_cases same : delta.1 = t
  · rw [← same, lookup_insert, if_pos rfl]
    rfl
  · rw [lookup_insert_ne (Ne.symm same), if_neg same, add_zero]

theorem addDeltasLookup {final : Map T I128}
    (ok : (deltas.foldlM (addDelta build) map : Outcome ε _) = .ok final) (t : T) :
    (final.lookup t).getD 0 = (map.lookup t).getD 0 + amount deltas t := by
  induction deltas generalizing map with
  | nil =>
    cases ok
    simp [amount]
  | cons delta deltas ih =>
    obtain ⟨next, first, rest⟩ := bindOk.mp ok
    rw [ih rest, addDeltaLookup first, amountCons, add_assoc]

theorem normalizeDeltasOk {out : List (T × I128)}
    (ok : (normalizeDeltas build deltas : Outcome ε _) = .ok out) :
    NormalDeltas out ∧ ∀ t, amount out t = amount deltas t := by
  obtain ⟨map, folded, last⟩ := bindOk.mp ok
  have held := addDeltasLookup folded
  have increasing : ((sortedIter map).filter fun delta => delta.2 ≠ 0).Pairwise
      fun a b => a.1 < b.1 := (sortedIterSorted map).filter _
  have order : ((sortedIter map).filter fun delta => delta.2 ≠ 0).Pairwise deltaLe :=
    increasing.imp fun less => Or.inl less
  rw [order.insertionSort_eq] at last
  cases last
  have normal : NormalDeltas ((sortedIter map).filter fun delta => delta.2 ≠ 0) :=
    ⟨increasing, fun delta mem => by simpa using (mem_filter.mp mem).2⟩
  refine ⟨normal, fun t => ?_⟩
  have total : (map.lookup t).getD 0 = amount deltas t := by
    rw [held t]
    simp
  rw [← total]
  cases found : map.lookup t with
  | none =>
    refine (amountAbsent fun delta mem same => ?_).1
    have inside := memSortedIter.mp (mem_filter.mp mem).1
    rw [same, found] at inside
    cases inside
  | some v =>
    by_cases zero : v = 0
    · rw [zero]
      refine (amountAbsent fun delta mem same => ?_).1
      have inside := memSortedIter.mp (mem_filter.mp mem).1
      rw [same, found] at inside
      exact normal.nonzero delta mem ((Option.some.inj inside).symm.trans zero)
    · refine (amountPresent increasing (mem_filter.mpr ⟨memSortedIter.mpr found, ?_⟩)).1
      simpa using zero

theorem addDeltasFit (build : Build) (map : Map T I128) (fits : ∀ before, before <+: deltas → ∀ t,
      SignedRange 128 (((map.lookup t).getD 0).toInt + balance before t)) :
    ∃ final, (deltas.foldlM (addDelta build) map : Outcome ε _) = .ok final ∧
      ∀ t, ((final.lookup t).getD 0).toInt = ((map.lookup t).getD 0).toInt + balance deltas t := by
  induction deltas generalizing map with
  | nil => exact ⟨map, rfl, fun t => by simp [balance]⟩
  | cons delta deltas ih =>
    have range := fits [delta] ⟨deltas, rfl⟩ delta.1
    have alone : balance [delta] delta.1 = delta.2.toInt := by simp [balance]
    rw [alone] at range
    obtain ⟨added, exact'⟩ := plainAddSignedFits (ε := ε) build range
    have step : (addDelta build map delta : Outcome ε _) =
        .ok (map.insert delta.1 ((map.lookup delta.1).getD 0 + delta.2)) := by
      rw [addDelta, added]
      rfl
    have moved : ∀ t, (((map.insert delta.1 ((map.lookup delta.1).getD 0 + delta.2)).lookup t).getD
        0).toInt = ((map.lookup t).getD 0).toInt + if delta.1 = t then delta.2.toInt else 0 := by
      intro t
      by_cases same : delta.1 = t
      · rw [← same, lookup_insert, if_pos rfl]
        exact exact'
      · rw [lookup_insert_ne (Ne.symm same), if_neg same, add_zero]
    obtain ⟨final, rest, sums⟩ := ih (map.insert delta.1 _) fun before prior t => by
      have whole := fits (delta :: before) (cons_prefix_cons.mpr ⟨rfl, prior⟩) t
      rwa [moved, add_assoc, ← balanceCons]
    refine ⟨final, ?_, fun t => ?_⟩
    · rw [foldlM_cons, step]
      exact rest
    · rw [sums, moved, balanceCons, add_assoc]

theorem normalizeDeltasFit (build : Build) (fits : Representable deltas) :
    ∃ out, (normalizeDeltas build deltas : Outcome ε _) = .ok out ∧
      ∀ t, balance out t = balance deltas t := by
  obtain ⟨final, folded, sums⟩ := addDeltasFit (ε := ε) build ∅
    fun before prior t => by simpa using fits before prior t
  have ok : (normalizeDeltas build deltas : Outcome ε _) =
      .ok (((sortedIter final).filter fun delta => delta.2 ≠ 0).insertionSort deltaLe) := by
    rw [normalizeDeltas, folded]
    rfl
  obtain ⟨normal, amounts⟩ := normalizeDeltasOk ok
  refine ⟨_, ok, fun t => ?_⟩
  have number := sums t
  rw [addDeltasLookup folded] at number
  rw [normal.value, amounts]
  simpa using number

end Deltas

/- `Offer<P>`; a transient has a proof for each of its sides. -/
structure OfferWith (P : Type) where
  inputs : List (WithProof Input P)
  outputs : List (WithProof Output P)
  transient : List (WithProof Transient (P ×ₗ P))
  deltas : List (ShieldedTokenType × I128)

namespace OfferWith

variable [LinearOrder P]

def normalize (build : Build) (offer : OfferWith P) : Outcome MalformedOffer (OfferWith P) := do
  let deltas ← normalizeDeltas build offer.deltas
  .ok {
    inputs := sorted offer.inputs
    outputs := sorted offer.outputs
    transient := sorted offer.transient
    deltas := deltas }

def merge (build : Build) (offer other : OfferWith P) : Outcome MalformedOffer (OfferWith P) :=
  if (listing offer.inputs).Disjoint (listing other.inputs) ∧
      (listing offer.outputs).Disjoint (listing other.outputs) ∧
      (listing offer.transient).Disjoint (listing other.transient) then
    normalize build {
      inputs := listing offer.inputs ++ listing other.inputs
      outputs := listing offer.outputs ++ listing other.outputs
      transient := listing offer.transient ++ listing other.transient
      deltas := offer.deltas ++ other.deltas }
  else reject .nonDisjointCoinMerge

/- The normal form that `offer_well_formed_common` asks for. -/
structure Normal (offer : OfferWith P) : Prop where
  inputs : offer.inputs.Pairwise (· ≤ ·)
  outputs : offer.outputs.Pairwise (· ≤ ·)
  transient : offer.transient.Pairwise (· ≤ ·)
  deltas : NormalDeltas offer.deltas

def Overlaps (offer other : OfferWith P) : Prop :=
  (∃ x, x ∈ offer.inputs ∧ x ∈ other.inputs) ∨ (∃ x, x ∈ offer.outputs ∧ x ∈ other.outputs) ∨
    ∃ x, x ∈ offer.transient ∧ x ∈ other.transient

def Summable (offer other : OfferWith P) : Prop := Representable (offer.deltas ++ other.deltas)

structure Merged (offer other merged : OfferWith P) : Prop where
  inputsApart : offer.inputs.Disjoint other.inputs
  outputsApart : offer.outputs.Disjoint other.outputs
  transientApart : offer.transient.Disjoint other.transient
  inputs : merged.inputs = union offer.inputs other.inputs
  outputs : merged.outputs = union offer.outputs other.outputs
  transient : merged.transient = union offer.transient other.transient
  normal : NormalDeltas merged.deltas
  amounts : ∀ t, amount merged.deltas t = amount offer.deltas t + amount other.deltas t

section

variable {build : Build} {a b c ab ba bc left right : OfferWith P}

omit [LinearOrder P] in
theorem notOverlaps (apart : ¬ a.Overlaps b) : a.inputs.Disjoint b.inputs ∧
    a.outputs.Disjoint b.outputs ∧ a.transient.Disjoint b.transient := by
  refine ⟨fun x first second => apart (.inl ⟨x, first, second⟩),
    fun x first second => apart (.inr (.inl ⟨x, first, second⟩)),
    fun x first second => apart (.inr (.inr ⟨x, first, second⟩))⟩

theorem mergeOk (ok : a.merge build b = .ok ab) : a.Merged b ab := by
  rw [merge] at ok
  obtain ⟨apart, ok⟩ := thenOk.mp ok
  simp only [disjointListing] at apart
  obtain ⟨deltas, summed, rfl⟩ := pureOk.mp ok
  obtain ⟨normal, amounts⟩ := normalizeDeltasOk summed
  exact {
    inputsApart := apart.1
    outputsApart := apart.2.1
    transientApart := apart.2.2
    inputs := rfl
    outputs := rfl
    transient := rfl
    normal := normal
    amounts := fun t => (amounts t).trans (amountAppend _ _ t) }

theorem Merged.isNormal (merged : a.Merged b ab) : ab.Normal where
  inputs := by
    rw [merged.inputs]
    exact sortedPairwise _
  outputs := by
    rw [merged.outputs]
    exact sortedPairwise _
  transient := by
    rw [merged.transient]
    exact sortedPairwise _
  deltas := merged.normal

theorem Merged.comm (first : a.Merged b ab) (second : b.Merged a ba) : ab = ba := by
  have deltas : ab.deltas = ba.deltas := by
    refine first.normal.unique second.normal fun t => ?_
    rw [first.amounts, second.amounts, add_comm]
  obtain ⟨inputs', outputs', transient', deltas'⟩ := ba
  cases deltas
  cases first.inputs.trans ((unionComm first.inputsApart).trans second.inputs.symm)
  cases first.outputs.trans ((unionComm first.outputsApart).trans second.outputs.symm)
  cases first.transient.trans ((unionComm first.transientApart).trans second.transient.symm)
  rfl

theorem Merged.assoc (first : a.Merged b ab) (second : ab.Merged c left) (third : b.Merged c bc)
    (fourth : a.Merged bc right) : left = right := by
  have deltas : left.deltas = right.deltas := by
    refine second.normal.unique fourth.normal fun t => ?_
    rw [second.amounts, first.amounts, fourth.amounts, third.amounts, add_assoc]
  have inputs : left.inputs = right.inputs := by
    rw [second.inputs, fourth.inputs, first.inputs, third.inputs]
    exact unionAssoc (first.inputs ▸ second.inputsApart) (third.inputs ▸ fourth.inputsApart)
  have outputs : left.outputs = right.outputs := by
    rw [second.outputs, fourth.outputs, first.outputs, third.outputs]
    exact unionAssoc (first.outputs ▸ second.outputsApart) (third.outputs ▸ fourth.outputsApart)
  have transient : left.transient = right.transient := by
    rw [second.transient, fourth.transient, first.transient, third.transient]
    exact unionAssoc (first.transient ▸ second.transientApart)
      (third.transient ▸ fourth.transientApart)
  cases left
  simp only at deltas inputs outputs transient
  rw [deltas, inputs, outputs, transient]

theorem mergeOverlapping (overlap : a.Overlaps b) :
    a.merge build b = reject .nonDisjointCoinMerge := by
  refine if_neg fun apart => ?_
  simp only [disjointListing] at apart
  rcases overlap with ⟨x, first, second⟩ | ⟨x, first, second⟩ | ⟨x, first, second⟩
  · exact apart.1 first second
  · exact apart.2.1 first second
  · exact apart.2.2 first second

theorem mergeApart (build : Build) (apart : ¬ a.Overlaps b) (fits : a.Summable b) :
    ∃ merged, a.merge build b = .ok merged ∧
      ∀ t, balance merged.deltas t = balance a.deltas t + balance b.deltas t := by
  obtain ⟨deltas, summed, sums⟩ := normalizeDeltasFit (ε := MalformedOffer) build fits
  have disjoint := notOverlaps apart
  refine ⟨⟨union a.inputs b.inputs, union a.outputs b.outputs, union a.transient b.transient,
    deltas⟩, ?_, fun t => (sums t).trans (balanceAppend _ _ t)⟩
  rw [merge, if_pos (by simpa only [disjointListing] using disjoint), normalize, summed]
  rfl

end

end OfferWith

end MidnightLedger.Zswap

import MidnightLedger.Lib.Combining
import MidnightLedger.Zswap.Merge
import MidnightLedger.Ledger.Semantics

/-! Merging transactions (`Transaction::merge` in ledger/src/structure.rs). The offers keep their
proofs, a standard transaction its binding randomness. -/
namespace MidnightLedger.Ledger
open Maps Words Loops Zswap OfferWith Option AList

def Components.proving (W : Components) (P : Type) : Components :=
  { W with ZswapOffer := OfferWith P }

structure BoundStandardTransaction (W : Components) (R : Type) extends StandardTransaction W where
  bindingRandomness : R

inductive BoundTransaction (W : Components) (R : Type) where
  | standard (tx : BoundStandardTransaction W R)
  | claimRewards (tx : ClaimRewardsTransaction)

inductive MergeRejected where
  | invalidNetworkId (expected found : String)
  | intentSegmentIdCollision (segment : Segment)
  | zswap (e : MalformedOffer)
  | cantMergeTypes
  deriving DecidableEq, Repr

variable {W : Components} {P R : Type} [Add R]

section

variable [LinearOrder P]

def mergeIntents (first second : Map Segment (Intent W)) :
    Outcome MergeRejected (Map Segment (Intent W)) :=
  (first.entries ++ second.entries).foldlM
    (insertNew fun segment => .error (.intentSegmentIdCollision segment)) ∅

def mergeCoins (build : Build) :
    Option (OfferWith P) → Option (OfferWith P) → Outcome MalformedOffer (Option (OfferWith P)) :=
  combined (merge build)

def mergeFallible (build : Build) (first second : Map Segment (OfferWith P)) :
    Outcome MalformedOffer (Map Segment (OfferWith P)) :=
  second.entries.foldlM (combineEntry (merge build)) first

def BoundTransaction.merge (build : Build) :
    BoundTransaction (W.proving P) R → BoundTransaction (W.proving P) R →
      Outcome MergeRejected (BoundTransaction (W.proving P) R)
  | .standard stx1, .standard stx2 =>
    if stx1.networkId ≠ stx2.networkId then
      reject (.invalidNetworkId stx1.networkId stx2.networkId)
    else do
      let intents ← mergeIntents stx1.intents stx2.intents
      let guaranteedCoins ← mapFault .zswap
        (mergeCoins build stx1.guaranteedCoins stx2.guaranteedCoins)
      let fallibleCoins ← mapFault .zswap
        (mergeFallible build stx1.fallibleCoins stx2.fallibleCoins)
      .ok (.standard {
        networkId := stx1.networkId
        intents := intents
        guaranteedCoins := guaranteedCoins
        fallibleCoins := fallibleCoins
        bindingRandomness := stx1.bindingRandomness + stx2.bindingRandomness })
  | _, _ => reject .cantMergeTypes

end

variable {fault : Fault MergeRejected}

section Intents

variable {first second merged : Map Segment (Intent W)}

theorem mergeIntentsOk (ok : mergeIntents first second = .ok merged) (segment : Segment) :
    merged.lookup segment = (first.lookup segment).or (second.lookup segment) ∧
      ((second.lookup segment).isSome → first.lookup segment = none) := by
  obtain ⟨middle, start, rest⟩ := foldlMAppend.mp ok
  obtain ⟨held, -⟩ := insertNewLookup start segment
  obtain ⟨whole, absent⟩ := insertNewLookup rest segment
  have copied : middle.lookup segment = first.lookup segment := by
    rw [held, lookup_empty, none_or]
    rfl
  rw [copied] at whole absent
  exact ⟨whole, fun present => absent (lookup_isSome.mp present)⟩

theorem mergeIntentsFails (fails : mergeIntents first second = .error fault) :
    ∃ segment, fault = .error (.intentSegmentIdCollision segment) ∧
      (first.lookup segment).isSome ∧ (second.lookup segment).isSome := by
  rw [mergeIntents, List.foldlM_append] at fails
  rcases bindError.mp fails with early | ⟨middle, start, late⟩
  · obtain ⟨segment, -, -, present⟩ := insertNewFails first.nodupKeys early
    cases present
  · obtain ⟨segment, mem, named, present⟩ := insertNewFails second.nodupKeys late
    obtain ⟨held, -⟩ := insertNewLookup start segment
    rw [held, lookup_empty, none_or] at present
    exact ⟨segment, named, present, lookup_isSome.mpr mem⟩

end Intents

variable {build : Build}

section Coins

variable [LinearOrder P] {first second merged : Option (OfferWith P)}

theorem mergeCoinsFails {fault : Fault MalformedOffer}
    (fits : ∀ a b, first = some a → second = some b → a.Summable b)
    (fails : mergeCoins build first second = .error fault) :
    fault = .error .nonDisjointCoinMerge ∧
      ∃ a b, first = some a ∧ second = some b ∧ a.Overlaps b := by
  rcases first with - | a
  · rw [mergeCoins, noneCombined] at fails
    cases fails
  · rcases second with - | b
    · cases fails
    · by_cases overlap : a.Overlaps b
      · rw [mergeCoins, combined, mergeOverlapping overlap] at fails
        cases fails
        exact ⟨rfl, a, b, rfl, rfl, overlap⟩
      · obtain ⟨offer, ok, -⟩ := mergeApart build overlap (fits a b rfl rfl)
        rw [mergeCoins, combined, ok] at fails
        cases fails

section

variable (ok : mergeCoins build first second = .ok merged)
include ok

theorem mergeCoinsOk {a b : OfferWith P} (left : first = some a) (right : second = some b) :
    ∃ offer, merged = some offer ∧ a.merge build b = .ok offer := by
  cases left
  cases right
  obtain ⟨offer, made, same⟩ := combinedSome ok
  exact ⟨offer, same, made⟩

theorem mergeCoinsSums (fits : ∀ a b, first = some a → second = some b → a.Summable b)
    (t : ShieldedTokenType) : (merged.elim 0 fun offer => balance offer.deltas t) =
      (first.elim 0 fun offer => balance offer.deltas t) +
        second.elim 0 fun offer => balance offer.deltas t := by
  rcases first with - | a
  · rw [mergeCoins, noneCombined] at ok
    cases ok
    simp
  · rcases second with - | b
    · cases ok
      simp
    · obtain ⟨offer, rfl, made⟩ := mergeCoinsOk ok rfl rfl
      have apart : ¬ a.Overlaps b := by
        intro overlap
        rw [mergeOverlapping overlap] at made
        cases made
      obtain ⟨other, again, sums⟩ := mergeApart build apart (fits a b rfl rfl)
      cases made.symm.trans again
      exact sums t

theorem mergeCoinsNormal {offer : OfferWith P} (found : merged = some offer) :
    offer.Normal ∨ first = some offer ∨ second = some offer := by
  rcases first with - | a
  · rw [mergeCoins, noneCombined] at ok
    cases ok
    exact .inr (.inr found)
  · rcases second with - | b
    · cases ok
      exact .inr (.inl found)
    · obtain ⟨made, rfl, whole⟩ := mergeCoinsOk ok rfl rfl
      cases found
      exact .inl (mergeOk whole).isNormal

end

end Coins

namespace BoundStandardTransaction

def coinsAt (tx : BoundStandardTransaction (W.proving P) R) : Option Segment → Option (OfferWith P)
  | none => tx.guaranteedCoins
  | some segment => tx.fallibleCoins.lookup segment

def Overlaps (tx other : BoundStandardTransaction (W.proving P) R) : Prop :=
  (∃ segment, (tx.intents.lookup segment).isSome ∧ (other.intents.lookup segment).isSome) ∨
    ∃ place a b, tx.coinsAt place = some a ∧ other.coinsAt place = some b ∧ a.Overlaps b

/- Equality of transactions: persistent maps are equal when they have the same entries. -/
structure Same (tx other : BoundStandardTransaction (W.proving P) R) : Prop where
  networkId : tx.networkId = other.networkId
  intents : ∀ segment, tx.intents.lookup segment = other.intents.lookup segment
  coins : ∀ place, tx.coinsAt place = other.coinsAt place
  bindingRandomness : tx.bindingRandomness = other.bindingRandomness

def Summable (tx other : BoundStandardTransaction (W.proving P) R) : Prop :=
  ∀ place a b, tx.coinsAt place = some a → other.coinsAt place = some b → a.Summable b

def balanceAt (tx : BoundStandardTransaction (W.proving P) R) (place : Option Segment)
    (t : ShieldedTokenType) : Int :=
  (tx.coinsAt place).elim 0 fun offer => balance offer.deltas t

variable [LinearOrder P]

structure Merged (build : Build) (tx other merged : BoundStandardTransaction (W.proving P) R) :
    Prop where
  network : tx.networkId = other.networkId
  networkId : merged.networkId = tx.networkId
  apart : ∀ segment, (other.intents.lookup segment).isSome → tx.intents.lookup segment = none
  intents : ∀ segment,
    merged.intents.lookup segment = (tx.intents.lookup segment).or (other.intents.lookup segment)
  coins : ∀ place,
    mergeCoins build (tx.coinsAt place) (other.coinsAt place) = .ok (merged.coinsAt place)
  bindingRandomness : merged.bindingRandomness = tx.bindingRandomness + other.bindingRandomness

end BoundStandardTransaction

section

variable [LinearOrder P] {tx other merged reversed : BoundStandardTransaction (W.proving P) R}

open BoundStandardTransaction

theorem mapFaultFails {δ ε α : Type} {wrap : δ → ε} {x : Outcome δ α} {fault : Fault ε}
    (fails : mapFault wrap x = .error fault) :
    (∃ e, x = .error (.error e) ∧ fault = .error (wrap e)) ∨ x = .error .panic := by
  rcases x with (e | -) | a
  · cases fails
    exact .inl ⟨e, rfl, rfl⟩
  · exact .inr rfl
  · cases fails

theorem mergeStandardOk {result : BoundTransaction (W.proving P) R}
    (ok : BoundTransaction.merge build (.standard tx) (.standard other) = .ok result) :
    ∃ merged, result = .standard merged ∧ tx.Merged build other merged := by
  rw [BoundTransaction.merge] at ok
  obtain ⟨network, ok⟩ := elseOk.mp ok
  obtain ⟨intents, first, ok⟩ := bindOk.mp ok
  obtain ⟨guaranteed, second, ok⟩ := bindOk.mp ok
  obtain ⟨fallible, third, rfl⟩ := pureOk.mp ok
  refine ⟨_, rfl, {
    network := not_not.mp network
    networkId := rfl
    apart := fun segment => (mergeIntentsOk first segment).2
    intents := fun segment => (mergeIntentsOk first segment).1
    coins := ?_
    bindingRandomness := rfl }⟩
  rintro (- | segment)
  · exact mapFaultOk.mp second
  · exact combineLookup other.fallibleCoins.nodupKeys (mapFaultOk.mp third) segment

theorem mergeStandardFails (fits : tx.Summable other)
    (fails : BoundTransaction.merge build (.standard tx) (.standard other) = .error fault) :
    (∃ e, fault = .error e) ∧ (tx.networkId ≠ other.networkId ∨ tx.Overlaps other) := by
  -- A section that fails is one whose offers overlap.
  have placed : ∀ place fault, mergeCoins build (tx.coinsAt place) (other.coinsAt place) =
      .error fault → fault = .error .nonDisjointCoinMerge ∧ tx.Overlaps other := by
    intro place fault failed
    obtain ⟨named, a, b, left, right, overlap⟩ := mergeCoinsFails (fits place) failed
    exact ⟨named, .inr ⟨place, a, b, left, right, overlap⟩⟩
  have wrapped : ∀ {α : Type} {x : Outcome MalformedOffer α},
      (∀ fault, x = .error fault → fault = .error .nonDisjointCoinMerge ∧ tx.Overlaps other) →
      mapFault MergeRejected.zswap x = .error fault →
      (∃ e, fault = .error e) ∧ (tx.networkId ≠ other.networkId ∨ tx.Overlaps other) := by
    intro α x reason failed
    rcases mapFaultFails failed with ⟨e, inner, rfl⟩ | inner
    · exact ⟨⟨_, rfl⟩, .inr (reason _ inner).2⟩
    · cases (reason _ inner).1
  rw [BoundTransaction.merge] at fails
  split at fails
  · rename_i network
    cases fails
    exact ⟨⟨_, rfl⟩, .inl network⟩
  · rcases bindError.mp fails with first | ⟨intents, -, fails⟩
    · obtain ⟨segment, rfl, left, right⟩ := mergeIntentsFails first
      exact ⟨⟨_, rfl⟩, .inr (.inl ⟨segment, left, right⟩)⟩
    · rcases bindError.mp fails with second | ⟨guaranteed, -, fails⟩
      · exact wrapped (placed none) second
      · rcases bindError.mp fails with third | ⟨fallible, -, last⟩
        · refine wrapped (fun inner failed => ?_) third
          obtain ⟨segment, failed⟩ := combineFails other.fallibleCoins.nodupKeys failed
          exact placed (some segment) inner failed
        · cases last

theorem BoundStandardTransaction.Merged.notOverlaps (merge : tx.Merged build other merged) :
    ¬ tx.Overlaps other := by
  rintro (⟨segment, left, right⟩ | ⟨place, a, b, left, right, overlap⟩)
  · rw [merge.apart segment right] at left
    cases left
  · obtain ⟨offer, -, made⟩ := mergeCoinsOk (merge.coins place) left right
    rw [mergeOverlapping overlap] at made
    cases made

theorem mergeStandardIff (build : Build) (fits : tx.Summable other) :
    (∃ e, BoundTransaction.merge build (.standard tx) (.standard other) = reject e) ↔
      tx.networkId ≠ other.networkId ∨ tx.Overlaps other := by
  constructor
  · rintro ⟨e, refused⟩
    exact (mergeStandardFails fits refused).2
  · intro reason
    cases result : BoundTransaction.merge build (.standard tx) (.standard other) with
    | error fault =>
      obtain ⟨⟨e, rfl⟩, -⟩ := mergeStandardFails fits result
      exact ⟨e, rfl⟩
    | ok value =>
      obtain ⟨merged, rfl, merge⟩ := mergeStandardOk result
      rcases reason with network | overlap
      · exact absurd merge.network network
      · exact absurd overlap merge.notOverlaps

theorem mergeStandardReturns (build : Build) (fits : tx.Summable other)
    (network : tx.networkId = other.networkId) (apart : ¬ tx.Overlaps other) :
    ∃ merged, BoundTransaction.merge build (.standard tx) (.standard other) =
      .ok (.standard merged) ∧ tx.Merged build other merged := by
  cases result : BoundTransaction.merge build (.standard tx) (.standard other) with
  | error fault =>
    rcases (mergeStandardFails fits result).2 with differ | overlap
    · exact absurd network differ
    · exact absurd overlap apart
  | ok value =>
    obtain ⟨merged, rfl, merge⟩ := mergeStandardOk result
    exact ⟨merged, rfl, merge⟩

end

section

variable {S : Type} [AddCommSemigroup S] [LinearOrder P]
  {a b c ab ba bc left right : BoundStandardTransaction (W.proving P) S}

theorem BoundStandardTransaction.Merged.comm (first : a.Merged build b ab)
    (second : b.Merged build a ba) : ab.Same ba where
  networkId := by rw [first.networkId, second.networkId, first.network]
  intents segment := by
    rw [first.intents, second.intents]
    cases found : b.intents.lookup segment with
    | none => rw [or_none, none_or]
    | some intent => rw [first.apart segment (by rw [found]; rfl), none_or, or_none]
  coins place := by
    refine combinedComm (fun v w u u' made reversed => ?_) (first.coins place) (second.coins place)
    exact (mergeOk made).comm (mergeOk reversed)
  bindingRandomness := by rw [first.bindingRandomness, second.bindingRandomness, add_comm]

theorem BoundStandardTransaction.Merged.assoc (first : a.Merged build b ab)
    (second : ab.Merged build c left) (third : b.Merged build c bc)
    (fourth : a.Merged build bc right) : left.Same right where
  networkId := by rw [second.networkId, first.networkId, fourth.networkId]
  intents segment := by
    rw [second.intents, first.intents, fourth.intents, third.intents, Option.or_assoc]
  coins place := by
    refine combinedAssoc (fun u v w uv vw l r low outer high inner => ?_) (first.coins place)
      (second.coins place) (third.coins place) (fourth.coins place)
    exact (mergeOk low).assoc (mergeOk outer) (mergeOk high) (mergeOk inner)
  bindingRandomness := by
    rw [second.bindingRandomness, first.bindingRandomness, fourth.bindingRandomness,
      third.bindingRandomness, add_assoc]

end

def BoundTransaction.Same : BoundTransaction (W.proving P) R → BoundTransaction (W.proving P) R → Prop
  | .standard tx, .standard other => tx.Same other
  | .claimRewards tx, .claimRewards other => tx = other
  | _, _ => False

section

variable {S : Type} [AddCommSemigroup S] [LinearOrder P]
  {x y z xy : BoundTransaction (W.proving P) S}

theorem mergeOk (ok : x.merge build y = .ok z) :
    ∃ tx other merged, x = .standard tx ∧ y = .standard other ∧ z = .standard merged ∧
      tx.Merged build other merged := by
  rcases x with tx | claim
  · rcases y with other | claim
    · obtain ⟨merged, same, merge⟩ := mergeStandardOk ok
      exact ⟨tx, other, merged, rfl, rfl, same, merge⟩
    · cases ok
  · cases ok

theorem mergeTransactionComm {yx : BoundTransaction (W.proving P) S}
    (first : x.merge build y = .ok xy) (second : y.merge build x = .ok yx) : xy.Same yx := by
  obtain ⟨tx, other, merged, rfl, rfl, rfl, forth⟩ := mergeOk first
  obtain ⟨_, _, reversed, same, other, rfl, back⟩ := mergeOk second
  cases same
  cases other
  exact forth.comm back

theorem mergeTransactionAssoc {yz left right : BoundTransaction (W.proving P) S}
    (first : x.merge build y = .ok xy) (second : xy.merge build z = .ok left)
    (third : y.merge build z = .ok yz) (fourth : x.merge build yz = .ok right) :
    left.Same right := by
  obtain ⟨a, b, ab, rfl, rfl, rfl, low⟩ := mergeOk first
  obtain ⟨_, c, abc, same, rfl, rfl, outer⟩ := mergeOk second
  cases same
  obtain ⟨_, _, bc, same, same', rfl, high⟩ := mergeOk third
  cases same
  cases same'
  obtain ⟨_, _, _, same, same', rfl, inner⟩ := mergeOk fourth
  cases same
  cases same'
  exact low.assoc outer high inner

theorem mergeLaws (W : Components) (P S : Type) [LinearOrder P] [AddCommSemigroup S]
    (build : Build) :
    -- Offers whose sums are numbers of the word merge unless they share a part.
    (∀ a b : OfferWith P, a.Summable b →
      (a.merge build b = reject .nonDisjointCoinMerge ↔ a.Overlaps b) ∧
      (¬ a.Overlaps b → ∃ m, a.merge build b = .ok m ∧
        ∀ t, balance m.deltas t = balance a.deltas t + balance b.deltas t)) ∧
    (∀ a b m : OfferWith P, a.merge build b = .ok m → m.Normal) ∧
    (∀ a b ab ba : OfferWith P, a.merge build b = .ok ab → b.merge build a = .ok ba → ab = ba) ∧
    (∀ a b c ab bc l r : OfferWith P, a.merge build b = .ok ab → ab.merge build c = .ok l →
      b.merge build c = .ok bc → a.merge build bc = .ok r → l = r) ∧
    -- So do standard transactions of one network, section by section.
    (∀ x y : BoundTransaction (W.proving P) S,
      (∀ tx other, ¬ (x = .standard tx ∧ y = .standard other)) →
        x.merge build y = reject .cantMergeTypes) ∧
    (∀ tx other : BoundStandardTransaction (W.proving P) S, tx.Summable other →
      ((∃ e, BoundTransaction.merge build (.standard tx) (.standard other) = reject e) ↔
        tx.networkId ≠ other.networkId ∨ tx.Overlaps other) ∧
      (tx.networkId = other.networkId → ¬ tx.Overlaps other →
        ∃ m, BoundTransaction.merge build (.standard tx) (.standard other) = .ok (.standard m) ∧
          ∀ place t, m.balanceAt place t = tx.balanceAt place t + other.balanceAt place t)) ∧
    (∀ tx other m : BoundStandardTransaction (W.proving P) S,
      BoundTransaction.merge build (.standard tx) (.standard other) = .ok (.standard m) →
        ∀ place offer, m.coinsAt place = some offer →
          offer.Normal ∨ tx.coinsAt place = some offer ∨ other.coinsAt place = some offer) ∧
    (∀ x y xy yx : BoundTransaction (W.proving P) S, x.merge build y = .ok xy →
      y.merge build x = .ok yx → xy.Same yx) ∧
    (∀ x y z xy yz l r : BoundTransaction (W.proving P) S, x.merge build y = .ok xy →
      xy.merge build z = .ok l → y.merge build z = .ok yz → x.merge build yz = .ok r →
        l.Same r) := by
  refine ⟨fun a b fits => ⟨⟨fun refused => ?_, mergeOverlapping⟩, fun apart =>
      mergeApart build apart fits⟩,
    fun a b m ok => (OfferWith.mergeOk ok).isNormal,
    fun a b ab ba first second => (OfferWith.mergeOk first).comm (OfferWith.mergeOk second),
    fun a b c ab bc l r low outer high inner => (OfferWith.mergeOk low).assoc
      (OfferWith.mergeOk outer) (OfferWith.mergeOk high) (OfferWith.mergeOk inner),
    fun x y other => ?_,
    fun tx other fits => ⟨mergeStandardIff build fits, fun network apart => ?_⟩,
    fun tx other m ok place offer found => ?_,
    fun x y xy yx => mergeTransactionComm,
    fun x y z xy yz l r => mergeTransactionAssoc⟩
  · by_contra apart
    obtain ⟨m, ok, -⟩ := mergeApart build apart fits
    rw [refused] at ok
    cases ok
  · rcases x with tx | claim
    · rcases y with tx' | claim
      · exact absurd ⟨rfl, rfl⟩ (other tx tx')
      · rfl
    · cases y <;> rfl
  · obtain ⟨m, ok, merge⟩ := mergeStandardReturns build fits network apart
    exact ⟨m, ok, fun place t => mergeCoinsSums (merge.coins place) (fits place) t⟩
  · obtain ⟨m', same, merge⟩ := mergeStandardOk ok
    cases same
    exact mergeCoinsNormal (merge.coins place) found

def spentFive : WithProof Input Unit := ⟨⟨1, ⟨0, 0⟩, none, 0, none⟩, ()⟩

def createdThree : WithProof Output Unit := ⟨⟨2, ⟨0, 0⟩, none, none⟩, ()⟩

def spendingFive : BoundStandardTransaction (sampleComponents.proving Unit) ℕ where
  networkId := "undeployed"
  intents := ∅
  guaranteedCoins := some ⟨[spentFive], [], [], [(⟨7⟩, 5)]⟩
  fallibleCoins := ∅
  bindingRandomness := 1

def creatingThree : BoundStandardTransaction (sampleComponents.proving Unit) ℕ where
  networkId := "undeployed"
  intents := ∅
  guaranteedCoins := some ⟨[], [createdThree], [], [(⟨7⟩, -3)]⟩
  fallibleCoins := ∅
  bindingRandomness := 2

theorem spendingSummable : spendingFive.Summable creatingThree := by
  rintro (- | segment) a b left right
  · cases left
    cases right
    intro before prior t
    have few : before = [] ∨ before = [(⟨7⟩, 5)] ∨ before = [(⟨7⟩, 5), (⟨7⟩, -3)] := by
      obtain ⟨after, whole⟩ := prior
      match before, whole with
      | [], _ => exact .inl rfl
      | [x], whole => cases whole; exact .inr (.inl rfl)
      | [x, y], whole => cases whole; exact .inr (.inr rfl)
    rcases few with rfl | rfl | rfl
    · exact (by decide : SignedRange 128 0)
    · rw [balanceCons]
      split
      · exact (by decide : SignedRange 128 5)
      · exact (by decide : SignedRange 128 0)
    · rw [balanceCons, balanceCons]
      split
      · exact (by decide : SignedRange 128 2)
      · exact (by decide : SignedRange 128 0)
  · cases left

theorem spendingApart : ¬ spendingFive.Overlaps creatingThree := by
  rintro (⟨segment, left, -⟩ | ⟨- | segment, a, b, left, right, overlap⟩)
  · cases left
  · cases left
    cases right
    rcases overlap with ⟨x, -, mem⟩ | ⟨x, mem, -⟩ | ⟨x, mem, -⟩ <;> cases mem
  · cases left

theorem spendingMerged : ∃ m : BoundStandardTransaction (sampleComponents.proving Unit) ℕ,
    BoundTransaction.merge .debug (.standard spendingFive) (.standard creatingThree) =
      .ok (.standard m) ∧ m.balanceAt none ⟨7⟩ = 2 := by
  have laws := mergeLaws sampleComponents Unit ℕ .debug
  obtain ⟨m, ok, sums⟩ :=
    (laws.2.2.2.2.2.1 spendingFive creatingThree spendingSummable).2 rfl spendingApart
  exact ⟨m, ok, sums none ⟨7⟩⟩

/- The input spent again, in a section of its own that is not in normal form. -/
def spendingAgain : BoundStandardTransaction (sampleComponents.proving Unit) ℕ :=
  { creatingThree with
    guaranteedCoins := none
    fallibleCoins := AList.singleton 1 ⟨[spentFive], [], [], [(⟨7⟩, 0)]⟩ }

theorem mergeDeparts :
    -- other networks are refused although nothing overlaps
    (¬ spendingFive.Overlaps { creatingThree with networkId := "mainnet" } ∧
      spendingFive.Summable { creatingThree with networkId := "mainnet" } ∧
      BoundTransaction.merge .debug (.standard spendingFive)
        (.standard { creatingThree with networkId := "mainnet" }) =
          reject (.invalidNetworkId "undeployed" "mainnet")) ∧
    -- sections are not compared, and one that a side lacks is not normalized
    ∃ m first second, BoundTransaction.merge .debug (.standard spendingFive)
      (.standard spendingAgain) =
        .ok (.standard m) ∧
      m.coinsAt none = some first ∧ m.coinsAt (some 1) = some second ∧
      spentFive ∈ first.inputs ∧ spentFive ∈ second.inputs ∧ ¬ second.Normal := by
  refine ⟨⟨spendingApart, spendingSummable, rfl⟩, _, _, _, rfl, rfl, rfl, ?_, ?_, fun normal => ?_⟩
  · exact List.mem_cons_self
  · exact List.mem_cons_self
  · exact normal.deltas.nonzero _ List.mem_cons_self rfl

end

end MidnightLedger.Ledger

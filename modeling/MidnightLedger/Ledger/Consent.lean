import MidnightLedger.Ledger.EffectsCheck

/-! Coins of contracts move by consent: what the transcripts of an applied section claim is what the
section has moved. -/
variable {coin : HashOutput} {address : ContractAddress}

namespace MidnightLedger.Zswap
open Ledger Loops List

def owned : Option (HashOutput × Option ContractAddress) → Option (HashOutput × ContractAddress)
  | some (coin, some address) => some (coin, address)
  | _ => none

theorem ownedSome {part : Option (HashOutput × Option ContractAddress)}
    (found : owned part = some (coin, address)) :
    part = some (coin, some address) := by
  unfold owned at found
  split at found <;> try contradiction
  cases found
  rfl

@[simp] theorem ownedPart (coin : HashOutput) (contract : Option ContractAddress) :
    owned (some (coin, contract)) = contract.map fun address => (coin, address) := by
  cases contract <;> rfl

@[simp] theorem ownedNone : owned none = none := by simp [owned]

namespace Offer

variable (offer : Offer)

theorem contractNullifiersItems :
    offer.contractNullifiers = offer.items.filterMap fun item => owned item.spends := by
  simp [contractNullifiers, items, filterMap_map, Item.spends]

theorem contractCommitmentsItems :
    offer.contractCommitments = offer.items.filterMap fun item => owned item.creates := by
  simp [contractCommitments, items, filterMap_map, Item.creates]

theorem commitmentsItems : offer.commitments = offer.items.flatMap Item.commitments := by
  have single {α : Type} (f : α → Commitment) (xs : List α) :
      xs.flatMap (fun x => [f x]) = xs.map f := (map_eq_flatMap ..).symm
  have nothing (xs : List Input) : xs.flatMap (fun _ => ([] : List Commitment)) = [] := by simp
  simp [commitments, items, Item.commitments, Item.creates, flatMap_append, flatMap_map,
    single, nothing]

end Offer

variable {part : Item → Option (HashOutput × Option ContractAddress)}
  {added : Item → List HashOutput}

theorem ownedCount (adds : ∀ item, part item = some (coin, some address) → coin ∈ added item)
    (items : List Item) :
    Multiset.count (coin, address) ↑(items.filterMap fun item => owned (part item)) ≤
      (items.flatMap added).count coin := by
  induction items with
  | nil => exact Nat.le_refl _
  | cons item items ih =>
    rw [flatMap_cons, count_append, filterMap_cons]
    split
    · exact ih.trans (Nat.le_add_left ..)
    · rename_i pair found
      rw [← Multiset.cons_coe, Multiset.count_cons]
      split
      · rename_i same
        rw [← same] at found
        have positive := count_pos_iff.mpr (adds item (ownedSome found))
        omega
      · omega

theorem ownedOnce {items : List Item} {item : Item}
    (adds : ∀ item, part item = some (coin, some address) → coin ∈ added item)
    (nodup : (items.flatMap added).Nodup) (mem : item ∈ items)
    (given : part item = some (coin, some address)) :
    Multiset.count (coin, address) ↑(items.filterMap fun item => owned (part item)) = 1 := by
  have most := (ownedCount adds items).trans (nodup_iff_count_le_one.mp nodup coin)
  have inside : (coin, address) ∈ items.filterMap fun item => owned (part item) :=
    mem_filterMap.mpr ⟨item, mem, by rw [given, owned]⟩
  have least := Multiset.count_pos.mpr (Multiset.mem_coe.mpr inside)
  omega

end MidnightLedger.Zswap

namespace MidnightLedger.Ledger
open ByteString Maps Words Loops Tallies

variable {W : Components} {segment : Segment} {whitelist : Whitelist}

namespace StandardTransaction

section

variable (tx : StandardTransaction W)

def executed (segment : Segment) (whitelist : Whitelist) : List (Execution W) :=
  tx.transcripts.filter fun e => e.logical = segment ∧ whitelistMatches whitelist e.call.address

def claimants (segment : Segment) (whitelist : Whitelist)
    (address : ContractAddress) (claims : Effects → List HashOutput) (coin : HashOutput) :
    List (Execution W) :=
  (tx.executed segment whitelist).filter fun e =>
    e.call.address = address ∧ coin ∈ claims e.transcript.effects

variable {tx}

theorem claimantOnce {claims : Effects → List HashOutput}
    (admitted : whitelistMatches whitelist address)
    (once : Multiset.count (segment, coin, address)
      ↑(tx.transcripts.flatMap (Execution.ownedClaims · claims)) = 1) :
    ∃ e, tx.claimants segment whitelist address claims coin = [e] := by
  have single := countFlatMapOne once
  rw [← List.length_eq_one_iff, claimants, executed, List.filter_filter,
    ← List.countP_eq_length_filter, ← single]
  refine List.countP_congr fun e _ => ?_
  simp only [Execution.ownedClaims, decide_eq_true_eq, Bool.and_eq_true, List.mem_map,
    Prod.mk.injEq]
  constructor
  · rintro ⟨⟨rfl, claimed⟩, rfl, -⟩
    exact ⟨coin, claimed, rfl, rfl, rfl⟩
  · rintro ⟨other, claimed, rfl, rfl, rfl⟩
    exact ⟨⟨rfl, claimed⟩, rfl, admitted⟩

end

section

variable {tx : StandardTransaction W.shielded}

section

variable (fallible : guaranteedSegment ∉ tx.fallibleCoins.keys) {α : Type}
include fallible

theorem segmentOffersAt (segment : Segment) :
    tx.segmentOffers.filter (fun entry => entry.1 = segment) =
      (tx.offerAt segment).toList.map fun offer => (segment, offer) := by
  rw [segmentOffers, if_neg fallible, List.filter_append, sortedIterFilter, offerAt]
  by_cases guaranteed : segment = guaranteedSegment
  · have none : tx.fallibleCoins.lookup segment = none := by
      rw [guaranteed, AList.lookup_eq_none]
      exact fun inside => fallible (AList.mem_keys.mp inside)
    rw [if_pos guaranteed, none]
    cases tx.guaranteedCoins <;> simp [guaranteed]
  · rw [if_neg guaranteed]
    cases tx.guaranteedCoins <;> simp [Ne.symm guaranteed]

theorem segmentCoins (coins : Zswap.Offer → List α) (segment : Segment) :
    (tx.segmentOffers.flatMap fun entry => (coins entry.2).map fun coin => (entry.1, coin)).filter
        (fun coin => coin.1 = segment) =
      (tx.offerAt segment).toList.flatMap fun offer => (coins offer).map fun coin =>
        (segment, coin) := by
  rw [filterFlatMap (q := fun entry => entry.1 = segment), segmentOffersAt fallible,
    List.flatMap_map]
  intro entry _ coin mem
  obtain ⟨one, -, rfl⟩ := List.mem_map.mp mem
  rfl

theorem segmentCoinsCount [DecidableEq α] (coins : Zswap.Offer → List α)
    {offer : Zswap.Offer} (found : tx.offerAt segment = some offer) (coin : α) :
    Multiset.count (segment, coin) ↑(tx.segmentOffers.flatMap fun entry =>
      (coins entry.2).map fun coin => (entry.1, coin)) = Multiset.count coin ↑(coins offer) := by
  have here := segmentCoins fallible coins segment
  rw [found] at here
  rw [← Multiset.count_filter_of_pos (p := fun c => c.1 = segment) rfl, Multiset.filter_coe, here]
  simp only [Option.toList_some, List.flatMap_cons, List.flatMap_nil, List.append_nil]
  rw [← Multiset.map_coe]
  exact Multiset.count_map_eq_count' _ _ (fun _ _ same => (Prod.mk.inj same).2) _

end

end

end StandardTransaction

variable {build : Build} {fees : U128}

section

variable {e : Execution W} {tx : StandardTransaction W}

theorem StandardTransaction.memTranscripts (mem : e ∈ tx.transcripts) :
    ∃ intent, tx.intents.lookup e.physical = some intent ∧ .call e.call ∈ intent.actions ∧
      (e.logical = guaranteedSegment ∧ e.call.guaranteedTranscript = some e.transcript ∨
        e.logical = e.physical ∧ e.call.fallibleTranscript = some e.transcript) := by
  obtain ⟨⟨segment, called⟩, inside, made⟩ := List.mem_flatMap.mp mem
  obtain ⟨⟨key, intent⟩, stands, among⟩ := List.mem_flatMap.mp inside
  obtain ⟨call, listed, pair⟩ := List.mem_map.mp among
  cases pair
  have action : .call called ∈ intent.actions := by
    obtain ⟨action, there, same⟩ := List.mem_filterMap.mp listed
    cases action <;> cases same
    exact there
  refine ⟨intent, ?_⟩
  rcases List.mem_append.mp made with first | second
  · obtain ⟨transcript, given, rfl⟩ := List.mem_map.mp first
    exact ⟨memSortedIter.mp stands, action, .inl ⟨rfl, Option.mem_toList.mp given⟩⟩
  · obtain ⟨transcript, given, rfl⟩ := List.mem_map.mp second
    exact ⟨memSortedIter.mp stands, action, .inr ⟨rfl, Option.mem_toList.mp given⟩⟩

variable {S : Services W} {context : TransactionContext W} {state next moved : LedgerState W}

/- The call at a position among those of the intent ran with its effects. -/
def RanAt (S : Services W) (guaranteed : Bool) (context : TransactionContext W) (intent : Intent W)
    (comIndices : ComIndices) (moved : LedgerState W) (position : Nat)
    (call : ContractCall W) (transcript : Transcript W) : Prop :=
  ∃ front back before cstate data effects,
    intent.actions = front ++ .call call :: back ∧
    (front.filterMap ContractAction.asCall).length = position ∧
    whitelistMatches context.whitelist call.address ∧
    call.transcript guaranteed = some transcript ∧
    moved.applyActions S front guaranteed context intent comIndices = .ok before ∧
    before.contract.lookup call.address = some cstate ∧
    S.runTranscript cstate context.blockContext intent comIndices call transcript
      moved.parameters.pricing = .ok (data, effects) ∧
    effects.same transcript.effects

variable {intent : Intent W} {guaranteed : Bool}

section

variable {comIndices : ComIndices}
  (ok : moved.applyActions S intent.actions guaranteed context intent comIndices = .ok next)

include ok

theorem LedgerState.applyActionsCall {call : ContractCall W} {transcript : Transcript W}
    {front back : List (ContractAction W)} (split : intent.actions = front ++ .call call :: back)
    (admitted : whitelistMatches context.whitelist call.address)
    (declared : call.transcript guaranteed = some transcript) : ∃ before cstate data effects,
      moved.applyActions S front guaranteed context intent comIndices = .ok before ∧
      before.contract.lookup call.address = some cstate ∧
      S.runTranscript cstate context.blockContext intent comIndices call transcript
        moved.parameters.pricing = .ok (data, effects) ∧ effects.same transcript.effects := by
  rw [applyActions, split] at ok
  obtain ⟨before, first, rest⟩ := foldlMAppend.mp ok
  obtain ⟨after, taken, -⟩ := Simulation.runCons.mp rest
  rw [applyAction, if_pos admitted, applyCall] at taken
  split at taken <;> try contradiction
  rename_i cstate present
  rw [declared] at taken
  obtain ⟨⟨data, effects⟩, ran, last⟩ := bindOk.mp taken
  dsimp only at last
  obtain ⟨same, last⟩ := thenOk.mp last
  exact ⟨before, cstate, data, effects, first, present, liftOk.mp ran, same⟩

end

variable {position : Nat} {call : ContractCall W}

theorem callStands (found : intent.calls[position]? = some call) :
    ∃ front back, intent.actions = front ++ .call call :: back ∧
      (front.filterMap ContractAction.asCall).length = position := by
  obtain ⟨small, rfl⟩ := List.getElem?_eq_some_iff.mp found
  have split : intent.actions.filterMap ContractAction.asCall =
      intent.calls.take position ++ intent.calls[position] :: intent.calls.drop (position + 1) := by
    rw [← Intent.calls, ← List.drop_eq_getElem_cons small, List.take_append_drop]
  obtain ⟨first, rest, whole, taken, dropped⟩ := List.filterMap_eq_append_iff.mp split
  obtain ⟨skipped, action, back, rfl, nothing, called, -⟩ := List.filterMap_eq_cons_iff.mp dropped
  have same : action = .call intent.calls[position] := by
    cases action <;> cases called
    rfl
  refine ⟨first ++ skipped, back, by rw [whole, same, List.append_assoc], ?_⟩
  have none : skipped.filterMap ContractAction.asCall = [] := List.filterMap_eq_nil_iff.mpr nothing
  rw [List.filterMap_append, none, taken, List.append_nil, List.length_take_of_le small.le]

theorem actionsRanAt {comIndices : ComIndices} {transcript : Transcript W}
    (ok : moved.applyActions S intent.actions guaranteed context intent comIndices = .ok next)
    (found : intent.calls[position]? = some call)
    (admitted : whitelistMatches context.whitelist call.address)
    (declared : call.transcript guaranteed = some transcript) :
    RanAt S guaranteed context intent comIndices moved position call transcript := by
  obtain ⟨front, back, split, index⟩ := callStands found
  obtain ⟨before, cstate, data, effects, ran⟩ :=
    LedgerState.applyActionsCall ok split admitted declared
  exact ⟨front, back, before, cstate, data, effects, split, index, admitted, declared, ran⟩

def sectionOf (guaranteed : Bool) (physical : Segment) : Segment :=
  if guaranteed then guaranteedSegment else physical

inductive LedgerState.ActsOn (S : Services W) (build : Build) (tx : StandardTransaction W)
    (context : TransactionContext W) (state : LedgerState W) (physical : Segment)
    (intent : Intent W) (comIndices : ComIndices) (moved : LedgerState W) : Bool → Prop where
  | guaranteed {started reached : LedgerState W} {earlier rest : List (Segment × Intent W)}
      (begun : LedgerState.Started S tx context state (started, comIndices))
      (order : sortedIter tx.intents = earlier ++ (physical, intent) :: rest)
      (before : earlier.foldlM (LedgerState.guaranteedIntent S build context comIndices) started =
        .ok reached)
      (offered : reached.applyUnshielded S build intent.guaranteedUnshieldedOffer intent
        guaranteedSegment context = .ok moved) :
      ActsOn S build tx context state physical intent comIndices moved true
  | fallible (found : tx.intents.lookup physical = some intent)
      (offered : state.applyFallibleOffers S build tx physical context = .ok (moved, comIndices)) :
      ActsOn S build tx context state physical intent comIndices moved false

theorem LedgerState.sectionActs {physical : Segment}
    (own : physical ≠ guaranteedSegment) (found : tx.intents.lookup physical = some intent)
    (ok : state.applySection S build tx fees (sectionOf guaranteed physical) context = .ok next) :
    ∃ comIndices moved after,
      ActsOn S build tx context state physical intent comIndices moved guaranteed ∧
      moved.applyActions S intent.actions guaranteed context intent comIndices = .ok after := by
  cases guaranteed with
  | true =>
    obtain ⟨-, ⟨-, applied⟩ | ⟨later, -⟩⟩ := applySectionOk ok
    · obtain ⟨started, comIndices, moved, utxo, remaining, left, begun, intents, -, -⟩ :=
        applyGuaranteedOk applied
      obtain ⟨earlier, rest, order⟩ := List.append_of_mem (memSortedIter.mpr found)
      rw [order] at intents
      obtain ⟨reached, before, following⟩ := foldlMAppend.mp intents
      obtain ⟨after, taken, -⟩ := Simulation.runCons.mp following
      obtain ⟨offered, unshielded, acted⟩ := bindOk.mp taken
      exact ⟨comIndices, offered, after, .guaranteed begun order before unshielded, acted⟩
    · exact absurd rfl later
  | false =>
    obtain ⟨-, ⟨first, -⟩ | ⟨-, applied⟩⟩ := applySectionOk ok
    · exact absurd first own
    · obtain ⟨started, comIndices, -, ⟨absent, -⟩ | ⟨other, moved, there, -, offered, acted⟩⟩ :=
        applyFallibleOk applied
      · cases absent.symm.trans found
      · cases there.symm.trans found
        exact ⟨comIndices, moved, next, .fallible found offered, acted⟩

def Execution.Ran (S : Services W) (build : Build) (tx : StandardTransaction W)
    (context : TransactionContext W) (state : LedgerState W) (e : Execution W) : Prop :=
  ∃ guaranteed intent comIndices moved position, e.logical = sectionOf guaranteed e.physical ∧
    LedgerState.ActsOn S build tx context state e.physical intent comIndices moved guaranteed ∧
    RanAt S guaranteed context intent comIndices moved position e.call e.transcript

theorem LedgerState.executedRan
    (own : ∀ segment intent, tx.intents.lookup segment = some intent → segment ≠ guaranteedSegment)
    (ok : state.applySection S build tx fees segment context = .ok next)
    (mem : e ∈ tx.executed segment context.whitelist) : e.Ran S build tx context state := by
  obtain ⟨stands, chosen⟩ := List.mem_filter.mp mem
  obtain ⟨rfl, admitted⟩ := of_decide_eq_true chosen
  obtain ⟨intent, found, action, kind⟩ := StandardTransaction.memTranscripts stands
  obtain ⟨guaranteed, within, declared⟩ : ∃ guaranteed, e.logical = sectionOf guaranteed e.physical ∧
      e.call.transcript guaranteed = some e.transcript := by
    rcases kind with given | given
    · exact ⟨true, given⟩
    · exact ⟨false, given⟩
  rw [within] at ok
  obtain ⟨comIndices, moved, after, acts, acted⟩ := sectionActs (own _ _ found) found ok
  have called : e.call ∈ intent.calls := List.mem_filterMap.mpr ⟨_, action, rfl⟩
  obtain ⟨position, here⟩ := List.getElem?_of_mem called
  exact ⟨guaranteed, intent, comIndices, moved, position, within, acts,
    actionsRanAt acted here admitted declared⟩

end

variable {epHash : Bytes → HashOutput}

namespace StandardTransaction

section

variable (tx : StandardTransaction W)

def sectionOutputs (segment : Segment) : List Payment :=
  if segment = guaranteedSegment then
    (sortedIter tx.intents).flatMap fun entry =>
      entry.2.guaranteedOutputs.map (outputPayment (entry.1, true))
  else (tx.intents.lookup segment).toList.flatMap fun intent =>
    intent.fallibleOutputs.map (outputPayment (segment, false))

def inSection (segment : Segment) (half : Segment × Bool) : Bool :=
  if segment = guaranteedSegment then half.2 else half = (segment, false)

variable {tx}

theorem transcriptsInSection (own : ∀ segment intent, tx.intents.lookup segment = some intent →
      segment ≠ guaranteedSegment) (segment : Segment) (e : Execution W)
    (mem : e ∈ tx.transcripts) : inSection segment e.half = decide (e.logical = segment) := by
  obtain ⟨intent, found, -, kind⟩ := memTranscripts mem
  have apart := own _ _ found
  unfold inSection Execution.half
  split
  · rename_i guaranteed
    rw [guaranteed]
  · rename_i fallible
    rcases kind with ⟨same, -⟩ | ⟨same, -⟩
    · simp [same, Ne.symm fallible]
    · simp [same, apart]

theorem sectionPayments (own : ∀ segment intent, tx.intents.lookup segment = some intent →
      segment ≠ guaranteedSegment) (segment : Segment) (payments : Execution W → List Payment)
    (halves : ∀ e, ∀ payment ∈ payments e, payment.1 = e.half) :
    (tx.transcripts.flatMap payments).filter (fun payment => inSection segment payment.1) =
      (tx.executed segment none).flatMap payments := by
  rw [filterFlatMap (q := fun e => decide (e.logical = segment)), executed]
  · simp [whitelistMatches]
  · intro e mem payment inside
    rw [halves e payment inside]
    exact transcriptsInSection own segment e mem

theorem sectionOutputPayments (segment : Segment) :
    tx.outputPayments.filter (fun payment => inSection segment payment.1) =
      tx.sectionOutputs segment := by
  rw [outputPayments, List.filter_flatMap, sectionOutputs]
  split
  · rename_i guaranteed
    simp [List.filter_append, List.filter_map, Function.comp_def, outputPayment, inSection,
      guaranteed]
  · rename_i fallible
    have halves : (sortedIter tx.intents).flatMap (fun entry =>
        (entry.2.guaranteedOutputs.map (outputPayment (entry.1, true)) ++
          entry.2.fallibleOutputs.map (outputPayment (entry.1, false))).filter fun payment =>
            inSection segment payment.1) =
        ((sortedIter tx.intents).flatMap fun entry =>
          entry.2.fallibleOutputs.map (outputPayment (entry.1, false))).filter fun payment =>
            payment.1.1 = segment := by
      rw [List.filter_flatMap]
      refine List.flatMap_congr fun entry _ => ?_
      simp only [List.filter_append, List.filter_map, Function.comp_def, outputPayment, inSection,
        if_neg fallible, Prod.mk.injEq, Bool.true_eq_false, and_false, decide_false, and_true,
        List.filter_false, List.map_nil, List.nil_append]
      exact congrArg _ (List.filter_congr fun _ _ => decide_eq_decide.mpr Iff.rfl)
    rw [halves, filterFlatMap (q := fun entry => decide (entry.1 = segment)), sortedIterFilter,
      List.flatMap_map]
    intro entry _ payment mem
    obtain ⟨output, -, rfl⟩ := List.mem_map.mp mem
    rfl

theorem executedListed (listed : tx.Listed whitelist)
    (segment : Segment) : tx.executed segment whitelist = tx.executed segment none := by
  refine List.filter_congr fun e mem => ?_
  obtain ⟨intent, found, action, -⟩ := memTranscripts mem
  have all : whitelistMatches none e.call.address = true := rfl
  rw [listed _ intent e.call found action, all]

end

section

variable (S : Services W.shielded) (build : Build) (tx : StandardTransaction W.shielded)
  (context : TransactionContext W.shielded)

def itemsAt (segment : Segment) : List Zswap.Item :=
  (tx.offerAt segment).toList.flatMap Zswap.Offer.items

/- Every contract that the context admits has consented to the coins that the section moves,
by one transcript that ran in it, and every claim of these transcripts is paid in it. -/
structure Consented (segment : Segment) (state : LedgerState W.shielded) : Prop where
  nullifiers : ∀ item ∈ tx.itemsAt segment, ∀ coin address,
    item.spends = some (coin, some address) → whitelistMatches context.whitelist address →
      ∃ e, tx.claimants segment context.whitelist address Effects.claimedNullifiers coin = [e]
  commitments : ∀ item ∈ tx.itemsAt segment, ∀ coin address,
    item.creates = some (coin, some address) → whitelistMatches context.whitelist address →
      ∃ e, tx.claimants segment context.whitelist address Effects.claimedShieldedReceives coin =
        [e]
  ran : ∀ e ∈ tx.executed segment context.whitelist, e.Ran S build tx context state
  spendsOnce : ((tx.executed segment context.whitelist).flatMap fun e =>
    e.transcript.effects.claimedShieldedSpends).Nodup
  spends : (↑((tx.executed segment context.whitelist).flatMap fun e =>
      e.transcript.effects.claimedShieldedSpends) : Multiset HashOutput) ≤
    ↑((tx.itemsAt segment).flatMap Zswap.Item.commitments)
  payments : tx.Listed context.whitelist →
    (↑((tx.executed segment context.whitelist).flatMap Execution.unshieldedClaims) :
        Multiset Payment) ≤
      ↑((tx.executed segment context.whitelist).flatMap Execution.unshieldedReceipts ++
        tx.sectionOutputs segment)

end

section

variable {tx : StandardTransaction W.shielded}

theorem Claimed.sectionSpends (claimed : tx.Claimed epHash)
    (fallible : guaranteedSegment ∉ tx.fallibleCoins.keys) (segment : Segment)
    (whitelist : Whitelist) :
    ((tx.executed segment whitelist).flatMap fun e =>
        e.transcript.effects.claimedShieldedSpends).Nodup ∧
      (↑((tx.executed segment whitelist).flatMap fun e =>
          e.transcript.effects.claimedShieldedSpends) : Multiset HashOutput) ≤
        ↑((tx.itemsAt segment).flatMap Zswap.Item.commitments) := by
  -- The claims of the section with their segment, as part of all claims.
  have keyed : ((tx.executed segment whitelist).flatMap fun e =>
      e.transcript.effects.claimedShieldedSpends).map (fun coin => (segment, coin)) =
      (tx.executed segment whitelist).flatMap Execution.spendClaims := by
    rw [List.map_flatMap]
    refine List.flatMap_congr fun e mem => ?_
    obtain ⟨same, -⟩ := of_decide_eq_true (List.mem_filter.mp mem).2
    rw [Execution.spendClaims, same]
  have part : ((tx.executed segment whitelist).flatMap Execution.spendClaims).Sublist
      (tx.transcripts.flatMap Execution.spendClaims) :=
    List.Sublist.flatMap List.filter_sublist _
  constructor
  · have once : ((tx.executed segment whitelist).flatMap Execution.spendClaims).Nodup :=
      part.nodup (Multiset.coe_nodup.mp claimed.spendsOnce)
    rw [← keyed] at once
    exact once.of_map
  · have within : (↑((tx.executed segment whitelist).flatMap Execution.spendClaims) :
        Multiset (Segment × HashOutput)) ≤ tx.allCommitments :=
      (Multiset.coe_le.mpr part.subperm).trans claimed.spends
    have mine : ∀ coin ∈ (↑((tx.executed segment whitelist).flatMap Execution.spendClaims) :
        Multiset (Segment × HashOutput)), coin.1 = segment := by
      intro coin mem
      rw [← keyed] at mem
      obtain ⟨value, -, rfl⟩ := List.mem_map.mp mem
      rfl
    have chosen := Multiset.le_filter.mpr ⟨within, mine⟩
    rw [allCommitments, Multiset.filter_coe, segmentCoins fallible, ← keyed] at chosen
    have values := Multiset.map_le_map (f := Prod.snd) chosen
    simpa [List.map_flatMap, Function.comp_def, itemsAt, List.flatMap_assoc,
      Zswap.Offer.commitmentsItems] using values

theorem Claimed.sectionPays (claimed : tx.Claimed epHash)
    (own : ∀ segment intent, tx.intents.lookup segment = some intent → segment ≠ guaranteedSegment)
    (listed : tx.Listed whitelist) :
    (↑((tx.executed segment whitelist).flatMap Execution.unshieldedClaims) : Multiset Payment) ≤
      ↑((tx.executed segment whitelist).flatMap Execution.unshieldedReceipts ++
        tx.sectionOutputs segment) := by
  have chosen := Multiset.filter_le_filter (fun payment => inSection segment payment.1)
    claimed.payments
  rw [claimedUnshieldedSpends, realUnshieldedSpends, Multiset.filter_coe, Multiset.filter_coe] at chosen
  simp only [Bool.decide_eq_true] at chosen
  rw [List.filter_append, sectionOutputPayments, sectionPayments own, sectionPayments own] at chosen
  · rwa [executedListed listed]
  · intro e payment mem
    obtain ⟨entry, -, rfl⟩ := List.mem_map.mp mem
    rfl
  · intro e payment mem
    obtain ⟨entry, -, rfl⟩ := List.mem_map.mp mem
    rfl

end

end StandardTransaction

theorem whitelistAdmits :
    Zswap.onWhitelist whitelist (some address) = whitelistMatches whitelist address := by
  cases whitelist <;> rfl

section

variable {S : Services W.shielded} {C : Checks W.shielded} {H : TreeHashing}
  {refused : Zswap.TransactionInvalid → W.Rejection} {reason : EffectsCheckError → W.Rejection}
  {reference state next before after : LedgerState W.shielded} {strictness : WellFormedStrictness}
  {tblock : Timestamp} {evidence : W.Evidence} {stx : StandardTransaction W.shielded}
  {context : TransactionContext W.shielded}

theorem LedgerState.sectionItems
    (ok : state.applySection (S.shielded H refused) build stx fees segment context = .ok next) :
    Simulation.run (Zswap.State.applyItem H context.whitelist) state.zswap (stx.itemsAt segment) =
      .ok next.zswap := by
  unfold StandardTransaction.itemsAt
  obtain ⟨absent, same⟩ | ⟨offer, found, applied⟩ := sectionOffer ok
  · rw [absent, same]
    rfl
  · obtain ⟨⟨reached, comIndices⟩, tried, rfl⟩ := mapOk.mp applied
    rw [found, Option.toList_some, List.flatMap_singleton]
    exact Zswap.State.tryApplyIff.mp ⟨comIndices, tried⟩

theorem StandardTransaction.memItemsAt {item : Zswap.Item} (mem : item ∈ stx.itemsAt segment) :
    ∃ offer, stx.offerAt segment = some offer ∧ stx.itemsAt segment = offer.items := by
  unfold itemsAt at mem ⊢
  cases found : stx.offerAt segment with
  | none =>
    rw [found] at mem
    cases mem
  | some offer => exact ⟨offer, rfl, by simp⟩

theorem acceptedConsented
    (accepted : stx.Accepted (S.shielded H refused) (C.claiming epHash reason) reference strictness
      tblock evidence fees)
    (ok : before.applySection (S.shielded H refused) build stx fees segment context = .ok after) :
    stx.Consented (S.shielded H refused) build context segment before := by
  have claimed := StandardTransaction.effectsCheckIff.mp (mapErrorOk.mp accepted.effects)
  have own : ∀ segment intent, stx.intents.lookup segment = some intent →
      segment ≠ guaranteedSegment :=
    fun segment intent found => (accepted.intents segment intent found).ownSegment
  have fallible : guaranteedSegment ∉ stx.fallibleCoins.keys := by
    intro inside
    obtain ⟨offer, found⟩ := Option.isSome_iff_exists.mp
      (AList.lookup_isSome.mpr (AList.mem_keys.mpr inside))
    exact (accepted.fallible _ offer found).1 rfl
  have items := LedgerState.sectionItems ok
  have spends := claimed.sectionSpends fallible segment context.whitelist
  refine ⟨?_, ?_, fun e mem => LedgerState.executedRan own ok mem, spends.1, spends.2,
    fun listed => claimed.sectionPays own listed⟩
  · intro item mem coin address given admitted
    obtain ⟨offer, found, same⟩ := StandardTransaction.memItemsAt mem
    refine StandardTransaction.claimantOnce admitted ?_
    have counts := StandardTransaction.segmentCoinsCount fallible Zswap.Offer.contractNullifiers
      found (coin, address)
    rw [Zswap.Offer.contractNullifiersItems, ← same] at counts
    refine (congrArg (Multiset.count _) claimed.nullifiers).symm.trans (counts.trans ?_)
    refine Zswap.ownedOnce (fun other spent => ?_) (Zswap.State.runRecorded items).2.1 mem given
    unfold Zswap.Item.recorded
    simp [spent, whitelistAdmits, admitted]
  · intro item mem coin address given admitted
    obtain ⟨offer, found, same⟩ := StandardTransaction.memItemsAt mem
    refine StandardTransaction.claimantOnce admitted ?_
    have counts := StandardTransaction.segmentCoinsCount fallible Zswap.Offer.contractCommitments
      found (coin, address)
    rw [Zswap.Offer.contractCommitmentsItems, ← same] at counts
    refine (congrArg (Multiset.count _) claimed.commitments).symm.trans (counts.trans ?_)
    refine Zswap.ownedOnce (fun other made => ?_) (Zswap.State.runCommitted items).2.1 mem given
    unfold Zswap.Item.commitments
    simp [made]

theorem contractCoinsConsented {vt : VerifiedTransaction W.shielded}
    {result : TransactionResult W.shielded}
    (accepted : (Transaction.standard stx).wellFormed (S.shielded H refused)
      (C.claiming epHash reason) reference strictness tblock evidence = .ok vt)
    (applied : state.apply (S.shielded H refused) build vt context = .ok (next, result)) :
    (∀ nullifier ∈ next.zswap.nullifiers, nullifier ∉ state.zswap.nullifiers →
      ∃ segment before after, LedgerState.SectionApplied (S.shielded H refused) build stx vt.fees
          context state segment before after ∧
        ∃ item ∈ stx.itemsAt segment, nullifier ∈ item.recorded context.whitelist) ∧
    (∀ commitment ∈ next.zswap.coinComsSet, commitment ∉ state.zswap.coinComsSet →
      ∃ segment before after, LedgerState.SectionApplied (S.shielded H refused) build stx vt.fees
          context state segment before after ∧
        ∃ item ∈ stx.itemsAt segment, commitment ∈ item.commitments) ∧
    ∀ segment before after, LedgerState.SectionApplied (S.shielded H refused) build stx vt.fees
        context state segment before after →
      stx.Consented (S.shielded H refused) build context segment before := by
  obtain ⟨same, checks⟩ := Transaction.wellFormedOk accepted
  have body := checks stx rfl
  refine ⟨?_, ?_, fun segment before after applies => acceptedConsented body applies.section⟩
  · intro nullifier present absent
    obtain ⟨segment, before, after, applies, without, added⟩ := LedgerState.applyResponsible
      (fun s : LedgerState W.shielded => nullifier ∈ s.zswap.nullifiers) same applied absent present
    refine ⟨segment, before, after, applies, ?_⟩
    have members := (Zswap.State.runRecorded (LedgerState.sectionItems applies.section)).1
    exact List.mem_flatMap.mp (((members nullifier).mp added).resolve_right without)
  · intro commitment present absent
    obtain ⟨segment, before, after, applies, without, added⟩ := LedgerState.applyResponsible
      (fun s : LedgerState W.shielded => commitment ∈ s.zswap.coinComsSet) same applied absent
      present
    refine ⟨segment, before, after, applies, ?_⟩
    have members := (Zswap.State.runCommitted (LedgerState.sectionItems applies.section)).1
    exact List.mem_flatMap.mp (((members commitment).mp added).resolve_right without)

end

def consentChecks : Checks shieldedComponents :=
  (Checks.lenient shieldedComponents).claiming (fun _ => 0) fun _ => ()

def receivedCoin : Zswap.Output := ⟨7, ⟨0, 0⟩, some ⟨21⟩, none⟩

def receiving : StandardTransaction shieldedComponents :=
  ⟨"net", AList.singleton 1
    ⟨none, none, [callWith { Effects.default with claimedShieldedReceives := [7] }], none, 9, ()⟩,
    none, AList.singleton 1 ⟨[], [receivedCoin], [], []⟩⟩

def receivingVerified : VerifiedTransaction shieldedComponents :=
  value ((Transaction.standard receiving).wellFormed shieldedServices consentChecks funded .default
    6 ()) (by decide +kernel)

def receivingContext (whitelist : Whitelist) : TransactionContext shieldedComponents :=
  ⟨funded, ⟨6, 0, 0, 0⟩, whitelist⟩

def received (whitelist : Whitelist) :
    Except Panic (LedgerState shieldedComponents × TransactionResult shieldedComponents) :=
  funded.apply shieldedServices .debug receivingVerified (receivingContext whitelist)

def receivedOpenly : LedgerState shieldedComponents × TransactionResult shieldedComponents :=
  value (received none) (by decide +kernel)

theorem receivedWithConsent :
    7 ∈ receivedOpenly.1.zswap.coinComsSet ∧ ∃ segment before after,
      LedgerState.SectionApplied shieldedServices .debug receiving receivingVerified.fees
          (receivingContext none) funded segment before after ∧
        (∃ item ∈ receiving.itemsAt segment, 7 ∈ item.commitments) ∧
        receiving.Consented shieldedServices .debug (receivingContext none) segment before := by
  have accepted : (Transaction.standard receiving).wellFormed shieldedServices consentChecks funded
    .default 6 () = .ok receivingVerified := valueOk _
  have applied : received none = .ok (receivedOpenly.1, receivedOpenly.2) := by
    have returned := valueOk (x := received none) (by decide +kernel)
    exact returned
  have present : (7 : HashOutput) ∈ receivedOpenly.1.zswap.coinComsSet := by decide +kernel
  obtain ⟨-, commitments, consented⟩ := contractCoinsConsented accepted applied
  obtain ⟨segment, before, after, applies, moved⟩ := commitments 7 present (by decide +kernel)
  exact ⟨present, segment, before, after, applies, moved, consented segment before after applies⟩

/- Under a whitelist that leaves the contract out, the coin is added and no transcript runs. -/
def receivedUnlisted : LedgerState shieldedComponents × TransactionResult shieldedComponents :=
  value (received (some [])) (by decide +kernel)

theorem receivedWithoutConsent :
    (Transaction.standard receiving).wellFormed shieldedServices consentChecks funded .default 6 () =
        .ok receivingVerified ∧
      received (some []) = .ok receivedUnlisted ∧ receivedCoin.contractAddress = some ⟨21⟩ ∧
      receivedCoin.coinCom ∈ receivedUnlisted.1.zswap.coinComsSet ∧
      receivedCoin.coinCom ∉ funded.zswap.coinComsSet ∧
      ∀ segment, receiving.executed segment (some []) = [] := by
  refine ⟨valueOk _, valueOk _, rfl, by decide +kernel, by decide +kernel, fun segment => ?_⟩
  exact List.filter_eq_nil_iff.mpr fun e _ => by simp [whitelistMatches]

end MidnightLedger.Ledger

import Mathlib.Data.Prod.Lex
import MidnightLedger.Zswap.Ledger
import MidnightLedger.Ledger.Frames
import MidnightLedger.Ledger.WellFormed

/-! The ledger over the Zswap state. The guaranteed section tries all fallible offers; that is
enough for each of them to apply later, whichever of the sections before it fail. Then reading the
memos of Zswap inputs with what was checked about them (ledger/src/memo_inspection.rs). -/
namespace MidnightLedger.Ledger
open Maps Words Loops Zswap.State List Simulation StandardTransaction AList LedgerState

abbrev Components.shielded (W : Components) : Components :=
  { W with ZswapOffer := Zswap.Offer, ZswapState := Zswap.State }

def Services.shielded {W : Components} (S : Services W.shielded)
    (H : TreeHashing) (reason : Zswap.TransactionInvalid → W.Rejection) :
    Services W.shielded :=
  { S with
    zswapNew := new
    zswapTryApply := fun state offer whitelist =>
      (state.tryApply H whitelist offer).mapError reason
    zswapPostBlockUpdate := fun state tblock retention => state.postBlockUpdate H tblock retention }

variable {H : TreeHashing} {W : Components} {S : Services W.shielded}
  {reason : Zswap.TransactionInvalid → W.Rejection} {build : Build}

namespace StandardTransaction

variable (tx : StandardTransaction W.shielded)

def offerAt (segment : Segment) : Option Zswap.Offer :=
  if segment = guaranteedSegment then tx.guaranteedCoins else tx.fallibleCoins.lookup segment

def offersOf (segments : List Segment) : List Zswap.Offer :=
  segments.filterMap tx.fallibleCoins.lookup

theorem sortedOffers : (sortedIter tx.fallibleCoins).map Prod.snd =
    tx.offersOf (sortedKeys tx.fallibleCoins) := by
  rw [sortedIter, offersOf, map_filterMap]
  congr 1
  funext segment
  cases tx.fallibleCoins.lookup segment <;> rfl

theorem offersOfPresent (segments : List Segment) : tx.offersOf segments =
      tx.offersOf (segments.filter fun segment => segment ∈ tx.fallibleCoins.keys) := by
  induction segments with
  | nil => rfl
  | cons segment segments ih =>
    rw [filter_cons]
    split
    · rw [offersOf, offersOf, filterMap_cons, filterMap_cons, ← offersOf, ih, ← offersOf]
    · rename_i absent
      have missing : tx.fallibleCoins.lookup segment = none := by
        rw [lookup_eq_none]
        simpa [AList.mem_keys] using absent
      rw [offersOf, filterMap_cons, missing, ← ih, offersOf]

theorem fallibleOffersSublist :
    (tx.offersOf tx.fallibleSegments).Sublist ((sortedIter tx.fallibleCoins).map Prod.snd) := by
  rw [sortedOffers, offersOfPresent]
  refine List.Sublist.filterMap _ (sublist_of_subperm_of_pairwise ?_
    ((pairwise_insertionSort (· ≤ ·) _).filter _) (pairwise_insertionSort (· ≤ ·) _))
  refine subperm_of_subset (List.Nodup.filter _ ?_) ?_
  · exact (perm_insertionSort _ _).nodup_iff.mpr (nodup_dedup _)
  · intro segment mem
    have present := (mem_filter.mp mem).2
    rw [sortedKeys, mem_insertionSort]
    simpa using present

end StandardTransaction

variable {offer : Zswap.Offer} {context : TransactionContext W.shielded} {segment : Segment}

namespace LedgerState

variable {state next guaranteed final : LedgerState W.shielded}
  {tx : StandardTransaction W.shielded} {fees : U128}

section

variable (H) (whitelist : Whitelist)

def applyOffer (zswap : Zswap.State) (offer : Zswap.Offer) :
    Except Zswap.TransactionInvalid Zswap.State :=
  (zswap.tryApply H whitelist offer).map Prod.fst

end

def applyOffers {W : Components} (S : Services W) (tx : StandardTransaction W)
    (whitelist : Whitelist) (state : LedgerState W) (segments : List Segment) :
    Applied W (LedgerState W) :=
  segments.foldlM (fun s segment =>
    (s.applyZswapOption S (tx.fallibleCoins.lookup segment) whitelist).map Prod.fst) state

variable (S reason) in
theorem applyZswapOptionSome {whitelist : Whitelist}
    {zswap : Zswap.State} (ok : applyOffer H whitelist state.zswap offer = .ok zswap) :
    ∃ comIndices, state.applyZswapOption (S.shielded H reason) (some offer) whitelist =
      .ok ({ state with zswap := zswap }, comIndices) := by
  obtain ⟨⟨reached, comIndices⟩, applied, rfl⟩ := mapOk.mp ok
  exact ⟨comIndices, bindOk.mpr ⟨(reached, comIndices), liftOk.mpr (mapErrorOk.mpr applied), rfl⟩⟩

theorem offersTried (ok : state.checkFallibleOffers (S.shielded H reason) tx context = .ok ()) :
    ∃ zswap, run (applyOffer H context.whitelist) state.zswap
      ((sortedIter tx.fallibleCoins).map Prod.snd) = .ok zswap := by
  obtain ⟨zswap, tried, -⟩ := bindOk.mp ok
  refine ⟨zswap, runMapped (fun {s entry t} taken => ?_) tried⟩
  obtain ⟨⟨reached, comIndices⟩, applied, rfl⟩ := pureOk.mp taken
  exact mapOk.mpr ⟨_, mapErrorOk.mp (liftOk.mp applied), rfl⟩

section

variable {whitelist : Whitelist} {s t next : Zswap.State} (behind : s.Behind t)
  (ok : applyOffer H whitelist t offer = .ok next)

include behind ok

theorem applyOfferSkip : s.Behind next := by
  obtain ⟨⟨reached, comIndices⟩, applied, rfl⟩ := mapOk.mp ok
  exact offerSkip behind applied

theorem applyOfferFollow : ∃ s', applyOffer H whitelist s offer = .ok s' ∧ s'.Behind next := by
  obtain ⟨⟨reached, comIndices⟩, applied, rfl⟩ := mapOk.mp ok
  obtain ⟨s', mine, follows, kept⟩ := offerFollow behind applied
  exact ⟨s', mapOk.mpr ⟨_, follows, rfl⟩, kept⟩

end

variable {selected : List Segment}

theorem selectionApplies (sub : selected.Sublist tx.fallibleSegments)
    (ok : state.checkFallibleOffers (S.shielded H reason) tx context = .ok ()) :
    ∃ zswap, run (applyOffer H context.whitelist) state.zswap (tx.offersOf selected) =
      .ok zswap := by
  obtain ⟨last, tried⟩ := offersTried ok
  have chosen := (List.Sublist.filterMap tx.fallibleCoins.lookup sub).trans tx.fallibleOffersSublist
  obtain ⟨zswap, runs, -⟩ := runSublist applyOfferSkip applyOfferFollow chosen (behindSelf _) tried
  exact ⟨zswap, runs⟩

theorem applyOffersOk {whitelist : Whitelist} {zswap : Zswap.State}
    (ok : run (applyOffer H whitelist) state.zswap (tx.offersOf selected) = .ok zswap) :
    state.applyOffers (S.shielded H reason) tx whitelist selected =
      .ok { state with zswap := zswap } := by
  induction selected generalizing state with
  | nil =>
    cases runNil.mp ok
    rfl
  | cons segment selected ih =>
    rw [applyOffers, foldlM_cons, bindOk]
    rw [offersOf, filterMap_cons] at ok
    cases found : tx.fallibleCoins.lookup segment with
    | none =>
      rw [found] at ok
      exact ⟨state, rfl, ih ok⟩
    | some offer =>
      rw [found] at ok
      obtain ⟨reached, taken, rest⟩ := runCons.mp ok
      obtain ⟨comIndices, applied⟩ := applyZswapOptionSome S reason taken
      exact ⟨_, mapOk.mpr ⟨_, applied, rfl⟩, ih rest⟩

theorem sectionOffer
    (ok : state.applySection (S.shielded H reason) build tx fees segment context = .ok next) :
    (tx.offerAt segment = none ∧ next.zswap = state.zswap) ∨ ∃ offer,
      tx.offerAt segment = some offer ∧
        applyOffer H context.whitelist state.zswap offer = .ok next.zswap := by
  rw [offerAt]
  obtain ⟨-, ⟨rfl, body⟩ | ⟨fallible, body⟩⟩ := applySectionOk ok
  · obtain ⟨started, comIndices, before, -, same⟩ := applyGuaranteedStarted body
    obtain ⟨zswap, reached, choice⟩ := applyZswapOptionOk before.offered
    rw [if_pos rfl, same]
    obtain ⟨absent, kept, -⟩ | ⟨offer, found, tried⟩ := choice <;> rw [reached]
    · exact .inl ⟨absent, kept⟩
    · exact .inr ⟨offer, found, mapOk.mpr ⟨_, mapErrorOk.mp tried, rfl⟩⟩
  · obtain ⟨started, comIndices, offered, -, same⟩ := applyFallibleStarted body
    obtain ⟨zswap, rfl, choice⟩ := applyZswapOptionOk offered
    rw [if_neg fallible, same]
    obtain ⟨absent, kept, -⟩ | ⟨offer, found, tried⟩ := choice
    · exact .inl ⟨absent, kept⟩
    · exact .inr ⟨offer, found, mapOk.mpr ⟨_, mapErrorOk.mp tried, rfl⟩⟩

theorem fallibleOffersApplied {earlier : List Segment}
    {before after : LedgerState W.shielded × Log W.shielded}
    (fallible : ∀ segment ∈ earlier, segment ≠ guaranteedSegment)
    (ok : earlier.foldlM (fallibleStep (S.shielded H reason) build tx fees context) before =
      .ok after) :
    ∃ applied, applied.Sublist earlier ∧
      run (applyOffer H context.whitelist) before.1.zswap (tx.offersOf applied) =
        .ok after.1.zswap := by
  induction earlier generalizing before with
  | nil =>
    cases runNil.mp ok
    exact ⟨[], .slnil, rfl⟩
  | cons segment earlier ih =>
    obtain ⟨middle, taken, rest⟩ := runCons.mp ok
    obtain ⟨applied, sub, runs⟩ := ih (forall_mem_cons.mp fallible).2 rest
    rw [fallibleStep] at taken
    split at taken <;> try contradiction
    · rename_i reached applies
      cases taken
      refine ⟨segment :: applied, sub.cons_cons segment, ?_⟩
      have here := sectionOffer applies
      rw [offerAt, if_neg (fallible segment mem_cons_self)] at here
      rw [offersOf, filterMap_cons]
      obtain ⟨absent, kept⟩ | ⟨offer, found, tried⟩ := here
      · rw [absent, ← kept]
        exact runs
      · rw [found]
        exact runCons.mpr ⟨reached.zswap, tried, runs⟩
    · cases taken
      exact ⟨applied, sub.cons segment, runs⟩

theorem shieldedOffersInfragile {earlier rest : List Segment}
    (ok : state.applySection (S.shielded H reason) build tx fees guaranteedSegment context =
      .ok guaranteed)
    (order : tx.fallibleSegments = earlier ++ segment :: rest) :
    (∀ applied, applied.Sublist earlier → ∃ before after,
      guaranteed.applyOffers (S.shielded H reason) tx context.whitelist applied = .ok before ∧
      before.applyZswapOption (S.shielded H reason) (tx.fallibleCoins.lookup segment)
        context.whitelist = .ok after) ∧
    (∀ log final results, earlier.foldlM (fallibleStep (S.shielded H reason) build tx fees context)
        (guaranteed, log) = .ok (final, results) →
      ∃ after, final.applyZswapOption (S.shielded H reason) (tx.fallibleCoins.lookup segment)
        context.whitelist = .ok after) := by
  obtain ⟨-, ⟨-, body⟩ | ⟨fallible, -⟩⟩ := applySectionOk ok
  · obtain ⟨started, comIndices, before, -, same⟩ := applyGuaranteedStarted body
    have tried := before.applicable
    have next : ∀ {applied : List Segment} (reached : LedgerState W.shielded),
        applied.Sublist earlier →
        run (applyOffer H context.whitelist) guaranteed.zswap (tx.offersOf applied) =
          .ok reached.zswap →
        ∃ after, reached.applyZswapOption (S.shielded H reason) (tx.fallibleCoins.lookup segment)
          context.whitelist = .ok after := by
      intro applied reached sub runs
      cases found : tx.fallibleCoins.lookup segment with
      | none => exact ⟨(reached, ∅), rfl⟩
      | some offer =>
        have selected : (applied ++ [segment]).Sublist tx.fallibleSegments := by
          rw [order]
          exact sub.append (singleton_sublist.mpr mem_cons_self)
        obtain ⟨zswap, all⟩ := selectionApplies selected tried
        rw [offersOf, filterMap_append] at all
        obtain ⟨middle, first, second⟩ := foldlMAppend.mp all
        rw [same] at runs
        cases first.symm.trans runs
        rw [filterMap_cons, found] at second
        obtain ⟨beyond, taken, -⟩ := runCons.mp second
        obtain ⟨indices, offered⟩ := applyZswapOptionSome S reason taken
        exact ⟨_, offered⟩
    constructor
    · intro applied sub
      have selected : applied.Sublist tx.fallibleSegments := by
        rw [order]
        exact sub.trans (sublist_append_left ..)
      obtain ⟨zswap, runs⟩ := selectionApplies selected tried
      rw [← same] at runs
      obtain ⟨after, later⟩ := next { guaranteed with zswap := zswap } sub runs
      exact ⟨_, after, applyOffersOk runs, later⟩
    · intro log final results reached
      obtain ⟨applied, sub, runs⟩ := fallibleOffersApplied (fun s mem => fallibleNotGuaranteed
        (order ▸ mem_append_left _ mem)) reached
      exact next final sub runs
  · exact absurd rfl fallible

end LedgerState

abbrev shieldedComponents : Components := sampleComponents.shielded

def plainServices : Services shieldedComponents where
  userAddress := sampleServices.userAddress
  schnorrVerify := sampleServices.schnorrVerify
  ecdsaVerify := sampleServices.ecdsaVerify
  updateData := sampleServices.updateData
  intentHash := fun intent segment =>
    ⟨BitVec.ofNat 256 (intent.ttl.toNat * 65536 + segment.val)⟩
  initialNonce := sampleServices.initialNonce
  outputHash := sampleServices.outputHash
  deployAddress := fun deploy => ⟨deploy.nonce⟩
  authoritySize := sampleServices.authoritySize
  operationSize := sampleServices.operationSize
  dustFirstNonce := sampleServices.dustFirstNonce
  dustCommitment := sampleServices.dustCommitment
  commitmentHash := sampleServices.commitmentHash
  generationHash := sampleServices.generationHash
  nullData := ()
  runTranscript := fun _ _ _ _ _ transcript _ => .ok ((), transcript.effects)
  zswapNew := new
  zswapTryApply := fun state _ _ => .ok (state, ∅)
  zswapPostBlockUpdate := fun state _ _ => state
  minClaimableRewards := fun _ => 0
  updatePricing := fun _ _ => ()
  withinLimits := fun _ => true

abbrev shieldedServices : Services shieldedComponents :=
  plainServices.shielded sampleHashing (fun _ => ())

def shieldedParameters : LedgerParameters shieldedComponents where
  pricing := ()
  transactionByteLimit := 1000
  maxContractMetadataSize := 1000
  dust := ⟨5, 1, 0⟩
  globalTtl := 1000
  cardanoToMidnightBridgeFeeBasisPoints := 0
  cToMBridgeMinAmount := 0

def shieldedGenesis : LedgerState shieldedComponents :=
  value (LedgerState.withGenesisSettings shieldedServices .debug "net" shieldedParameters 0
    (BitVec.ofNat 128 maxSupply) 0) (by decide +kernel)

def shieldedContext : TransactionContext shieldedComponents := ⟨shieldedGenesis, ⟨5, 0, 0, 0⟩, none⟩

def sampleOutput (coinCom : Zswap.Commitment) : Zswap.Offer :=
  ⟨[], [⟨coinCom, ⟨0, 0⟩, none, none⟩], [], []⟩

def twoOffers : StandardTransaction shieldedComponents :=
  ⟨"net", ∅, none, insert 1 (sampleOutput 7) (singleton 2 (sampleOutput 8))⟩

def twoOffersGuaranteed : LedgerState shieldedComponents :=
  value (shieldedGenesis.applySection shieldedServices .debug twoOffers 0 guaranteedSegment
    shieldedContext) (by decide +kernel)

theorem secondOfferApplies : ∃ before after,
    twoOffersGuaranteed.applyOffers shieldedServices twoOffers none [] = .ok before ∧
      before.applyZswapOption shieldedServices (twoOffers.fallibleCoins.lookup 2) none =
        .ok after := by
  have ok : shieldedGenesis.applySection shieldedServices .debug twoOffers 0 guaranteedSegment
      shieldedContext = .ok twoOffersGuaranteed := valueOk _
  have order : twoOffers.fallibleSegments = [1] ++ 2 :: [] := by decide
  exact (shieldedOffersInfragile ok order).1 [] (nil_sublist _)

open ByteString

inductive MemoTrust where
  | unverified
  | authenticated
  | invalid
  deriving DecidableEq, Repr

structure MemoInspection where
  nullifier : Zswap.Nullifier
  segment : Segment
  ledgerVersion : String
  memo : Bytes
  trust : MemoTrust
  deriving DecidableEq, Repr

namespace MemoInspection

def carrier (record : MemoInspection) : Segment × Zswap.Nullifier × Bytes :=
  (record.segment, record.nullifier, record.memo)

/- Hashes are read as big-endian numbers, so this is the order of their bytes. -/
def key (record : MemoInspection) : Lex (Segment × Nat) :=
  toLex (record.segment, record.nullifier.toNat)

def Precedes (a b : MemoInspection) : Prop := a.key ≤ b.key

instance : DecidableRel Precedes := fun a b => inferInstanceAs (Decidable (a.key ≤ b.key))

instance : Std.Total Precedes := ⟨fun a b => le_total a.key b.key⟩

instance : IsTrans MemoInspection Precedes := ⟨fun _ _ _ first second => le_trans first second⟩

end MemoInspection

def recordsOfOffer (version : String) (trust : MemoTrust) (segment : Segment) (offer : Zswap.Offer) :
    List MemoInspection :=
  offer.inputs.filterMap fun input =>
    input.memo.map fun memo => ⟨input.nullifier, segment, version, memo, trust⟩

/- The records are sorted once more, for offers that are not in normal form. -/
def recordsOfStandard (stx : StandardTransaction W.shielded) (version : String) (trust : MemoTrust) :
    List MemoInspection :=
  ((stx.guaranteedCoins.map (recordsOfOffer version trust guaranteedSegment)).getD [] ++
    (sortedIter stx.fallibleCoins).flatMap fun entry =>
      recordsOfOffer version trust entry.1 entry.2).insertionSort MemoInspection.Precedes

def recordsOfTransaction (tx : Transaction W.shielded) (version : String) (trust : MemoTrust) :
    List MemoInspection :=
  match tx with
  | .standard stx => recordsOfStandard stx version trust
  | .claimRewards _ => []

def trustAfterApplication (segment : Segment) : TransactionResult W → MemoTrust
  | .success => .authenticated
  | .failure _ => .invalid
  | .partialSuccess segments =>
    match segments.lookup segment with
    | some none => .authenticated
    | _ => .invalid

def recordsAfterApplication (tx : VerifiedTransaction W.shielded)
    (result : TransactionResult W.shielded) (version : String) : List MemoInspection :=
  (recordsOfTransaction tx.inner version .unverified).map fun record =>
    { record with trust := trustAfterApplication record.segment result }

def LedgerState.validateApplyAndInspectMemos (S : Services W.shielded) (C : Checks W.shielded)
    (build : Build) (version : String) (state : LedgerState W.shielded)
    (tx : Transaction W.shielded) (evidence : W.Evidence) (block : BlockContext) :
    Outcome (MalformedTransaction W.shielded)
      (LedgerState W.shielded × TransactionResult W.shielded × List MemoInspection) := do
  let verified ← lift id (tx.wellFormed S C state .default block.tblock evidence)
  match state.apply S build verified ⟨state, block, none⟩ with
  | .ok (next, result) => .ok (next, result, recordsAfterApplication verified result version)
  | .error .panic => .error .panic

def offerMemos (segment : Segment) (offer : Zswap.Offer) :
    List (Segment × Zswap.Nullifier × Bytes) :=
  offer.inputs.filterMap fun input => input.memo.map fun memo => (segment, input.nullifier, memo)

def Transaction.memoInputs : Transaction W.shielded → List (Segment × Zswap.Nullifier × Bytes)
  | .standard stx =>
    (stx.guaranteedCoins.map (offerMemos guaranteedSegment)).getD [] ++
      stx.fallibleCoins.entries.flatMap fun entry => offerMemos entry.1 entry.2
  | .claimRewards _ => []

theorem offerCarriers (version : String) (trust : MemoTrust) (segment : Segment)
    (offer : Zswap.Offer) :
    (recordsOfOffer version trust segment offer).map MemoInspection.carrier =
      offerMemos segment offer := by
  rw [recordsOfOffer, offerMemos, map_filterMap]
  congr 1
  funext input
  cases input.memo <;> rfl

variable {nullifier : Zswap.Nullifier}

theorem memOfferMemos {other : Segment} {memo : Bytes} :
    (other, nullifier, memo) ∈ offerMemos segment offer ↔ other = segment ∧
      ∃ input ∈ offer.inputs, input.nullifier = nullifier ∧ input.memo = some memo := by
  simp only [offerMemos, mem_filterMap, Option.map_eq_some_iff, Prod.mk.injEq]
  constructor
  · rintro ⟨input, mem, found, given, rfl, rfl, rfl⟩
    exact ⟨rfl, input, mem, rfl, given⟩
  · rintro ⟨rfl, input, mem, rfl, found⟩
    exact ⟨input, mem, memo, found, rfl, rfl, rfl⟩

section

variable (tx : VerifiedTransaction W.shielded) (result : TransactionResult W.shielded)
  (version : String)

theorem recordsSorted :
    (recordsAfterApplication tx result version).Pairwise MemoInspection.Precedes := by
  rw [recordsAfterApplication, pairwise_map]
  have sorted : (recordsOfTransaction tx.inner version .unverified).Pairwise
      MemoInspection.Precedes := by
    cases tx.inner with
    | standard stx => exact pairwise_insertionSort _ _
    | claimRewards rewards => exact List.Pairwise.nil
  exact sorted

theorem recordsPerm : ((recordsAfterApplication tx result version).map MemoInspection.carrier).Perm
      tx.inner.memoInputs := by
  have carriers : (recordsAfterApplication tx result version).map MemoInspection.carrier =
      (recordsOfTransaction tx.inner version .unverified).map MemoInspection.carrier := by
    rw [recordsAfterApplication, map_map]
    rfl
  rw [carriers]
  cases tx.inner with
  | claimRewards rewards => exact List.Perm.refl _
  | standard stx =>
    refine ((perm_insertionSort _ _).map _).trans ?_
    rw [map_append, map_flatMap, Transaction.memoInputs]
    simp only [offerCarriers]
    have first : ((stx.guaranteedCoins.map
        (recordsOfOffer version .unverified guaranteedSegment)).getD []).map
        MemoInspection.carrier =
        (stx.guaranteedCoins.map (offerMemos guaranteedSegment)).getD [] := by
      cases stx.guaranteedCoins with
      | none => rfl
      | some offer => exact offerCarriers ..
    rw [first]
    have rest := (sortedIterPerm stx.fallibleCoins).flatMap_right fun entry =>
      offerMemos entry.1 entry.2
    rw [flatMap_map] at rest
    exact rest.append_left _

end

section

variable {C : Checks W.shielded} {state next : LedgerState W.shielded}
  {stx : StandardTransaction W.shielded} {fees : U128}

theorem trustOfLog {final : Log W} {outcome : Option (TransactionInvalid W)}
    (nodup : (final.map Prod.fst).Nodup) (mem : (segment, outcome) ∈ final) :
    trustAfterApplication segment (resultOf final) = .authenticated ↔ outcome = none := by
  rw [resultOf]
  split
  · rename_i every
    have empty := all_eq_true.mp every _ mem
    simp only [trustAfterApplication, true_iff]
    exact Option.isNone_iff_eq_none.mp empty
  · obtain ⟨earlier, later, rfl⟩ := append_of_mem mem
    have found : (earlier ++ (segment, outcome) :: later).lookup segment = some outcome := by
      refine lookup_eq_some_iff.mpr ⟨earlier, later, rfl, fun entry inside => ?_⟩
      rw [map_append, map_cons] at nodup
      have apart := (nodup_append.mp nodup).2.2 entry.1 (mem_map_of_mem inside) segment
        mem_cons_self
      simpa using Ne.symm apart
    simp only [trustAfterApplication, found]
    cases outcome <;> simp

theorem sectionNullifiers
    (ok : state.applySection (S.shielded H reason) build stx fees segment context = .ok next) :
    state.zswap.nullifiers ⊆ next.zswap.nullifiers := by
  obtain ⟨-, same⟩ | ⟨offer, -, applied⟩ := sectionOffer ok
  · rw [same]
    exact List.Subset.refl _
  · obtain ⟨⟨reached, indices⟩, tried, same⟩ := mapOk.mp applied
    cases same
    exact (Zswap.State.runGrowing (Zswap.State.tryApplyIff.mp ⟨indices, tried⟩)).1

theorem sectionSpends {input : Zswap.Input}
    (unlisted : context.whitelist = none) (given : stx.offerAt segment = some offer)
    (mem : input ∈ offer.inputs)
    (ok : state.applySection (S.shielded H reason) build stx fees segment context = .ok next) :
    input.nullifier ∉ state.zswap.nullifiers ∧ input.nullifier ∈ next.zswap.nullifiers := by
  obtain ⟨absent, -⟩ | ⟨found, same, applied⟩ := sectionOffer ok
  · cases given.symm.trans absent
  · cases given.symm.trans same
    obtain ⟨⟨reached, indices⟩, tried, last⟩ := mapOk.mp applied
    cases last
    have item : Zswap.Item.input input ∈ offer.items := mem_append_left _ (mem_map_of_mem mem)
    obtain ⟨unspent, recorded, -⟩ :=
      Zswap.State.runMember item (Zswap.State.tryApplyIff.mp ⟨indices, tried⟩)
    refine ⟨unspent _ rfl, recorded ?_⟩
    rw [unlisted]
    exact mem_singleton.mpr rfl

def Transaction.SegmentApplied (S : Services W.shielded) (C : Checks W.shielded) (build : Build)
    (tx : Transaction W.shielded) (state : LedgerState W.shielded) (evidence : W.Evidence)
    (block : BlockContext) (segment : Segment) : Prop :=
  ∃ verified stx before after,
    tx.wellFormed S C state .default block.tblock evidence = .ok verified ∧
    verified.inner = .standard stx ∧
    LedgerState.SectionApplied S build stx verified.fees ⟨state, block, none⟩ state segment
      before after

variable {memo : Bytes}

theorem memMemoInputs (fallible : ∀ segment offer, stx.fallibleCoins.lookup segment = some offer →
      segment ≠ guaranteedSegment)
    (mem : (segment, nullifier, memo) ∈ (Transaction.standard stx).memoInputs) :
    segment ∈ guaranteedSegment :: stx.fallibleSegments ∧ ∃ offer input,
      stx.offerAt segment = some offer ∧ input ∈ offer.inputs ∧ input.nullifier = nullifier := by
  rcases mem_append.mp mem with first | rest
  · cases given : stx.guaranteedCoins with
    | none =>
      rw [given] at first
      cases first
    | some offer =>
      rw [given] at first
      obtain ⟨rfl, input, inside, named, -⟩ := memOfferMemos.mp first
      exact ⟨mem_cons_self, offer, input, (if_pos rfl).trans given, inside, named⟩
  · obtain ⟨⟨other, offer⟩, entry, inside⟩ := mem_flatMap.mp rest
    obtain ⟨rfl, input, mine, named, -⟩ := memOfferMemos.mp inside
    have found := mem_lookup_iff.mpr entry
    have later := fallible _ offer found
    refine ⟨mem_cons_of_mem _ (StandardTransaction.memFallibleSegments.mpr ⟨.inr ?_, later⟩),
      offer, input, (if_neg later).trans found, mine, named⟩
    exact mem_keys.mpr (lookup_isSome.mp (by rw [found]; rfl))

theorem validateApplyAndInspectMemosOk {version : String} {tx : Transaction W.shielded}
    {evidence : W.Evidence} {block : BlockContext} {result : TransactionResult W.shielded}
    {records : List MemoInspection}
    (ok : state.validateApplyAndInspectMemos S C build version tx evidence block =
      .ok (next, result, records)) :
    ∃ verified, tx.wellFormed S C state .default block.tblock evidence = .ok verified ∧
      state.apply S build verified ⟨state, block, none⟩ = .ok (next, result) ∧
      records = recordsAfterApplication verified result version := by
  obtain ⟨verified, accepted, rest⟩ := bindOk.mp ok
  refine ⟨verified, liftOk.mp accepted, ?_⟩
  split at rest <;> try contradiction
  rename_i applied
  cases rest
  exact ⟨applied, rfl⟩

theorem authenticatedIff {guaranteed : LedgerState W.shielded} {final : Log W.shielded}
    (unlisted : context.whitelist = none)
    (fallible : ∀ segment offer, stx.fallibleCoins.lookup segment = some offer →
      segment ≠ guaranteedSegment)
    (passed : state.applySection (S.shielded H reason) build stx fees guaranteedSegment context =
      .ok guaranteed) (run : stx.fallibleSegments.foldlM
      (fallibleStep (S.shielded H reason) build stx fees context)
      (guaranteed, firstLog) = .ok (next, final))
    (mem : (segment, nullifier, memo) ∈ (Transaction.standard stx).memoInputs) :
    trustAfterApplication segment (resultOf final) = .authenticated ↔
      nullifier ∈ next.zswap.nullifiers ∧ nullifier ∉ state.zswap.nullifiers ∧
        ∃ before after, SectionApplied (S.shielded H reason) build stx fees context
          state segment before after := by
  obtain ⟨logged, offer, input, given, inside, rfl⟩ := memMemoInputs fallible mem
  obtain ⟨keys, each⟩ := logApplied passed run
  have nodup : (final.map Prod.fst).Nodup := by
    rw [keys]
    exact nodup_cons.mpr ⟨fun here => fallibleNotGuaranteed here rfl, stx.fallibleSegmentsNodup⟩
  rw [← keys] at logged
  obtain ⟨⟨segment, outcome⟩, entry, rfl⟩ := mem_map.mp logged
  rw [trustOfLog nodup entry, each _ _ entry]
  refine ⟨?_, fun ⟨_, _, applied⟩ => applied⟩
  rintro ⟨before, after, applies⟩
  have grown := applies.within (fun s t => s.zswap.nullifiers ⊆ t.zswap.nullifiers)
    (fun s => List.Subset.refl _) (fun first second => List.Subset.trans first second)
    sectionNullifiers passed run
  obtain ⟨unspent, spent⟩ := sectionSpends unlisted given inside applies.section
  exact ⟨grown.2 spent, fun early => unspent (grown.1 early), before, after, applies⟩

theorem memoRecordsExact {version : String} {tx : Transaction W.shielded}
    {evidence : W.Evidence} {block : BlockContext} {result : TransactionResult W.shielded}
    {records : List MemoInspection}
    (ok : state.validateApplyAndInspectMemos (S.shielded H reason) C build version tx evidence
      block = .ok (next, result, records)) :
    (records.map MemoInspection.carrier).Perm tx.memoInputs ∧
      records.Pairwise MemoInspection.Precedes ∧
      ∀ record ∈ records, record.trust = .authenticated ↔
        record.nullifier ∈ next.zswap.nullifiers ∧ record.nullifier ∉ state.zswap.nullifiers ∧
          tx.SegmentApplied (S.shielded H reason) C build state evidence block record.segment := by
  obtain ⟨verified, accepted, applied, rfl⟩ := validateApplyAndInspectMemosOk ok
  obtain ⟨same, checks⟩ := Transaction.wellFormedOk accepted
  have carriers := recordsPerm verified result version
  refine ⟨same ▸ carriers, recordsSorted verified result version, fun record mem => ?_⟩
  have carried : record.carrier ∈ verified.inner.memoInputs :=
    carriers.mem_iff.mp (mem_map_of_mem mem)
  obtain ⟨plain, -, rfl⟩ := mem_map.mp mem
  obtain ⟨e, rfl, rfl⟩ | ⟨rewards, claim, -, -⟩ |
    ⟨stx, guaranteed, final, standard, rfl, passed, run⟩ := applyOk applied
  · exact ⟨nofun, fun ⟨now, before, _⟩ => absurd now before⟩
  · rw [claim] at carried
    cases carried
  · rw [standard] at carried
    have fallible := fun segment offer found =>
      ((checks stx (same.symm.trans standard)).fallible segment offer found).1
    refine (authenticatedIff rfl fallible passed run carried).trans ?_
    refine and_congr_right fun _ => and_congr_right fun _ => ?_
    constructor
    · rintro ⟨before, after, applies⟩
      exact ⟨verified, stx, before, after, accepted, standard, applies⟩
    · rintro ⟨again, other, before, after, accepts, shape, applies⟩
      cases accepts.symm.trans accepted
      cases shape.symm.trans standard
      exact ⟨before, after, applies⟩

end

def memoState : LedgerState shieldedComponents :=
  value (Simulation.run (step shieldedServices .debug) shieldedGenesis
    [.transaction ⟨.standard twoOffers, 0, 0⟩ shieldedContext, .postBlock 6 ()]) (by decide +kernel)

def memoTransaction : Transaction shieldedComponents :=
  .standard ⟨"net", ∅, none,
    singleton 1 ⟨[⟨9, ⟨0, 0⟩, none, memoState.zswap.coinComs.digest sampleHashing,
      some [104, 105]⟩], [], [], []⟩⟩

def memoOutcome : LedgerState shieldedComponents × TransactionResult shieldedComponents ×
    List MemoInspection :=
  value (memoState.validateApplyAndInspectMemos shieldedServices (.lenient _) .debug "v8"
    memoTransaction () ⟨7, 0, 0, 0⟩) (by decide +kernel)

theorem sampleMemoAuthenticated :
    memoOutcome.2.2 = [⟨9, 1, "v8", [104, 105], .authenticated⟩] ∧
      9 ∈ memoOutcome.1.zswap.nullifiers := by
  have ok : memoState.validateApplyAndInspectMemos shieldedServices (.lenient _) .debug "v8"
      memoTransaction () ⟨7, 0, 0, 0⟩ = .ok (memoOutcome.1, memoOutcome.2.1, memoOutcome.2.2) := by
    have returned := valueOk (x := memoState.validateApplyAndInspectMemos shieldedServices
      (.lenient _) .debug "v8" memoTransaction () ⟨7, 0, 0, 0⟩) (by decide +kernel)
    exact returned
  have records : memoOutcome.2.2 = [⟨9, 1, "v8", [104, 105], .authenticated⟩] := by decide +kernel
  refine ⟨records, ?_⟩
  have authentic := (memoRecordsExact ok).2.2
  rw [records] at authentic
  exact ((authentic _ mem_cons_self).mp rfl).1

end MidnightLedger.Ledger

import MidnightLedger.Ledger.Frames

/-! Replay protection over runs. An intent carries its time to live and has expired when its hash is
dropped; a claim gets it from the block it is made in and can be made again. -/
namespace MidnightLedger.Ledger
open ByteString Maps Words Loops List TimeFilterMap Simulation LedgerState Option AList

namespace TimeFilterMap

variable {A : Type} [DecidableEq A] {m : TimeFilterMap A} {v w : A} {ts time cutoff : Timestamp}

def Stored (m : TimeFilterMap A) (ts : Timestamp) (v : A) : Prop :=
  ∃ xs, m.timeMap.lookup ts = some xs ∧ v ∈ xs

structure Consistent (m : TimeFilterMap A) : Prop where
  contained : ∀ {ts v}, m.Stored ts v → m.contains v
  single : ∀ {ts time v}, m.Stored ts v → m.Stored time v → ts = time

omit [DecidableEq A] in
theorem emptyStored : ¬ (empty : TimeFilterMap A).Stored ts v := by
  rintro ⟨xs, found, -⟩
  cases found

theorem emptyConsistent : (empty : TimeFilterMap A).Consistent where
  contained stored := absurd stored emptyStored
  single stored := absurd stored emptyStored

theorem storedUpsertOne :
    (m.upsertOne ts v).Stored time w ↔ m.Stored time w ∨ (time = ts ∧ w = v) := by
  by_cases here : time = ts
  · subst here
    simp only [Stored, upsertOne, lookup_insert, some.injEq, exists_eq_left', true_and]
    cases found : m.timeMap.lookup time with
    | none => simp
    | some xs =>
      simp only [getD_some, some.injEq, exists_eq_left']
      split
      · rename_i inside
        exact ⟨.inl, fun either => either.elim id fun same => same ▸ inside⟩
      · simp
  · simp [Stored, upsertOne, lookup_insert_ne here, here]

theorem containsUpsertOne : (m.upsertOne ts v).contains w ↔ m.contains w ∨ w = v := by
  by_cases same : w = v
  · subst same
    simp [contains, upsertOne]
  · simp [contains, upsertOne, lookup_insert_ne same, same]

theorem consistentUpsertOne (consistent : m.Consistent) (fresh : m.contains v = false) :
    (m.upsertOne ts v).Consistent := by
  have unstored : ∀ {time}, ¬ m.Stored time v := fun stored => by
    rw [consistent.contained stored] at fresh
    cases fresh
  constructor
  · intro time w stored
    refine containsUpsertOne.mpr ((storedUpsertOne.mp stored).imp consistent.contained And.right)
  · intro first second w left right
    rcases storedUpsertOne.mp left with old | ⟨rfl, rfl⟩ <;>
      rcases storedUpsertOne.mp right with kept | ⟨rfl, same⟩
    · exact consistent.single old kept
    · exact absurd (same ▸ old) unstored
    · exact absurd kept unstored
    · rfl

variable {set : Map A Nat}

theorem removeOneOther (other : w ≠ v) : (removeOne set v).lookup w = set.lookup w := by
  rw [removeOne]
  split
  · exact lookup_erase_ne other
  · exact lookup_insert_ne other

theorem removeAllOther {vs : List A} (other : w ∉ vs) :
    (vs.foldl removeOne set).lookup w = set.lookup w := by
  induction vs generalizing set with
  | nil => rfl
  | cons v vs ih =>
    obtain ⟨different, others⟩ := ne_and_not_mem_of_not_mem_cons other
    rw [foldl_cons, ih others, removeOneOther different]

omit [DecidableEq A] in
theorem memRemoved {entry : Sigma fun _ : Timestamp => List A} :
    entry ∈ m.timeMap.entries.filter (fun entry => entry.1 < cutoff) ↔
      m.timeMap.lookup entry.1 = some entry.2 ∧ entry.1 < cutoff := by
  rw [mem_filter, ← mem_lookup_iff]
  simp

theorem storedFilter : (m.filter cutoff).Stored time v ↔ m.Stored time v ∧ ¬ time < cutoff := by
  simp only [Stored, filter, lookupErases]
  split
  · rename_i gone
    obtain ⟨entry, mem, rfl⟩ := mem_map.mp gone
    simp [(memRemoved.mp mem).2]
  · rename_i kept
    constructor
    · rintro ⟨xs, found, inside⟩
      refine ⟨⟨xs, found, inside⟩, fun early => kept ?_⟩
      exact mem_map.mpr ⟨⟨time, xs⟩, memRemoved.mpr ⟨found, early⟩, rfl⟩
    · exact And.left

theorem containsFilter (consistent : m.Consistent) (stored : (m.filter cutoff).Stored time v) :
    (m.filter cutoff).contains v := by
  obtain ⟨before, kept⟩ := storedFilter.mp stored
  rw [contains, filter, removeAllOther, ← contains]
  · exact consistent.contained before
  · intro removed
    obtain ⟨entry, mem, inside⟩ := mem_flatMap.mp removed
    obtain ⟨found, early⟩ := memRemoved.mp mem
    exact kept (consistent.single before ⟨entry.2, found, inside⟩ ▸ early)

theorem consistentFilter (consistent : m.Consistent) : (m.filter cutoff).Consistent where
  contained stored := containsFilter consistent stored
  single left right := consistent.single (storedFilter.mp left).1 (storedFilter.mp right).1

end TimeFilterMap

variable {W : Components} {hash : IntentHash} {ttl tblock : Timestamp} {segment : Segment}
  {tx : StandardTransaction W} {intent : Intent W}

namespace ReplayProtectionState

variable {S : Services W} {state next last : ReplayProtectionState} {globalTtl : Duration}

theorem applyMemberOk (ok : state.applyMember hash ttl tblock globalTtl = .ok next) :
    state.contains hash = false ∧ ¬ ttl < tblock ∧ next = state.upsertOne ttl hash := by
  rw [applyMember] at ok
  obtain ⟨fresh, ok⟩ := elseOk.mp ok
  obtain ⟨live, ok⟩ := elseOk.mp ok
  split at ok <;> try contradiction
  cases ok
  exact ⟨by simpa using fresh, live, rfl⟩

structure Retains (state next : ReplayProtectionState) : Prop where
  consistent : state.Consistent → next.Consistent
  stored : ∀ {ttl hash}, state.Stored ttl hash → next.Stored ttl hash

theorem Retains.refl (state : ReplayProtectionState) : Retains state state := ⟨id, id⟩

theorem Retains.trans (first : Retains state next) (second : Retains next last) :
    Retains state last :=
  ⟨second.consistent ∘ first.consistent, second.stored ∘ first.stored⟩

section

variable (ok : state.applyMember hash ttl tblock globalTtl = .ok next)
include ok

theorem applyMemberRetains : Retains state next := by
  obtain ⟨fresh, -, rfl⟩ := applyMemberOk ok
  exact ⟨fun consistent => consistentUpsertOne consistent fresh,
    fun stored => storedUpsertOne.mpr (.inl stored)⟩

theorem applyMemberStores : next.Stored ttl hash := by
  obtain ⟨-, -, rfl⟩ := applyMemberOk ok
  exact storedUpsertOne.mpr (.inr ⟨rfl, rfl⟩)

end

theorem applyTxRetains (ok : state.applyTx S tx tblock globalTtl = .ok next) : Retains state next :=
  runGrows Retains Retains.refl Retains.trans (fun _ taken => applyMemberRetains taken) ok

theorem applyTxMember (found : tx.intents.lookup segment = some intent)
    (ok : state.applyTx S tx tblock globalTtl = .ok next) :
    (∀ {ttl}, state.Consistent → ¬ state.Stored ttl (S.intentHash intent 0)) ∧
      ¬ intent.ttl < tblock ∧ next.Stored intent.ttl (S.intentHash intent 0) := by
  obtain ⟨left, right, split⟩ := append_of_mem (memSortedIter.mpr found)
  rw [applyTx, split] at ok
  obtain ⟨middle, earlier, rest⟩ := foldlMAppend.mp ok
  obtain ⟨reached, taken, others⟩ := runCons.mp rest
  have before : Retains state middle := runGrows Retains Retains.refl Retains.trans
    (fun _ taken => applyMemberRetains taken) earlier
  have after : Retains reached next := runGrows Retains Retains.refl Retains.trans
    (fun _ taken => applyMemberRetains taken) others
  obtain ⟨fresh, live, -⟩ := applyMemberOk taken
  refine ⟨fun consistent stored => ?_, live, after.stored (applyMemberStores taken)⟩
  rw [(before.consistent consistent).contained (before.stored stored)] at fresh
  cases fresh

end ReplayProtectionState

open ReplayProtectionState

variable {S : Services W} {build : Build} {context : TransactionContext W}
  {rewards : ClaimRewardsTransaction} {vt : VerifiedTransaction W} {result : TransactionResult W}
  {networkId : String} {parameters : LedgerParameters W}

namespace LedgerState

variable {state next : LedgerState W} {fees : U128}

theorem applyGuaranteedReplay (ok : state.applyGuaranteed S build tx fees context = .ok next) :
    state.replayProtection.applyTx S tx context.blockContext.tblock state.parameters.globalTtl =
      .ok next.replayProtection := by
  obtain ⟨started, comIndices, before, same, -⟩ := applyGuaranteedStarted ok
  rw [before.recorded, same]

theorem applySectionRetains (ok : state.applySection S build tx fees segment context = .ok next) :
    Retains state.replayProtection next.replayProtection := by
  obtain ⟨-, ⟨-, guaranteed⟩ | ⟨-, fallible⟩⟩ := applySectionOk ok
  · exact applyTxRetains (applyGuaranteedReplay guaranteed)
  · obtain ⟨-, -, -, same, -⟩ := applyFallibleStarted fallible
    rw [same]
    exact Retains.refl _

theorem claimUnshieldedReplay {block : BlockContext}
    (ok : state.claimUnshielded S build rewards block = .ok next) :
    state.replayProtection.applyMember (claimedUtxo S rewards).intentHash
      (block.tblock.add state.parameters.globalTtl) block.tblock state.parameters.globalTtl =
      .ok next.replayProtection := by
  obtain ⟨replay, dust, claimed, -, -, recorded, -, -, rfl⟩ := claimUnshieldedOk ok
  exact recorded

theorem applyRetains (ok : state.apply S build vt context = .ok (next, result)) :
    Retains state.replayProtection next.replayProtection :=
  applyPreserves (P := fun s => Retains state.replayProtection s.replayProtection)
    (Retains.refl _) (fun _ claimed => applyMemberRetains (claimUnshieldedReplay claimed))
    (fun _ before applied => before.trans (applySectionRetains applied)) ok

theorem distributeNightRetains {kind : ClaimKind} {outputs : List OutputInstructionUnshielded}
    (ok : state.distributeNight S build kind outputs tblock = .ok next) :
    Retains state.replayProtection next.replayProtection := by
  obtain ⟨sum, -, -, -, distributed, -⟩ := distributeNightOk ok
  have retained := runGrows (fun s t : LedgerState W => Retains s.replayProtection
    t.replayProtection) (fun s => Retains.refl _) Retains.trans ?_ distributed
  · exact retained
  · intro s output t _ taken
    obtain ⟨replay, recorded, ⟨-, rfl⟩ | ⟨-, credited⟩⟩ := distributeOk taken
    · exact applyMemberRetains recorded
    · obtain ⟨charged, -, rfl⟩ := creditBridgeOk credited
      exact applyMemberRetains recorded

theorem applySystemTxRetains {system : SystemTransaction W}
    (ok : state.applySystemTx S build system tblock = .ok next) :
    Retains state.replayProtection next.replayProtection := by
  obtain same | ⟨kind, outputs, distributed⟩ := (applySystemTxFrame ok).replay
  · rw [same]
    exact Retains.refl _
  · exact distributeNightRetains distributed

theorem genesisConsistent {lockedPool reservePool treasury : U128}
    (ok : withGenesisSettings S build networkId parameters lockedPool reservePool treasury =
      .ok state) : state.replayProtection.Consistent := by
  obtain ⟨⟨⟩, -, rfl⟩ := pureOk.mp ok
  exact emptyConsistent

end LedgerState

variable {state reached later : LedgerState W} {taken : Step W} {steps : List (Step W)}

def Step.time : Step W → Timestamp
  | .transaction _ context => context.blockContext.tblock
  | .system _ tblock => tblock
  | .postBlock tblock _ => tblock

theorem stepConsistent (ok : step S build state taken = .ok reached)
    (consistent : state.replayProtection.Consistent) : reached.replayProtection.Consistent := by
  cases taken with
  | transaction vt context =>
    obtain ⟨⟨next, result⟩, applied, rfl⟩ := pureOk.mp ok
    exact (applyRetains applied).consistent consistent
  | system tx tblock =>
    obtain applied | rfl := systemStepOk ok
    · exact (applySystemTxRetains applied).consistent consistent
    · exact consistent
  | postBlock tblock fullness =>
    cases ok
    rw [LedgerState.postBlockUpdate]
    split
    · exact consistentFilter consistent
    · exact consistent

theorem stepStored (ok : step S build state taken = .ok reached)
    (stored : state.replayProtection.Stored ttl hash) :
    reached.replayProtection.Stored ttl hash ∨
      ∃ tblock fullness, taken = .postBlock tblock fullness ∧ ttl < tblock := by
  cases taken with
  | transaction vt context =>
    obtain ⟨⟨next, result⟩, applied, rfl⟩ := pureOk.mp ok
    exact .inl ((applyRetains applied).stored stored)
  | system tx tblock =>
    obtain applied | rfl := systemStepOk ok
    · exact .inl ((applySystemTxRetains applied).stored stored)
    · exact .inl stored
  | postBlock tblock fullness =>
    cases ok
    by_cases past : ttl < tblock
    · exact .inr ⟨tblock, fullness, rfl, past⟩
    · rw [LedgerState.postBlockUpdate]
      split
      · exact .inl (storedFilter.mpr ⟨stored, past⟩)
      · exact .inl stored

section

variable (ok : run (step S build) state steps = .ok reached)
include ok

theorem runConsistent (consistent : state.replayProtection.Consistent) :
    reached.replayProtection.Consistent :=
  runPreserves (fun s : LedgerState W => s.replayProtection.Consistent)
    (fun _ before taken => stepConsistent taken before) consistent ok

theorem runStored
    (stored : state.replayProtection.Stored ttl hash) : reached.replayProtection.Stored ttl hash ∨
      ∃ tblock fullness, .postBlock tblock fullness ∈ steps ∧ ttl < tblock := by
  refine runPreserves (fun s : LedgerState W => s.replayProtection.Stored ttl hash ∨
    ∃ tblock fullness, .postBlock tblock fullness ∈ steps ∧ ttl < tblock) ?_ (.inl stored) ok
  rintro s taken t mem (before | forgotten) ok
  · refine (stepStored ok before).imp id ?_
    rintro ⟨tblock, fullness, rfl, past⟩
    exact ⟨tblock, fullness, mem, past⟩
  · exact .inr forgotten

end

def TransactionResult.failed : TransactionResult W → Bool
  | .failure _ => true
  | _ => false

def Step.Applies (S : Services W) (build : Build) (state : LedgerState W) (taken : Step W)
    (tx : Transaction W) : Prop :=
  ∃ vt context next result, taken = .transaction vt context ∧ vt.inner = tx ∧
    state.apply S build vt context = .ok (next, result) ∧ result.failed = false

section

variable (ok : state.apply S build vt context = .ok (reached, result))
  (succeeded : result.failed = false)

include ok succeeded

theorem appliedIntent
    (standard : vt.inner = .standard tx) (found : tx.intents.lookup segment = some intent) :
    (∀ {ttl}, state.replayProtection.Consistent →
        ¬ state.replayProtection.Stored ttl (S.intentHash intent 0)) ∧
      ¬ intent.ttl < context.blockContext.tblock ∧
      reached.replayProtection.Stored intent.ttl (S.intentHash intent 0) := by
  obtain ⟨e, rfl, -⟩ | ⟨rewards, claim, -⟩ | ⟨stx, guaranteed, segments, same, -, passed, run⟩ :=
    applyOk ok
  · cases succeeded
  · cases standard.symm.trans claim
  · cases standard.symm.trans same
    obtain ⟨-, ⟨-, applied⟩ | ⟨fallible, -⟩⟩ := applySectionOk passed
    · obtain ⟨fresh, live, stored⟩ := applyTxMember found (applyGuaranteedReplay applied)
      refine ⟨fresh, live, fallibleSegmentsPreserve
        (P := fun s => s.replayProtection.Stored intent.ttl (S.intentHash intent 0)) ?_ stored run⟩
      exact fun before taken => (applySectionRetains taken).stored before
    · exact absurd rfl fallible

theorem appliedClaim (claims : vt.inner = .claimRewards rewards) :
    state.replayProtection.applyMember (claimedUtxo S rewards).intentHash
      (context.blockContext.tblock.add state.parameters.globalTtl) context.blockContext.tblock
      state.parameters.globalTtl = .ok reached.replayProtection := by
  obtain ⟨e, rfl, -⟩ | ⟨same, claim, -, claimed⟩ | ⟨stx, -, -, standard, -⟩ :=
    applyOk ok
  · cases succeeded
  · cases claims.symm.trans claim
    exact claimUnshieldedReplay claimed
  · cases claims.symm.trans standard

end

section

variable {lockedPool reservePool treasury : U128} {genesis : LedgerState W}
  {before between : List (Step W)} {earlier again : Step W}

/- An intent whose hash was recorded is refused as long as the hash is stored, and once
the hash is forgotten the block time is past the time to live. -/
theorem intentAppliedOnce {first second : StandardTransaction W} {segment other : Segment}
    {intent repeated : Intent W}
    (begun : withGenesisSettings S build networkId parameters lockedPool reservePool
      treasury = .ok genesis)
    (ordered : ((before ++ earlier :: between ++ [again]).map Step.time).Pairwise (· ≤ ·))
    (reached : run (step S build) genesis before = .ok state)
    (applied : earlier.Applies S build state (.standard first))
    (member : first.intents.lookup segment = some intent)
    (continued : run (step S build) state (earlier :: between) = .ok later)
    (occurs : second.intents.lookup other = some repeated)
    (identified : S.intentHash intent 0 = S.intentHash repeated 0 → intent.ttl = repeated.ttl)
    (same : S.intentHash intent 0 = S.intentHash repeated 0) :
    ¬ again.Applies S build later (.standard second) := by
  rintro ⟨vt', context', next', result', rfl, standard', ok', succeeded'⟩
  obtain ⟨vt, context, next, result, rfl, standard, ok, succeeded⟩ := applied
  obtain ⟨after, taken, rest⟩ := runCons.mp continued
  obtain ⟨⟨following, outcome⟩, run, rfl⟩ := pureOk.mp taken
  cases run.symm.trans ok
  have consistent := runConsistent continued
    (runConsistent reached (genesisConsistent begun))
  obtain ⟨-, -, stored⟩ := appliedIntent ok succeeded standard member
  obtain ⟨fresh, live, -⟩ := appliedIntent ok' succeeded' standard' occurs
  obtain kept | ⟨tblock, fullness, forgot, past⟩ := runStored rest stored
  · exact fresh consistent (same ▸ kept)
  · have order : tblock ≤ context'.blockContext.tblock := by
      rw [map_append, pairwise_append] at ordered
      refine ordered.2.2 tblock ?_ _ (mem_map.mpr ⟨_, mem_singleton_self _, rfl⟩)
      exact mem_map.mpr ⟨.postBlock tblock fullness,
        mem_append_right _ (mem_cons_of_mem _ forgot), rfl⟩
    rw [← identified same] at live
    exact live (Nat.lt_of_lt_of_le past order)

def replayedIntent : Intent sampleComponents := ⟨none, none, [], none, 100, ()⟩

def replayedTransaction : StandardTransaction sampleComponents :=
  ⟨"net", singleton 1 replayedIntent, none, ∅⟩

def transactionAt (tx : Transaction sampleComponents) (tblock : Timestamp) :
    Step sampleComponents :=
  .transaction ⟨tx, 0, 0⟩ ⟨sampleGenesis, ⟨tblock, 0, 0, 0⟩, none⟩

def sampleRun (state : LedgerState sampleComponents) (steps : List (Step sampleComponents)) :
    Except Panic (LedgerState sampleComponents) :=
  run (step sampleServices .debug) state steps

def sampleApplies (state : LedgerState sampleComponents) (tx : Transaction sampleComponents)
    (tblock : Timestamp) : Bool :=
  match state.apply sampleServices .debug ⟨tx, 0, 0⟩ ⟨sampleGenesis, ⟨tblock, 0, 0, 0⟩, none⟩ with
  | .ok (_, result) => !result.failed
  | .error _ => false

theorem appliesOfSample {state : LedgerState sampleComponents} {tx : Transaction sampleComponents}
    (applies : sampleApplies state tx tblock = true) :
    (transactionAt tx tblock).Applies sampleServices .debug state tx := by
  rw [sampleApplies] at applies
  split at applies
  · rename_i next result ok
    exact ⟨_, _, next, result, rfl, rfl, ok, by simpa using applies⟩
  · cases applies

theorem replayRefused :
    let steps := [transactionAt (.standard replayedTransaction) 5, .postBlock 5 ()]
    let closed := value (sampleRun sampleGenesis steps) (by decide +kernel)
    ¬ (transactionAt (.standard replayedTransaction) 6).Applies sampleServices .debug closed
      (.standard replayedTransaction) := by
  intro steps closed
  have reached : sampleRun sampleGenesis [] = .ok sampleGenesis := rfl
  have member : replayedTransaction.intents.lookup 1 = some replayedIntent := rfl
  exact intentAppliedOnce (valueOk _) (by decide) reached (appliesOfSample (by decide +kernel))
    member (valueOk _) member (fun _ => rfl) rfl

/- The hash of a claim is stored until a post-block update passes the time to live that
its block gave it. -/
theorem claimAppliedOnce {first second : ClaimRewardsTransaction}
    (begun : withGenesisSettings S build networkId parameters lockedPool reservePool
      treasury = .ok genesis) (reached : run (step S build) genesis before = .ok state)
    (applied : earlier.Applies S build state (.claimRewards first))
    (continued : run (step S build) state (earlier :: between) = .ok later)
    (owner : second.owner = first.owner) (value : second.value = first.value)
    (nonce : second.nonce = first.nonce)
    (remembered : ∀ tblock fullness, .postBlock tblock fullness ∈ between →
      tblock ≤ earlier.time.add state.parameters.globalTtl) :
    ¬ again.Applies S build later (.claimRewards second) := by
  rintro ⟨vt', context', next', result', rfl, claims', ok', succeeded'⟩
  obtain ⟨vt, context, next, result, rfl, claims, ok, succeeded⟩ := applied
  obtain ⟨after, taken, rest⟩ := runCons.mp continued
  obtain ⟨⟨following, outcome⟩, run, rfl⟩ := pureOk.mp taken
  cases run.symm.trans ok
  have consistent := runConsistent continued
    (runConsistent reached (genesisConsistent begun))
  have stored := applyMemberStores (appliedClaim ok succeeded claims)
  obtain ⟨fresh, -⟩ := applyMemberOk (appliedClaim ok' succeeded' claims')
  have hashes : (claimedUtxo S second).intentHash =
      (claimedUtxo S first).intentHash := by
    rw [claimedUtxo, claimedUtxo, owner, value, nonce]
  obtain kept | ⟨tblock, fullness, forgot, past⟩ := runStored rest stored
  · rw [hashes, consistent.contained kept] at fresh
    cases fresh
  · exact BitVec.not_lt.mpr (remembered tblock fullness forgot) past

def doublePayout : List (Step sampleComponents) :=
  [.system (.distributeReserve 200) 5,
    .system (.distributeNight .reward [⟨200, sampleServices.userAddress (.schnorr [1]), 4⟩]) 5]

def doublePaid : LedgerState sampleComponents :=
  value (sampleRun sampleGenesis doublePayout) (by decide +kernel)

theorem repeatedClaimRefused :
    let steps := [transactionAt (.claimRewards sampleClaim) 5, .postBlock 5 ()]
    let closed := value (sampleRun doublePaid steps) (by decide +kernel)
    ¬ (transactionAt (.claimRewards sampleClaim) 6).Applies sampleServices .debug closed
      (.claimRewards sampleClaim) := by
  intro steps closed
  refine claimAppliedOnce (valueOk _) (valueOk _) (appliesOfSample (by decide +kernel)) (valueOk _)
    rfl rfl rfl ?_
  intro tblock fullness mem
  cases mem_singleton.mp mem
  decide +kernel

def claimSpent : StandardTransaction sampleComponents :=
  ⟨"net", singleton 1 ⟨some ⟨[sampleSpend], [⟨100, ⟨77⟩, night⟩]⟩, none, [], none, 6, ()⟩,
    none, ∅⟩

theorem claimAppliedTwice :
    let steps := [transactionAt (.claimRewards sampleClaim) 5,
      transactionAt (.standard claimSpent) 5, .postBlock 2000 ()]
    let closed := value (sampleRun doublePaid steps) (by decide +kernel)
    sampleRun sampleGenesis doublePayout = .ok doublePaid ∧
      ((doublePayout ++ steps ++ [transactionAt (.claimRewards sampleClaim) 2000]).map
        Step.time).Pairwise (· ≤ ·) ∧
      (transactionAt (.claimRewards sampleClaim) 5).Applies sampleServices .debug doublePaid
        (.claimRewards sampleClaim) ∧
      sampleRun doublePaid steps = .ok closed ∧
      (transactionAt (.claimRewards sampleClaim) 2000).Applies sampleServices .debug closed
        (.claimRewards sampleClaim) := by
  refine ⟨valueOk _, by decide, appliesOfSample (by decide +kernel), valueOk _,
    appliesOfSample (by decide +kernel)⟩

end

end MidnightLedger.Ledger

import MidnightLedger.Lib.Simulation
import MidnightLedger.Ledger.Semantics

/-! What each step of a section can do: one inversion lemma for every function of the semantics,
with the parts of the state that it leaves alone. Then the sections of a transaction one by one:
which ran, on which state, and what the result records of each. -/
namespace MidnightLedger.Ledger
open ByteString Maps Words Loops Simulation

variable {W : Components} {S : Services W} {build : Build}

def ContractAction.effects (guaranteed : Bool) (whitelist : Whitelist) :
    ContractAction W → Option Effects
  | .call called =>
    if whitelistMatches whitelist called.address then
      (called.transcript guaranteed).map Transcript.effects
    else none
  | _ => none

theorem ContractState.applyUpdateOk {cstate updated : ContractState W} {update : SingleUpdate}
    (ok : cstate.applyUpdate update = .ok updated) :
    (∃ operations, updated = { cstate with operations := operations }) ∨
      ∃ authority, update = .replaceAuthority authority ∧
        updated = { cstate with maintenanceAuthority := authority } := by
  cases update with
  | replaceAuthority authority =>
    cases ok
    exact .inr ⟨authority, rfl, rfl⟩
  | verifierKeyRemove ep version =>
    simp only [applyUpdate] at ok
    split at ok <;> try contradiction
    split at ok <;> try contradiction
    cases ok
    exact .inl ⟨_, rfl⟩
  | verifierKeyInsert ep key | irRemove ep | irInsert ep ir =>
    simp only [applyUpdate] at ok
    split at ok <;> try contradiction
    cases ok
    exact .inl ⟨_, rfl⟩

variable {context : TransactionContext W} {vt : VerifiedTransaction W}
  {result : TransactionResult W} {segment : Segment} {tx : StandardTransaction W} {fees : U128}
  {segments : List Segment}

namespace LedgerState

variable {state next : LedgerState W} {comIndices : ComIndices} {guaranteed : Bool}
  {outputs : List OutputInstructionUnshielded}

theorem applyZswapOptionOk {offer : Option W.ZswapOffer} {whitelist : Whitelist}
    (ok : state.applyZswapOption S offer whitelist = .ok (next, comIndices)) :
    ∃ zswap, next = { state with zswap := zswap } ∧
      ((offer = none ∧ zswap = state.zswap ∧ comIndices = ∅) ∨ ∃ given, offer = some given ∧
        S.zswapTryApply state.zswap given whitelist = .ok (zswap, comIndices)) := by
  cases offer with
  | none =>
    cases ok
    exact ⟨state.zswap, rfl, .inl ⟨rfl, rfl, rfl⟩⟩
  | some given =>
    obtain ⟨⟨zswap, indices⟩, applied, last⟩ := bindOk.mp ok
    cases last
    exact ⟨zswap, rfl, .inr ⟨given, rfl, liftOk.mp applied⟩⟩

variable {intent parent : Intent W} {params : LedgerParameters W} {action : ContractAction W}
  {left : U128} {kind : ClaimKind} {P : LedgerState W → Prop} {offer : Option UnshieldedOffer}
  {tblock : Timestamp} {output : OutputInstructionUnshielded}

theorem applyUnshieldedOk
    (ok : state.applyUnshielded S build offer intent segment context = .ok next) :
    (offer = none ∧ next = state) ∨ ∃ given utxo dust, offer = some given ∧
      UtxoState.applyOffer S state.utxo given intent segment context.blockContext.tblock = .ok utxo ∧
      state.dust.applyOffer S build given intent segment context.blockContext.tblock = .ok dust ∧
      next = { state with utxo := utxo, dust := dust } := by
  cases offer with
  | none =>
    cases ok
    exact .inl ⟨rfl, rfl⟩
  | some given =>
    obtain ⟨utxo, moved, rest⟩ := bindOk.mp ok
    obtain ⟨dust, followed, rfl⟩ := pureOk.mp rest
    exact .inr ⟨given, utxo, dust, rfl, moved, followed, rfl⟩

inductive Acted (S : Services W) (guaranteed : Bool) (context : TransactionContext W)
    (state : LedgerState W) : ContractAction W → LedgerState W → Prop where
  | passed {action : ContractAction W}
      (idle : action.effects guaranteed context.whitelist = none) :
      Acted S guaranteed context state action state
  | called {call : ContractCall W} {cstate : ContractState W} {effects : Effects}
      {data : W.ChargedState} {balance : Map TokenType U128}
      (present : state.contract.lookup call.address = some cstate)
      (declared : (ContractAction.call call).effects guaranteed context.whitelist = some effects)
      (moved : applyBalances (W := W) cstate.balance effects = .ok balance) :
      Acted S guaranteed context state (.call call) { state with
        contract := state.contract.insert call.address
          { cstate with data := data, balance := balance } }
  | deployed {deploy : ContractDeploy W} (fallible : guaranteed = false)
      (absent : state.contract.lookup (S.deployAddress deploy) = none) :
      Acted S guaranteed context state (.deploy deploy) { state with
        contract := state.contract.insert (S.deployAddress deploy) deploy.initialState }
  | maintained {upd : MaintenanceUpdate} {cstate updated : ContractState W}
      (fallible : guaranteed = false)
      (present : state.contract.lookup upd.address = some cstate)
      (maintained : cstate.maintain upd = .ok updated) :
      Acted S guaranteed context state (.maintain upd) { state with
        contract := state.contract.insert upd.address updated }

theorem applyMaintainOk {upd : MaintenanceUpdate}
    (ok : applyMaintain S params state upd = .ok next) :
    ∃ cstate updated, state.contract.lookup upd.address = some cstate ∧
      cstate.maintain upd = .ok updated ∧
      next = { state with contract := state.contract.insert upd.address updated } := by
  rw [applyMaintain] at ok
  split at ok <;> try contradiction
  rename_i cstate present
  obtain ⟨updated, maintained, rest⟩ := bindOk.mp ok
  obtain ⟨-, -, rfl⟩ := pureOk.mp rest
  exact ⟨cstate, updated, present, maintained, rfl⟩

theorem applyActionActs
    (ok : state.applyAction S params guaranteed context parent comIndices action = .ok next) :
    Acted S guaranteed context state action next := by
  cases action with
  | call call =>
    simp only [applyAction] at ok
    split at ok
    · rename_i admitted
      rw [applyCall] at ok
      split at ok <;> try contradiction
      rename_i cstate present
      split at ok
      · rename_i silent
        cases ok
        exact .passed (by simp [ContractAction.effects, silent])
      · rename_i transcript declared
        obtain ⟨⟨data, effects⟩, -, rest⟩ := bindOk.mp ok
        dsimp only at rest
        split at rest <;> try contradiction
        obtain ⟨balance, moved, rfl⟩ := pureOk.mp rest
        rw [updateIndex, present]
        exact .called present (by simp [ContractAction.effects, admitted, declared]) moved
    · rename_i outside
      cases ok
      exact .passed (by simp [ContractAction.effects, outside])
  | deploy deploy =>
    simp only [applyAction] at ok
    split at ok
    · rename_i admitted
      rw [applyDeploy] at ok
      obtain ⟨fresh, ok⟩ := elseOk.mp ok
      obtain ⟨-, -, rfl⟩ := pureOk.mp ok
      exact .deployed (by simpa using admitted.2) (by simpa using fresh)
    · cases ok
      exact .passed rfl
  | maintain upd =>
    simp only [applyAction] at ok
    split at ok
    · rename_i admitted
      obtain ⟨cstate, updated, present, maintained, rfl⟩ := applyMaintainOk ok
      exact .maintained (by simpa using admitted.2) present maintained
    · cases ok
      exact .passed rfl

theorem actedFrame (acted : Acted S guaranteed context state action next) :
    ∃ contract, next = { state with contract := contract } := by
  cases acted with
  | passed => exact ⟨state.contract, rfl⟩
  | called | deployed | maintained => exact ⟨_, rfl⟩

theorem applyActionsFrame {actions : List (ContractAction W)}
    (ok : state.applyActions S actions guaranteed context parent comIndices = .ok next) :
    ∃ contract, next = { state with contract := contract } := by
  refine runGrows (fun s t => ∃ contract, t = { s with contract := contract })
    (fun s => ⟨s.contract, rfl⟩) ?_ ?_ ok
  · rintro a b c ⟨first, rfl⟩ ⟨second, rfl⟩
    exact ⟨second, rfl⟩
  · intro s action t _ taken
    exact actedFrame (applyActionActs taken)

theorem guaranteedSpendsFrame {spends : List DustSpend}
    (ok : spends.foldlM (guaranteedSpend S) (state, fees) = .ok (next, left)) :
    ∃ utxo, next = { state with dust := { state.dust with utxo := utxo } } := by
  refine runGrows (fun s t => ∃ utxo, t.1 = { s.1 with dust := { s.1.dust with utxo := utxo } })
    (fun s => ⟨s.1.dust.utxo, rfl⟩) ?_ ?_ ok
  · rintro a b c ⟨first, same⟩ ⟨second, again⟩
    exact ⟨second, by rw [again, same]⟩
  · intro s spend t _ taken
    obtain ⟨dust, spent, rfl⟩ := pureOk.mp taken
    rw [DustState.applySpend] at spent
    split at spent <;> try contradiction
    obtain ⟨commitments, -, rfl⟩ := pureOk.mp spent
    exact ⟨_, rfl⟩

theorem guaranteedRegistrationOk {before after : LedgerState W × U128}
    {entry : Intent W × Timestamp × DustRegistration}
    (ok : guaranteedRegistration S context before entry = .ok after) :
    ∃ dust, before.1.dust.applyRegistration S context.refState.utxo before.2 entry.1 entry.2.2
        before.1.parameters.dust entry.2.1 = .ok (dust, after.2) ∧
      after.1 = { before.1 with dust := dust } := by
  obtain ⟨⟨dust, feesRemaining⟩, registered, rfl⟩ := pureOk.mp ok
  exact ⟨dust, registered, rfl⟩

theorem guaranteedRegistrationsFrame {entries : List (Intent W × Timestamp × DustRegistration)}
    (ok : entries.foldlM (guaranteedRegistration S context) (state, fees) = .ok (next, left)) :
    ∃ dust, next = { state with dust := dust } := by
  refine runGrows (fun s t => ∃ dust, t.1 = { s.1 with dust := dust })
    (fun s => ⟨s.1.dust, rfl⟩) ?_ ?_ ok
  · rintro a b c ⟨first, same⟩ ⟨second, again⟩
    exact ⟨second, by rw [again, same]⟩
  · intro s entry t _ taken
    obtain ⟨dust, -, same⟩ := guaranteedRegistrationOk taken
    exact ⟨dust, same⟩

structure Started (S : Services W) (tx : StandardTransaction W) (context : TransactionContext W)
    (state : LedgerState W) (started : LedgerState W × ComIndices) : Prop where
  recorded : state.replayProtection.applyTx S tx context.blockContext.tblock
    state.parameters.globalTtl = .ok started.1.replayProtection
  offered : { state with replayProtection := started.1.replayProtection }.applyZswapOption S
    tx.guaranteedCoins context.whitelist = .ok started
  applicable : started.1.checkFallibleOffers S tx context = .ok ()

theorem Started.frame {started : LedgerState W × ComIndices}
    (before : Started S tx context state started) :
    ∃ replay zswap, started.1 = { state with replayProtection := replay, zswap := zswap } := by
  obtain ⟨zswap, same, -⟩ := applyZswapOptionOk before.offered
  exact ⟨started.1.replayProtection, zswap, same⟩

theorem applyGuaranteedOk (ok : state.applyGuaranteed S build tx fees context = .ok next) :
    ∃ started comIndices moved utxo feesRemaining left,
      Started S tx context state (started, comIndices) ∧
      (sortedIter tx.intents).foldlM (guaranteedIntent S build context comIndices) started =
        .ok moved ∧ (dustSpends tx).foldlM (guaranteedSpend S) (moved, fees) =
        .ok ({ moved with dust := { moved.dust with utxo := utxo } }, feesRemaining) ∧
      (dustRegistrations tx).foldlM (guaranteedRegistration S context)
        ({ moved with dust := { moved.dust with utxo := utxo } }, feesRemaining) =
        .ok (next, left) := by
  obtain ⟨replay, recorded, rest⟩ := bindOk.mp ok
  obtain ⟨⟨started, comIndices⟩, offered, rest⟩ := bindOk.mp rest
  obtain ⟨⟨⟩, applicable, rest⟩ := bindOk.mp rest
  obtain ⟨zswap, rfl, -⟩ := applyZswapOptionOk offered
  obtain ⟨moved, intents, rest⟩ := bindOk.mp rest
  obtain ⟨⟨spent, feesRemaining⟩, spends, rest⟩ := bindOk.mp rest
  obtain ⟨utxo, rfl⟩ := guaranteedSpendsFrame spends
  obtain ⟨⟨final, left⟩, registrations, rfl⟩ := pureOk.mp rest
  exact ⟨_, comIndices, moved, utxo, feesRemaining, left, ⟨liftOk.mp recorded, offered, applicable⟩,
    intents, spends, registrations⟩

theorem applyUnshieldedFrame
    (ok : state.applyUnshielded S build offer intent segment context = .ok next) :
    ∃ utxo dust, next = { state with utxo := utxo, dust := dust } := by
  obtain ⟨-, rfl⟩ | ⟨given, utxo, dust, -, -, -, rfl⟩ := applyUnshieldedOk ok
  · exact ⟨next.utxo, next.dust, rfl⟩
  · exact ⟨utxo, dust, rfl⟩

theorem applyGuaranteedStarted (ok : state.applyGuaranteed S build tx fees context = .ok next) :
    ∃ started comIndices, Started S tx context state (started, comIndices) ∧
      next.replayProtection = started.replayProtection ∧ next.zswap = started.zswap := by
  obtain ⟨started, comIndices, moved, utxo, feesRemaining, left, before, intents, -,
    registrations⟩ := applyGuaranteedOk ok
  obtain ⟨dust, rfl⟩ := guaranteedRegistrationsFrame registrations
  have kept := runGrows (fun s t : LedgerState W =>
    t.replayProtection = s.replayProtection ∧ t.zswap = s.zswap) (fun _ => ⟨rfl, rfl⟩)
    (fun first second => ⟨second.1.trans first.1, second.2.trans first.2⟩) ?_ intents
  · exact ⟨started, comIndices, before, kept⟩
  · intro s entry t _ taken
    obtain ⟨offered, unshielded, acted⟩ := bindOk.mp taken
    obtain ⟨utxo, dust, rfl⟩ := applyUnshieldedFrame unshielded
    obtain ⟨contract, rfl⟩ := applyActionsFrame acted
    exact ⟨rfl, rfl⟩

section

variable (ok : state.applyFallible S build tx segment context = .ok next)
include ok

theorem applyFallibleOk : ∃ started comIndices,
      state.applyZswapOption S (tx.fallibleCoins.lookup segment) context.whitelist =
        .ok (started, comIndices) ∧
      ((tx.intents.lookup segment = none ∧ next = started) ∨
        ∃ intent moved, tx.intents.lookup segment = some intent ∧
          started.applyUnshielded S build intent.fallibleUnshieldedOffer intent segment context =
            .ok moved ∧
          state.applyFallibleOffers S build tx segment context = .ok (moved, comIndices) ∧
          moved.applyActions S intent.actions false context intent comIndices = .ok next) := by
  obtain ⟨⟨offered, comIndices⟩, offers, rest⟩ := bindOk.mp ok
  obtain ⟨⟨started, indices⟩, zswapped, step⟩ := bindOk.mp offers
  refine ⟨started, indices, zswapped, ?_⟩
  cases found : tx.intents.lookup segment with
  | none =>
    simp only [found] at step rest
    cases step
    cases rest
    exact .inl ⟨rfl, rfl⟩
  | some intent =>
    simp only [found] at step rest
    obtain ⟨moved, unshielded, last⟩ := bindOk.mp step
    cases last
    exact .inr ⟨intent, offered, rfl, unshielded, offers, rest⟩

theorem applyFallibleStarted : ∃ started comIndices,
      state.applyZswapOption S (tx.fallibleCoins.lookup segment) context.whitelist =
        .ok (started, comIndices) ∧
      next.replayProtection = state.replayProtection ∧ next.zswap = started.zswap := by
  obtain ⟨started, comIndices, zswapped, ⟨-, rfl⟩ | ⟨intent, moved, found, offered, -, acted⟩⟩ :=
    applyFallibleOk ok <;> obtain ⟨zswap, rfl, -⟩ := applyZswapOptionOk zswapped
  · exact ⟨_, comIndices, zswapped, rfl, rfl⟩
  · obtain ⟨utxo, dust, rfl⟩ := applyUnshieldedFrame offered
    obtain ⟨contract, rfl⟩ := applyActionsFrame acted
    exact ⟨_, comIndices, zswapped, rfl, rfl⟩

end

section

variable (ok : state.applySection S build tx fees segment context = .ok next)
include ok

theorem applySectionOk : next.checkNightBalanceInvariant build = .ok () ∧
      (segment = guaranteedSegment ∧ state.applyGuaranteed S build tx fees context = .ok next ∨
        segment ≠ guaranteedSegment ∧ state.applyFallible S build tx segment context = .ok next) := by
  obtain ⟨applied, body, rest⟩ := bindOk.mp ok
  obtain ⟨⟨⟩, passed, rfl⟩ := pureOk.mp rest
  refine ⟨mapFaultOk.mp passed, ?_⟩
  split at body
  · exact .inl ⟨by assumption, body⟩
  · exact .inr ⟨by assumption, body⟩

theorem applySectionFrame : ∃ zswap contract utxo replay dust, next = { state with
      zswap := zswap
      contract := contract
      utxo := utxo
      replayProtection := replay
      dust := dust } := by
  obtain ⟨-, ⟨-, body⟩ | ⟨-, body⟩⟩ := applySectionOk ok
  · obtain ⟨started, comIndices, moved, spent, feesRemaining, left, before, intents, -,
      registrations⟩ := applyGuaranteedOk body
    obtain ⟨replay, zswap, same⟩ := before.frame
    obtain ⟨dust, rfl⟩ := guaranteedRegistrationsFrame registrations
    have moves := runGrows (fun s t : LedgerState W =>
      ∃ contract utxo dust, t = { s with contract := contract, utxo := utxo, dust := dust })
      (fun s => ⟨s.contract, s.utxo, s.dust, rfl⟩) ?_ ?_ intents
    · obtain ⟨contract, utxo, -, rfl⟩ := moves
      subst same
      exact ⟨zswap, contract, utxo, replay, dust, rfl⟩
    · rintro a b c ⟨_, _, _, rfl⟩ ⟨contract, utxo, dust, rfl⟩
      exact ⟨contract, utxo, dust, rfl⟩
    · intro s entry t _ taken
      obtain ⟨offered, unshielded, acted⟩ := bindOk.mp taken
      obtain ⟨utxo, dust, rfl⟩ := applyUnshieldedFrame unshielded
      obtain ⟨contract, rfl⟩ := applyActionsFrame acted
      exact ⟨contract, utxo, dust, rfl⟩
  · obtain ⟨started, comIndices, zswapped, ⟨-, rfl⟩ | ⟨intent, moved, found, offered, -, acted⟩⟩ :=
      applyFallibleOk body <;> obtain ⟨zswap, rfl, -⟩ := applyZswapOptionOk zswapped
    · exact ⟨zswap, state.contract, state.utxo, state.replayProtection, state.dust, rfl⟩
    · obtain ⟨utxo, dust, rfl⟩ := applyUnshieldedFrame offered
      obtain ⟨contract, rfl⟩ := applyActionsFrame acted
      exact ⟨zswap, contract, utxo, state.replayProtection, dust, rfl⟩

end

theorem takeClaimContract (kind : ClaimKind) (address : UserAddress) (remaining : U128) :
    (state.takeClaim kind address remaining).contract = state.contract := by
  cases kind <;> rfl

theorem fallibleNotGuaranteed (mem : segment ∈ tx.fallibleSegments) :
    segment ≠ guaranteedSegment := by
  simp only [StandardTransaction.fallibleSegments, List.mem_insertionSort, List.mem_dedup,
    List.mem_filter] at mem
  simpa using mem.2

theorem claimUnshieldedOk {rewards : ClaimRewardsTransaction} {block : BlockContext}
    (ok : state.claimUnshielded S build rewards block = .ok next) :
    ∃ replay dust claimed, claimed = state.claimable rewards.kind (S.userAddress rewards.owner) ∧
      rewards.value ≤ claimed ∧
      state.replayProtection.applyMember (claimedUtxo S rewards).intentHash
        (block.tblock.add state.parameters.globalTtl) block.tblock state.parameters.globalTtl =
        .ok replay ∧ state.claimDust S (claimedUtxo S rewards) block.tblock = .ok dust ∧
      next.checkNightBalanceInvariant build = .ok () ∧
      next = { state.takeClaim rewards.kind (S.userAddress rewards.owner)
          (claimed - rewards.value) with
        utxo := state.utxo.insert (claimedUtxo S rewards) ⟨block.tblock⟩
        replayProtection := replay
        dust := dust } := by
  simp only [claimUnshielded] at ok
  obtain ⟨enough, ok⟩ := elseOk.mp ok
  split at ok <;> try contradiction
  obtain ⟨replay, recorded, ok⟩ := bindOk.mp ok
  obtain ⟨dust, generated, ok⟩ := bindOk.mp ok
  obtain ⟨⟨⟩, passed, rfl⟩ := pureOk.mp ok
  exact ⟨replay, dust, _, rfl, BitVec.not_lt.mp enough, liftOk.mp recorded, liftOk.mp generated,
    mapFaultOk.mp passed, rfl⟩

theorem checkedOk {given : LedgerState W} (ok : checked build given = .ok next) :
    next = given ∧ given.checkNightBalanceInvariant build = .ok () := by
  obtain ⟨⟨⟩, passed, rfl⟩ := pureOk.mp ok
  exact ⟨rfl, mapFaultOk.mp passed⟩

theorem distributeOk (ok : distribute S kind tblock state output = .ok next) :
    ∃ replay, state.replayProtection.applyMember (S.outputHash night output)
        (tblock.add state.parameters.globalTtl) tblock state.parameters.globalTtl = .ok replay ∧
      ((kind = .reward ∧ next = { state with replayProtection := replay }.creditReward output) ∨
        (kind = .cardanoBridge ∧
          { state with replayProtection := replay }.creditBridge output = .ok next)) := by
  obtain ⟨replay, recorded, rest⟩ := bindOk.mp ok
  refine ⟨replay, liftOk.mp recorded, ?_⟩
  cases kind with
  | reward =>
    cases rest
    exact .inl ⟨rfl, rfl⟩
  | cardanoBridge => exact .inr ⟨rfl, rest⟩

theorem creditBridgeOk (ok : state.creditBridge output = .ok next) :
    ∃ fees, state.bridgeFees output.amount = .ok fees ∧
      next = { state.payTreasury fees with
        bridgeReceiving := state.bridgeReceiving.insert output.targetAddress
          (saturatingAdd (balanceOf state.bridgeReceiving output.targetAddress)
            (output.amount - fees)) } := by
  obtain ⟨fees, charged, rfl⟩ := pureOk.mp ok
  exact ⟨fees, liftOk.mp charged, rfl⟩

theorem distributeNightOk (ok : state.distributeNight S build kind outputs tblock = .ok next) :
    ∃ sum, outputs.foldlM (fun sum o => checkedAdd sum o.amount) 0 = some sum ∧
      (payouts kind sum).1 ≤ state.blockRewardPool ∧ (payouts kind sum).2 ≤ state.lockedPool ∧
      outputs.foldlM (distribute S kind tblock) { state with
        blockRewardPool := state.blockRewardPool - (payouts kind sum).1
        lockedPool := state.lockedPool - (payouts kind sum).2 } = .ok next ∧
      next.checkNightBalanceInvariant build = .ok () := by
  simp only [distributeNight] at ok
  split at ok <;> try contradiction
  rename_i claimed bridged totals
  obtain ⟨sum, summed, pays⟩ := Option.map_eq_some_iff.mp totals
  obtain ⟨funded, ok⟩ := thenOk.mp ok
  obtain ⟨final, distributed, rest⟩ := bindOk.mp ok
  obtain ⟨⟨⟩, passed, rfl⟩ := pureOk.mp rest
  refine ⟨sum, summed, ?_, ?_, ?_, mapFaultOk.mp passed⟩
  · rw [pays]
    exact funded.1
  · rw [pays]
    exact funded.2
  · rw [pays]
    exact distributed

structure SystemFrame (S : Services W) (build : Build) (system : SystemTransaction W)
    (tblock : Timestamp) (state next : LedgerState W) : Prop where
  contract : next.contract = state.contract
  utxo : next.utxo = state.utxo
  zswap : next.zswap = state.zswap
  replay : next.replayProtection = state.replayProtection ∨
    ∃ kind outputs, state.distributeNight S build kind outputs tblock = .ok next
  dust : (∃ actions, system = .cNightGeneratesDustUpdate actions ∧
      actions.foldlM (cNightUpdate S build) state.dust = .ok next.dust) ∨
    (∀ actions, system ≠ .cNightGeneratesDustUpdate actions) ∧ next.dust = state.dust

theorem distributeNightFrame (ok : state.distributeNight S build kind outputs tblock = .ok next) :
    next.contract = state.contract ∧ next.utxo = state.utxo ∧ next.zswap = state.zswap ∧
      next.dust = state.dust := by
  obtain ⟨sum, -, -, -, distributed, -⟩ := distributeNightOk ok
  have same := runGrows
    (fun s t : LedgerState W => t.contract = s.contract ∧ t.utxo = s.utxo ∧ t.zswap = s.zswap ∧
      t.dust = s.dust) (fun s => ⟨rfl, rfl, rfl, rfl⟩) ?_ ?_ distributed
  · exact same
  · rintro a b c ⟨contract, utxo, zswap, dust⟩ ⟨contract', utxo', zswap', dust'⟩
    exact ⟨contract'.trans contract, utxo'.trans utxo, zswap'.trans zswap, dust'.trans dust⟩
  · intro s output t _ taken
    obtain ⟨replay, -, ⟨-, rfl⟩ | ⟨-, credited⟩⟩ := distributeOk taken
    · exact ⟨rfl, rfl, rfl, rfl⟩
    · obtain ⟨fees, -, rfl⟩ := creditBridgeOk credited
      exact ⟨rfl, rfl, rfl, rfl⟩

theorem applySystemTxFrame {system : SystemTransaction W}
    (ok : state.applySystemTx S build system tblock = .ok next) :
    SystemFrame S build system tblock state next := by
  cases system with
  | overwriteParameters parameters =>
    simp only [applySystemTx] at ok
    split at ok <;> try contradiction
    cases ok
    exact ⟨rfl, rfl, rfl, .inl rfl, .inr ⟨fun _ => nofun, rfl⟩⟩
  | distributeNight kind outputs =>
    obtain ⟨contract, utxo, zswap, dust⟩ := distributeNightFrame ok
    exact ⟨contract, utxo, zswap, .inr ⟨kind, outputs, ok⟩, .inr ⟨fun _ => nofun, dust⟩⟩
  | payBlockRewardsToTreasury amount | unlockToTreasury amount =>
    simp only [applySystemTx] at ok
    split at ok <;> try contradiction
    obtain ⟨rfl, -⟩ := checkedOk ok
    exact ⟨rfl, rfl, rfl, .inl rfl, .inr ⟨fun _ => nofun, rfl⟩⟩
  | payFromTreasuryShielded => cases ok
  | payFromTreasuryUnshielded => cases ok
  | distributeReserve amount | unlockToReserve amount =>
    simp only [applySystemTx] at ok
    split at ok <;> try contradiction
    obtain ⟨pool, -, rest⟩ := bindOk.mp ok
    obtain ⟨rfl, -⟩ := checkedOk rest
    exact ⟨rfl, rfl, rfl, .inl rfl, .inr ⟨fun _ => nofun, rfl⟩⟩
  | cNightGeneratesDustUpdate actions =>
    obtain ⟨dust, updated, rfl⟩ := pureOk.mp ok
    exact ⟨rfl, rfl, rfl, .inl rfl, .inl ⟨actions, rfl, updated⟩⟩

theorem systemStepOk {system : SystemTransaction W}
    (ok : step S build state (.system system tblock) = .ok next) :
    state.applySystemTx S build system tblock = .ok next ∨ state = next := by
  simp only [step] at ok
  split at ok <;> cases ok
  · rename_i applied
    exact .inl applied
  · exact .inr rfl

theorem fallibleSegmentsPreserve {before after : LedgerState W × Log W}
    (preserved : ∀ {s t segment}, P s → s.applySection S build tx fees segment context = .ok t →
      P t) (start : P before.1)
    (ok : segments.foldlM (fallibleStep S build tx fees context) before = .ok after) :
    P after.1 := by
  refine runPreserves (fun acc => P acc.1) ?_ start ok
  intro acc segment following _ holds taken
  rw [fallibleStep] at taken
  split at taken <;> try contradiction
  · rename_i applied
    cases taken
    exact preserved holds applied
  · cases taken
    exact holds

def resultOf (segments : Log W) : TransactionResult W :=
  if segments.all (fun segment => segment.2.isNone) then .success else .partialSuccess segments

theorem applyOk (ok : state.apply S build vt context = .ok (next, result)) :
    (∃ e, result = .failure e ∧ next = state) ∨
      (∃ rewards, vt.inner = .claimRewards rewards ∧ result = .success ∧
        state.claimUnshielded S build rewards context.blockContext = .ok next) ∨
      ∃ stx guaranteed segments, vt.inner = .standard stx ∧ result = resultOf segments ∧
        state.applySection S build stx vt.fees guaranteedSegment context = .ok guaranteed ∧
        stx.fallibleSegments.foldlM (fallibleStep S build stx vt.fees context)
          (guaranteed, [(guaranteedSegment, none)]) = .ok (next, segments) := by
  rw [apply] at ok
  split at ok
  · cases ok
    exact .inl ⟨_, rfl, rfl⟩
  · contradiction
  · rename_i guaranteed passed
    rw [applyGuaranteedOnly] at passed
    split at ok
    · rename_i stx standard
      simp only [standard] at passed
      obtain ⟨⟨final, segments⟩, run, last⟩ := bindOk.mp ok
      refine .inr (.inr ⟨stx, guaranteed, segments, standard, ?_, passed, ?_⟩)
      all_goals
        dsimp only at last
        split at last <;> rename_i every <;> cases last
      · exact (if_pos every).symm
      · exact (if_neg every).symm
      · exact run
      · exact run
    · rename_i rewards claim
      simp only [claim] at passed
      cases ok
      exact .inr (.inl ⟨rewards, claim, rfl, passed⟩)

theorem applyPreserves (start : P state) (claims : ∀ {rewards t}, vt.inner = .claimRewards rewards →
      state.claimUnshielded S build rewards context.blockContext = .ok t → P t)
    (sections : ∀ {stx s t segment}, vt.inner = .standard stx → P s →
      s.applySection S build stx vt.fees segment context = .ok t → P t)
    (ok : state.apply S build vt context = .ok (next, result)) : P next := by
  obtain ⟨-, -, rfl⟩ | ⟨rewards, claim, -, claimed⟩ |
    ⟨stx, guaranteed, segments, standard, -, passed, run⟩ := applyOk ok
  · exact start
  · exact claims claim claimed
  · exact fallibleSegmentsPreserve (sections standard) (sections standard start passed) run

end LedgerState

open List

theorem StandardTransaction.fallibleSegmentsNodup (tx : StandardTransaction W) :
    tx.fallibleSegments.Nodup :=
  (perm_insertionSort _ _).nodup_iff.mpr (nodup_dedup _)

theorem StandardTransaction.memFallibleSegments :
    segment ∈ tx.fallibleSegments ↔ (segment ∈ tx.intents.keys ∨ segment ∈ tx.fallibleCoins.keys) ∧
        segment ≠ guaranteedSegment := by
  simp [fallibleSegments, or_and_right]

namespace LedgerState

variable {state next guaranteed : LedgerState W}

def firstLog : Log W := [(guaranteedSegment, none)]

inductive SectionApplied (S : Services W) (build : Build) (tx : StandardTransaction W) (fees : U128)
    (context : TransactionContext W) (state : LedgerState W) :
    Segment → LedgerState W → LedgerState W → Prop where
  | guaranteed {after : LedgerState W}
      (applied : state.applySection S build tx fees guaranteedSegment context = .ok after) :
      SectionApplied S build tx fees context state guaranteedSegment state after
  | fallible {first before after : LedgerState W} {segment : Segment} {earlier rest : List Segment}
      {log : Log W}
      (started : state.applySection S build tx fees guaranteedSegment context = .ok first)
      (order : tx.fallibleSegments = earlier ++ segment :: rest)
      (reached : earlier.foldlM (fallibleStep S build tx fees context) (first, firstLog) =
        .ok (before, log))
      (applied : before.applySection S build tx fees segment context = .ok after) :
      SectionApplied S build tx fees context state segment before after

variable {before : LedgerState W} {final : Log W} {after : LedgerState W}

theorem SectionApplied.section
    (applies : SectionApplied S build tx fees context state segment before after) :
    before.applySection S build tx fees segment context = .ok after := by
  cases applies with
  | guaranteed applied => exact applied
  | fallible _ _ _ applied => exact applied

theorem SectionApplied.within (grown : LedgerState W → LedgerState W → Prop) (self : ∀ s, grown s s)
    (trans : ∀ {a b c}, grown a b → grown b c → grown a c)
    (grows : ∀ {s segment t}, s.applySection S build tx fees segment context = .ok t → grown s t)
    (applies : SectionApplied S build tx fees context state segment before after)
    (passed : state.applySection S build tx fees guaranteedSegment context = .ok guaranteed)
    (ok : tx.fallibleSegments.foldlM (fallibleStep S build tx fees context)
      (guaranteed, firstLog) = .ok (next, final)) : grown state before ∧ grown after next := by
  have through : ∀ {s t : LedgerState W} {segments : List Segment} {log log' : Log W},
      segments.foldlM (fallibleStep S build tx fees context) (s, log) = .ok (t, log') →
        grown s t := fun {s t segments log log'} run =>
    fallibleSegmentsPreserve (P := grown s) (fun reached taken => trans reached (grows taken))
      (self s) run
  cases applies with
  | guaranteed applied =>
    cases applied.symm.trans passed
    exact ⟨self state, through ok⟩
  | fallible started order reached applied =>
    cases started.symm.trans passed
    refine ⟨trans (grows passed) (through reached), ?_⟩
    rw [order] at ok
    obtain ⟨middle, first, rest⟩ := foldlMAppend.mp ok
    cases first.symm.trans reached
    obtain ⟨stepped, taken, others⟩ := runCons.mp rest
    rw [fallibleStep, applied] at taken
    cases taken
    exact through others

theorem SectionApplied.responsible (P : LedgerState W → Prop)
    (passed : state.applySection S build tx fees guaranteedSegment context = .ok guaranteed)
    (ok : tx.fallibleSegments.foldlM (fallibleStep S build tx fees context)
      (guaranteed, firstLog) = .ok (next, final)) (absent : ¬ P state) (present : P next) :
    ∃ segment before after, SectionApplied S build tx fees context state segment before after ∧
      ¬ P before ∧ P after := by
  by_cases early : P guaranteed
  · exact ⟨guaranteedSegment, state, guaranteed, .guaranteed passed, absent, early⟩
  -- The first of the remaining sections after which it holds.
  have later : ∀ (rest earlier : List Segment) (reached : LedgerState W) (log : Log W),
      tx.fallibleSegments = earlier ++ rest →
      earlier.foldlM (fallibleStep S build tx fees context) (guaranteed, firstLog) =
        .ok (reached, log) → ¬ P reached →
      rest.foldlM (fallibleStep S build tx fees context) (reached, log) = .ok (next, final) →
      ∃ segment before after, SectionApplied S build tx fees context state segment before after ∧
        ¬ P before ∧ P after := by
    intro rest
    induction rest with
    | nil =>
      intro earlier reached log _ _ without run
      cases runNil.mp run
      exact absurd present without
    | cons segment rest ih =>
      intro earlier reached log order before without run
      obtain ⟨⟨middle, logged⟩, taken, others⟩ := runCons.mp run
      have extended : (earlier ++ [segment]).foldlM (fallibleStep S build tx fees context)
          (guaranteed, firstLog) = .ok (middle, logged) :=
        foldlMAppend.mpr ⟨_, before, runCons.mpr ⟨_, taken, rfl⟩⟩
      have resplit : tx.fallibleSegments = (earlier ++ [segment]) ++ rest := by
        rw [order, append_assoc, singleton_append]
      rw [fallibleStep] at taken
      split at taken <;> try contradiction
      · rename_i after applied
        cases taken
        by_cases here : P middle
        · exact ⟨segment, reached, middle, .fallible passed order before applied, without, here⟩
        · exact ih _ middle _ resplit extended here others
      · cases taken
        exact ih _ reached _ resplit extended without others
  exact later _ [] guaranteed firstLog rfl rfl early ok

theorem fallibleLog {log : Log W}
    (ok : segments.foldlM (fallibleStep S build tx fees context) (state, log) = .ok (next, final)) :
    ∃ entries, final = log ++ entries ∧ entries.map Prod.fst = segments ∧
      ∀ segment outcome, (segment, outcome) ∈ entries → ∃ earlier rest reached middle,
        segments = earlier ++ segment :: rest ∧
        earlier.foldlM (fallibleStep S build tx fees context) (state, log) = .ok (reached, middle) ∧
        (outcome = none ↔
          ∃ after, reached.applySection S build tx fees segment context = .ok after) := by
  induction segments generalizing state log with
  | nil =>
    cases runNil.mp ok
    exact ⟨[], (append_nil _).symm, rfl, fun _ _ mem => absurd mem not_mem_nil⟩
  | cons first segments ih =>
    obtain ⟨⟨middle, logged⟩, taken, rest⟩ := runCons.mp ok
    obtain ⟨entries, rfl, keys, each⟩ := ih rest
    -- The entry of the first segment, and what it tells about its section.
    have entry : ∃ outcome, logged = log ++ [(first, outcome)] ∧ (outcome = none ↔
          ∃ after, state.applySection S build tx fees first context = .ok after) := by
      rw [fallibleStep] at taken
      split at taken <;> try contradiction
      · rename_i after applied
        cases taken
        exact ⟨none, rfl, fun _ => ⟨_, applied⟩, fun _ => rfl⟩
      · rename_i refused
        cases taken
        refine ⟨_, rfl, nofun, fun ⟨after, applied⟩ => ?_⟩
        cases refused.symm.trans applied
    obtain ⟨outcome, rfl, meaning⟩ := entry
    refine ⟨(first, outcome) :: entries, by simp, by simp [keys], ?_⟩
    intro segment result mem
    rcases mem_cons.mp mem with here | inside
    · cases here
      exact ⟨[], segments, state, log, rfl, rfl, meaning⟩
    · obtain ⟨earlier, others, reached, between, order, run, tells⟩ := each segment result inside
      exact ⟨first :: earlier, others, reached, between, by rw [order, cons_append],
        runCons.mpr ⟨_, taken, run⟩, tells⟩

theorem logApplied
    (passed : state.applySection S build tx fees guaranteedSegment context = .ok guaranteed)
    (ok : tx.fallibleSegments.foldlM (fallibleStep S build tx fees context)
      (guaranteed, firstLog) = .ok (next, final)) :
    (final.map Prod.fst = guaranteedSegment :: tx.fallibleSegments) ∧
      ∀ segment outcome, (segment, outcome) ∈ final → (outcome = none ↔
          ∃ before after, SectionApplied S build tx fees context state segment before after) := by
  obtain ⟨entries, rfl, keys, each⟩ := fallibleLog ok
  refine ⟨by simp [firstLog, keys], ?_⟩
  intro segment outcome mem
  rcases mem_append.mp mem with first | inside
  · cases mem_singleton.mp first
    exact ⟨fun _ => ⟨state, guaranteed, .guaranteed passed⟩, fun _ => rfl⟩
  · obtain ⟨earlier, rest, reached, middle, order, run, tells⟩ := each segment outcome inside
    rw [tells]
    constructor
    · rintro ⟨after, applied⟩
      exact ⟨reached, after, .fallible passed order run applied⟩
    · rintro ⟨before, after, applies⟩
      cases applies with
      | guaranteed _ =>
        exact absurd rfl (fallibleNotGuaranteed (order ▸ mem_append_right _ mem_cons_self))
      | fallible started again ran applied =>
        cases started.symm.trans passed
        cases splitUnique tx.fallibleSegmentsNodup order again
        cases ran.symm.trans run
        exact ⟨after, applied⟩

theorem applyStandardOk (inner : vt.inner = .standard tx)
    (ok : state.apply S build vt context = .ok (next, result)) :
    (∃ e, state.applySection S build tx vt.fees guaranteedSegment context = .error (.error e) ∧
        next = state ∧ result = .failure e) ∨ ∃ guaranteed log,
        state.applySection S build tx vt.fees guaranteedSegment context = .ok guaranteed ∧
        tx.fallibleSegments.foldlM (fallibleStep S build tx vt.fees context)
          (guaranteed, firstLog) = .ok (next, log) ∧ result = resultOf log := by
  cases started : state.applySection S build tx vt.fees guaranteedSegment context with
  | error e =>
    rw [apply, applyGuaranteedOnly, inner] at ok
    simp only [started] at ok
    cases e with
    | panic => cases ok
    | error e =>
      cases ok
      exact .inl ⟨e, rfl, rfl, rfl⟩
  | ok guaranteed =>
    rw [apply, applyGuaranteedOnly, inner] at ok
    simp only [started] at ok
    obtain ⟨⟨final, log⟩, run, last⟩ := bindOk.mp ok
    refine .inr ⟨guaranteed, log, rfl, ?_⟩
    dsimp only at last
    split at last <;> rename_i every <;> cases last
    · exact ⟨run, (if_pos every).symm⟩
    · exact ⟨run, (if_neg every).symm⟩

theorem applyResponsible (P : LedgerState W → Prop) (inner : vt.inner = .standard tx)
    (applied : state.apply S build vt context = .ok (next, result)) (absent : ¬ P state)
    (present : P next) :
    ∃ segment before after, SectionApplied S build tx vt.fees context state segment before after ∧
      ¬ P before ∧ P after := by
  obtain ⟨e, -, rfl⟩ | ⟨rewards, claim, -, -⟩ | ⟨other, guaranteed, log, standard, -, passed, run⟩ :=
    applyOk applied
  · exact absurd present absent
  · cases inner.symm.trans claim
  · cases inner.symm.trans standard
    exact SectionApplied.responsible P passed run absent present

end LedgerState

end MidnightLedger.Ledger

import MidnightLedger.Ledger.Supply

/-! What the system transactions that move Night do to the pools, in exact numbers. In a state whose
supply is the maximal one the machine arithmetic never leaves the word. -/
namespace MidnightLedger.Ledger
open ByteString Maps Words Loops Simulation LedgerState List Option

variable {W : Components} {S : Services W} {build : Build}

def SystemTransaction.MovesNight : SystemTransaction W → Prop
  | .distributeNight _ _ | .payBlockRewardsToTreasury _ | .unlockToTreasury _
  | .distributeReserve _ | .unlockToReserve _ => True
  | .overwriteParameters _ | .payFromTreasuryShielded | .payFromTreasuryUnshielded
  | .cNightGeneratesDustUpdate _ => False

def shares (share : U128 → Nat) (outputs : List OutputInstructionUnshielded) : Nat :=
  (outputs.map fun output => share output.amount).sum

def sharesOf (share : U128 → Nat) (address : UserAddress)
    (outputs : List OutputInstructionUnshielded) : Nat :=
  shares share (outputs.filter fun output => output.targetAddress = address)

def Credited (share : U128 → Nat) (outputs : List OutputInstructionUnshielded)
    (before after : Map UserAddress U128) : Prop :=
  ∀ address, (balanceOf after address).toNat =
    (balanceOf before address).toNat + sharesOf share address outputs

structure Shifted (amount : Nat) (source source' target target' : U128) : Prop where
  taken : source'.toNat + amount = source.toNat
  given : target'.toNat = target.toNat + amount

namespace LedgerState

def bridgeFee (state : LedgerState W) (amount : U128) : Nat :=
  if amount < state.parameters.cToMBridgeMinAmount then amount.toNat
  else amount.toNat * state.parameters.cardanoToMidnightBridgeFeeBasisPoints.toNat / 10000

def bridgePaid (state : LedgerState W) (amount : U128) : Nat :=
  amount.toNat - state.bridgeFee amount

def Moved (state next : LedgerState W) : SystemTransaction W → Prop
  | .distributeNight .reward outputs => ∃ rewards balances replay,
      next = { state with
        blockRewardPool := rewards
        unclaimedBlockRewards := balances
        replayProtection := replay } ∧
      rewards.toNat + shares BitVec.toNat outputs = state.blockRewardPool.toNat ∧
      Credited BitVec.toNat outputs state.unclaimedBlockRewards balances
  | .distributeNight .cardanoBridge outputs => ∃ locked treasury balances replay,
      next = { state with
        lockedPool := locked
        treasury := treasury
        bridgeReceiving := balances
        replayProtection := replay } ∧
      locked.toNat + shares BitVec.toNat outputs = state.lockedPool.toNat ∧
      next.treasuryNight.toNat = state.treasuryNight.toNat + shares state.bridgeFee outputs ∧
      (∀ token, token ≠ nightToken → treasury.lookup token = state.treasury.lookup token) ∧
      Credited state.bridgePaid outputs state.bridgeReceiving balances ∧
      ∀ output ∈ outputs,
        state.bridgeFee output.amount + state.bridgePaid output.amount = output.amount.toNat
  | .payBlockRewardsToTreasury amount => ∃ rewards treasury,
      next = { state with
        blockRewardPool := rewards
        treasury := state.treasury.insert nightToken treasury } ∧
      Shifted amount.toNat state.blockRewardPool rewards state.treasuryNight treasury
  | .unlockToTreasury amount => ∃ locked treasury,
      next = { state with
        lockedPool := locked
        treasury := state.treasury.insert nightToken treasury } ∧
      Shifted amount.toNat state.lockedPool locked state.treasuryNight treasury
  | .distributeReserve amount => ∃ reserve rewards,
      next = { state with reservePool := reserve, blockRewardPool := rewards } ∧
      Shifted amount.toNat state.reservePool reserve state.blockRewardPool rewards
  | .unlockToReserve amount => ∃ locked reserve,
      next = { state with lockedPool := locked, reservePool := reserve } ∧
      Shifted amount.toNat state.lockedPool locked state.reservePool reserve
  | .overwriteParameters _ | .payFromTreasuryShielded | .payFromTreasuryUnshielded
  | .cNightGeneratesDustUpdate _ => False

variable {state next : LedgerState W}

theorem supplyPasses (full : state.supply = maxSupply) :
    state.checkNightBalanceInvariant build = .ok () := by
  rw [supply, holds, pools] at full
  simp only [balanceTotal] at full
  have small : maxSupply ≤ 2 ^ 128 - 1 := by decide
  have utxos := utxosNightAnn state.utxo
  have rewards := nightAnnToNat (fun _ value => value) state.unclaimedBlockRewards
  have bridged := nightAnnToNat (fun _ value => value) state.bridgeReceiving
  have contracts := contractsNightAnn state.contract
  obtain ⟨t1, add1, sum1⟩ := plainAddFits (w := 128)
    (a := nightAnn (fun utxo _ => Utxo.night utxo) state.utxo) (b := state.lockedPool) (by omega)
  obtain ⟨t2, add2, sum2⟩ := plainAddFits (w := 128) (a := t1) (b := state.reservePool) (by omega)
  obtain ⟨t3, add3, sum3⟩ := plainAddFits (w := 128) (a := t2) (b := state.blockRewardPool) (by omega)
  obtain ⟨t4, add4, sum4⟩ := plainAddFits (w := 128) (a := t3) (b := state.treasuryNight) (by omega)
  obtain ⟨t5, add5, sum5⟩ := plainAddFits (w := 128) (a := t4)
    (b := nightAnn (fun _ value => value) state.unclaimedBlockRewards) (by omega)
  obtain ⟨t6, add6, sum6⟩ := plainAddFits (w := 128) (a := t5)
    (b := nightAnn (fun _ value => value) state.bridgeReceiving) (by omega)
  obtain ⟨t7, add7, sum7⟩ := plainAddFits (w := 128) (a := t6)
    (b := nightAnn (fun _ contract => ContractState.night contract) state.contract) (by omega)
  refine bindOk.mpr ⟨_, add1, bindOk.mpr ⟨_, add2, bindOk.mpr ⟨_, add3, bindOk.mpr ⟨_, add4,
    bindOk.mpr ⟨_, add5, bindOk.mpr ⟨_, add6, bindOk.mpr ⟨_, add7, if_pos ?_⟩⟩⟩⟩⟩⟩⟩
  refine BitVec.eq_of_toNat_eq ?_
  rw [BitVec.toNat_ofNat, Nat.mod_eq_of_lt (by omega)]
  omega

theorem balanceWithin (balances : Map UserAddress U128) (address : UserAddress) :
    (balanceOf balances address).toNat ≤ balanceTotal balances := by
  have emptied := creditTotal balances address 0
  have zero : (0 : U128).toNat = 0 := rfl
  omega

theorem creditedNil (share : U128 → Nat) (balances : Map UserAddress U128) :
    Credited share [] balances balances := fun _ => rfl

variable {outputs : List OutputInstructionUnshielded} {output : OutputInstructionUnshielded}
  {tblock : Timestamp}

theorem creditedCons {share : U128 → Nat} {before after : Map UserAddress U128} {credited : U128}
    (first : credited.toNat = (balanceOf before output.targetAddress).toNat + share output.amount)
    (rest : Credited share outputs (before.insert output.targetAddress credited) after) :
    Credited share (output :: outputs) before after := by
  intro address
  have others := rest address
  rw [balanceOfInsert] at others
  rw [sharesOf, filter_cons]
  by_cases same : output.targetAddress = address
  · rw [if_pos (decide_eq_true same), shares, map_cons, sum_cons]
    rw [if_pos same.symm, first, sharesOf, shares, same] at others
    omega
  · rw [if_neg (by simpa using same)]
    rw [if_neg (Ne.symm same), sharesOf] at others
    exact others

theorem sharesCons (share : U128 → Nat) (output : OutputInstructionUnshielded)
    (outputs : List OutputInstructionUnshielded) :
    shares share (output :: outputs) = share output.amount + shares share outputs := by
  rw [shares, map_cons, sum_cons, shares]

theorem rewardsPaid (room : state.pools + shares BitVec.toNat outputs < 2 ^ 128)
    (ok : outputs.foldlM (distribute S .reward tblock) state = .ok next) :
    ∃ balances replay,
      next = { state with unclaimedBlockRewards := balances, replayProtection := replay } ∧
      Credited BitVec.toNat outputs state.unclaimedBlockRewards balances ∧
      next.pools = state.pools + shares BitVec.toNat outputs := by
  induction outputs generalizing state with
  | nil =>
    cases ok
    exact ⟨_, _, rfl, creditedNil _ _, rfl⟩
  | cons output outputs ih =>
    obtain ⟨middle, first, rest⟩ := bindOk.mp ok
    obtain ⟨replay, -, ⟨-, rfl⟩ | ⟨wrong, -⟩⟩ := distributeOk first <;> try contradiction
    rw [sharesCons] at room ⊢
    have within := balanceWithin state.unclaimedBlockRewards output.targetAddress
    have sum := saturatingAddFits (w := 128)
      (a := balanceOf state.unclaimedBlockRewards output.targetAddress) (b := output.amount)
      (by rw [pools] at room; omega)
    have total := creditTotal state.unclaimedBlockRewards output.targetAddress
      (saturatingAdd (balanceOf state.unclaimedBlockRewards output.targetAddress) output.amount)
    have grown : ({ state with replayProtection := replay }.creditReward output).pools =
        state.pools + output.amount.toNat := by
      simp only [creditReward, pools, treasuryNight]
      omega
    obtain ⟨balances, last, same, credited, paid⟩ := ih (by omega) rest
    refine ⟨balances, last, same, creditedCons sum credited, by omega⟩

variable {amount : U128}

section

variable {fee : U128} (ok : state.bridgeFees amount = .ok fee)

include ok

theorem bridgeFeesExact : fee.toNat = state.bridgeFee amount := by
  rw [bridgeFees] at ok
  rw [bridgeFee]
  split at ok
  · rename_i small
    cases ok
    rw [if_pos small]
  · rename_i large
    rw [if_neg large, (basisPointsExact ok).2]

theorem bridgeShares :
    fee.toNat = state.bridgeFee amount ∧ (amount - fee).toNat = state.bridgePaid amount ∧
      state.bridgeFee amount + state.bridgePaid amount = amount.toNat := by
  have exact := bridgeFeesExact ok
  have rest := subToNat (bridgeFeesLe ok)
  rw [bridgePaid]
  omega

end

theorem creditBridgeExact (room : state.pools + output.amount.toNat < 2 ^ 128)
    (ok : state.creditBridge output = .ok next) : ∃ levied credited,
      next = { state with
        treasury := state.treasury.insert nightToken levied
        bridgeReceiving := state.bridgeReceiving.insert output.targetAddress credited } ∧
      levied.toNat = state.treasuryNight.toNat + state.bridgeFee output.amount ∧
      credited.toNat = (balanceOf state.bridgeReceiving output.targetAddress).toNat +
        state.bridgePaid output.amount ∧
      state.bridgeFee output.amount + state.bridgePaid output.amount = output.amount.toNat ∧
      next.pools = state.pools + output.amount.toNat := by
  obtain ⟨fees, charged, rfl⟩ := creditBridgeOk ok
  obtain ⟨fee, remainder, whole⟩ := bridgeShares charged
  have within := balanceWithin state.bridgeReceiving output.targetAddress
  have levied := saturatingAddFits (w := 128) (a := state.treasuryNight) (b := fees)
    (by rw [pools] at room; omega)
  have credited := saturatingAddFits (w := 128)
    (a := balanceOf state.bridgeReceiving output.targetAddress) (b := output.amount - fees)
    (by rw [pools] at room; omega)
  refine ⟨_, _, rfl, by rw [levied, fee], by rw [credited, remainder], whole, ?_⟩
  have total := creditTotal state.bridgeReceiving output.targetAddress
    (saturatingAdd (balanceOf state.bridgeReceiving output.targetAddress) (output.amount - fees))
  rw [← payTreasuryNight] at levied
  simp only [payTreasury, pools, treasuryNight] at levied ⊢
  omega

theorem bridgePaidOut (room : state.pools + shares BitVec.toNat outputs < 2 ^ 128)
    (ok : outputs.foldlM (distribute S .cardanoBridge tblock) state = .ok next) :
    ∃ treasury balances replay,
      next = { state with
        treasury := treasury
        bridgeReceiving := balances
        replayProtection := replay } ∧
      next.treasuryNight.toNat = state.treasuryNight.toNat + shares state.bridgeFee outputs ∧
      (∀ token, token ≠ nightToken → treasury.lookup token = state.treasury.lookup token) ∧
      Credited state.bridgePaid outputs state.bridgeReceiving balances ∧
      (∀ output ∈ outputs,
        state.bridgeFee output.amount + state.bridgePaid output.amount = output.amount.toNat) ∧
      next.pools = state.pools + shares BitVec.toNat outputs := by
  induction outputs generalizing state with
  | nil =>
    cases ok
    exact ⟨_, _, _, rfl, rfl, fun _ _ => rfl, creditedNil _ _, nofun, rfl⟩
  | cons output outputs ih =>
    obtain ⟨middle, first, rest⟩ := bindOk.mp ok
    obtain ⟨replay, -, ⟨wrong, -⟩ | ⟨-, paid⟩⟩ := distributeOk first <;> try contradiction
    rw [sharesCons] at room
    have enough : pools { state with replayProtection := replay } + output.amount.toNat <
        2 ^ 128 := (Nat.add_le_add_left (Nat.le_add_right ..) _).trans_lt room
    obtain ⟨levied, credited, same, night, balance, whole, grown⟩ := creditBridgeExact enough paid
    have before : middle.pools = state.pools + output.amount.toNat := grown
    have treasury : middle.treasuryNight = levied := by
      rw [same, treasuryNight, balanceOfInsert]
      exact if_pos rfl
    obtain ⟨final, balances, last, result, after, others, received, each, total⟩ :=
      ih (by omega) rest
    rw [treasury, night] at after
    subst same
    refine ⟨final, balances, last, result, ?_, ?_, creditedCons balance received, ?_, ?_⟩
    · rw [sharesCons, ← Nat.add_assoc]
      exact after
    · intro token other
      rw [others token other]
      exact AList.lookup_insert_ne other
    · intro paidOut mem
      rcases mem_cons.mp mem with rfl | inside
      · exact whole
      · exact each paidOut inside
    · rw [sharesCons, ← Nat.add_assoc, ← before, total]

def Ordinary (fault : Fault SystemTransactionError) : Prop :=
  ∃ e, fault = .error e ∧ ∀ violation, e ≠ .invariantViolation violation

variable {system : SystemTransaction W} {e : SystemTransactionError} {kind : ClaimKind}

theorem bridgeFeesOrdinary (failed : state.bridgeFees amount = .error e) : Ordinary (.error e) := by
  rw [bridgeFees] at failed
  split at failed <;> try contradiction
  rw [basisPointsOf] at failed
  split at failed <;> try contradiction
  cases failed
  exact ⟨_, rfl, by simp⟩

theorem distributeOrdinary {fault : Fault SystemTransactionError}
    (failed : distribute S kind tblock state output = .error fault) : Ordinary fault := by
  rcases bindError.mp failed with replayed | ⟨replay, -, rest⟩
  · obtain ⟨e, -, rfl⟩ := liftError.mp replayed
    exact ⟨_, rfl, by simp⟩
  · cases kind with
    | reward => cases rest
    | cardanoBridge =>
      rcases bindError.mp rest with charged | ⟨fees, -, last⟩
      · obtain ⟨e, refused, rfl⟩ := liftError.mp charged
        exact bridgeFeesOrdinary refused
      · cases last

def funding (state : LedgerState W) (kind : ClaimKind) (sum : U128) : LedgerState W :=
  { state with
    blockRewardPool := state.blockRewardPool - (payouts kind sum).1
    lockedPool := state.lockedPool - (payouts kind sum).2 }

theorem fundedMoved {sum : U128} (full : state.supply = maxSupply)
    (total : sum.toNat = shares BitVec.toNat outputs)
    (funded : (payouts kind sum).1 ≤ state.blockRewardPool ∧
      (payouts kind sum).2 ≤ state.lockedPool)
    (ok : outputs.foldlM (distribute S kind tblock) (state.funding kind sum) = .ok next) :
    state.Moved next (.distributeNight kind outputs) ∧ next.supply = maxSupply := by
  have small : maxSupply < 2 ^ 128 := by decide
  have within : state.pools ≤ maxSupply := full ▸ Nat.le_add_left ..
  have rewards := subToNat funded.1
  have locked := subToNat funded.2
  have zero : (0 : U128).toNat = 0 := rfl
  have taken : (state.funding kind sum).pools + sum.toNat = state.pools := by
    cases kind <;> simp only [funding, pools, payouts, treasuryNight] at rewards locked ⊢ <;> omega
  have untouched (replaced : LedgerState W) (pooled : replaced.pools = state.pools)
      (utxo : replaced.utxo = state.utxo) (contract : replaced.contract = state.contract) :
      replaced.supply = maxSupply := by
    rw [supply, holds, utxo, contract, pooled]
    exact full
  have room : (state.funding kind sum).pools + shares BitVec.toNat outputs < 2 ^ 128 := by omega
  cases kind with
  | reward =>
    obtain ⟨balances, replay, same, credited, paid⟩ := rewardsPaid room ok
    have kept : state.lockedPool - (payouts .reward sum).2 = state.lockedPool := BitVec.sub_zero _
    refine ⟨⟨state.blockRewardPool - sum, balances, replay, ?_, ?_, credited⟩,
      untouched next (by omega) ?_ ?_⟩
    · rw [same, funding, kept]
      rfl
    · rw [← total]
      exact rewards
    · rw [same]
      rfl
    · rw [same]
      rfl
  | cardanoBridge =>
    obtain ⟨treasury, balances, replay, same, night, others, credited, each, paid⟩ :=
      bridgePaidOut room ok
    have kept : state.blockRewardPool - (payouts .cardanoBridge sum).1 = state.blockRewardPool :=
      BitVec.sub_zero _
    refine ⟨⟨state.lockedPool - sum, treasury, balances, replay, ?_, ?_, night, others, credited,
      each⟩, untouched next (by omega) ?_ ?_⟩
    · rw [same, funding, kept]
      rfl
    · rw [← total]
      exact locked
    · rw [same]
      rfl
    · rw [same]
      rfl

def Settled (state : LedgerState W) (system : SystemTransaction W)
    (result : Outcome SystemTransactionError (LedgerState W)) : Prop :=
  (∃ fault, result = .error fault ∧ Ordinary fault) ∨
    ∃ next, result = .ok next ∧ state.Moved next system

theorem refusedSettled (ordinary : ∀ violation, e ≠ .invariantViolation violation) :
    state.Settled system (reject e) := .inl ⟨.error e, rfl, e, rfl, ordinary⟩

theorem checkedSettled (full : next.supply = maxSupply) (moved : state.Moved next system) :
    state.Settled system (checked build next) := by
  refine .inr ⟨next, ?_, moved⟩
  rw [checked, supplyPasses full]
  rfl

theorem distributeNightSettled (full : state.supply = maxSupply) :
    state.Settled (.distributeNight kind outputs)
      (state.distributeNight S build kind outputs tblock) := by
  cases summed : outputs.foldlM (fun sum o => checkedAdd sum o.amount) (0 : U128) with
  | none =>
    simp only [distributeNight, summed, map_none]
    exact refusedSettled (by simp)
  | some sum =>
    by_cases funded : (payouts kind sum).1 ≤ state.blockRewardPool ∧
      (payouts kind sum).2 ≤ state.lockedPool
    · have total : sum.toNat = shares BitVec.toNat outputs := by
        rw [checkedSumToNat summed, shares]
        exact Nat.zero_add _
      have runs : state.distributeNight S build kind outputs tblock =
          outputs.foldlM (distribute S kind tblock) (state.funding kind sum) >>= checked build := by
        simp only [distributeNight, summed, map_some, if_pos funded]
        rfl
      rw [runs]
      cases paid : outputs.foldlM (distribute S kind tblock) (state.funding kind sum) with
      | error fault =>
        obtain ⟨output, -, before, failed⟩ := runFailed paid
        exact .inl ⟨fault, rfl, distributeOrdinary failed⟩
      | ok next =>
        obtain ⟨moved, kept⟩ := fundedMoved full total funded paid
        exact checkedSettled kept moved
    · simp only [distributeNight, summed, map_some, if_neg funded]
      exact refusedSettled (by simp)

variable (build) in
theorem poolShifts {source : U128} (target : U128) (enough : ¬ source < amount)
    (room : source.toNat + target.toNat < 2 ^ 128) : ∃ given,
      (plainAdd build target amount : Outcome SystemTransactionError U128) = .ok given ∧
      Shifted amount.toNat source (source - amount) target given := by
  have taken := subToNat (BitVec.not_lt.mp enough)
  obtain ⟨given, added, sum⟩ := plainAddFits (w := 128) (a := target) (b := amount) (by omega)
  exact ⟨given, added, taken, sum⟩

variable (S build) in
theorem applySystemTxSettled (moving : system.MovesNight)
    (full : state.supply = maxSupply) (tblock : Timestamp) :
    state.Settled system (state.applySystemTx S build system tblock) := by
  have small : maxSupply < 2 ^ 128 := by decide
  have within : state.pools ≤ maxSupply := full ▸ Nat.le_add_left ..
  rw [supply, holds, pools] at full
  cases system with
  | distributeNight kind outputs => exact distributeNightSettled full
  | payBlockRewardsToTreasury amount | unlockToTreasury amount =>
    rw [applySystemTx]
    split
    · exact refusedSettled (by simp)
    · rename_i enough
      have taken := subToNat (BitVec.not_lt.mp enough)
      have given : (state.payTreasury amount).treasuryNight.toNat =
        state.treasuryNight.toNat + amount.toNat := saturatingAddFits (by omega)
      refine checkedSettled ?_ ⟨_, _, rfl, payTreasuryNight state amount ▸ ⟨taken, given⟩⟩
      rw [supply, holds, pools]
      simp only [payTreasury, treasuryNight] at given full ⊢
      omega
  | distributeReserve amount =>
    rw [applySystemTx]
    split
    · exact refusedSettled (by simp)
    · rename_i enough
      obtain ⟨given, added, shifted⟩ := poolShifts build state.blockRewardPool enough (by omega)
      rw [added]
      refine checkedSettled ?_ ⟨_, _, rfl, shifted⟩
      obtain ⟨taken, sum⟩ := shifted
      rw [supply, holds, pools]
      simp only [treasuryNight] at full ⊢
      omega
  | unlockToReserve amount =>
    rw [applySystemTx]
    split
    · exact refusedSettled (by simp)
    · rename_i enough
      obtain ⟨given, added, shifted⟩ := poolShifts build state.reservePool enough (by omega)
      rw [added]
      refine checkedSettled ?_ ⟨_, _, rfl, shifted⟩
      obtain ⟨taken, sum⟩ := shifted
      rw [supply, holds, pools]
      simp only [treasuryNight] at full ⊢
      omega
  | overwriteParameters parameters | payFromTreasuryShielded | payFromTreasuryUnshielded
  | cNightGeneratesDustUpdate actions => exact moving.elim

end LedgerState

theorem nightMovedExactly {networkId : String} {parameters : LedgerParameters W}
    {locked reserve treasury : U128} {genesis state : LedgerState W} {steps : List (Step W)}
    {system : SystemTransaction W}
    (started : withGenesisSettings S build networkId parameters locked reserve
      treasury = .ok genesis) (run : run (step S build) genesis steps = .ok state)
    (exact : build = .debug ∨ locked.toNat + reserve.toNat + treasury.toNat < 2 ^ 128 ∧
      ∀ taken ∈ steps, taken.NightBounded) (moving : system.MovesNight) (tblock : Timestamp) :
    (∃ e, state.applySystemTx S build system tblock = reject e ∧
        (∀ violation, e ≠ .invariantViolation violation) ∧
        step S build state (.system system tblock) = .ok state) ∨
      ∃ next, state.applySystemTx S build system tblock = .ok next ∧ state.Moved next system ∧
        step S build state (.system system tblock) = .ok next := by
  have full := runSupply (fun taken inside => exact.imp_right fun small => small.2 taken inside)
    (genesisSupply started (exact.imp_right And.left)) run
  obtain ⟨fault, refused, e, rfl, ordinary⟩ | ⟨next, applied, moved⟩ :=
    applySystemTxSettled S build moving full tblock
  · refine .inl ⟨e, refused, ordinary, ?_⟩
    rw [step, refused]
  · refine .inr ⟨next, applied, moved, ?_⟩
    rw [step, applied]

def rewardedSteps : List (Step sampleComponents) := [.system (.distributeReserve 100) 5]

def rewarded : LedgerState sampleComponents :=
  value (run (step sampleServices .debug) sampleGenesis rewardedSteps)
    (by decide +kernel)

theorem rewardsToTreasury : ∃ next,
    rewarded.applySystemTx sampleServices .debug (.payBlockRewardsToTreasury 60) 5 = .ok next ∧
      rewarded.Moved next (.payBlockRewardsToTreasury 60) := by
  have started : withGenesisSettings sampleServices .debug "net" sampleParameters 0
    (BitVec.ofNat 128 maxSupply) 0 = .ok sampleGenesis := valueOk _
  have moving : SystemTransaction.MovesNight (.payBlockRewardsToTreasury 60 :
      SystemTransaction sampleComponents) := trivial
  obtain ⟨e, refused, -⟩ | ⟨next, applied, moved, -⟩ :=
    nightMovedExactly started (valueOk _) (.inl rfl) moving 5
  · have accepted : (rewarded.applySystemTx sampleServices .debug
        (.payBlockRewardsToTreasury 60) 5).isOk = true := by decide +kernel
    rw [show rewarded.applySystemTx sampleServices .debug (.payBlockRewardsToTreasury 60) 5 =
      reject e from refused] at accepted
    cases accepted
  · exact ⟨next, applied, moved⟩

/- From the settings that wrap, the treasury is filled to the last unit, and the rewards
from the reserve no longer fit it. -/
def wrappedSteps : List (Step sampleComponents) :=
  [.system (.unlockToTreasury (BitVec.allOnes 128)) 5,
    .system (.distributeReserve (BitVec.ofNat 128 (maxSupply + 1))) 5]

def wrapped : LedgerState sampleComponents :=
  value (run (step sampleServices .release) wrappedGenesis wrappedSteps)
    (by decide +kernel)

theorem wrappedViolates :
    withGenesisSettings sampleServices .release "net" sampleParameters
        (BitVec.allOnes 128) (BitVec.ofNat 128 (maxSupply + 1)) 0 = .ok wrappedGenesis ∧
      run (step sampleServices .release) wrappedGenesis wrappedSteps = .ok wrapped ∧
      wrapped.applySystemTx sampleServices .release
          (.payBlockRewardsToTreasury (BitVec.ofNat 128 (maxSupply + 1))) 5 =
        reject (.invariantViolation (.nightBalance (BitVec.allOnes 128))) := by
  exact ⟨valueOk _, valueOk _, rfl⟩

end MidnightLedger.Ledger

import MidnightLedger.Ledger.Frames

/-! How much of an unshielded token the UTXOs and the contracts hold, and the conservation of Night.
The supply is the sum over the entries; the ledger's check adds saturating annotations. Where
neither leaves the word, the two are the same. -/
namespace MidnightLedger.Ledger
open ByteString Maps Words Loops Simulation List AList Nat

variable {W : Components} {S : Services W} {build : Build}

section

variable (token : UnshieldedTokenType)

def Utxo.amount (utxo : Utxo) : Nat := if utxo.type = token then utxo.value.toNat else 0

def UtxoSpend.amount (input : UtxoSpend) : Nat := if input.type = token then input.value.toNat else 0

def UtxoOutput.amount (output : UtxoOutput) : Nat :=
  if output.type = token then output.value.toNat else 0

def utxosHold (utxos : Map Utxo UtxoMeta) : Nat := total (fun utxo _ => utxo.amount token) utxos

def ContractState.holds (contract : ContractState W) : Nat :=
  (balanceOf contract.balance (.unshielded token)).toNat

def contractsHold (contracts : Map ContractAddress (ContractState W)) : Nat :=
  total (fun _ contract => contract.holds token) contracts

def LedgerState.holds (state : LedgerState W) : Nat :=
  utxosHold token state.utxo + contractsHold token state.contract

def offerGains (offer : Option UnshieldedOffer) : Nat :=
  (((offer.map UnshieldedOffer.outputs).getD []).map (UtxoOutput.amount token)).sum

def offerLosses (offer : Option UnshieldedOffer) : Nat :=
  (((offer.map UnshieldedOffer.inputs).getD []).map (UtxoSpend.amount token)).sum

end

def entryAmount (token other : TokenType) (amount : U128) : Nat :=
  if other = token then amount.toNat else 0

def amountIn (token : TokenType) (amounts : Map TokenType U128) : Nat :=
  total (entryAmount token) amounts

variable {parent : Intent W} {segment : Segment} {tblock : Timestamp}

namespace UtxoState

variable (token : UnshieldedTokenType) {utxos next : Map Utxo UtxoMeta}

theorem spendHold {input : UtxoSpend} (ok : spend S utxos input = .ok next) :
    utxosHold token next + input.amount token = utxosHold token utxos := by
  rw [spend] at ok
  obtain ⟨present, ok⟩ := thenOk.mp ok
  cases ok
  obtain ⟨found, lookup⟩ := Option.isSome_iff_exists.mp present
  have erased := totalErase (fun utxo _ => Utxo.amount token utxo) utxos (S.spentUtxo input)
  rw [heldSome lookup] at erased
  exact erased

theorem createHold (hash : IntentHash) (tblock : Timestamp) (utxos : Map Utxo UtxoMeta)
    (output : UtxoOutput × Nat) :
    utxosHold token (create hash tblock utxos output) ≤
      utxosHold token utxos + output.1.amount token := by
  have inserted := totalInsert (fun utxo _ => Utxo.amount token utxo) utxos
    (Services.createdUtxo hash output) ⟨tblock⟩
  have same : Utxo.amount token (Services.createdUtxo hash output) = output.1.amount token := rfl
  rw [utxosHold, utxosHold, create]
  omega

theorem createsHold (hash : IntentHash) (tblock : Timestamp) (outputs : List (UtxoOutput × Nat))
    (utxos : Map Utxo UtxoMeta) :
    utxosHold token (outputs.foldl (create hash tblock) utxos) ≤
      utxosHold token utxos + (outputs.map (fun output => output.1.amount token)).sum := by
  induction outputs generalizing utxos with
  | nil => simp
  | cons output outputs ih =>
    have first := createHold token hash tblock utxos output
    have others := ih (create hash tblock utxos output)
    rw [foldl_cons, map_cons, sum_cons]
    omega

theorem applyOfferHold {offer : UnshieldedOffer}
    (ok : applyOffer S utxos offer parent segment tblock = .ok next) :
    utxosHold token next + offerLosses token (some offer) ≤
      utxosHold token utxos + offerGains token (some offer) := by
  obtain ⟨spent, spends, rfl⟩ := pureOk.mp ok
  have taken := runMeasures (utxosHold token) (fun _ => 0) (UtxoSpend.amount token)
    (fun _ taken => (spendHold token taken).le) spends
  have created := createsHold token (S.intentHash parent segment) tblock offer.outputs.zipIdx spent
  have unnumbered : offer.outputs.zipIdx.map (fun output => output.1.amount token) =
      offer.outputs.map (UtxoOutput.amount token) := by
    rw [← zipIdx_map_fst 0 offer.outputs, map_map, zipIdx_map_fst]
    rfl
  rw [unnumbered] at created
  have nothing : (offer.inputs.map (fun _ => 0)).sum = 0 := by simp
  simp only [offerLosses, offerGains, Option.map_some, Option.getD_some]
  omega

end UtxoState

theorem balanceOfInsert {K : Type} [DecidableEq K] (balance : Map K U128) (key other : K)
    (value : U128) :
    balanceOf (balance.insert key value) other =
      if other = key then value else balanceOf balance other := by
  rw [balanceOf]
  split
  · rename_i same
    rw [same, lookup_insert]
    rfl
  · rename_i different
    rw [lookup_insert_ne different]
    rfl

variable {operation : BalanceOperation} {entry : Sigma fun _ : TokenType => U128}

theorem moveBalanceOk {op : U128 → U128 → Option U128} {balance next : Map TokenType U128}
    (ok : moveBalance (W := W) op operation balance entry = .ok next) :
    ∃ moved, op (balanceOf balance entry.1) entry.2 = some moved ∧
      next = balance.insert entry.1 moved := by
  simp only [moveBalance] at ok
  split at ok <;> try contradiction
  rename_i moved taken
  cases ok
  exact ⟨moved, taken, rfl⟩

section

variable (token : TokenType) {balance next : Map TokenType U128}

theorem moveAdds (ok : moveBalance (W := W) checkedAdd operation balance entry = .ok next) :
    (balanceOf next token).toNat =
      (balanceOf balance token).toNat + entryAmount token entry.1 entry.2 := by
  obtain ⟨moved, summed, rfl⟩ := moveBalanceOk ok
  have sum := checkedAddToNat summed
  rw [balanceOfInsert, entryAmount]
  by_cases same : entry.1 = token
  · rw [if_pos same.symm, if_pos same, sum, same]
  · rw [if_neg (Ne.symm same), if_neg same, add_zero]

theorem moveTakes (ok : moveBalance (W := W) checkedSub operation balance entry = .ok next) :
    (balanceOf next token).toNat + entryAmount token entry.1 entry.2 =
      (balanceOf balance token).toNat := by
  obtain ⟨moved, subtracted, rfl⟩ := moveBalanceOk ok
  have difference := checkedSubToNat subtracted
  rw [balanceOfInsert, entryAmount]
  by_cases same : entry.1 = token
  · rw [if_pos same.symm, if_pos same, difference, same]
  · rw [if_neg (Ne.symm same), if_neg same, add_zero]

theorem applyBalancesAmount {effects : Effects}
    (ok : applyBalances (W := W) balance effects = .ok next) :
    (balanceOf next token).toNat + amountIn token effects.unshieldedOutputs ≤
      (balanceOf balance token).toNat + amountIn token effects.unshieldedInputs := by
  obtain ⟨credited, credits, debits⟩ := bindOk.mp ok
  have added := runMeasures (fun b => (balanceOf b token).toNat)
    (fun entry => entryAmount token entry.1 entry.2) (fun _ => 0)
    (fun _ taken => (moveAdds token taken).le) credits
  have removed := runMeasures (fun b => (balanceOf b token).toNat) (fun _ => 0)
    (fun entry => entryAmount token entry.1 entry.2)
      (fun _ taken => (moveTakes token taken).le) debits
  have inputs : (effects.unshieldedInputs.entries.map fun entry =>
    entryAmount token entry.1 entry.2).sum = amountIn token effects.unshieldedInputs := rfl
  have outputs : (effects.unshieldedOutputs.entries.map fun entry =>
    entryAmount token entry.1 entry.2).sum = amountIn token effects.unshieldedOutputs := rfl
  have nothing : (effects.unshieldedOutputs.entries.map fun _ => 0).sum = 0 := by simp
  omega

end

theorem ContractState.maintainBalance {cstate updated : ContractState W} {upd : MaintenanceUpdate}
    (ok : cstate.maintain upd = .ok updated) : updated.balance = cstate.balance := by
  rw [maintain] at ok
  split at ok <;> try contradiction
  refine runPreserves (fun s : ContractState W => s.balance = cstate.balance)
    (fun _ before taken => ?_) (show cstate.bumpCounter.balance = cstate.balance from rfl) ok
  obtain ⟨operations, rfl⟩ | ⟨authority, -, rfl⟩ := applyUpdateOk taken
  · exact before
  · exact before

section

variable (token : UnshieldedTokenType) (guaranteed : Bool)
  (whitelist : Whitelist)

def ContractAction.gains : ContractAction W → Nat
  | .deploy deployed => deployed.initialState.holds token
  | action =>
    match action.effects guaranteed whitelist with
    | some effects => amountIn (.unshielded token) effects.unshieldedInputs
    | none => 0

def ContractAction.losses (action : ContractAction W) : Nat :=
  match action.effects guaranteed whitelist with
  | some effects => amountIn (.unshielded token) effects.unshieldedOutputs
  | none => 0

def Intent.offer (intent : Intent W) : Option UnshieldedOffer :=
  if guaranteed then intent.guaranteedUnshieldedOffer else intent.fallibleUnshieldedOffer

def Intent.gains (intent : Intent W) : Nat :=
  offerGains token (intent.offer guaranteed) +
    (intent.actions.map (ContractAction.gains token guaranteed whitelist)).sum

def Intent.losses (intent : Intent W) : Nat :=
  offerLosses token (intent.offer guaranteed) +
    (intent.actions.map (ContractAction.losses token guaranteed whitelist)).sum

end

namespace StandardTransaction

def sectionSum (amount : Bool → Whitelist → Intent W → Nat)
    (tx : StandardTransaction W) (segment : Segment)
    (whitelist : Whitelist) : Nat :=
  if segment = guaranteedSegment then
    ((sortedIter tx.intents).map fun entry => amount true whitelist entry.2).sum
  else
    match tx.intents.lookup segment with
    | some intent => amount false whitelist intent
    | none => 0

def gains (token : UnshieldedTokenType) : StandardTransaction W → Segment → Whitelist → Nat :=
  sectionSum (Intent.gains token)

def losses (token : UnshieldedTokenType) : StandardTransaction W → Segment → Whitelist → Nat :=
  sectionSum (Intent.losses token)

end StandardTransaction

variable {state next : LedgerState W} {context : TransactionContext W} {tx : StandardTransaction W}
  {fees : U128}

namespace LedgerState

variable (token : UnshieldedTokenType) {guaranteed : Bool}

theorem actedHold {action : ContractAction W}
    (acted : Acted S guaranteed context state action next) :
    contractsHold token next.contract + action.losses token guaranteed context.whitelist ≤
      contractsHold token state.contract + action.gains token guaranteed context.whitelist := by
  cases acted with
  | passed idle =>
    rw [ContractAction.losses, idle]
    exact Nat.le_add_right ..
  | @called call cstate effects data balance present declared moved =>
    have inserted := totalInsert (fun _ contract => ContractState.holds token contract)
      state.contract call.address { cstate with data := data, balance := balance }
    rw [heldSome present] at inserted
    have amounts := applyBalancesAmount (.unshielded token) moved
    simp only [ContractAction.losses, ContractAction.gains, declared]
    simp only [contractsHold, ContractState.holds] at inserted ⊢
    omega
  | @deployed deploy fallible absent =>
    have inserted := totalInsert (fun _ contract => ContractState.holds token contract)
      state.contract (S.deployAddress deploy) deploy.initialState
    rw [heldNone absent] at inserted
    exact inserted.le
  | @maintained upd cstate updated fallible present maintained =>
    have inserted := totalInsert (fun _ contract => ContractState.holds token contract)
      state.contract upd.address updated
    have same : updated.holds token = cstate.holds token := by
      rw [ContractState.holds, ContractState.maintainBalance maintained]
      rfl
    rw [heldSome present, same] at inserted
    simp only [contractsHold]
    have nothing : (ContractAction.maintain upd : ContractAction W).losses token guaranteed
      context.whitelist = 0 := rfl
    omega

theorem applyUnshieldedHold {offer : Option UnshieldedOffer} {intent : Intent W}
    (ok : state.applyUnshielded S build offer intent segment context = .ok next) :
    next.holds token + offerLosses token offer ≤ state.holds token + offerGains token offer := by
  obtain ⟨rfl, rfl⟩ | ⟨given, utxo, dust, rfl, moved, -, rfl⟩ := applyUnshieldedOk ok
  · exact le_refl _
  · have totals := UtxoState.applyOfferHold token moved
    simp only [holds]
    omega

theorem applyActionsHold {actions : List (ContractAction W)} {comIndices : ComIndices}
    (ok : state.applyActions S actions guaranteed context parent comIndices = .ok next) :
    next.holds token +
        (actions.map (ContractAction.losses token guaranteed context.whitelist)).sum ≤
      state.holds token +
        (actions.map (ContractAction.gains token guaranteed context.whitelist)).sum := by
  refine runMeasures (holds token) _ _ (fun {s action t} _ taken => ?_) ok
  have acted := applyActionActs taken
  have totals := actedHold token acted
  obtain ⟨contract, rfl⟩ := actedFrame acted
  simp only [holds] at totals ⊢
  omega

theorem applyGuaranteedHold (ok : state.applyGuaranteed S build tx fees context = .ok next) :
    next.holds token + tx.losses token guaranteedSegment context.whitelist ≤
      state.holds token + tx.gains token guaranteedSegment context.whitelist := by
  obtain ⟨started, comIndices, moved, utxo, feesRemaining, left, before, intents, -,
    registrations⟩ := applyGuaranteedOk ok
  obtain ⟨replay, zswap, rfl⟩ := before.frame
  obtain ⟨dust, rfl⟩ := guaranteedRegistrationsFrame registrations
  have measured := runMeasures (holds token)
    (fun entry => entry.2.gains token true context.whitelist)
    (fun entry => entry.2.losses token true context.whitelist)
    (fun {s entry t} _ taken => ?_) intents
  · exact measured
  · obtain ⟨offered, unshielded, acted⟩ := bindOk.mp taken
    have first := applyUnshieldedHold token unshielded
    have second := applyActionsHold token acted
    simp only [Intent.gains, Intent.losses, Intent.offer, if_true]
    omega

theorem applyFallibleHold (fallible : segment ≠ guaranteedSegment)
    (ok : state.applyFallible S build tx segment context = .ok next) :
    next.holds token + tx.losses token segment context.whitelist ≤
      state.holds token + tx.gains token segment context.whitelist := by
  obtain ⟨started, comIndices, zswapped, ⟨absent, rfl⟩ | ⟨intent, moved, found, offered, -, acted⟩⟩ :=
    applyFallibleOk ok <;> obtain ⟨zswap, rfl, -⟩ := applyZswapOptionOk zswapped
  · simp only [StandardTransaction.gains, StandardTransaction.losses,
      StandardTransaction.sectionSum, if_neg fallible, absent]
    exact le_refl _
  · have first := applyUnshieldedHold token offered
    have second := applyActionsHold token acted
    simp only [StandardTransaction.gains, StandardTransaction.losses,
      StandardTransaction.sectionSum, if_neg fallible, found, Intent.gains, Intent.losses]
    have started : holds token { state with zswap := zswap } = state.holds token := rfl
    have offer : intent.offer false = intent.fallibleUnshieldedOffer := rfl
    rw [offer]
    omega

theorem applySectionHold (ok : state.applySection S build tx fees segment context = .ok next) :
    next.holds token + tx.losses token segment context.whitelist ≤
      state.holds token + tx.gains token segment context.whitelist := by
  obtain ⟨-, ⟨rfl, guaranteed⟩ | ⟨fallible, applied⟩⟩ := applySectionOk ok
  · exact applyGuaranteedHold token guaranteed
  · exact applyFallibleHold token fallible applied

end LedgerState

open LedgerState StandardTransaction BitVec

def nightToken : TokenType := .unshielded night

def balanceTotal (balances : Map UserAddress U128) : Nat :=
  total (fun _ amount => amount.toNat) balances

namespace LedgerState

def pools (state : LedgerState W) : Nat :=
  state.lockedPool.toNat + state.reservePool.toNat + state.blockRewardPool.toNat +
    state.treasuryNight.toNat + balanceTotal state.unclaimedBlockRewards +
    balanceTotal state.bridgeReceiving

def supply (state : LedgerState W) : Nat := state.holds night + state.pools

end LedgerState

theorem wordLimit : (2 : Nat) ^ 128 = 340282366920938463463374607431768211456 := by norm_num

theorem maxSupplyValue : maxSupply = 24000000000000000 := rfl

theorem nightAnnToNat {K V : Type} (night : K → V → U128) (m : Map K V) :
    (nightAnn night m).toNat = min (total (fun k v => (night k v).toNat) m) (2 ^ 128 - 1) := by
  rw [nightAnn, foldSaturatingToNat, map_map, total]
  simp [Function.comp_def]

theorem utxosNightAnn (utxos : Map Utxo UtxoMeta) :
    (nightAnn (fun utxo _ => Utxo.night utxo) utxos).toNat =
      min (utxosHold night utxos) (2 ^ 128 - 1) := by
  have same : (fun (utxo : Utxo) (_ : UtxoMeta) => utxo.night.toNat) =
      fun utxo _ => utxo.amount night := by
    funext utxo _
    rw [Utxo.night, Utxo.amount, apply_ite BitVec.toNat]
    rfl
  rw [nightAnnToNat, same, utxosHold]

theorem contractsNightAnn (contracts : Map ContractAddress (ContractState W)) :
    (nightAnn (fun _ contract => ContractState.night contract) contracts).toNat =
      min (contractsHold night contracts) (2 ^ 128 - 1) :=
  nightAnnToNat _ _

section

variable (ok : state.checkNightBalanceInvariant build = .ok ())
include ok

theorem LedgerState.checkedSum :
    let sum := (nightAnn (fun utxo _ => Utxo.night utxo) state.utxo).toNat +
      state.lockedPool.toNat + state.reservePool.toNat + state.blockRewardPool.toNat +
      state.treasuryNight.toNat +
      (nightAnn (fun _ value => value) state.unclaimedBlockRewards).toNat +
      (nightAnn (fun _ value => value) state.bridgeReceiving).toNat +
      (nightAnn (fun _ contract => ContractState.night contract) state.contract).toNat
    sum % 2 ^ 128 = maxSupply ∧ (build = .debug → sum < 2 ^ 128) := by
  obtain ⟨t1, add1, ok⟩ := bindOk.mp ok
  obtain ⟨t2, add2, ok⟩ := bindOk.mp ok
  obtain ⟨t3, add3, ok⟩ := bindOk.mp ok
  obtain ⟨t4, add4, ok⟩ := bindOk.mp ok
  obtain ⟨t5, add5, ok⟩ := bindOk.mp ok
  obtain ⟨t6, add6, ok⟩ := bindOk.mp ok
  obtain ⟨t7, add7, ok⟩ := bindOk.mp ok
  obtain ⟨reached, ok⟩ := thenOk.mp ok
  have last : t7.toNat = maxSupply := by rw [reached]; rfl
  obtain ⟨e1, b1⟩ := plainAddToNat add1
  obtain ⟨e2, b2⟩ := plainAddToNat add2
  obtain ⟨e3, b3⟩ := plainAddToNat add3
  obtain ⟨e4, b4⟩ := plainAddToNat add4
  obtain ⟨e5, b5⟩ := plainAddToNat add5
  obtain ⟨e6, b6⟩ := plainAddToNat add6
  obtain ⟨e7, b7⟩ := plainAddToNat add7
  refine ⟨by omega, fun debug => ?_⟩
  have f1 := b1 debug
  have f2 := b2 debug
  have f3 := b3 debug
  have f4 := b4 debug
  have f5 := b5 debug
  have f6 := b6 debug
  have f7 := b7 debug
  omega

theorem LedgerState.checkedSupply (exact : build = .debug ∨ state.supply < 2 ^ 128) :
    state.supply = maxSupply := by
  obtain ⟨wrapped, fits⟩ := checkedSum ok
  have utxos := utxosNightAnn state.utxo
  have rewards := nightAnnToNat (fun _ value => value) state.unclaimedBlockRewards
  have bridged := nightAnnToNat (fun _ value => value) state.bridgeReceiving
  have contracts := contractsNightAnn state.contract
  have sum : state.supply = state.holds night + state.pools := rfl
  rw [holds, pools] at sum
  simp only [balanceTotal] at sum
  rw [maxSupplyValue] at wrapped ⊢
  rcases exact with debug | small
  · have whole := fits debug
    omega
  · omega

end

namespace LedgerState

theorem applySectionMoves (ok : state.applySection S build tx fees segment context = .ok next) :
    next.supply + tx.losses night segment context.whitelist ≤
      state.supply + tx.gains night segment context.whitelist := by
  have moved := applySectionHold night ok
  obtain ⟨zswap, contract, utxo, replay, dust, rfl⟩ := applySectionFrame ok
  rw [supply, supply]
  simp only [pools, treasuryNight]
  omega

def Bounded (tx : StandardTransaction W) (segment : Segment) (whitelist : Whitelist) : Prop :=
  maxSupply + tx.gains night segment whitelist < 2 ^ 128 + tx.losses night segment whitelist

instance {tx : StandardTransaction W} {segment : Segment}
    {whitelist : Whitelist} : Decidable (Bounded tx segment whitelist) :=
  Nat.decLt _ _

theorem boundedAbsent {whitelist : Whitelist} (fallible : segment ≠ guaranteedSegment)
    (absent : tx.intents.lookup segment = none) : Bounded tx segment whitelist := by
  simp only [Bounded, gains, losses, sectionSum, if_neg fallible, absent, maxSupplyValue, wordLimit]
  omega

theorem applySectionSupply (bounded : build = .debug ∨ Bounded tx segment context.whitelist)
    (before : state.supply = maxSupply)
    (ok : state.applySection S build tx fees segment context = .ok next) :
    next.supply = maxSupply := by
  obtain ⟨passed, -⟩ := applySectionOk ok
  have moved := applySectionMoves ok
  refine checkedSupply passed (bounded.imp_right fun small => ?_)
  rw [Bounded] at small
  omega

theorem notRaised (before : state.supply = maxSupply) (notMore : next.supply ≤ state.supply)
    (passed : next.checkNightBalanceInvariant build = .ok ()) : next.supply = maxSupply := by
  refine checkedSupply passed (.inr ?_)
  rw [before, maxSupplyValue] at notMore
  omega

section

variable (balances : Map UserAddress U128) (address : UserAddress)

theorem heldBalance :
    held (fun _ amount => amount.toNat) balances address = (balanceOf balances address).toNat := by
  rw [held, balanceOf]
  cases balances.lookup address <;> rfl

theorem creditTotal (value : U128) :
    balanceTotal (balances.insert address value) + (balanceOf balances address).toNat =
      balanceTotal balances + value.toNat := by
  rw [← heldBalance]
  exact totalInsert (fun _ amount => amount.toNat) balances address value

theorem leaveTotal (remaining : U128) :
    balanceTotal (leave balances address remaining) + (balanceOf balances address).toNat =
      balanceTotal balances + remaining.toNat := by
  rw [leave]
  split
  · rename_i empty
    rw [empty, ← heldBalance]
    exact totalErase (fun _ amount => amount.toNat) balances address
  · exact creditTotal balances address remaining

end

theorem takeClaimPools (state : LedgerState W) (kind : ClaimKind) (address : UserAddress)
    (remaining : U128) :
    (state.takeClaim kind address remaining).pools + (state.claimable kind address).toNat =
      state.pools + remaining.toNat := by
  cases kind with
  | reward =>
    have left := leaveTotal state.unclaimedBlockRewards address remaining
    simp only [takeClaim, claimable, pools, treasuryNight]
    omega
  | cardanoBridge =>
    have left := leaveTotal state.bridgeReceiving address remaining
    simp only [takeClaim, claimable, pools, treasuryNight]
    omega

theorem claimUnshieldedSupply {rewards : ClaimRewardsTransaction} {block : BlockContext}
    (before : state.supply = maxSupply)
    (ok : state.claimUnshielded S build rewards block = .ok next) : next.supply = maxSupply := by
  obtain ⟨replay, dust, claimed, rfl, enough, -, -, passed, same⟩ := claimUnshieldedOk ok
  refine notRaised before ?_ passed
  have pooled := takeClaimPools state rewards.kind (S.userAddress rewards.owner)
    (state.claimable rewards.kind (S.userAddress rewards.owner) - rewards.value)
  have samePools : next.pools = pools (state.takeClaim rewards.kind (S.userAddress rewards.owner)
    (state.claimable rewards.kind (S.userAddress rewards.owner) - rewards.value)) := by
    rw [same]
    rfl
  have inserted := totalInsert (fun utxo _ => Utxo.amount night utxo) state.utxo
    (claimedUtxo S rewards) ⟨block.tblock⟩
  have output : (claimedUtxo S rewards).amount night = rewards.value.toNat := if_pos rfl
  have difference := subToNat enough
  have contracts : next.contract = state.contract := by rw [same]; exact takeClaimContract ..
  have utxos : next.utxo = state.utxo.insert (claimedUtxo S rewards) ⟨block.tblock⟩ := by rw [same]
  rw [supply, supply, holds, holds, contracts, utxos, samePools]
  rw [output] at inserted
  simp only [utxosHold] at inserted ⊢
  omega

theorem payTreasuryNight (state : LedgerState W) (amount : U128) :
    (state.payTreasury amount).treasuryNight = saturatingAdd state.treasuryNight amount := by
  rw [treasuryNight, payTreasury, balanceOfInsert, if_pos rfl]

theorem payTreasuryPools (state : LedgerState W) (amount : U128) :
    (state.payTreasury amount).pools ≤ state.pools + amount.toNat := by
  have credited := saturatingAddLe state.treasuryNight amount
  have paid := payTreasuryNight state amount
  rw [pools, pools, paid]
  simp only [payTreasury]
  omega

theorem creditRewardPools (state : LedgerState W) (output : OutputInstructionUnshielded) :
    (state.creditReward output).pools ≤ state.pools + output.amount.toNat := by
  have credited := creditTotal state.unclaimedBlockRewards output.targetAddress
    (saturatingAdd (balanceOf state.unclaimedBlockRewards output.targetAddress) output.amount)
  have sum := saturatingAddLe
    (balanceOf state.unclaimedBlockRewards output.targetAddress) output.amount
  simp only [pools, creditReward, treasuryNight]
  omega

end LedgerState

section

variable {points : U32} {val fee : U128} (ok : basisPointsOf points val = .ok fee)
include ok

theorem basisPointsExact : points.toNat ≤ 10000 ∧ fee.toNat = val.toNat * points.toNat / 10000 := by
  simp only [basisPointsOf] at ok
  obtain ⟨few, ok⟩ := elseOk.mp ok
  cases ok
  have share : points.toNat ≤ 10000 := not_lt.mp few
  have whole : val.toNat / 10000 * points.toNat ≤ val.toNat / 10000 * 10000 :=
    mul_le_mul_left _ share
  have rest : val.toNat % 10000 * points.toNat ≤ val.toNat % 10000 * 10000 :=
    mul_le_mul_left _ share
  have widened : (points.setWidth 128).toNat = points.toNat := by
    rw [toNat_setWidth, mod_eq_of_lt (by have := points.isLt; omega)]
  have ten : (10000 : U128).toNat = 10000 := rfl
  have parts : val.toNat * points.toNat =
      val.toNat % 10000 * points.toNat + val.toNat / 10000 * points.toNat * 10000 := by
    have split := mod_add_div val.toNat 10000
    calc val.toNat * points.toNat
        = (val.toNat % 10000 + 10000 * (val.toNat / 10000)) * points.toNat := by rw [split]
      _ = _ := by ring
  rw [parts, add_mul_div_right _ _ (by decide), toNat_add, toNat_mul,
    toNat_udiv, toNat_udiv, toNat_mul, toNat_umod, widened, ten]
  omega

theorem basisPointsLe : fee ≤ val := by
  obtain ⟨share, exact⟩ := basisPointsExact ok
  rw [le_def, exact]
  refine Nat.div_le_of_le_mul ?_
  rw [Nat.mul_comm]
  exact mul_le_mul_right _ share

end

variable {networkId : String} {parameters : LedgerParameters W}

namespace LedgerState

theorem bridgeFeesLe {amount fee : U128} (ok : state.bridgeFees amount = .ok fee) :
    fee ≤ amount := by
  rw [bridgeFees] at ok
  split at ok
  · cases ok
    exact BitVec.le_refl _
  · exact basisPointsLe ok

variable {output : OutputInstructionUnshielded}

theorem creditBridgePools (ok : state.creditBridge output = .ok next) :
    next.pools ≤ state.pools + output.amount.toNat := by
  obtain ⟨fees, charged, rfl⟩ := creditBridgeOk ok
  have part := subToNat (bridgeFeesLe charged)
  have paid := payTreasuryPools state fees
  have credited := creditTotal state.bridgeReceiving output.targetAddress
    (saturatingAdd (balanceOf state.bridgeReceiving output.targetAddress) (output.amount - fees))
  have sum := saturatingAddLe (balanceOf state.bridgeReceiving output.targetAddress)
    (output.amount - fees)
  simp only [pools, payTreasury, treasuryNight] at paid ⊢
  omega

theorem supplyOfPools {s t : LedgerState W} {amount : Nat} (paid : t.pools ≤ s.pools + amount)
    (utxos : t.utxo = s.utxo) (contracts : t.contract = s.contract) :
    t.supply ≤ s.supply + amount := by
  rw [supply, supply, holds, holds, utxos, contracts]
  omega

variable {kind : ClaimKind} {outputs : List OutputInstructionUnshielded}

theorem distributeSupply (ok : distribute S kind tblock state output = .ok next) :
    next.supply ≤ state.supply + output.amount.toNat := by
  obtain ⟨replay, -, ⟨-, rfl⟩ | ⟨-, credited⟩⟩ := distributeOk ok
  · exact supplyOfPools (creditRewardPools { state with replayProtection := replay } output) rfl rfl
  · have paid := creditBridgePools credited
    obtain ⟨fees, -, rfl⟩ := creditBridgeOk credited
    exact supplyOfPools paid rfl rfl

theorem checkedSumToNat {start sum : U128}
    (ok : outputs.foldlM (fun sum o => checkedAdd sum o.amount) start = some sum) :
    sum.toNat = start.toNat + (outputs.map (fun o => o.amount.toNat)).sum := by
  induction outputs generalizing start with
  | nil =>
    cases ok
    simp
  | cons output outputs ih =>
    obtain ⟨next, added, rest⟩ := Option.bind_eq_some_iff.mp ok
    rw [ih rest, checkedAddToNat added, map_cons, sum_cons]
    omega

theorem distributeNightSupply (ok : state.distributeNight S build kind outputs tblock = .ok next) :
    next.supply ≤ state.supply := by
  obtain ⟨sum, summed, claimed, bridged, distributed, -⟩ := distributeNightOk ok
  have total := checkedSumToNat summed
  have measured := runMeasures supply (fun o => o.amount.toNat) (fun _ => 0)
    (fun _ taken => distributeSupply taken) distributed
  have rewards := subToNat claimed
  have locked := subToNat bridged
  have split : (payouts kind sum).1.toNat + (payouts kind sum).2.toNat = sum.toNat := by
    cases kind <;> simp [payouts]
  simp only [supply, holds, pools, treasuryNight] at measured ⊢
  omega

theorem applySystemTxSupply {system : SystemTransaction W} (before : state.supply = maxSupply)
    (ok : state.applySystemTx S build system tblock = .ok next) : next.supply = maxSupply := by
  cases system with
  | overwriteParameters parameters =>
    simp only [applySystemTx] at ok
    split at ok <;> try contradiction
    cases ok
    exact before
  | distributeNight kind outputs =>
    obtain ⟨sum, -, -, -, -, passed⟩ := distributeNightOk ok
    exact notRaised before (distributeNightSupply ok) passed
  | payBlockRewardsToTreasury amount | unlockToTreasury amount =>
    simp only [applySystemTx] at ok
    obtain ⟨enough, ok⟩ := elseOk.mp ok
    obtain ⟨rfl, passed⟩ := checkedOk ok
    refine notRaised before ?_ passed
    have rest := subToNat (BitVec.not_lt.mp enough)
    have paid := payTreasuryPools state amount
    simp only [supply, holds, pools, payTreasury, treasuryNight] at paid ⊢
    omega
  | payFromTreasuryShielded => cases ok
  | payFromTreasuryUnshielded => cases ok
  | distributeReserve amount | unlockToReserve amount =>
    simp only [applySystemTx] at ok
    obtain ⟨enough, ok⟩ := elseOk.mp ok
    obtain ⟨pool, added, rest⟩ := bindOk.mp ok
    obtain ⟨rfl, passed⟩ := checkedOk rest
    refine notRaised before ?_ passed
    have left := subToNat (BitVec.not_lt.mp enough)
    have sum := (plainAddToNat added).1.trans_le (mod_le _ _)
    simp only [supply, holds, pools, treasuryNight]
    omega
  | cNightGeneratesDustUpdate actions =>
    obtain ⟨dust, -, rfl⟩ := pureOk.mp ok
    exact before

theorem withGenesisSettingsOk {locked reserve treasury : U128}
    (ok : withGenesisSettings S build networkId parameters locked reserve treasury = .ok state) :
    state.checkNightBalanceInvariant build = .ok () ∧
      state.supply = locked.toNat + reserve.toNat + treasury.toNat := by
  obtain ⟨⟨⟩, passed, rfl⟩ := pureOk.mp ok
  refine ⟨passed, ?_⟩
  have none : (0 : U128).toNat = 0 := rfl
  have balances : balanceTotal ∅ = 0 := rfl
  have utxos : utxosHold night ∅ = 0 := rfl
  have contracts : contractsHold (W := W) night ∅ = 0 := rfl
  simp only [supply, holds, pools, treasuryNight, balanceOfInsert, if_true]
  omega

theorem genesisSupply {locked reserve treasury : U128}
    (started : withGenesisSettings S build networkId parameters locked reserve treasury = .ok state)
    (exact : build = .debug ∨ locked.toNat + reserve.toNat + treasury.toNat < 2 ^ 128) :
    state.supply = maxSupply := by
  obtain ⟨passed, sum⟩ := withGenesisSettingsOk started
  exact checkedSupply passed (sum ▸ exact)

end LedgerState

def Step.NightBounded : Step W → Prop
  | .transaction tx context => ∀ {stx}, tx.inner = .standard stx →
      ∀ segment, Bounded stx segment context.whitelist
  | .system _ _ | .postBlock _ _ => True

theorem stepSupply {taken : Step W}
    (bounded : build = .debug ∨ taken.NightBounded) (before : state.supply = maxSupply)
    (ok : step S build state taken = .ok next) : next.supply = maxSupply := by
  cases taken with
  | transaction tx context =>
    obtain ⟨⟨applied, result⟩, run, rfl⟩ := pureOk.mp ok
    refine applyPreserves (P := fun s => s.supply = maxSupply) before ?_ ?_ run
    · intro rewards t _ claimed
      exact claimUnshieldedSupply before claimed
    · intro stx s t segment standard holds applied
      exact applySectionSupply (bounded.imp_right fun all => all standard segment) holds applied
  | system tx tblock =>
    obtain applied | rfl := systemStepOk ok
    · exact applySystemTxSupply before applied
    · exact before
  | postBlock tblock fullness =>
    cases ok
    rw [postBlockUpdate]
    split <;> exact before

theorem runSupply {steps : List (Step W)}
    (bounded : ∀ taken ∈ steps, build = .debug ∨ taken.NightBounded)
    (before : state.supply = maxSupply) (run : run (step S build) state steps = .ok next) :
    next.supply = maxSupply := by
  refine runPreserves (fun s => s.supply = maxSupply) ?_ before run
  intro s taken t inside holds stepped
  exact stepSupply (bounded taken inside) holds stepped

theorem supplyConserved {networkId : String} {parameters : LedgerParameters W}
    {locked reserve treasury : U128} {genesis state : LedgerState W} {steps : List (Step W)}
    (started : withGenesisSettings S build networkId parameters locked reserve
      treasury = .ok genesis) (run : run (step S build) genesis steps = .ok state)
    (exact : build = .debug ∨ locked.toNat + reserve.toNat + treasury.toNat < 2 ^ 128 ∧
      ∀ taken ∈ steps, taken.NightBounded) : state.supply = maxSupply :=
  runSupply (fun taken inside => exact.imp_right fun small => small.2 taken inside)
    (genesisSupply started (exact.imp_right And.left)) run

def paymentIntent : Intent sampleComponents :=
  ⟨some ⟨[sampleSpend], [⟨100, ⟨8⟩, night⟩]⟩, none, [], none, 6, ()⟩

def payment : StandardTransaction sampleComponents :=
  ⟨"net", singleton 1 paymentIntent, none, ∅⟩

def paymentSteps : List (Step sampleComponents) :=
  samplePayout ++ [.transaction ⟨.standard payment, 1, 0⟩ sampleContext]

theorem paymentBounded : ∀ taken ∈ paymentSteps, taken.NightBounded := by
  have bounded (segment : Segment) : Bounded payment segment none := by
    by_cases guaranteed : segment = guaranteedSegment
    · rw [guaranteed]
      decide +kernel
    by_cases only : segment = 1
    · rw [only]
      decide +kernel
    refine boundedAbsent guaranteed (lookup_eq_none.mpr fun mem => only ?_)
    simpa [payment, AList.mem_keys] using mem
  have spent : Step.NightBounded (.transaction ⟨.standard payment, 1, 0⟩ sampleContext) := by
    intro stx standard
    cases standard
    exact bounded
  simp only [paymentSteps, samplePayout, List.cons_append, nil_append, forall_mem_cons]
  exact ⟨trivial, trivial, nofun, spent, nofun⟩

def releaseGenesis : LedgerState sampleComponents :=
  value (withGenesisSettings sampleServices .release "net" sampleParameters 0
    (BitVec.ofNat 128 maxSupply) 0) (by decide +kernel)

def paid : LedgerState sampleComponents :=
  value (run (step sampleServices .release) releaseGenesis paymentSteps)
    (by decide +kernel)

theorem paymentSupply : paid.supply = maxSupply ∧ paid.utxo.keys.map Utxo.owner = [⟨8⟩] := by
  have started : withGenesisSettings sampleServices .release "net" sampleParameters 0
    (BitVec.ofNat 128 maxSupply) 0 = .ok releaseGenesis := valueOk _
  refine ⟨supplyConserved started (valueOk _) (.inr ⟨?_, paymentBounded⟩), ?_⟩
  · decide
  · decide +kernel

/- In a release build the check wraps: these settings pass it. -/
def wrappedGenesis : LedgerState sampleComponents :=
  value (withGenesisSettings sampleServices .release "net" sampleParameters
    (BitVec.allOnes 128) (BitVec.ofNat 128 (maxSupply + 1)) 0) (by decide +kernel)

theorem wrappedSupply :
    withGenesisSettings sampleServices .release "net" sampleParameters
        (BitVec.allOnes 128) (BitVec.ofNat 128 (maxSupply + 1)) 0 = .ok wrappedGenesis ∧
      wrappedGenesis.supply ≠ maxSupply := by
  refine ⟨valueOk _, ?_⟩
  decide +kernel

end MidnightLedger.Ledger

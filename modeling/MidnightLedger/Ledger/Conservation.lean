import Mathlib.Data.Prod.Lex
import MidnightLedger.Lib.Books
import MidnightLedger.Ledger.Supply
import MidnightLedger.Ledger.MemoInspection

/-! No unshielded value out of nothing: whichever sections are applied, the UTXOs and contracts
together gain at most what the transcripts that ran declare to mint. The balance of a transaction
(`balance_maybe_deltas_only` and `balancing_check` of ledger/src/verify.rs) is a list of postings in
the order of the source. -/
namespace MidnightLedger.Ledger
open ByteString Maps Words Loops Books AList

variable {W : Components}

abbrev Movement := Posting (TokenType × Segment) BalanceOperation 128

abbrev Balances := Map (TokenType × Segment) Int

inductive BalanceCheckFailure where
  | conversionFailure (tokenType : TokenType) (segment : Segment) (operationValue : U128)
  | outOfBounds (tokenType : TokenType) (segment : Segment) (currentBalance operationValue : Int)
      (operation : BalanceOperation)
  | overspend (tokenType : TokenType) (segment : Segment) (overspentValue : Int)
  deriving DecidableEq, Repr

def BalanceOperation.interpret : BalanceOperation → Int → Int → Option Int
  | .addition, x, y => checkedSigned 128 (x + y)
  | .subtraction, x, y => checkedSigned 128 (x - y)

def updateBalance (res : Balances) (movement : Movement) : Except BalanceCheckFailure Balances := do
  let (tokenType, segment) := movement.account
  let currentBalance := standing res movement.account
  let castedValue ← okOr (.conversionFailure tokenType segment movement.value)
    (checkedSigned 128 movement.value.toNat)
  let bal ← okOr (.outOfBounds tokenType segment currentBalance castedValue movement.side)
    (movement.side.interpret currentBalance castedValue)
  .ok (res.insert movement.account bal)

def feeToken : TokenType := .dust

def DustActions.movements (actions : DustActions) : List Movement :=
  actions.spends.map (fun spend => ⟨(.dust, guaranteedSegment), .addition, spend.vFee⟩) ++
    actions.registrations.map (fun reg =>
      ⟨(.dust, guaranteedSegment), .addition, reg.allowFeePayment⟩)

def UnshieldedOffer.movements (segment : Segment) (offer : UnshieldedOffer) : List Movement :=
  offer.inputs.map (fun inp => ⟨(.unshielded inp.type, segment), .addition, inp.value⟩) ++
    offer.outputs.map (fun out => ⟨(.unshielded out.type, segment), .subtraction, out.value⟩)

def deltaMovement (segment : Segment) (delta : Zswap.Delta) : Movement :=
  if delta.value < 0 then
    ⟨(.shielded delta.tokenType, segment), .subtraction, BitVec.ofNat 128 delta.value.natAbs⟩
  else ⟨(.shielded delta.tokenType, segment), .addition, BitVec.ofInt 128 delta.value⟩

section

/- `custom_token_type`: the hash that makes a contract's own token types. -/
variable (customTokenType : ContractAddress → HashOutput → HashOutput)

/- What goes into the contract leaves the transaction, and the other way round. -/
def Effects.movements (address : ContractAddress) (segment : Segment) (effects : Effects) :
    List Movement :=
  effects.shieldedMints.entries.map (fun entry =>
      ⟨(.shielded ⟨customTokenType address entry.1⟩, segment), .addition, entry.2.setWidth 128⟩) ++
    effects.unshieldedMints.entries.map (fun entry =>
      ⟨(.unshielded ⟨customTokenType address entry.1⟩, segment), .addition, entry.2.setWidth 128⟩) ++
    effects.unshieldedInputs.entries.map (fun entry =>
      ⟨(entry.1, segment), .subtraction, entry.2⟩) ++
    effects.unshieldedOutputs.entries.map (fun entry => ⟨(entry.1, segment), .addition, entry.2⟩)

def ContractCall.movements (segment : Segment) (call : ContractCall W) : List Movement :=
  call.guaranteedTranscript.toList.flatMap (fun transcript =>
      transcript.effects.movements customTokenType call.address guaranteedSegment) ++
    call.fallibleTranscript.toList.flatMap (fun transcript =>
      transcript.effects.movements customTokenType call.address segment)

def ContractAction.asCall : ContractAction W → Option (ContractCall W)
  | .call called => some called
  | .deploy _ | .maintain _ => none

def Intent.calls (intent : Intent W) : List (ContractCall W) :=
  intent.actions.filterMap ContractAction.asCall

def Intent.movements (deltasOnly : Bool) (segment : Segment) (intent : Intent W) : List Movement :=
  intent.dustActions.toList.flatMap DustActions.movements ++
    intent.guaranteedUnshieldedOffer.toList.flatMap
      (UnshieldedOffer.movements guaranteedSegment) ++
    intent.fallibleUnshieldedOffer.toList.flatMap (UnshieldedOffer.movements segment) ++
    if deltasOnly then [] else intent.calls.flatMap (ContractCall.movements customTokenType segment)

namespace StandardTransaction

variable (tx : StandardTransaction W.shielded)

def offers : List (Segment × Zswap.Offer) :=
  sortedIter tx.fallibleCoins ++ tx.guaranteedCoins.toList.map fun offer => (guaranteedSegment, offer)

def movements (fees : Option U128) (deltasOnly : Bool) : List Movement :=
  fees.toList.map (fun fee => ⟨(feeToken, guaranteedSegment), .subtraction, fee⟩) ++
    (sortedIter tx.intents).flatMap (fun entry =>
      entry.2.movements customTokenType deltasOnly entry.1) ++
    tx.offers.flatMap (fun entry => entry.2.deltas.map (deltaMovement entry.1))

def balanceMaybeDeltasOnly (fees : Option U128) (deltasOnly : Bool) :
    Except BalanceCheckFailure Balances :=
  (tx.movements customTokenType fees deltasOnly).foldlM updateBalance ∅

end StandardTransaction

end

/- The order of `TokenType`; hashes are read as big-endian numbers. -/
def TokenType.rank : TokenType → Lex (Nat × Nat)
  | .unshielded type => toLex (0, type.hash.toNat)
  | .shielded type => toLex (1, type.hash.toNat)
  | .dust => toLex (2, 0)

def Balances.inOrder (balances : Balances) : List ((TokenType × Segment) × Int) :=
  (balances.entries.map fun entry => (entry.1, entry.2)).insertionSort fun a b =>
    toLex (a.1.1.rank, a.1.2) ≤ toLex (b.1.1.rank, b.1.2)

def StandardTransaction.balancingCheck (customTokenType : ContractAddress → HashOutput → HashOutput)
    (tx : StandardTransaction W.shielded) (strictness : WellFormedStrictness) (fees : U128) :
    Except BalanceCheckFailure Unit := do
  let balances ← tx.balanceMaybeDeltasOnly customTokenType (some fees) false
  balances.inOrder.forM fun entry =>
    if entry.2 < 0 ∧ strictness.enforceBalancing then
      .error (.overspend entry.1.1 entry.1.2 entry.2)
    else .ok ()

def Checks.balanced (C : Checks W.shielded)
    (customTokenType : ContractAddress → HashOutput → HashOutput)
    (reason : BalanceCheckFailure → W.Rejection) : Checks W.shielded :=
  { C with balancingCheck := fun tx strictness fees =>
      (tx.balancingCheck customTokenType strictness fees).mapError reason }

theorem Checks.balancedCheck (C : Checks W.shielded)
    (customTokenType : ContractAddress → HashOutput → HashOutput)
    (reason : BalanceCheckFailure → W.Rejection) (tx : StandardTransaction W.shielded)
    (strictness : WellFormedStrictness) (fees : U128) :
    (C.balanced customTokenType reason).balancingCheck tx strictness fees =
      (tx.balancingCheck customTokenType strictness fees).mapError reason := by
  unfold Checks.balanced
  with_reducible rfl

theorem Checks.balancedOffers (C : Checks W.shielded)
    (customTokenType : ContractAddress → HashOutput → HashOutput)
    (reason : BalanceCheckFailure → W.Rejection) :
    (C.balanced customTokenType reason).offerWellFormed = C.offerWellFormed := by
  unfold Checks.balanced
  with_reducible rfl

theorem BalanceOperation.interpretExact {operation : BalanceOperation} {x y z : Int}
    (ok : operation.interpret x y = some z) :
    z + (if operation = .subtraction then y else 0) = x + if operation = .addition then y else 0 := by
  cases operation with
  | addition =>
    have sum := checkedSignedSome ok
    simp [sum]
  | subtraction =>
    have difference := checkedSignedSome ok
    simp [difference]

theorem updateBalanceExact {res next : Balances} {movement : Movement}
    (account : TokenType × Segment) (ok : updateBalance res movement = .ok next) :
    standing next account + movement.weigh .subtraction account =
      standing res account + movement.weigh .addition account := by
  obtain ⟨casted, fits, rest⟩ := bindOk.mp ok
  obtain ⟨bal, moved, rfl⟩ := pureOk.mp rest
  have exactly := BalanceOperation.interpretExact (okOrOk.mp moved)
  rw [checkedSignedSome (okOrOk.mp fits)] at exactly
  rw [standingInsert, Posting.weigh, Posting.weigh]
  by_cases same : movement.account = account
  · simpa [same] using exactly
  · simp [same, Ne.symm same]

theorem BalanceOperation.interpretRange {operation : BalanceOperation} {x y z : Int}
    (ok : operation.interpret x y = some z) : SignedRange 128 z := by
  cases operation <;> exact checkedSignedRange ok

def Balances.InRange (balances : Balances) : Prop :=
  ∀ account, SignedRange 128 (standing balances account)

theorem updateBalanceInRange {movements : List Movement} {res next : Balances}
    (inRange : res.InRange) (ok : movements.foldlM updateBalance res = .ok next) :
    next.InRange := by
  refine Simulation.runPreserves Balances.InRange (fun _ before entered account => ?_) inRange ok
  obtain ⟨casted, -, rest⟩ := bindOk.mp entered
  obtain ⟨bal, moved, rfl⟩ := pureOk.mp rest
  rw [standingInsert]
  split
  · exact BalanceOperation.interpretRange (okOrOk.mp moved)
  · exact before account

variable {strictness : WellFormedStrictness} {fees : U128}

theorem StandardTransaction.balancingCheckOk
    {customTokenType : ContractAddress → HashOutput → HashOutput}
    {tx : StandardTransaction W.shielded}
    (enforced : strictness.enforceBalancing)
    (ok : tx.balancingCheck customTokenType strictness fees = .ok ())
    (account : TokenType × Segment) :
    flow .subtraction account (tx.movements customTokenType (some fees) false) ≤
      flow .addition account (tx.movements customTokenType (some fees) false) := by
  obtain ⟨balances, summed, checked⟩ := bindOk.mp ok
  have sums := runPostings account (fun entered => updateBalanceExact account entered) summed
  have start : standing (∅ : Balances) account = 0 := rfl
  have covered : 0 ≤ standing balances account := by
    rw [standing]
    cases found : balances.lookup account with
    | none => exact le_refl _
    | some bal =>
      have entry : (account, bal) ∈ balances.inOrder := by
        rw [Balances.inOrder, List.mem_insertionSort]
        exact List.mem_map.mpr ⟨⟨account, bal⟩, mem_lookup_iff.mp found, rfl⟩
      have passed := forMOk.mp checked _ entry
      split at passed
      · cases passed
      rename_i covered
      exact not_lt.mp fun overspent => covered ⟨overspent, enforced⟩
  omega

open ContractAction List StandardTransaction LedgerState Transaction

section

variable (customTokenType : ContractAddress → HashOutput → HashOutput) (token : UnshieldedTokenType)

def Effects.mints (address : ContractAddress) (effects : Effects) : Nat :=
  total (fun domainSep amount =>
    if (⟨customTokenType address domainSep⟩ : UnshieldedTokenType) = token then amount.toNat else 0)
    effects.unshieldedMints

def ContractAction.mints (guaranteed : Bool) (whitelist : Whitelist) : ContractAction W → Nat
  | .call called =>
    match (call called).effects guaranteed whitelist with
    | some effects => effects.mints customTokenType token called.address
    | none => 0
  | _ => 0

def Intent.mints (guaranteed : Bool) (whitelist : Whitelist) (intent : Intent W) : Nat :=
  (intent.actions.map (ContractAction.mints customTokenType token guaranteed whitelist)).sum

def StandardTransaction.mints : StandardTransaction W → Segment → Whitelist → Nat :=
  sectionSum (Intent.mints customTokenType token)

end

variable {α : Type}

theorem flowSegment (side op : BalanceOperation) (t : TokenType) (s seg : Segment)
    (key : α → TokenType) (val : α → U128) (xs : List α) :
    flow side (t, s) (xs.map fun x => (⟨(key x, seg), op, val x⟩ : Movement)) =
      if seg = s ∧ op = side then (xs.map fun x => if key x = t then (val x).toNat else 0).sum
      else 0 := by
  rw [flowMap]
  by_cases same : seg = s <;> simp [same]

variable {customTokenType : ContractAddress → HashOutput → HashOutput}

section

variable {token : UnshieldedTokenType} {s seg : Segment}

theorem offerAddition (offer : Option UnshieldedOffer) :
    flow .addition (.unshielded token, s) (offer.toList.flatMap (UnshieldedOffer.movements seg)) =
      if seg = s then offerLosses token offer else 0 := by
  cases offer <;>
    simp [UnshieldedOffer.movements, flowSegment, offerLosses]
  rfl

theorem offerSubtraction (offer : Option UnshieldedOffer) : flow .subtraction (.unshielded token, s)
        (offer.toList.flatMap (UnshieldedOffer.movements seg)) =
      if seg = s then offerGains token offer else 0 := by
  cases offer <;>
    simp [UnshieldedOffer.movements, flowSegment, offerGains]
  rfl

theorem widenedToNat (x : U64) : (x.setWidth 128).toNat = x.toNat := by
  rw [BitVec.toNat_setWidth, Nat.mod_eq_of_lt (by have := x.isLt; omega)]

theorem effectsAddition (address : ContractAddress) (effects : Effects) :
    flow .addition (.unshielded token, s) (effects.movements customTokenType address seg) =
      if seg = s then effects.mints customTokenType token address +
        amountIn (.unshielded token) effects.unshieldedOutputs
      else 0 := by
  by_cases same : seg = s <;>
    simp [Effects.movements, flowSegment, same, -BitVec.toNat_setWidth, widenedToNat,
      Effects.mints, amountIn, total, entryAmount]

theorem effectsSubtraction (address : ContractAddress) (effects : Effects) :
    flow .subtraction (.unshielded token, s) (effects.movements customTokenType address seg) =
      if seg = s then amountIn (.unshielded token) effects.unshieldedInputs else 0 := by
  by_cases same : seg = s <;>
    simp [Effects.movements, flowSegment, same, amountIn, total, entryAmount]

theorem callAddition (called : ContractCall W) :
    flow .addition (.unshielded token, s) (called.movements customTokenType seg) =
      (if guaranteedSegment = s then
        (call called).losses token true none +
          (call called).mints customTokenType token true none else 0) +
      (if seg = s then
        (call called).losses token false none +
          (ContractAction.call called).mints customTokenType token false none else 0) := by
  cases first : called.guaranteedTranscript <;> cases second : called.fallibleTranscript <;>
    simp [ContractCall.movements, first, second, effectsAddition, ContractAction.losses,
      ContractAction.mints, ContractAction.effects, whitelistMatches, ContractCall.transcript,
      Nat.add_comm]

theorem callSubtraction (called : ContractCall W) :
    flow .subtraction (.unshielded token, s) (called.movements customTokenType seg) =
      (if guaranteedSegment = s then (call called).gains token true none else 0) +
      (if seg = s then (ContractAction.call called).gains token false none else 0) := by
  cases first : called.guaranteedTranscript <;> cases second : called.fallibleTranscript <;>
    simp [ContractCall.movements, first, second, effectsSubtraction, ContractAction.gains,
      ContractAction.effects, whitelistMatches, ContractCall.transcript]

theorem callsFlow (side : BalanceOperation) (account : TokenType × Segment) (intent : Intent W) :
    flow side account (intent.calls.flatMap (ContractCall.movements customTokenType seg)) =
      (intent.actions.map fun
        | .call called => flow side account (called.movements customTokenType seg)
        | _ => 0).sum := by
  rw [flowFlatMap, Intent.calls]
  induction intent.actions with
  | nil => rfl
  | cons action actions ih => cases action <;> simp [filterMap_cons, ContractAction.asCall, ih]

theorem dustFlow (side : BalanceOperation) (actions : Option DustActions) :
    flow side (.unshielded token, s) (actions.toList.flatMap DustActions.movements) = 0 := by
  cases actions <;> simp [DustActions.movements, flowSegment]

theorem sumParts (p q : Prop) [Decidable p] [Decidable q] (f g : α → Nat) (xs : List α) :
    (xs.map fun x => (if p then f x else 0) + if q then g x else 0).sum =
      (if p then (xs.map f).sum else 0) + if q then (xs.map g).sum else 0 := by
  by_cases first : p <;> by_cases second : q <;> simp [first, second, sum_map_add]

theorem intentAddition (intent : Intent W) :
    flow .addition (.unshielded token, s) (intent.movements customTokenType false seg) =
      (if guaranteedSegment = s then
        intent.losses token true none + intent.mints customTokenType token true none else 0) +
      (if seg = s then
        intent.losses token false none + intent.mints customTokenType token false none else 0) := by
  have calls : (intent.actions.map fun
        | .call called => flow .addition (.unshielded token, s)
            (called.movements customTokenType seg)
        | _ => 0) =
      intent.actions.map fun action =>
        (if guaranteedSegment = s then
          action.losses token true none + action.mints customTokenType token true none else 0) +
        (if seg = s then
          action.losses token false none + action.mints customTokenType token false none else 0) := by
    refine map_congr_left fun action _ => ?_
    cases action with
    | call called => exact callAddition called
    | deploy deployed | maintain upd =>
      simp [ContractAction.losses, ContractAction.effects, ContractAction.mints]
  rw [Intent.movements, if_neg Bool.false_ne_true, flowAppend, flowAppend, flowAppend, dustFlow,
    offerAddition, offerAddition, callsFlow, calls, sumParts, sum_map_add, sum_map_add]
  simp only [Intent.losses, Intent.mints, Intent.offer, if_true, Bool.false_eq_true, if_false]
  split <;> split <;> omega

theorem intentSubtraction (intent : Intent W)
    (empty : ∀ deployed, .deploy deployed ∈ intent.actions →
      deployed.initialState.holds token = 0) :
    flow .subtraction (.unshielded token, s) (intent.movements customTokenType false seg) =
      (if guaranteedSegment = s then intent.gains token true none else 0) +
      (if seg = s then intent.gains token false none else 0) := by
  have calls : (intent.actions.map fun
        | .call called => flow .subtraction (.unshielded token, s)
            (called.movements customTokenType seg)
        | _ => 0) =
      intent.actions.map fun action =>
        (if guaranteedSegment = s then action.gains token true none else 0) +
        (if seg = s then action.gains token false none else 0) := by
    refine map_congr_left fun action mem => ?_
    cases action with
    | call called => exact callSubtraction called
    | deploy deployed => simp [ContractAction.gains, empty deployed mem]
    | maintain upd => simp [ContractAction.gains, ContractAction.effects]
  rw [Intent.movements, if_neg Bool.false_ne_true, flowAppend, flowAppend, flowAppend, dustFlow,
    offerSubtraction, offerSubtraction, callsFlow, calls, sumParts]
  simp only [Intent.gains, Intent.offer, if_true, Bool.false_eq_true, if_false]
  split <;> split <;> omega

end

variable {segment : Segment}

namespace StandardTransaction

section

variable {tx : StandardTransaction W}

theorem sectionParts (amount : Bool → Whitelist → Intent W → Nat)
    (fallible : ∀ segment intent, tx.intents.lookup segment = some intent →
      segment ≠ guaranteedSegment) (s : Segment) :
    ((sortedIter tx.intents).map fun entry =>
      (if guaranteedSegment = s then amount true none entry.2 else 0) +
        if entry.1 = s then amount false none entry.2 else 0).sum =
      tx.sectionSum amount s none := by
  rw [sum_map_add, sortedIterAt tx.intents s, sectionSum]
  by_cases guaranteed : s = guaranteedSegment
  · cases found : tx.intents.lookup s with
    | none => simp [guaranteed]
    | some intent => exact absurd guaranteed (fallible s intent found)
  · cases found : tx.intents.lookup s with
    | none => simp [guaranteed, Ne.symm guaranteed]
    | some intent => simp [guaranteed, Ne.symm guaranteed]

variable {whitelist : Whitelist}

theorem sectionSumCongr {first second : Bool → Whitelist → Intent W → Nat}
    {known : Whitelist} {s : Segment}
    (same : ∀ segment intent guaranteed, tx.intents.lookup segment = some intent →
      first guaranteed whitelist intent = second guaranteed known intent) :
    tx.sectionSum first s whitelist = tx.sectionSum second s known := by
  rw [sectionSum, sectionSum]
  split
  · congr 1
    refine map_congr_left fun entry mem => ?_
    exact same entry.1 entry.2 true (memSortedIter.mp mem)
  · cases found : tx.intents.lookup s with
    | none => rfl
    | some intent => exact same s intent false found

def Listed (tx : StandardTransaction W) (whitelist : Whitelist) : Prop :=
  ∀ segment intent called, tx.intents.lookup segment = some intent →
    .call called ∈ intent.actions → whitelistMatches whitelist called.address

theorem listedNone (tx : StandardTransaction W) : tx.Listed none := fun _ _ _ _ _ => rfl

theorem listedEffects (listed : tx.Listed whitelist) {intent : Intent W}
    (found : tx.intents.lookup segment = some intent)
    {action : ContractAction W} (mem : action ∈ intent.actions) (guaranteed : Bool) :
    action.effects guaranteed whitelist = action.effects guaranteed none := by
  cases action with
  | call called =>
    rw [effects, if_pos (listed segment intent called found mem)]
    rfl
  | deploy deployed => rfl
  | maintain upd => rfl

variable (listed : tx.Listed whitelist) (token : UnshieldedTokenType) (s : Segment)

include listed

theorem listedGains : tx.gains token s whitelist = tx.gains token s none := by
  refine sectionSumCongr fun segment intent guaranteed found => ?_
  rw [Intent.gains, Intent.gains]
  congr 2
  refine map_congr_left fun action mem => ?_
  have same := listedEffects listed found mem guaranteed
  cases action <;> simp [ContractAction.gains, same]

theorem listedLosses : tx.losses token s whitelist = tx.losses token s none := by
  refine sectionSumCongr fun segment intent guaranteed found => ?_
  rw [Intent.losses, Intent.losses]
  congr 2
  refine map_congr_left fun action mem => ?_
  rw [ContractAction.losses, ContractAction.losses, listedEffects listed found mem guaranteed]

theorem listedMints (customTokenType : ContractAddress → HashOutput → HashOutput) :
    tx.mints customTokenType token s whitelist = tx.mints customTokenType token s none := by
  refine sectionSumCongr fun segment intent guaranteed found => ?_
  rw [Intent.mints, Intent.mints]
  congr 1
  refine map_congr_left fun action mem => ?_
  have same := listedEffects listed found mem guaranteed
  cases action <;> simp [ContractAction.mints, same]

end

section

variable {tx : StandardTransaction W.shielded}

theorem deltasFlow (side : BalanceOperation) {account : TokenType × Segment}
    (other : ∀ token, .shielded token ≠ account.1) : flow side account
      (tx.offers.flatMap fun entry => entry.2.deltas.map (deltaMovement entry.1)) = 0 := by
  refine flowElsewhere _ _ fun posting mem same => ?_
  obtain ⟨entry, -, inside⟩ := mem_flatMap.mp mem
  obtain ⟨delta, -, rfl⟩ := mem_map.mp inside
  rw [deltaMovement] at same
  split at same <;> exact other _ (congrArg Prod.fst same)

theorem movementsFlow (side : BalanceOperation) (token : UnshieldedTokenType) (s : Segment) :
    flow side (.unshielded token, s) (tx.movements customTokenType (some fees) false) =
      ((sortedIter tx.intents).map fun entry =>
        flow side (.unshielded token, s) (entry.2.movements customTokenType false entry.1)).sum := by
  have charged : flow side (.unshielded token, s) ((some fees).toList.map fun fee =>
      (⟨(feeToken, guaranteedSegment), .subtraction, fee⟩ : Movement)) = 0 := by
    simp [Posting.weigh, feeToken]
  rw [movements, flowAppend, flowAppend, charged, deltasFlow side (by simp), flowFlatMap, Nat.zero_add,
    Nat.add_zero]

theorem outputsFit {fees : Option U128} {balances : Balances} {intent : Intent W.shielded}
    (token : UnshieldedTokenType)
    (ok : tx.balanceMaybeDeltasOnly customTokenType fees false = .ok balances)
    (found : tx.intents.lookup segment = some intent) :
    offerGains token intent.guaranteedUnshieldedOffer < 2 ^ 128 := by
  cases given : intent.guaranteedUnshieldedOffer with
  | none => exact Nat.two_pow_pos 128
  | some offer =>
    obtain ⟨front, back, order⟩ := append_of_mem (memSortedIter.mpr found)
    have start : Balances.InRange ∅ := fun _ => (by decide : SignedRange 128 0)
    rw [balanceMaybeDeltasOnly, movements, order, flatMap_append, flatMap_cons, Intent.movements,
      given] at ok
    simp only [foldlMAppend, Option.toList_some, flatMap_singleton, UnshieldedOffer.movements] at ok
    obtain ⟨_, ⟨first, charged, _, earlier, _, ⟨_, ⟨_, ⟨middle, dust, before, ins, outs⟩, -⟩, -⟩, -⟩, -⟩ := ok
    have inRange := updateBalanceInRange (updateBalanceInRange (updateBalanceInRange
      (updateBalanceInRange start charged) earlier) dust) ins
    have top := inRange (.unshielded token, guaranteedSegment)
    have bottom := updateBalanceInRange inRange outs (.unshielded token, guaranteedSegment)
    have sums := runPostings (.unshielded token, guaranteedSegment)
      (fun entered => updateBalanceExact _ entered) outs
    have debits : flow .subtraction (.unshielded token, guaranteedSegment) (offer.outputs.map
        fun out => (⟨(.unshielded out.type, guaranteedSegment), .subtraction, out.value⟩ : Movement)) =
        offerGains token (some offer) := by
      simp [flowSegment, offerGains]
      rfl
    have credits : flow .addition (.unshielded token, guaranteedSegment) (offer.outputs.map
        fun out => (⟨(.unshielded out.type, guaranteedSegment), .subtraction, out.value⟩ : Movement)) =
        0 := by simp [flowSegment]
    rw [SignedRange] at top bottom
    omega
theorem sectionCovered (enforced : strictness.enforceBalancing)
    (ok : tx.balancingCheck customTokenType strictness fees = .ok ())
    (fallible : ∀ segment intent, tx.intents.lookup segment = some intent →
      segment ≠ guaranteedSegment) (token : UnshieldedTokenType)
    (empty : ∀ segment intent deployed, tx.intents.lookup segment = some intent →
      .deploy deployed ∈ intent.actions → deployed.initialState.holds token = 0) (s : Segment) :
    tx.gains token s none ≤ tx.losses token s none + tx.mints customTokenType token s none := by
  have covered := balancingCheckOk enforced ok (.unshielded token, s)
  rw [movementsFlow, movementsFlow] at covered
  have debits : (sortedIter tx.intents).map (fun entry =>
      flow .subtraction (.unshielded token, s) (entry.2.movements customTokenType false entry.1)) =
      (sortedIter tx.intents).map fun entry =>
        (if guaranteedSegment = s then Intent.gains token true none entry.2 else 0) +
          if entry.1 = s then Intent.gains token false none entry.2 else 0 :=
    map_congr_left fun entry mem => intentSubtraction entry.2 fun deployed inside =>
      empty entry.1 entry.2 deployed (memSortedIter.mp mem) inside
  simp only [intentAddition] at covered
  rw [debits, sectionParts _ fallible s,
    sectionParts (fun guaranteed whitelist intent => Intent.losses token guaranteed whitelist intent +
      Intent.mints customTokenType token guaranteed whitelist intent) fallible s] at covered
  refine covered.trans (Nat.le_of_eq ?_)
  rw [losses, mints, sectionSum, sectionSum, sectionSum]
  split
  · exact sum_map_add
  · cases tx.intents.lookup s <;> rfl

end

end StandardTransaction

theorem deployEmpty {S : Services W} {C : Checks W} {reference : LedgerState W}
    {deployed : ContractDeploy W} (ok : deployed.wellFormed S C reference = .ok ())
    (token : UnshieldedTokenType) : deployed.initialState.holds token = 0 := by
  obtain ⟨⟨⟩, -, rest⟩ := bindOk.mp ok
  dsimp only at rest
  obtain ⟨unfunded, rest⟩ := elseOk.mp rest
  rw [ContractState.holds, balanceOf]
  cases found : deployed.initialState.balance.lookup (.unshielded token) with
  | none => rfl
  | some amount =>
    have entry := mem_lookup_iff.mp found
    by_contra positive
    refine unfunded (any_eq_true.mpr ⟨_, entry, decide_eq_true ?_⟩)
    exact BitVec.lt_def.mpr (Nat.pos_of_ne_zero positive)

def TransactionResult.applied (tx : StandardTransaction W) : TransactionResult W → List Segment
  | .success => guaranteedSegment :: tx.fallibleSegments
  | .partialSuccess segments => (segments.filter fun entry => entry.2.isNone).map Prod.fst
  | .failure _ => []

theorem LedgerState.appliedOfLog {tx : StandardTransaction W} {log : Log W}
    (keys : log.map Prod.fst = guaranteedSegment :: tx.fallibleSegments) :
    (resultOf log).applied tx = (log.filter fun entry => entry.2.isNone).map Prod.fst := by
  rw [resultOf]
  split
  · rename_i every
    rw [filter_eq_self.mpr (all_eq_true.mp every), keys]
    rfl
  · rfl

section

variable {S : Services W.shielded} {C : Checks W.shielded} {build : Build}
  {reason : BalanceCheckFailure → W.Rejection} {reference state next : LedgerState W.shielded}
  {tblock : Timestamp} {evidence : W.Evidence} {stx : StandardTransaction W.shielded}
  {context : TransactionContext W.shielded}

section

variable (enforced : strictness.enforceBalancing)
  (accepted : stx.Accepted S (C.balanced customTokenType reason) reference strictness tblock evidence fees)
include enforced accepted

theorem acceptedCovered (token : UnshieldedTokenType) (segment : Segment) :
    stx.gains token segment none ≤
      stx.losses token segment none + stx.mints customTokenType token segment none := by
  have balanced := accepted.balanced
  rw [Checks.balancedCheck] at balanced
  refine sectionCovered enforced (mapErrorOk.mp balanced)
    (fun segment intent found => (accepted.intents segment intent found).ownSegment) token ?_ segment
  intro segment intent deployed found mem
  exact deployEmpty ((accepted.intents segment intent found).actions _ mem) token

theorem sectionNotCreated (listed : stx.Listed context.whitelist)
    (ok : state.applySection S build stx fees segment context = .ok next)
    (token : UnshieldedTokenType) : next.holds token ≤
      state.holds token + stx.mints customTokenType token segment context.whitelist := by
  have moved := LedgerState.applySectionHold token ok
  have covered := acceptedCovered enforced accepted token segment
  rw [listedGains listed, listedLosses listed] at moved
  rw [StandardTransaction.listedMints listed]
  omega

end

theorem unshieldedNotCreated {vt : VerifiedTransaction W.shielded}
    {result : TransactionResult W.shielded}
    (accepted : (standard stx).wellFormed S (C.balanced customTokenType reason)
      reference strictness tblock evidence = .ok vt)
    (enforced : strictness.enforceBalancing) (listed : stx.Listed context.whitelist)
    (applied : state.apply S build vt context = .ok (next, result)) (token : UnshieldedTokenType) :
    next.holds token ≤ state.holds token + ((result.applied stx).map fun segment =>
      stx.mints customTokenType token segment context.whitelist).sum := by
  obtain ⟨same, checks⟩ := Transaction.wellFormedOk accepted
  have body := checks stx rfl
  obtain ⟨e, rfl, rfl⟩ | ⟨rewards, claim, -, -⟩ |
    ⟨other, guaranteed, log, standard, rfl, passed, run⟩ := applyOk applied
  · exact Nat.le_add_right ..
  · cases same.symm.trans claim
  · cases same.symm.trans standard
    obtain ⟨keys, -⟩ := logApplied passed run
    rw [appliedOfLog keys]
    refine Simulation.runPreserves (fun acc : LedgerState W.shielded × Log W.shielded =>
      acc.1.holds token ≤ state.holds token + (((acc.2.filter fun entry => entry.2.isNone).map
        Prod.fst).map fun segment =>
          stx.mints customTokenType token segment context.whitelist).sum) ?_ ?_ run
    · intro acc segment following _ holds taken
      rw [fallibleStep] at taken
      split at taken <;> try contradiction
      · rename_i reached ran
        cases taken
        have added := sectionNotCreated enforced body listed ran token
        simp only [filter_append, map_append, sum_append]
        simp only [filter_singleton, Option.isNone_none, cond_true, map_cons, map_nil,
          sum_cons, sum_nil]
        omega
      · cases taken
        simpa [filter_append] using holds
    · have first := sectionNotCreated enforced body listed passed token
      simpa using first

end

def sampleTokenType (address : ContractAddress) (domainSep : HashOutput) : HashOutput :=
  address.hash + domainSep

def balancedChecks : Checks shieldedComponents :=
  (Checks.lenient shieldedComponents).balanced sampleTokenType fun _ => ()

def mintedToken : UnshieldedTokenType := ⟨sampleTokenType ⟨21⟩ 1⟩

def intentOf (offer : Option UnshieldedOffer) (action : ContractAction shieldedComponents)
    (ttl : Timestamp) : StandardTransaction shieldedComponents :=
  ⟨"net", singleton 1 ⟨none, offer, [action], none, ttl, ()⟩, none, ∅⟩

def callWith (effects : Effects) : ContractAction shieldedComponents :=
  .call ⟨⟨21⟩, [], none, some ⟨effects, ()⟩, 0⟩

def deployment : StandardTransaction shieldedComponents :=
  intentOf none (.deploy ⟨⟨(), ∅, ⟨[], 1, 0⟩, ∅⟩, 21⟩) 6

def funding : StandardTransaction shieldedComponents :=
  intentOf none (callWith { Effects.default with
    unshieldedMints := singleton 1 50
    unshieldedInputs := singleton (.unshielded mintedToken) 50 }) 7

def funded : LedgerState shieldedComponents :=
  value (Simulation.run (step shieldedServices .debug) shieldedGenesis
    [.transaction ⟨.standard deployment, 0, 0⟩ shieldedContext,
      .transaction ⟨.standard funding, 0, 0⟩ shieldedContext]) (by decide +kernel)

def withdrawal : StandardTransaction shieldedComponents :=
  intentOf (some ⟨[], [⟨50, ⟨8⟩, mintedToken⟩]⟩) (callWith { Effects.default with
    unshieldedOutputs := singleton (.unshielded mintedToken) 50 }) 8

def withdrawalVerified : VerifiedTransaction shieldedComponents :=
  value ((standard withdrawal).wellFormed shieldedServices balancedChecks funded
    .default 6 ()) (by decide +kernel)

def withdrawn (whitelist : Whitelist) :
    Except Panic (LedgerState shieldedComponents × TransactionResult shieldedComponents) :=
  funded.apply shieldedServices .debug withdrawalVerified ⟨funded, ⟨6, 0, 0, 0⟩, whitelist⟩

def paidOut : LedgerState shieldedComponents × TransactionResult shieldedComponents :=
  value (withdrawn none) (by decide +kernel)

theorem withdrawalNotCreated :
    funded.holds mintedToken = 50 ∧ paidOut.1.utxo.keys.map Utxo.owner = [⟨8⟩] ∧
      paidOut.1.holds mintedToken ≤ 50 := by
  have before : funded.holds mintedToken = 50 := by decide +kernel
  refine ⟨before, by decide +kernel, ?_⟩
  have accepted : (standard withdrawal).wellFormed shieldedServices balancedChecks
      funded .default 6 () = .ok withdrawalVerified := valueOk _
  have applied : withdrawn none = .ok (paidOut.1, paidOut.2) := by
    have returned := valueOk (x := withdrawn none) (by decide +kernel)
    exact returned
  have bounded := unshieldedNotCreated accepted rfl (listedNone withdrawal)
    applied mintedToken
  have mints : ((paidOut.2.applied withdrawal).map fun segment =>
      withdrawal.mints sampleTokenType mintedToken segment none).sum = 0 := by decide +kernel
  exact bounded.trans (Nat.le_of_eq (congrArg (50 + ·) mints))

/- With a whitelist that leaves the contract out, the call is passed over and only the
output is made. -/
def passedOver : LedgerState shieldedComponents × TransactionResult shieldedComponents :=
  value (withdrawn (some [])) (by decide +kernel)

theorem passedOverCreates :
    (standard withdrawal).wellFormed shieldedServices balancedChecks funded .default
        6 () = .ok withdrawalVerified ∧ withdrawn (some []) = .ok passedOver ∧
      funded.holds mintedToken + ((passedOver.2.applied withdrawal).map fun segment =>
        withdrawal.mints sampleTokenType mintedToken segment (some [])).sum <
          passedOver.1.holds mintedToken := by
  refine ⟨valueOk _, valueOk _, ?_⟩
  decide +kernel

end MidnightLedger.Ledger

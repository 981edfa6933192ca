import MidnightLedger.Ledger.Frames
import MidnightLedger.Ledger.WellFormed
import MidnightLedger.Lib.Journals

/-! Who authorises a maintenance update. Signatures are checked against the authority in the
reference state, the counter against the state of application. Over a run each update that takes
effect finds its own counter at its contract and leaves the next one. -/
namespace MidnightLedger.Ledger
open ByteString Maps Words Loops List Simulation Transaction ContractMaintenanceAuthority AList
  LedgerState MaintenanceUpdate ContractState

structure Authorised {W : Components} (S : Services W) (authority : ContractMaintenanceAuthority)
    (upd : MaintenanceUpdate) : Prop where
  distinct : (upd.signatures.map Prod.fst).Nodup
  signed : ∀ entry ∈ upd.signatures, ∃ vk, authority.committee[entry.1.toNat]? = some vk ∧
    S.verify vk (S.dataToSign upd) entry.2 = true
  enough : authority.threshold.toNat ≤ upd.signatures.length

variable {W : Components} {S : Services W} {C : Checks W} {build : Build} {upd : MaintenanceUpdate}
  {strictness : WellFormedStrictness}

namespace MaintenanceUpdate

/- A new authority starts with the counter after the update's. -/
def Normal (upd : MaintenanceUpdate) : Prop :=
  ∀ authority, .replaceAuthority authority ∈ upd.updates →
    authority.counter = saturatingAdd upd.counter 1

theorem ascendingPairwise {signatures : List (U32 × Signature)}
    (sorted : ascending signatures) : signatures.Pairwise (fun a b => a.1 < b.1) := by
  induction signatures with
  | nil => exact .nil
  | cons a rest ih =>
    cases rest with
    | nil => exact pairwise_singleton _ _
    | cons b rest =>
      obtain ⟨first, tail⟩ : a.1 < b.1 ∧ ascending (b :: rest) := by
        simpa [ascending] using sorted
      have pairs := ih tail
      refine .cons (fun c mem => ?_) pairs
      rcases mem_cons.mp mem with rfl | inside
      · exact first
      · exact BitVec.lt_trans first (rel_of_pairwise_cons pairs inside)

theorem checkedAuthority {authority : ContractMaintenanceAuthority}
    (ok : upd.checkAuthority S strictness authority = .ok ()) :
    upd.Normal ∧ (strictness.verifySignatures → Authorised S authority upd) := by
  rw [checkAuthority] at ok
  obtain ⟨sorted, ok⟩ := elseOk.mp ok
  obtain ⟨normal, ok⟩ := elseOk.mp ok
  obtain ⟨⟨⟩, signatures, rest⟩ := bindOk.mp ok
  split at rest <;> try contradiction
  refine ⟨fun authority mem => ?_, fun strict => ⟨?_, fun entry mem => ?_, by omega⟩⟩
  · by_contra different
    refine normal (any_eq_true.mpr ⟨authority, ?_, by simpa using different⟩)
    exact mem_filterMap.mpr ⟨_, mem, rfl⟩
  · have pairs := ascendingPairwise (not_not.mp sorted)
    rw [List.Nodup, pairwise_map]
    exact pairs.imp (fun less => BitVec.ne_of_lt less)
  · have checked := forMOk.mp signatures entry mem
    rw [checkSignature] at checked
    split at checked <;> try contradiction
    rename_i vk found
    obtain ⟨valid, checked⟩ := elseOk.mp checked
    exact ⟨vk, found, by simpa [strict] using valid⟩

end MaintenanceUpdate

def ContractMaintenanceAuthority.Later (a b : ContractMaintenanceAuthority) : Prop :=
  a = b ∨ a.counter < b.counter ∨ b.counter = BitVec.allOnes 32

namespace ContractMaintenanceAuthority

theorem laterSelf (a : ContractMaintenanceAuthority) : a.Later a := .inl rfl

variable {a b : ContractMaintenanceAuthority}

theorem laterTrans {c : ContractMaintenanceAuthority} (first : a.Later b) (second : b.Later c) :
    a.Later c := by
  rcases second with rfl | grown | saturated
  · exact first
  · rcases first with rfl | less | full
    · exact .inr (.inl grown)
    · exact .inr (.inl (BitVec.lt_trans less grown))
    · rw [full, BitVec.lt_def] at grown
      simp only [BitVec.toNat_allOnes] at grown
      omega
  · exact .inr (.inr saturated)

theorem laterSame (later : a.Later b) (same : a.counter = b.counter)
    (unsaturated : b.counter ≠ BitVec.allOnes 32) : a = b := by
  rcases later with equal | grown | full
  · exact equal
  · exact absurd grown (by rw [same]; exact BitVec.lt_irrefl _)
  · exact absurd full unsaturated

theorem laterOfNext (next : b.counter = saturatingAdd a.counter 1) : a.Later b := by
  rw [saturatingAdd] at next
  split at next
  · rename_i fits
    refine .inr (.inl ?_)
    rw [next, BitVec.lt_def, BitVec.toNat_add, Nat.mod_eq_of_lt fits]
    exact Nat.lt_succ_self _
  · exact .inr (.inr next)

end ContractMaintenanceAuthority

variable {updated : ContractState W}

namespace ContractState

variable {cstate : ContractState W}

theorem maintainCounts (ok : cstate.maintain upd = .ok updated) :
    cstate.maintenanceAuthority.counter = upd.counter := by
  rw [maintain] at ok
  obtain ⟨counted, ok⟩ := elseOk.mp ok
  exact not_not.mp counted

theorem maintainCounter (normal : upd.Normal) (ok : cstate.maintain upd = .ok updated) :
    updated.maintenanceAuthority.counter = saturatingAdd upd.counter 1 := by
  have same := maintainCounts ok
  rw [maintain, if_neg (not_not.mpr same)] at ok
  refine runPreserves
    (fun s : ContractState W => s.maintenanceAuthority.counter = saturatingAdd upd.counter 1)
    (fun mem before taken => ?_) (by rw [← same]; rfl) ok
  obtain ⟨operations, rfl⟩ | ⟨authority, rfl, rfl⟩ := applyUpdateOk taken
  · exact before
  · exact normal authority mem

end ContractState

variable (S C) in
/- The only values of `VerifiedTransaction` are those that `well_formed` returns. -/
def VerifiedTransaction.Verified (vt : VerifiedTransaction W) : Prop :=
  ∃ (tx : Transaction W) (reference : LedgerState W) (strictness : WellFormedStrictness)
    (tblock : Timestamp) (evidence : W.Evidence),
    tx.wellFormed S C reference strictness tblock evidence = .ok vt

def StandardTransaction.Normal (stx : StandardTransaction W) : Prop :=
  ∀ {segment intent upd}, stx.intents.lookup segment = some intent →
    .maintain upd ∈ intent.actions → upd.Normal

variable {parent : Intent W}

theorem maintainChecked {reference : LedgerState W} {evidence : W.Evidence}
    (ok : (ContractAction.maintain upd).wellFormed S C reference strictness parent evidence =
      .ok ()) :
    ∃ cstate, reference.contract.lookup upd.address = some cstate ∧
      upd.checkAuthority S strictness cstate.maintenanceAuthority = .ok () := by
  rw [ContractAction.wellFormed, MaintenanceUpdate.wellFormed] at ok
  split at ok <;> try contradiction
  rename_i cstate found
  exact ⟨cstate, found, ok⟩

variable {vt : VerifiedTransaction W} {stx : StandardTransaction W}

theorem verifiedNormal (verified : vt.Verified S C) (standard : vt.inner = .standard stx) :
    stx.Normal := by
  obtain ⟨tx, reference, strictness, tblock, evidence, ok⟩ := verified
  obtain ⟨same, accepted⟩ := wellFormedOk ok
  intro segment intent upd found mem
  have checks := (accepted stx (same.symm.trans standard)).intents segment intent found
  obtain ⟨cstate, -, checked⟩ := maintainChecked (checks.actions _ mem)
  exact (checkedAuthority checked).1

variable {state : LedgerState W} {context : TransactionContext W} {next : LedgerState W}
  {address : ContractAddress} {guaranteed : Bool} {action : ContractAction W}
  {actions : List (ContractAction W)} {comIndices : ComIndices} {segment : Segment}
  {fees : U128} {result : TransactionResult W}

namespace LedgerState

def Kept (s t : LedgerState W) : Prop :=
  ∀ address cstate, s.contract.lookup address = some cstate →
    ∃ later, t.contract.lookup address = some later ∧
      cstate.maintenanceAuthority.Later later.maintenanceAuthority

theorem keptSelf (s : LedgerState W) : s.Kept s := fun _ _ found => ⟨_, found, laterSelf _⟩

theorem keptTrans {a b c : LedgerState W} (first : a.Kept b) (second : b.Kept c) : a.Kept c := by
  intro address cstate found
  obtain ⟨middle, foundMiddle, later⟩ := first address cstate found
  obtain ⟨last, foundLast, again⟩ := second address middle foundMiddle
  exact ⟨last, foundLast, laterTrans later again⟩

theorem keptContract {s t : LedgerState W} (same : t.contract = s.contract) : s.Kept t := by
  intro address cstate found
  exact ⟨cstate, by rw [same, found], laterSelf _⟩

theorem keptInsert (later : ∀ {cstate}, state.contract.lookup address = some cstate →
      cstate.maintenanceAuthority.Later updated.maintenanceAuthority) :
    state.Kept { state with contract := state.contract.insert address updated } := by
  intro other cstate found
  by_cases same : other = address
  · subst same
    exact ⟨updated, lookup_insert _, later found⟩
  · exact ⟨cstate, (lookup_insert_ne same).trans found, laterSelf _⟩

theorem actedKept (normal : ∀ upd, action = .maintain upd → upd.Normal)
    (acted : Acted S guaranteed context state action next) : state.Kept next := by
  cases acted with
  | passed => exact keptSelf state
  | called present =>
    refine keptInsert (fun found => ?_)
    cases present.symm.trans found
    exact laterSelf _
  | deployed fallible absent =>
    refine keptInsert (fun found => ?_)
    rw [absent] at found
    cases found
  | maintained fallible present maintained =>
    refine keptInsert (fun found => ?_)
    cases present.symm.trans found
    have after := maintainCounter (normal _ rfl) maintained
    exact laterOfNext (by rw [after, maintainCounts maintained])

theorem applyActionsKept (normal : ∀ upd, .maintain upd ∈ actions → upd.Normal)
    (ok : state.applyActions S actions guaranteed context parent comIndices = .ok next) :
    state.Kept next := by
  refine runGrows Kept keptSelf keptTrans (fun mem taken => ?_) ok
  exact actedKept (fun upd same => normal upd (same ▸ mem)) (applyActionActs taken)

theorem applyUnshieldedContract {offer : Option UnshieldedOffer} {intent : Intent W}
    (ok : state.applyUnshielded S build offer intent segment context = .ok next) :
    next.contract = state.contract := by
  obtain ⟨-, rfl⟩ | ⟨given, utxo, dust, -, -, -, rfl⟩ := applyUnshieldedOk ok <;> rfl

theorem applyGuaranteedKept (normal : stx.Normal)
    (ok : state.applyGuaranteed S build stx fees context = .ok next) : state.Kept next := by
  obtain ⟨started, comIndices, moved, utxo, feesRemaining, left, before, intents, -,
    registrations⟩ := applyGuaranteedOk ok
  obtain ⟨replay, zswap, rfl⟩ := before.frame
  have kept := runGrows Kept keptSelf keptTrans (fun mem taken => ?_) intents
  · obtain ⟨dust, rfl⟩ := guaranteedRegistrationsFrame registrations
    exact kept
  · obtain ⟨unshielded, offered, acted⟩ := bindOk.mp taken
    have found := memSortedIter.mp mem
    exact keptTrans (keptContract (applyUnshieldedContract offered))
      (applyActionsKept (fun upd inside => normal found inside) acted)

theorem applyFallibleKept (normal : stx.Normal)
    (ok : state.applyFallible S build stx segment context = .ok next) : state.Kept next := by
  obtain ⟨started, comIndices, zswapped, ⟨-, rfl⟩ | ⟨intent, moved, found, offered, -, acted⟩⟩ :=
    applyFallibleOk ok <;> obtain ⟨zswap, rfl, -⟩ := applyZswapOptionOk zswapped
  · exact keptContract rfl
  · have contracts := applyUnshieldedContract offered
    exact keptTrans (keptContract contracts)
      (applyActionsKept (fun upd mem => normal found mem) acted)

theorem applySectionKept (normal : stx.Normal)
    (ok : state.applySection S build stx fees segment context = .ok next) : state.Kept next := by
  obtain ⟨-, ⟨-, guaranteed⟩ | ⟨-, fallible⟩⟩ := applySectionOk ok
  · exact applyGuaranteedKept normal guaranteed
  · exact applyFallibleKept normal fallible

theorem applyKept (normal : ∀ {stx}, vt.inner = .standard stx → stx.Normal)
    (ok : state.apply S build vt context = .ok (next, result)) : state.Kept next := by
  refine applyPreserves (keptSelf state) (fun _ claimed => ?_) (fun standard before applied => ?_) ok
  · obtain ⟨replay, dust, claimed, -, -, -, -, -, rfl⟩ := claimUnshieldedOk claimed
    exact keptContract (takeClaimContract ..)
  · exact keptTrans before (applySectionKept (normal standard) applied)

end LedgerState

variable (S C) in
def Step.Verified : Step W → Prop
  | .transaction vt _ => vt.Verified S C
  | _ => True

variable {taken : Step W}

theorem stepKept (verified : taken.Verified S C)
    (ok : step S build state taken = .ok next) : state.Kept next := by
  cases taken with
  | transaction vt context =>
    obtain ⟨⟨reached, result⟩, applied, rfl⟩ := pureOk.mp ok
    exact applyKept (verifiedNormal verified) applied
  | system tx tblock =>
    obtain applied | rfl := systemStepOk ok
    · exact keptContract (applySystemTxFrame applied).contract
    · exact keptSelf state
  | postBlock tblock fullness =>
    cases ok
    refine keptContract ?_
    rw [postBlockUpdate]
    split <;> rfl

/- The update is an action of a fallible segment that succeeds when the transaction is
applied; `moment` is the state in which the action runs. -/
inductive TakesEffect (S : Services W) (build : Build) (state : LedgerState W)
    (vt : VerifiedTransaction W) (context : TransactionContext W) (upd : MaintenanceUpdate)
    (moment : LedgerState W) : Prop where
  | fallible {stx : StandardTransaction W} {earlier later : List Segment} {segment : Segment}
      {guaranteed before after offered : LedgerState W}
      {results : Log W} {comIndices : ComIndices}
      {intent : Intent W} {previous following : List (ContractAction W)}
      (standard : vt.inner = .standard stx)
      (segments : stx.fallibleSegments = earlier ++ segment :: later)
      (first : state.applySection S build stx vt.fees guaranteedSegment context = .ok guaranteed)
      (reached : earlier.foldlM (fallibleStep S build stx vt.fees context)
        (guaranteed, [(guaranteedSegment, none)]) = .ok (before, results))
      (succeeded : before.applySection S build stx vt.fees segment context = .ok after)
      (found : stx.intents.lookup segment = some intent)
      (position : intent.actions = previous ++ .maintain upd :: following)
      (offers : before.applyFallibleOffers S build stx segment context = .ok (offered, comIndices))
      (ran : offered.applyActions S previous false context intent comIndices = .ok moment)
      (admitted : whitelistMatches context.whitelist upd.address = true) :
      TakesEffect S build state vt context upd moment

namespace TakesEffect

variable {moment : LedgerState W}

theorem kept (normal : ∀ {stx}, vt.inner = .standard stx → stx.Normal)
    (effect : TakesEffect S build state vt context upd moment) : state.Kept moment := by
  obtain ⟨standard, -, first, reached, -, found, position, offers, ran, -⟩ := effect
  have guaranteed := applySectionKept (normal standard) first
  have earlier := fallibleSegmentsPreserve (P := state.Kept) (fun kept applied => keptTrans kept
      (applySectionKept (normal standard) applied)) guaranteed reached
  refine keptTrans earlier (keptTrans ?_
    (applyActionsKept (fun upd mem => normal standard found ?_) ran))
  · obtain ⟨⟨started, indices⟩, zswapped, rest⟩ := bindOk.mp offers
    obtain ⟨zswap, rfl, -⟩ := applyZswapOptionOk zswapped
    simp only [found] at rest
    obtain ⟨moved, unshielded, last⟩ := bindOk.mp rest
    cases last
    have contracts := applyUnshieldedContract unshielded
    exact keptContract contracts
  · rw [position]
    exact mem_append_left _ mem

theorem counted (effect : TakesEffect S build state vt context upd moment) :
    ∃ cstate, moment.contract.lookup upd.address = some cstate ∧
      cstate.maintenanceAuthority.counter = upd.counter := by
  obtain ⟨-, segments, -, -, succeeded, found, position, offers, ran, admitted⟩ := effect
  have fallible := fallibleNotGuaranteed (segments ▸ mem_append_right _ mem_cons_self)
  obtain ⟨-, ⟨same, -⟩ | ⟨-, applied⟩⟩ := applySectionOk succeeded
  · exact absurd same fallible
  obtain ⟨started, indices, -, ⟨absent, -⟩ | ⟨intent, moved, here, -, again, acted⟩⟩ :=
    applyFallibleOk applied
  · rw [absent] at found
    cases found
  cases here.symm.trans found
  cases again.symm.trans offers
  rw [applyActions, position] at acted
  obtain ⟨middle, prefixed, rest⟩ := foldlMAppend.mp acted
  cases prefixed.symm.trans ran
  obtain ⟨next, taken, -⟩ := runCons.mp rest
  rw [applyAction, if_pos ⟨admitted, by decide⟩] at taken
  obtain ⟨cstate, updated, present, maintained, -⟩ := applyMaintainOk taken
  exact ⟨cstate, present, maintainCounts maintained⟩

theorem member (effect : TakesEffect S build state vt context upd moment) :
    ∃ stx segment intent, vt.inner = .standard stx ∧ stx.intents.lookup segment = some intent ∧
      .maintain upd ∈ intent.actions := by
  obtain ⟨standard, -, -, -, -, found, position, -, -, -⟩ := effect
  refine ⟨_, _, _, standard, found, ?_⟩
  rw [position]
  exact mem_append_right _ mem_cons_self

end TakesEffect

/- The update carries the counter that its contract has in the reference state, the
counter has not run out, and signatures were verified. -/
structure Current (reference : LedgerState W) (strictness : WellFormedStrictness)
    (upd : MaintenanceUpdate) : Prop where
  verifies : strictness.verifySignatures = true
  counter : ∀ {cstate}, reference.contract.lookup upd.address = some cstate →
    cstate.maintenanceAuthority.counter = upd.counter
  unsaturated : upd.counter ≠ BitVec.allOnes 32

theorem currentUpdateAuthorised {reference state moment : LedgerState W} {tx : Transaction W}
    {strictness : WellFormedStrictness} {tblock : Timestamp} {evidence : W.Evidence}
    {vt : VerifiedTransaction W} {steps : List (Step W)} {context : TransactionContext W}
    {upd : MaintenanceUpdate}
    (accepted : tx.wellFormed S C reference strictness tblock evidence = .ok vt)
    (verified : ∀ taken ∈ steps, taken.Verified S C)
    (run : run (step S build) reference steps = .ok state)
    (effect : TakesEffect S build state vt context upd moment)
    (current : Current reference strictness upd) :
    ∃ cstate, moment.contract.lookup upd.address = some cstate ∧
      Authorised S cstate.maintenanceAuthority upd := by
  obtain ⟨stx, segment, intent, standard, found, mem⟩ := effect.member
  obtain ⟨same, body⟩ := wellFormedOk accepted
  have checks := (body stx (same.symm.trans standard)).intents segment intent found
  obtain ⟨cstate, present, checked⟩ := maintainChecked (checks.actions _ mem)
  obtain ⟨-, signed⟩ := checkedAuthority checked
  have reached : reference.Kept state :=
    runGrows Kept keptSelf keptTrans
      (fun inside taken => stepKept (verified _ inside) taken) run
  have normal : ∀ {stx}, vt.inner = .standard stx → stx.Normal :=
    verifiedNormal ⟨tx, reference, strictness, tblock, evidence, accepted⟩
  obtain ⟨later, lookup, moved⟩ :=
    keptTrans reached (effect.kept normal) _ _ present
  obtain ⟨met, lookupMet, counter⟩ := effect.counted
  cases lookup.symm.trans lookupMet
  refine ⟨later, lookupMet, ?_⟩
  have same := laterSame moved
    ((current.counter present).trans counter.symm) (by rw [counter]; exact current.unsaturated)
  rw [← same]
  exact signed current.verifies

def sampleContract : ContractAddress := ⟨77⟩

def contractTransaction (ttl : Timestamp) (actions : List (ContractAction sampleComponents)) :
    StandardTransaction sampleComponents :=
  ⟨"net", singleton 1 ⟨none, none, actions, none, ttl, ()⟩, none, ∅⟩

def sampleDeploy : StandardTransaction sampleComponents :=
  contractTransaction 6 [.deploy ⟨⟨(), ∅, ⟨[.schnorr [1]], 1, 0⟩, ∅⟩, 77⟩]

def sampleDeployed : LedgerState sampleComponents :=
  value (step sampleServices .debug sampleGenesis
    (.transaction (value (accept sampleGenesis sampleDeploy) (by decide +kernel)) sampleContext))
    (by decide +kernel)

/- The member hands over to another, and in the same transaction signs one update more
under the next counter. -/
def handOver : MaintenanceUpdate :=
  ⟨sampleContract, [.replaceAuthority ⟨[.schnorr [2]], 1, 1⟩], 0, [(0, .schnorr [1])]⟩

def afterHandOver : MaintenanceUpdate :=
  ⟨sampleContract, [.irInsert [1] [1]], 1, [(0, .schnorr [1])]⟩

def handOverIntent : Intent sampleComponents :=
  ⟨none, none, [.maintain handOver, .maintain afterHandOver], none, 7, ()⟩

def handOverTransaction : StandardTransaction sampleComponents :=
  contractTransaction 7 handOverIntent.actions

def handOverVerified : VerifiedTransaction sampleComponents :=
  value (accept sampleDeployed handOverTransaction) (by decide +kernel)

def handOverGuaranteed : LedgerState sampleComponents :=
  value (sampleDeployed.applySection sampleServices .debug handOverTransaction 0 guaranteedSegment
    sampleContext) (by decide +kernel)

def handOverOffered : LedgerState sampleComponents × ComIndices :=
  value (handOverGuaranteed.applyFallibleOffers sampleServices .debug handOverTransaction 1
    sampleContext) (by decide +kernel)

theorem handOverEffect {previous following : List (ContractAction sampleComponents)}
    {moment : LedgerState sampleComponents}
    (position : handOverIntent.actions = previous ++ .maintain upd :: following)
    (ran : handOverOffered.1.applyActions sampleServices previous false sampleContext handOverIntent
      handOverOffered.2 = .ok moment) :
    TakesEffect sampleServices .debug sampleDeployed handOverVerified sampleContext upd moment := by
  have standard : handOverVerified.inner = .standard handOverTransaction := rfl
  have segments : handOverTransaction.fallibleSegments = [] ++ 1 :: [] := by decide +kernel
  have first : sampleDeployed.applySection sampleServices .debug handOverTransaction
      handOverVerified.fees guaranteedSegment sampleContext = .ok handOverGuaranteed := valueOk _
  have succeeds : (handOverGuaranteed.applySection sampleServices .debug handOverTransaction
      handOverVerified.fees 1 sampleContext).isOk = true := by decide +kernel
  have found : handOverTransaction.intents.lookup 1 = some handOverIntent := rfl
  have offers : handOverGuaranteed.applyFallibleOffers sampleServices .debug handOverTransaction 1
      sampleContext = .ok handOverOffered := valueOk _
  exact .fallible standard segments first rfl (valueOk succeeds) found position offers ran rfl

theorem handOverAccepted : (standard handOverTransaction).wellFormed sampleServices
    sampleChecks sampleDeployed .default 5 () = .ok handOverVerified := valueOk _

theorem handOverAuthorised : ∃ cstate,
    handOverOffered.1.contract.lookup handOver.address = some cstate ∧
      Authorised sampleServices cstate.maintenanceAuthority handOver := by
  have position : handOverIntent.actions =
      [] ++ .maintain handOver :: [.maintain afterHandOver] := rfl
  have current : Current sampleDeployed .default handOver := by
    refine ⟨rfl, fun {cstate} found => ?_, by decide⟩
    have counter : (sampleDeployed.contract.lookup handOver.address).map
      (fun c => c.maintenanceAuthority.counter) = some 0 := by decide +kernel
    rw [found] at counter
    exact Option.some.inj counter
  exact currentUpdateAuthorised handOverAccepted (by simp) (runNil.mpr rfl)
    (handOverEffect position rfl) current

def handOverMoment : LedgerState sampleComponents :=
  value (handOverOffered.1.applyActions sampleServices [.maintain handOver] false sampleContext
    handOverIntent handOverOffered.2) (by decide +kernel)

theorem afterHandOverUnauthorised :
    (standard handOverTransaction).wellFormed sampleServices sampleChecks sampleDeployed
        .default 5 () = .ok handOverVerified ∧
      TakesEffect sampleServices .debug sampleDeployed handOverVerified sampleContext afterHandOver
        handOverMoment ∧
      ¬ ∃ cstate, handOverMoment.contract.lookup afterHandOver.address = some cstate ∧
        Authorised sampleServices cstate.maintenanceAuthority afterHandOver := by
  have position : handOverIntent.actions =
      [.maintain handOver] ++ .maintain afterHandOver :: [] := rfl
  refine ⟨handOverAccepted, handOverEffect position (valueOk _), ?_⟩
  rintro ⟨cstate, found, authorised⟩
  have authority : (handOverMoment.contract.lookup afterHandOver.address).map
      (fun c => c.maintenanceAuthority) = some ⟨[.schnorr [2]], 1, 1⟩ := by decide +kernel
  rw [found] at authority
  have replaced : cstate.maintenanceAuthority = ⟨[.schnorr [2]], 1, 1⟩ := Option.some.inj authority
  obtain ⟨vk, member, valid⟩ := authorised.signed (0, .schnorr [1]) mem_cons_self
  rw [replaced] at member
  cases member
  exact absurd valid (by decide)

open Journals StandardTransaction

def maintainedBy (whitelist : Whitelist) (actions : List (ContractAction W)) :
    List MaintenanceUpdate :=
  actions.filterMap fun action =>
    match action with
    | .maintain upd => if whitelistMatches whitelist upd.address then some upd else none
    | _ => none

namespace StandardTransaction

def maintained (stx : StandardTransaction W) (whitelist : Whitelist)
    (segment : Segment) : List MaintenanceUpdate :=
  match stx.intents.lookup segment with
  | some intent => maintainedBy whitelist intent.actions
  | none => []

def succeeded (stx : StandardTransaction W) : TransactionResult W → List Segment
  | .success => stx.fallibleSegments
  | .partialSuccess segments =>
    ((segments.filter (·.2.isNone)).map Prod.fst).filter (· ≠ guaranteedSegment)
  | .failure _ => []

end StandardTransaction

def VerifiedTransaction.maintained (vt : VerifiedTransaction W) (context : TransactionContext W)
    (result : TransactionResult W) : List MaintenanceUpdate :=
  match vt.inner with
  | .standard stx => (stx.succeeded result).flatMap (stx.maintained context.whitelist)
  | .claimRewards _ => []

def stepMaintaining (S : Services W) (build : Build) (state : LedgerState W) :
    Step W → Except Panic (LedgerState W × List MaintenanceUpdate)
  | .transaction vt context => do
    let (next, result) ← state.apply S build vt context
    .ok (next, vt.maintained context result)
  | taken => telling (step S build state taken) fun _ => []

def MaintenanceUpdate.identity (upd : MaintenanceUpdate) :
    ContractAddress × U32 × List SingleUpdate :=
  (upd.address, upd.counter, upd.updates)

namespace LedgerState

def Standing (s t : LedgerState W) : Prop :=
  ∀ address cstate, s.contract.lookup address = some cstate →
    ∃ later, t.contract.lookup address = some later ∧
      later.maintenanceAuthority = cstate.maintenanceAuthority

theorem standingSelf (s : LedgerState W) : s.Standing s := fun _ _ found => ⟨_, found, rfl⟩

theorem standingTrans {a b c : LedgerState W} (first : a.Standing b) (second : b.Standing c) :
    a.Standing c := by
  intro address cstate found
  obtain ⟨middle, foundMiddle, same⟩ := first address cstate found
  obtain ⟨last, foundLast, again⟩ := second address middle foundMiddle
  exact ⟨last, foundLast, again.trans same⟩

theorem standingContract {s t : LedgerState W} (same : t.contract = s.contract) : s.Standing t :=
  fun _ cstate found => ⟨cstate, by rw [same, found], rfl⟩

theorem standingInsert (same : ∀ {cstate}, state.contract.lookup address = some cstate →
      updated.maintenanceAuthority = cstate.maintenanceAuthority) :
    state.Standing { state with contract := state.contract.insert address updated } := by
  intro other cstate found
  by_cases here : other = address
  · subst here
    exact ⟨updated, lookup_insert _, same found⟩
  · exact ⟨cstate, (lookup_insert_ne here).trans found, rfl⟩

inductive CounterMove : LedgerState W → List MaintenanceUpdate → LedgerState W → Prop where
  | kept {s t : LedgerState W} (standing : s.Standing t) : CounterMove s [] t
  | raised {s : LedgerState W} {upd : MaintenanceUpdate} {cstate updated : ContractState W}
      (present : s.contract.lookup upd.address = some cstate)
      (found : cstate.maintenanceAuthority.counter = upd.counter)
      (left : updated.maintenanceAuthority.counter = saturatingAdd upd.counter 1) :
      CounterMove s [upd] { s with contract := s.contract.insert upd.address updated }

theorem tracedKept {s t : LedgerState W} (standing : s.Standing t) : Trace CounterMove s [] t :=
  .single (.kept standing)

variable {params : LedgerParameters W}

theorem actedStanding (other : ∀ upd, action ≠ .maintain upd)
    (acted : Acted S guaranteed context state action next) : state.Standing next := by
  cases acted with
  | passed => exact standingSelf state
  | called present =>
    refine standingInsert fun found => ?_
    cases present.symm.trans found
    rfl
  | deployed fallible absent =>
    refine standingInsert fun found => ?_
    rw [absent] at found
    cases found
  | maintained => exact absurd rfl (other _)

theorem actionTraced (normal : ∀ upd, action = .maintain upd → upd.Normal)
    (ok : state.applyAction S params false context parent comIndices action = .ok next) :
    Trace CounterMove state (maintainedBy context.whitelist [action]) next := by
  cases action with
  | call call | deploy deploy =>
    exact tracedKept (actedStanding (fun _ => by simp) (applyActionActs ok))
  | maintain upd =>
    simp only [applyAction] at ok
    split at ok
    · rename_i admitted
      obtain ⟨cstate, updated, present, maintained, rfl⟩ := applyMaintainOk ok
      have listed : maintainedBy (W := W) context.whitelist [.maintain upd] = [upd] := by
        simp [maintainedBy, admitted.1]
      rw [listed]
      exact .single (.raised present (maintainCounts maintained)
        (maintainCounter (normal upd rfl) maintained))
    · rename_i refused
      cases ok
      have outside : whitelistMatches context.whitelist upd.address = false := by
        simpa using refused
      have listed : maintainedBy (W := W) context.whitelist [.maintain upd] = [] := by
        simp [maintainedBy, outside]
      rw [listed]
      exact .done _

theorem actionsTraced (normal : ∀ upd, .maintain upd ∈ actions → upd.Normal)
    (ok : actions.foldlM (applyAction S params false context parent comIndices) state = .ok next) :
    Trace CounterMove state (maintainedBy context.whitelist actions) next := by
  induction actions generalizing state with
  | nil =>
    cases ok
    exact .done _
  | cons action actions ih =>
    obtain ⟨middle, taken, rest⟩ := bindOk.mp ok
    have first := actionTraced (fun upd same => normal upd (same ▸ mem_cons_self)) taken
    have later := ih (fun upd mem => normal upd (mem_cons_of_mem _ mem)) rest
    have listed : maintainedBy context.whitelist (action :: actions) =
        maintainedBy context.whitelist [action] ++ maintainedBy context.whitelist actions := by
      rw [maintainedBy, ← singleton_append, filterMap_append]
      rfl
    rw [listed]
    exact first.append later

theorem applyGuaranteedStanding (ok : state.applyGuaranteed S build stx fees context = .ok next) :
    state.Standing next := by
  obtain ⟨started, comIndices, moved, utxo, feesRemaining, left, before, intents, -,
    registrations⟩ := applyGuaranteedOk ok
  obtain ⟨replay, zswap, rfl⟩ := before.frame
  have stands := Simulation.runGrows Standing standingSelf standingTrans (fun _ taken => ?_) intents
  · obtain ⟨dust, rfl⟩ := guaranteedRegistrationsFrame registrations
    exact stands
  · obtain ⟨unshielded, offered, acted⟩ := bindOk.mp taken
    refine standingTrans (standingContract (applyUnshieldedContract offered)) ?_
    refine Simulation.runGrows Standing standingSelf standingTrans (fun _ moved => ?_) acted
    -- no update runs in the guaranteed section
    have step := applyActionActs moved
    cases step with
    | maintained fallible => cases fallible
    | passed => exact standingSelf _
    | called present => exact actedStanding (fun _ => by simp) (applyActionActs moved)
    | deployed fallible => cases fallible

theorem applyFallibleTraced (normal : stx.Normal)
    (ok : state.applyFallible S build stx segment context = .ok next) :
    Trace CounterMove state (stx.maintained context.whitelist segment) next := by
  obtain ⟨started, comIndices, zswapped, ⟨absent, rfl⟩ | ⟨intent, moved, found, offered, -, acted⟩⟩ :=
    applyFallibleOk ok <;> obtain ⟨zswap, rfl, -⟩ := applyZswapOptionOk zswapped
  · rw [maintained, absent]
    exact tracedKept (standingContract rfl)
  · rw [maintained, found]
    have contracts := applyUnshieldedContract offered
    have stands : state.Standing moved := standingContract contracts
    exact (tracedKept stands).append (actionsTraced (fun upd mem => normal found mem) acted)

theorem fallibleSegmentsTraced (normal : stx.Normal) {segments : List Segment}
    (fallible : ∀ segment ∈ segments, segment ≠ guaranteedSegment)
    {before after : LedgerState W × Log W}
    (ok : segments.foldlM (fallibleStep S build stx fees context) before = .ok after) :
    ∃ more, after.2 = before.2 ++ more ∧ more.map Prod.fst = segments ∧ Trace CounterMove before.1
        (((more.filter (·.2.isNone)).map Prod.fst).flatMap (stx.maintained context.whitelist))
        after.1 := by
  induction segments generalizing before with
  | nil =>
    cases ok
    exact ⟨[], (append_nil _).symm, rfl, .done _⟩
  | cons segment segments ih =>
    obtain ⟨middle, taken, rest⟩ := bindOk.mp ok
    obtain ⟨more, listed, keys, trace⟩ := ih (forall_mem_cons.mp fallible).2 rest
    rw [fallibleStep] at taken
    split at taken <;> try contradiction
    · rename_i reached applied
      cases taken
      obtain ⟨-, ⟨guaranteed, -⟩ | ⟨-, ran⟩⟩ := applySectionOk applied
      · exact absurd guaranteed (fallible segment mem_cons_self)
      refine ⟨(segment, none) :: more, by rw [listed, append_assoc]; rfl, by simp [keys], ?_⟩
      exact (applyFallibleTraced normal ran).append trace
    · rename_i e _
      cases taken
      exact ⟨(segment, some e) :: more, by rw [listed, append_assoc]; rfl, by simp [keys], trace⟩

theorem succeededResult {segments more : Log W}
    (fallible : ∀ segment ∈ more.map Prod.fst, segment ≠ guaranteedSegment)
    (keys : more.map Prod.fst = stx.fallibleSegments)
    (listed : segments = [(guaranteedSegment, none)] ++ more) :
    stx.succeeded (resultOf segments) = (more.filter (·.2.isNone)).map Prod.fst := by
  rw [resultOf]
  split
  · rename_i every
    rw [listed, all_append, Bool.and_eq_true, all_eq_true] at every
    rw [succeeded, ← keys, filter_eq_self.mpr]
    exact all_eq_true.mp every.2
  · rw [succeeded, listed, filter_append, map_append, filter_append]
    have first : (([(guaranteedSegment, (none : Option (TransactionInvalid W)))].filter
        (·.2.isNone)).map Prod.fst).filter (· ≠ guaranteedSegment) = [] := by simp
    rw [first, nil_append, filter_eq_self.mpr]
    intro segment mem
    obtain ⟨entry, inside, rfl⟩ := mem_map.mp mem
    exact decide_eq_true (fallible _ (mem_map_of_mem (mem_of_mem_filter inside)))

theorem applyTraced (normal : ∀ {stx}, vt.inner = .standard stx → stx.Normal)
    (ok : state.apply S build vt context = .ok (next, result)) :
    Trace CounterMove state (vt.maintained context result) next := by
  obtain ⟨e, rfl, rfl⟩ | ⟨rewards, claim, rfl, claimed⟩ |
    ⟨stx, guaranteed, segments, standard, rfl, passed, run⟩ := applyOk ok
  · have none : vt.maintained context (.failure e) = [] := by
      rw [VerifiedTransaction.maintained]
      split <;> rfl
    rw [none]
    exact .done _
  · rw [VerifiedTransaction.maintained, claim]
    obtain ⟨replay, dust, taken, -, -, -, -, -, rfl⟩ := claimUnshieldedOk claimed
    exact tracedKept (standingContract (takeClaimContract ..))
  · obtain ⟨-, ⟨-, first⟩ | ⟨other, -⟩⟩ := applySectionOk passed
    · obtain ⟨more, listed, keys, trace⟩ := fallibleSegmentsTraced (normal standard)
        (fun segment mem => fallibleNotGuaranteed mem) run
      have same := succeededResult (keys ▸ fun segment mem => fallibleNotGuaranteed mem) keys listed
      rw [VerifiedTransaction.maintained, standard]
      simp only [same]
      exact (tracedKept (applyGuaranteedStanding first)).append trace
    · exact absurd rfl other

end LedgerState

open LedgerState

variable {told : List MaintenanceUpdate} {s t : LedgerState W}

theorem stepTraced (verified : taken.Verified S C)
    (ok : stepMaintaining S build state taken = .ok (next, told)) :
    Trace CounterMove state told next := by
  cases taken with
  | transaction vt context =>
    obtain ⟨⟨reached, result⟩, applied, last⟩ := bindOk.mp ok
    cases last
    exact applyTraced (verifiedNormal verified) applied
  | system tx tblock =>
    obtain ⟨reached, moved, last⟩ := bindOk.mp ok
    cases last
    obtain applied | rfl := systemStepOk moved
    · exact tracedKept (standingContract (applySystemTxFrame applied).contract)
    · exact .done _
  | postBlock tblock fullness =>
    cases ok
    refine tracedKept (standingContract ?_)
    rw [LedgerState.postBlockUpdate]
    split <;> rfl

theorem runTraced {steps : List (Step W)} (verified : ∀ taken ∈ steps, taken.Verified S C)
    {start final : LedgerState W}
    (ran : tellEach (stepMaintaining S build) steps start = .ok (final, told)) :
    Trace CounterMove start told final := by
  induction steps generalizing start told with
  | nil =>
    obtain ⟨rfl, rfl⟩ := tellEachNil ran
    exact .done _
  | cons taken steps ih =>
    obtain ⟨middle, first, rest, stepped, others, rfl⟩ := tellEachCons ran
    exact (stepTraced (verified taken mem_cons_self) stepped).append
      (ih (forall_mem_cons.mp verified).2 others)

def CounterAt (state : LedgerState W) (address : ContractAddress) (counter : U32) : Prop :=
  ∃ cstate, state.contract.lookup address = some cstate ∧
    cstate.maintenanceAuthority.counter = counter

theorem nextCounter (counter : U32) : counter ≤ saturatingAdd counter 1 ∧
      (counter < saturatingAdd counter 1 ↔ counter ≠ BitVec.allOnes 32) := by
  have full : counter = BitVec.allOnes 32 ↔ counter.toNat = 2 ^ 32 - 1 := by
    rw [← BitVec.toNat_inj, BitVec.toNat_allOnes]
  have next := saturatingAddToNat counter 1
  have one : (1 : U32).toNat = 1 := rfl
  rw [BitVec.le_def, BitVec.lt_def, next, one, ne_eq, full]
  omega

variable {counter : U32}

theorem moveMonotone (move : CounterMove s told t) (here : CounterAt s address counter) :
    ∃ later, CounterAt t address later ∧ counter ≤ later := by
  obtain ⟨cstate, found, rfl⟩ := here
  cases move with
  | kept standing =>
    obtain ⟨later, there, same⟩ := standing address cstate found
    exact ⟨_, ⟨later, there, congrArg _ same⟩, BitVec.le_refl _⟩
  | @raised upd before updated present counted left =>
    by_cases same : address = upd.address
    · subst same
      cases present.symm.trans found
      refine ⟨_, ⟨updated, lookup_insert _, left⟩, ?_⟩
      rw [counted]
      exact (nextCounter _).1
    · exact ⟨_, ⟨cstate, (lookup_insert_ne same).trans found, rfl⟩, BitVec.le_refl _⟩

section

variable (trace : Trace CounterMove s told t)

include trace

theorem traceMonotone (here : CounterAt s address counter) :
    ∃ later, CounterAt t address later ∧ counter ≤ later := by
  induction trace generalizing counter with
  | done s => exact ⟨counter, here, BitVec.le_refl _⟩
  | next first rest ih =>
    obtain ⟨middle, there, less⟩ := moveMonotone first here
    obtain ⟨last, final, more⟩ := ih there
    exact ⟨last, final, BitVec.le_trans less more⟩

theorem traceCounters (mem : upd ∈ told) (here : CounterAt s upd.address counter) :
    counter ≤ upd.counter := by
  induction trace generalizing counter with
  | done s => cases mem
  | @next s middle final first more move rest ih =>
    rcases mem_append.mp mem with now | later
    · cases move with
      | kept => cases now
      | raised present counted left =>
        cases mem_singleton.mp now
        obtain ⟨cstate, found, rfl⟩ := here
        cases present.symm.trans found
        rw [counted]
        exact BitVec.le_refl _
    · obtain ⟨next, there, less⟩ := moveMonotone move here
      exact BitVec.le_trans less (ih later there)

theorem traceOnce (unsaturated : ∀ upd ∈ told, upd.counter ≠ BitVec.allOnes 32) :
    (told.map identity).Nodup := by
  induction trace with
  | done s => exact nodup_nil
  | @next s middle final first more move rest ih =>
    have later := ih fun upd mem => unsaturated upd (mem_append_right _ mem)
    cases move with
    | kept => exact later
    | @raised upd cstate updated present counted left =>
      refine nodup_cons.mpr ⟨fun again => ?_, later⟩
      obtain ⟨other, mem, same⟩ := mem_map.mp again
      simp only [identity, Prod.mk.injEq] at same
      have risen : CounterAt { s with contract := s.contract.insert upd.address updated } other.address
          (saturatingAdd upd.counter 1) := by
        rw [same.1]
        exact ⟨updated, lookup_insert _, left⟩
      have bound := traceCounters rest mem risen
      rw [same.2.1] at bound
      have strict := (nextCounter upd.counter).2.mpr (unsaturated upd (by simp))
      exact absurd strict (BitVec.not_lt.mpr bound)

theorem traceSplit {before after : List MaintenanceUpdate} (shape : told = before ++ upd :: after) :
    ∃ found left, Trace CounterMove s before found ∧ CounterMove found [upd] left ∧
      Trace CounterMove left after t := by
  induction trace generalizing before with
  | done s => exact absurd shape.symm (by simp)
  | @next s middle final first more move rest ih =>
    cases move with
    | kept standing =>
      obtain ⟨found, left, early, now, late⟩ := ih shape
      exact ⟨found, left, .next (.kept standing) early, now, late⟩
    | raised present counted left =>
      cases before with
      | nil =>
        cases shape
        exact ⟨s, _, .done s, .raised present counted left, rest⟩
      | cons head before =>
        cases shape
        obtain ⟨found, left', early, now, late⟩ := ih rfl
        exact ⟨found, left', .next (.raised present counted left) early, now, late⟩

end

/- A run never lowers a counter, an update raises the counter of its contract unless it has run
out, and it takes effect once where no counter has run out. -/
theorem runCounters {steps : List (Step W)} (verified : ∀ taken ∈ steps, taken.Verified S C)
    {start final : LedgerState W} {told : List MaintenanceUpdate}
    (ran : tellEach (stepMaintaining S build) steps start = .ok (final, told)) :
    (∀ address counter, CounterAt start address counter →
      ∃ later, CounterAt final address later ∧ counter ≤ later) ∧
    (∀ before upd after, told = before ++ upd :: after → ∃ found left next,
      Trace CounterMove start before found ∧ CounterAt found upd.address upd.counter ∧
      CounterMove found [upd] left ∧ CounterAt left upd.address next ∧
      (upd.counter < next ↔ upd.counter ≠ BitVec.allOnes 32) ∧ Trace CounterMove left after final) ∧
    ((∀ upd ∈ told, upd.counter ≠ BitVec.allOnes 32) →
      (told.map identity).Nodup) := by
  have trace := runTraced verified ran
  refine ⟨fun address counter here => traceMonotone trace here, fun before upd after shape => ?_,
    traceOnce trace⟩
  obtain ⟨found, left, early, now, late⟩ := traceSplit trace shape
  cases now with
  | @raised _ cstate updated present counted next =>
    exact ⟨found, _, _, early, ⟨cstate, present, counted⟩, .raised present counted next,
      ⟨updated, lookup_insert _, next⟩, (nextCounter upd.counter).2, late⟩

def handOverRun : LedgerState sampleComponents × List MaintenanceUpdate :=
  value (tellEach (stepMaintaining sampleServices .debug)
    [.transaction handOverVerified sampleContext] sampleDeployed) (by decide +kernel)

theorem handOverOnce : handOverRun.2 = [handOver, afterHandOver] ∧
    (handOverRun.2.map identity).Nodup ∧
    ∃ later, CounterAt handOverRun.1 sampleContract later ∧ 0 ≤ later := by
  have verified : ∀ taken ∈ [Step.transaction handOverVerified sampleContext],
      taken.Verified sampleServices sampleChecks := by
    intro taken mem
    rw [mem_singleton.mp mem]
    exact ⟨_, _, _, _, _, handOverAccepted⟩
  have ran : tellEach (stepMaintaining sampleServices .debug)
      [.transaction handOverVerified sampleContext] sampleDeployed =
        .ok handOverRun := valueOk _
  obtain ⟨monotone, -, once⟩ := runCounters verified ran
  have told : handOverRun.2 = [handOver, afterHandOver] := by decide +kernel
  have unsaturated : ∀ upd ∈ handOverRun.2, upd.counter ≠ BitVec.allOnes 32 := by
    rw [told]
    decide
  refine ⟨told, once unsaturated, monotone sampleContract 0 ?_⟩
  cases found : sampleDeployed.contract.lookup sampleContract with
  | none => exact absurd found (by decide +kernel)
  | some cstate =>
    have counter : (sampleDeployed.contract.lookup sampleContract).map
      (fun c => c.maintenanceAuthority.counter) = some 0 := by decide +kernel
    rw [found] at counter
    exact ⟨cstate, found, Option.some.inj counter⟩

def sampleSaturated : LedgerState sampleComponents :=
  let contract : ContractState sampleComponents := ⟨(), ∅, ⟨[.schnorr [1]], 1, BitVec.allOnes 32⟩, ∅⟩
  { sampleDeployed with contract := singleton sampleContract contract }

def lastUpdate : MaintenanceUpdate :=
  ⟨sampleContract, [.replaceAuthority ⟨[.schnorr [1]], 1, BitVec.allOnes 32⟩], BitVec.allOnes 32,
    [(0, .schnorr [1])]⟩

def lastVerified (ttl : Timestamp) (ok : (accept sampleSaturated
    (contractTransaction ttl [.maintain lastUpdate])).isOk = true) :
    VerifiedTransaction sampleComponents :=
  value (accept sampleSaturated (contractTransaction ttl [.maintain lastUpdate])) ok

theorem saturatedTwice :
    (tellEach (stepMaintaining sampleServices .debug)
      [.transaction (lastVerified 7 (by decide +kernel)) sampleContext,
        .transaction (lastVerified 8 (by decide +kernel)) sampleContext] sampleSaturated).map
      (fun final => (final.2, (final.1.contract.lookup sampleContract).map
        fun c => c.maintenanceAuthority.counter)) =
      .ok ([lastUpdate, lastUpdate], some (BitVec.allOnes 32)) := by
  decide +kernel

end MidnightLedger.Ledger

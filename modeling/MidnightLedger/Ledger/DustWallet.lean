import MidnightLedger.Ledger.Emission

/-! The local state of a Dust wallet (`DustLocalState` in ledger/src/dust.rs): building a spend,
dropping what has run out, replaying the events of the ledger, and the value of an output over
time. The proof of a spend is left out. -/
namespace MidnightLedger.Ledger
open ByteString Maps Words Loops AList

structure DustSecretKey where
  field : Fr
  deriving DecidableEq, Repr

structure DustHashes where
  publicKey : DustSecretKey → DustPublicKey
  dustNonce : InitialNonce → U32 → DustSecretKey → Fr
  nullifier : U128 → DustSecretKey → Fr → Timestamp → DustNullifier

structure DustOutput where
  initialValue : U128
  owner : DustPublicKey
  nonce : Fr
  seq : U32
  ctime : Timestamp
  deriving DecidableEq, Repr

def elapsed (start stop : Timestamp) : U128 := BitVec.ofNat 128 (stop.toNat - start.toNat)

namespace DustOutput

def updatedValue (output : DustOutput) (genInfo : DustGenerationInfo) (now : Timestamp)
    (params : DustParameters) : U128 :=
  let vfull := saturatingMul genInfo.value (params.nightDustRatio.setWidth 128)
  let rate := saturatingMul genInfo.value (params.generationDecayRate.setWidth 128)
  let tend := if genInfo.dtime ≤ now then genInfo.dtime else now
  let unchecked := saturatingAdd (saturatingMul (elapsed output.ctime tend) rate) output.initialValue
  let full := if unchecked ≤ vfull then unchecked else vfull
  saturatingSub full (saturatingMul (elapsed genInfo.dtime now) rate)

end DustOutput

namespace QualifiedDustOutput

def output (utxo : QualifiedDustOutput) : DustOutput :=
  ⟨utxo.initialValue, utxo.owner, utxo.nonce, utxo.seq, utxo.ctime⟩

def commitment {W : Components} (S : Services W) (utxo : QualifiedDustOutput) : DustCommitment :=
  S.dustCommitment utxo.initialValue utxo.owner utxo.nonce utxo.ctime

def nullifier (D : DustHashes) (utxo : QualifiedDustOutput) (sk : DustSecretKey) : DustNullifier :=
  D.nullifier utxo.initialValue sk utxo.nonce utxo.ctime

def successorUtxo {ε : Type} (D : DustHashes) (build : Build) (sk : DustSecretKey)
    (utxo : QualifiedDustOutput) (now : Timestamp) (subtractFee : U128) (newCommitmentIndex : Nat)
    (genInfo : DustGenerationInfo) (params : DustParameters) : Outcome ε QualifiedDustOutput := do
  let vPreSpend := utxo.output.updatedValue genInfo now params
  let seq ← plainAdd build utxo.seq 1
  .ok {
    backingNight := utxo.backingNight
    ctime := now
    initialValue := saturatingSub vPreSpend subtractFee
    seq := seq
    nonce := D.dustNonce utxo.backingNight seq sk
    owner := utxo.owner
    mtIndex := newCommitmentIndex }

end QualifiedDustOutput

structure DustWalletUtxoState where
  utxo : QualifiedDustOutput
  pendingUntil : Option Timestamp
  deriving DecidableEq, Repr

structure DustLocalState where
  generatingTree : MerkleTrees.Tree HashOutput Fr DustGenerationInfo dustGenerationTreeDepth
  generatingTreeFirstFree : Nat
  commitmentTree : MerkleTrees.Tree HashOutput Fr Unit dustCommitmentTreeDepth
  commitmentTreeFirstFree : Nat
  nightIndices : Map InitialNonce Nat
  dustUtxos : Map DustNullifier DustWalletUtxoState
  syncTime : Timestamp
  params : DustParameters

inductive DustSpendError where
  | backingNightNotFound (utxo : QualifiedDustOutput)
  | notEnoughDust (available required : U128)
  | dustUtxoNotTracked (utxo : QualifiedDustOutput)
  | merkleTreeNotRehashed (treeName : String)
  deriving DecidableEq, Repr

structure DustStateChanges where
  receivedUtxos : List QualifiedDustOutput
  spentUtxos : List QualifiedDustOutput
  source : HashOutput
  deriving DecidableEq, Repr

def addDustChange (changes : List DustStateChanges) (change : DustStateChanges) :
    List DustStateChanges :=
  match changes.getLast? with
  | some last =>
    if last.source = change.source then
      changes.dropLast ++ [⟨last.receivedUtxos ++ change.receivedUtxos,
        last.spentUtxos ++ change.spentUtxos, last.source⟩]
    else changes ++ [change]
  | none => changes ++ [change]

def maybeAddDustChange (changes : List DustStateChanges) :
    Option DustStateChanges → List DustStateChanges
  | some change => addDustChange changes change
  | none => changes

namespace DustLocalState

def new (params : DustParameters) : DustLocalState where
  generatingTree := .blank dustGenerationTreeDepth
  generatingTreeFirstFree := 0
  commitmentTree := .blank dustCommitmentTreeDepth
  commitmentTreeFirstFree := 0
  nightIndices := ∅
  dustUtxos := ∅
  syncTime := 0
  params := params

def generationInfo (state : DustLocalState) (utxo : QualifiedDustOutput) :
    Option DustGenerationInfo := do
  let genIdx ← state.nightIndices.lookup utxo.backingNight
  let leaf ← state.generatingTree.index _ genIdx
  some leaf.2

section

variable {W : Components} {L : Type} (S : Services W) (H : TreeHashing)
  (D : DustHashes) (build : Build) (sk : DustSecretKey)

def needPath {α : Type} (e : DustSpendError) (path : Outcome Unit α) : Outcome DustSpendError α :=
  mapFault (fun _ => e) path

def spend (state : DustLocalState) (utxo : QualifiedDustOutput) (vFee : U128) (ctime : Timestamp) :
    Outcome DustSpendError (DustLocalState × DustSpend) := do
  let oldNullifier := utxo.nullifier D sk
  let notFound : DustSpendError := .backingNightNotFound utxo
  let genIdx ← lift id (okOr notFound (state.nightIndices.lookup utxo.backingNight))
  let leaf ← lift id (okOr notFound (state.generatingTree.index _ genIdx))
  let genInfo := leaf.2
  let _ ← needPath notFound (state.generatingTree.pathForLeaf H genIdx)
  let _ ← needPath (.dustUtxoNotTracked utxo) (state.commitmentTree.pathForLeaf H utxo.mtIndex)
  let vNew := utxo.output.updatedValue genInfo ctime state.params
  if vNew < vFee then reject (.notEnoughDust vNew vFee)
  else do
    let seq ← plainAdd build utxo.seq 1
    let newCommitment := S.dustCommitment (vNew - vFee) utxo.owner
      (D.dustNonce utxo.backingNight seq sk) ctime
    let entry ← lift id (okOr (.dustUtxoNotTracked utxo) (state.dustUtxos.lookup oldNullifier))
    let pending := { entry with
      pendingUntil := some (Timestamp.add ctime state.params.dustGracePeriod) }
    let _ ← lift id (okOr (.merkleTreeNotRehashed "dust commitment") (state.commitmentTree.root H))
    let _ ← lift id
      (okOr (.merkleTreeNotRehashed "dust generation info") (state.generatingTree.root H))
    .ok ({ state with dustUtxos := state.dustUtxos.insert oldNullifier pending },
      ⟨vFee, oldNullifier, newCommitment⟩)

def surviving (state : DustLocalState) (time : Timestamp) :
    List (DustNullifier × DustWalletUtxoState × Nat) :=
  state.dustUtxos.entries.filterMap fun entry => do
    let held := entry.2
    let genIdx ← state.nightIndices.lookup held.utxo.backingNight
    let leaf ← state.generatingTree.index _ genIdx
    let vNew := held.utxo.output.updatedValue leaf.2 time state.params
    let pendingUntil := held.pendingUntil.filter fun ptime => ¬ ptime ≤ time
    if vNew = 0 ∧ held.utxo.ctime < time then none
    else some (entry.1, { held with pendingUntil := pendingUntil }, genIdx)

def processTtls (state : DustLocalState) (time : Timestamp) : DustLocalState :=
  let kept := state.surviving time
  { state with
    dustUtxos := kept.foldl (fun utxos entry => utxos.insert entry.1 entry.2.1) ∅
    nightIndices := kept.foldl
      (fun indices entry => indices.insert entry.2.1.utxo.backingNight entry.2.2) ∅ }

def appendGeneration (state : DustLocalState) (idx : Nat) (info : DustGenerationInfo) :
    Outcome EventReplayError DustLocalState :=
  if idx ≠ state.generatingTreeFirstFree then
    reject (.nonLinearInsertion state.generatingTreeFirstFree idx "dust generation")
  else do
    let tree ← lift .merkleTreeError
      (state.generatingTree.tryUpdateHash _ idx (S.generationHash info) info)
    .ok { state with
      generatingTree := tree
      generatingTreeFirstFree := state.generatingTreeFirstFree + 1 }

def appendCommitment (state : DustLocalState) (idx : Nat) (commitment : DustCommitment) :
    Outcome EventReplayError DustLocalState :=
  if idx ≠ state.commitmentTreeFirstFree then
    reject (.nonLinearInsertion state.commitmentTreeFirstFree idx "dust commitment")
  else do
    let tree ← lift .merkleTreeError
      (state.commitmentTree.tryUpdateHash _ idx (S.commitmentHash commitment) ())
    .ok { state with
      commitmentTree := tree
      commitmentTreeFirstFree := state.commitmentTreeFirstFree + 1 }

def forgetCommitment (state : DustLocalState) (idx : Nat) : DustLocalState :=
  { state with commitmentTree := state.commitmentTree.collapse H _ idx idx }

def syncTo (state : DustLocalState) (blockTime : Timestamp) :
    Outcome EventReplayError DustLocalState :=
  if blockTime < state.syncTime then reject (.eventForPastTime state.syncTime blockTime)
  else .ok { state with syncTime := blockTime }

/- The generation entries of others are collapsed when all events are in: until then they may
be needed for updates. -/
def replayInitialUtxo (source : HashOutput) (state : DustLocalState) (output : QualifiedDustOutput)
    (generation : DustGenerationInfo) (generationIndex : Nat) (blockTime : Timestamp) :
    Outcome EventReplayError (DustLocalState × Option DustStateChanges × List Nat) := do
  let generated ← state.appendGeneration S generationIndex generation
  let committed ← generated.appendCommitment S output.mtIndex (output.commitment S)
  if D.publicKey sk = output.owner then do
    let received ← { committed with
      nightIndices := committed.nightIndices.insert output.backingNight generationIndex
      dustUtxos := committed.dustUtxos.insert (output.nullifier D sk) ⟨output, none⟩
      }.syncTo blockTime
    .ok (received, some ⟨[output], [], source⟩, [])
  else do
    let passed ← (committed.forgetCommitment H output.mtIndex).syncTo blockTime
    .ok (passed, none, [generationIndex])

def replaySpent (source : HashOutput) (state : DustLocalState) (spent : QualifiedDustOutput)
    (nullifier : DustNullifier) (vFee : U128) (declaredTime : Timestamp) (idx : Nat) :
    Outcome EventReplayError (DustLocalState × Option DustStateChanges) :=
  match state.generationInfo spent with
  | none => .ok (state, none)
  | some genInfo => do
    let successor ←
      spent.successorUtxo D build sk declaredTime vFee idx genInfo state.params
    let others := state.dustUtxos.erase nullifier
    .ok ({ state with dustUtxos := others.insert (successor.nullifier D sk) ⟨successor, none⟩ },
      some ⟨[successor], [spent], source⟩)

def replaySpendProcessed (source : HashOutput) (state : DustLocalState)
    (commitment : DustCommitment) (idx : Nat) (nullifier : DustNullifier) (vFee : U128)
    (declaredTime blockTime : Timestamp) :
    Outcome EventReplayError (DustLocalState × Option DustStateChanges × List Nat) := do
  let committed ← state.appendCommitment S idx commitment
  match committed.dustUtxos.lookup nullifier with
  | some held => do
    let (next, change) ←
      committed.replaySpent D build sk source held.utxo nullifier vFee declaredTime idx
    let passed ← next.syncTo blockTime
    .ok (passed, change, [])
  | none => do
    let passed ← (committed.forgetCommitment H idx).syncTo blockTime
    .ok (passed, none, [])

def replayDtimeUpdate (state : DustLocalState) (update : TreeInsertionPath DustGenerationInfo)
    (blockTime : Timestamp) :
    Outcome EventReplayError (DustLocalState × Option DustStateChanges × List Nat) := do
  let _ ← (if update.path.all (fun entry => entry.1.isSome) then .ok ()
    else debugAssertFalse build () : Outcome EventReplayError Unit)
  let tree ← lift id (okOr (.merkleTreeError .badUpdatePath)
    (state.generatingTree.updateFromEvidence H update.leaf update.path))
  let passed ← { state with generatingTree := tree }.syncTo blockTime
  .ok (passed, none, [])

def replayEvent (state : DustLocalState) (event : LedgerEvent W L) :
    Outcome EventReplayError (DustLocalState × Option DustStateChanges × List Nat) :=
  match event.content with
  | .dustInitialUtxo output generation generationIndex blockTime =>
    state.replayInitialUtxo S H D sk event.source.transactionHash output generation generationIndex
      blockTime
  | .paramChange parameters => .ok ({ state with params := parameters.dust }, none, [])
  | .dustSpendProcessed commitment idx nullifier vFee declaredTime blockTime =>
    state.replaySpendProcessed S H D build sk event.source.transactionHash commitment idx nullifier
      vFee declaredTime blockTime
  | .dustGenerationDtimeUpdate update blockTime => state.replayDtimeUpdate H build update blockTime
  | _ => .ok (state, none, [])

structure Replay where
  result : DustLocalState
  changes : List DustStateChanges
  genCollapses : List Nat

def replayStep (acc : Replay) (event : LedgerEvent W L) : Outcome EventReplayError Replay := do
  let (result, change, collapses) ← acc.result.replayEvent S H D build sk event
  .ok ⟨result, maybeAddDustChange acc.changes change, acc.genCollapses ++ collapses⟩

def forgetGenerations (state : DustLocalState) (collapses : List Nat) : DustLocalState :=
  { state with
    generatingTree := collapses.foldl (fun tree idx => tree.collapse H _ idx idx)
      state.generatingTree }

def rehashed (state : DustLocalState) : DustLocalState :=
  { state with
    commitmentTree := state.commitmentTree.rehash H
    generatingTree := state.generatingTree.rehash H }

def replayEventsWithChanges (state : DustLocalState) (events : List (LedgerEvent W L)) :
    Outcome EventReplayError (DustLocalState × List DustStateChanges) := do
  let res ← events.foldlM (replayStep S H D build sk) ⟨state, [], []⟩
  .ok ((res.result.forgetGenerations H res.genCollapses).rehashed H, res.changes)

def replayEvents (state : DustLocalState) (events : List (LedgerEvent W L)) :
    Outcome EventReplayError DustLocalState :=
  (state.replayEventsWithChanges S H D build sk events).map Prod.fst

end

end DustLocalState

open List Option

namespace DustGenerationInfo

def rate (info : DustGenerationInfo) (params : DustParameters) : Nat :=
  (saturatingMul info.value (params.generationDecayRate.setWidth 128)).toNat

def capacity (info : DustGenerationInfo) (params : DustParameters) : Nat :=
  (saturatingMul info.value (params.nightDustRatio.setWidth 128)).toNat

def peak (info : DustGenerationInfo) (params : DustParameters) (output : DustOutput) : Nat :=
  min (output.initialValue.toNat + (info.dtime.toNat - output.ctime.toNat) * info.rate params)
    (info.capacity params)

end DustGenerationInfo

theorem elapsedToNat (start stop : Timestamp) :
    (elapsed start stop).toNat = stop.toNat - start.toNat := by
  rw [elapsed, BitVec.toNat_ofNat]
  omega

theorem updatedValueToNat (output : DustOutput) (info : DustGenerationInfo) (now : Timestamp)
    (params : DustParameters) :
    (output.updatedValue info now params).toNat = min (output.initialValue.toNat +
          (min info.dtime.toNat now.toNat - output.ctime.toNat) * info.rate params)
        (info.capacity params) - (now.toNat - info.dtime.toNat) * info.rate params := by
  have stopped : (if info.dtime ≤ now then info.dtime else now).toNat =
      min info.dtime.toNat now.toNat := by
    rw [Nat.min_def, apply_ite BitVec.toNat]
    rfl
  have capped (a b : U128) : (if a ≤ b then a else b).toNat = min a.toNat b.toNat := by
    rw [Nat.min_def, apply_ite BitVec.toNat]
    rfl
  simp only [DustOutput.updatedValue, DustGenerationInfo.rate, DustGenerationInfo.capacity]
  generalize saturatingMul info.value (params.generationDecayRate.setWidth 128) = rate
  generalize saturatingMul info.value (params.nightDustRatio.setWidth 128) = capacity
  rw [saturatingSubToNat, capped, saturatingAddToNat, saturatingMulToNat, saturatingMulToNat,
    elapsedToNat, elapsedToNat, stopped]
  omega

/- Spending without a fee keeps the later values exactly if the backing Night was not spent
before, or nothing is generated, or all is lost at the later time. -/
theorem successorValueIff {ε : Type} {D : DustHashes} {build : Build} {sk : DustSecretKey}
    {utxo next : QualifiedDustOutput} {spent now : Timestamp} {index : Nat}
    {info : DustGenerationInfo} {params : DustParameters} (created : utxo.ctime ≤ spent)
    (later : spent ≤ now)
    (ok : (utxo.successorUtxo D build sk spent 0 index info params :
      Outcome ε QualifiedDustOutput) = .ok next) :
    next.output.updatedValue info now params = utxo.output.updatedValue info now params ↔
      spent ≤ info.dtime ∨ info.rate params = 0 ∨
        info.peak params utxo.output ≤ (now.toNat - info.dtime.toNat) * info.rate params := by
  obtain ⟨seq, -, rfl⟩ := pureOk.mp ok
  have first : utxo.ctime.toNat ≤ spent.toNat := created
  have second : spent.toNat ≤ now.toNat := later
  have dtime : spent ≤ info.dtime ↔ spent.toNat ≤ info.dtime.toNat := Iff.rfl
  rw [BitVec.toNat_inj.symm, updatedValueToNat, updatedValueToNat, dtime, DustGenerationInfo.peak]
  have free : (0 : U128).toNat = 0 := rfl
  simp only [QualifiedDustOutput.output, saturatingSubToNat, free, Nat.sub_zero]
  rw [updatedValueToNat]
  generalize info.rate params = rate
  generalize info.capacity params = capacity
  dsimp only
  by_cases alive : spent.toNat ≤ info.dtime.toNat
  · have parts : (spent.toNat - utxo.ctime.toNat) * rate +
        (min info.dtime.toNat now.toNat - spent.toNat) * rate =
        (min info.dtime.toNat now.toNat - utxo.ctime.toNat) * rate := by
      rw [← Nat.add_mul]
      congr 1
      omega
    rw [Nat.min_eq_right alive, Nat.sub_eq_zero_of_le alive]
    refine iff_of_true ?_ (.inl alive)
    omega
  · rw [Nat.min_eq_left (by omega : info.dtime.toNat ≤ spent.toNat),
      Nat.min_eq_left (by omega : info.dtime.toNat ≤ now.toNat),
      Nat.sub_eq_zero_of_le (by omega : info.dtime.toNat ≤ spent.toNat)]
    have lost : (spent.toNat - info.dtime.toNat) * rate = 0 ↔ rate = 0 := by
      rw [Nat.mul_eq_zero]
      exact or_iff_right (by omega)
    omega

theorem zeroStays {output : DustOutput} {info : DustGenerationInfo} {time later : Timestamp}
    {params : DustParameters} (created : output.ctime < time) (order : time ≤ later)
    (zero : output.updatedValue info time params = 0) :
    output.updatedValue info later params = 0 := by
  have first : output.ctime.toNat < time.toNat := created
  have second : time.toNat ≤ later.toNat := order
  have none : (0 : U128).toNat = 0 := rfl
  rw [BitVec.toNat_inj.symm, updatedValueToNat, none] at zero ⊢
  generalize info.rate params = rate at zero ⊢
  generalize info.capacity params = capacity at zero ⊢
  by_cases alive : time.toNat ≤ info.dtime.toNat
  · have lost := Nat.sub_eq_zero_of_le alive
    rw [lost, Nat.zero_mul, Nat.min_eq_right alive] at zero
    by_cases cap : capacity = 0
    · omega
    · have nothing : (time.toNat - output.ctime.toNat) * rate = 0 := by omega
      obtain stuck | rfl := Nat.mul_eq_zero.mp nothing
      · omega
      · rw [Nat.mul_zero] at zero ⊢
        omega
  · have decay : (time.toNat - info.dtime.toNat) * rate ≤ (later.toNat - info.dtime.toNat) * rate :=
      Nat.mul_le_mul_right _ (by omega)
    rw [Nat.min_eq_left (by omega : info.dtime.toNat ≤ time.toNat)] at zero
    rw [Nat.min_eq_left (by omega : info.dtime.toNat ≤ later.toNat)]
    omega

namespace DustLocalState

variable {state : DustLocalState} {time later : Timestamp}

def utxos (state : DustLocalState) : List QualifiedDustOutput :=
  state.dustUtxos.entries.filterMap fun entry =>
    if entry.2.pendingUntil.isNone then some entry.2.utxo else none

def valueAt (state : DustLocalState) (time : Timestamp) (utxo : QualifiedDustOutput) : Option U128 :=
  (state.generationInfo utxo).map fun info => utxo.output.updatedValue info time state.params

def walletBalance {ε : Type} (build : Build) (state : DustLocalState) (time : Timestamp) :
    Outcome ε U128 :=
  (state.utxos.filterMap (state.valueAt time)).foldlM (plainAdd build) 0

def released (state : DustLocalState) (time later : Timestamp) : List U128 :=
  state.dustUtxos.entries.filterMap fun entry =>
    if entry.2.pendingUntil.any (· ≤ time) then state.valueAt later entry.2.utxo else none

structure Same (state other : DustLocalState) : Prop where
  utxos : ∀ nullifier, state.dustUtxos.lookup nullifier = other.dustUtxos.lookup nullifier
  indices : ∀ nonce, state.nightIndices.lookup nonce = other.nightIndices.lookup nonce
  rest : { state with dustUtxos := ∅, nightIndices := ∅ } =
    { other with dustUtxos := ∅, nightIndices := ∅ }

structure Keeps (state : DustLocalState) (time : Timestamp) (utxo : QualifiedDustOutput)
    (genIdx : Nat) : Prop where
  indexed : state.nightIndices.lookup utxo.backingNight = some genIdx
  worth : ∃ leaf, state.generatingTree.index _ genIdx = some leaf ∧
    ¬ (utxo.output.updatedValue leaf.2 time state.params = 0 ∧ utxo.ctime < time)

def ripened (time : Timestamp) (held : DustWalletUtxoState) : DustWalletUtxoState :=
  { held with pendingUntil := held.pendingUntil.filter fun ptime => ¬ ptime ≤ time }

theorem memSurviving {entry : DustNullifier × DustWalletUtxoState × Nat} :
    entry ∈ state.surviving time ↔ ∃ held, state.dustUtxos.lookup entry.1 = some held ∧
      state.Keeps time held.utxo entry.2.2 ∧ entry.2.1 = ripened time held := by
  obtain ⟨nullifier, after, genIdx⟩ := entry
  rw [surviving, mem_filterMap]
  constructor
  · rintro ⟨⟨name, held⟩, inside, kept⟩
    obtain ⟨index, indexed, rest⟩ := bind_eq_some_iff.mp kept
    obtain ⟨leaf, found, last⟩ := bind_eq_some_iff.mp rest
    dsimp only at last
    split at last <;> cases last
    rename_i worth
    exact ⟨held, mem_lookup_iff.mpr inside, ⟨indexed, leaf, found, worth⟩, rfl⟩
  · rintro ⟨held, there, ⟨indexed, leaf, found, worth⟩, rfl⟩
    refine ⟨⟨nullifier, held⟩, mem_lookup_iff.mp there, ?_⟩
    exact bind_eq_some_iff.mpr ⟨genIdx, indexed, bind_eq_some_iff.mpr ⟨leaf, found, if_neg worth⟩⟩

variable {nullifier : DustNullifier} {held : DustWalletUtxoState}

theorem processedUtxo {after : DustWalletUtxoState} :
    (state.processTtls time).dustUtxos.lookup nullifier = some after ↔
      ∃ held genIdx, state.dustUtxos.lookup nullifier = some held ∧
        state.Keeps time held.utxo genIdx ∧ after = ripened time held := by
  refine (lookupInserts ?_).trans ?_
  · rintro x first y second same
    obtain ⟨held, there, -, mine⟩ := memSurviving.mp first
    obtain ⟨other, found, -, theirs⟩ := memSurviving.mp second
    rw [same, found] at there
    cases there
    rw [mine, theirs]
  · constructor
    · rintro ⟨entry, mem, rfl, rfl⟩
      obtain ⟨held, there, keeps, same⟩ := memSurviving.mp mem
      exact ⟨held, entry.2.2, there, keeps, same⟩
    · rintro ⟨held, genIdx, there, keeps, rfl⟩
      exact ⟨(nullifier, ripened time held, genIdx), memSurviving.mpr ⟨held, there, keeps, rfl⟩,
        rfl, rfl⟩

variable {genIdx : Nat}

theorem processedIndex {nonce : InitialNonce} :
    (state.processTtls time).nightIndices.lookup nonce = some genIdx ↔
      ∃ nullifier held, state.dustUtxos.lookup nullifier = some held ∧
        state.Keeps time held.utxo genIdx ∧ held.utxo.backingNight = nonce := by
  refine (lookupInserts ?_).trans ?_
  · rintro x first y second same
    obtain ⟨held, -, keeps, mine⟩ := memSurviving.mp first
    obtain ⟨other, -, stays, theirs⟩ := memSurviving.mp second
    rw [mine, theirs] at same
    have one : held.utxo.backingNight = other.utxo.backingNight := same
    exact some.inj ((one ▸ keeps.indexed).symm.trans stays.indexed)
  · constructor
    · rintro ⟨entry, mem, same, rfl⟩
      obtain ⟨held, there, keeps, after⟩ := memSurviving.mp mem
      rw [after] at same
      exact ⟨entry.1, held, there, keeps, same⟩
    · rintro ⟨nullifier, held, there, keeps, rfl⟩
      exact ⟨(nullifier, ripened time held, genIdx), memSurviving.mpr ⟨held, there, keeps, rfl⟩,
        rfl, rfl⟩

theorem processedIndexKept (there : state.dustUtxos.lookup nullifier = some held)
    (keeps : state.Keeps time held.utxo genIdx) :
    (state.processTtls time).nightIndices.lookup held.utxo.backingNight = some genIdx :=
  processedIndex.mpr ⟨nullifier, held, there, keeps, rfl⟩

theorem Keeps.earlier {utxo : QualifiedDustOutput} (order : time ≤ later)
    (keeps : state.Keeps later utxo genIdx) : state.Keeps time utxo genIdx := by
  obtain ⟨indexed, leaf, found, worth⟩ := keeps
  refine ⟨indexed, leaf, found, fun ⟨zero, created⟩ => worth ⟨zeroStays created order zero, ?_⟩⟩
  have first : utxo.ctime.toNat < time.toNat := created
  have second : time.toNat ≤ later.toNat := order
  exact (by omega : utxo.ctime.toNat < later.toNat)

theorem ripenedTwice (order : time ≤ later) (held : DustWalletUtxoState) :
    ripened later (ripened time held) = ripened later held := by
  obtain ⟨utxo, _ | deadline⟩ := held
  · rfl
  · have second : time.toNat ≤ later.toNat := order
    simp only [ripened, DustWalletUtxoState.mk.injEq, true_and, Option.filter_filter]
    congr 1
    grind

theorem keepsProcessed {other : Nat} (there : state.dustUtxos.lookup nullifier = some held)
    (keeps : state.Keeps time held.utxo genIdx) :
    (state.processTtls time).Keeps later held.utxo other ↔ state.Keeps later held.utxo other := by
  have same := (processedIndexKept there keeps).trans keeps.indexed.symm
  exact ⟨fun after => ⟨same ▸ after.indexed, after.worth⟩,
    fun before => ⟨same.symm ▸ before.indexed, before.worth⟩⟩

theorem processTwice (order : time ≤ later) :
    Same ((state.processTtls time).processTtls later) (state.processTtls later) where
  utxos nullifier := by
    refine ext fun after => ?_
    rw [processedUtxo, processedUtxo]
    constructor
    · rintro ⟨held, genIdx, there, stays, rfl⟩
      obtain ⟨old, index, found, keeps, rfl⟩ := processedUtxo.mp there
      exact ⟨old, genIdx, found, (keepsProcessed found keeps).mp stays, ripenedTwice order old⟩
    · rintro ⟨held, genIdx, there, stays, rfl⟩
      have keeps := stays.earlier order
      exact ⟨ripened time held, genIdx, processedUtxo.mpr ⟨held, genIdx, there, keeps, rfl⟩,
        (keepsProcessed there keeps).mpr stays, (ripenedTwice order held).symm⟩
  indices nonce := by
    refine ext fun genIdx => ?_
    rw [processedIndex, processedIndex]
    constructor
    · rintro ⟨nullifier, held, there, stays, rfl⟩
      obtain ⟨old, index, found, keeps, rfl⟩ := processedUtxo.mp there
      exact ⟨nullifier, old, found, (keepsProcessed found keeps).mp stays, rfl⟩
    · rintro ⟨nullifier, held, there, stays, rfl⟩
      have keeps := stays.earlier order
      exact ⟨nullifier, ripened time held, processedUtxo.mpr ⟨held, genIdx, there, keeps, rfl⟩,
        (keepsProcessed there keeps).mpr stays, rfl⟩
  rest := rfl

theorem survivingDistinct : ((state.surviving time).map Prod.fst).Nodup := by
  have keys : state.dustUtxos.entries.Pairwise fun a b => a.1 ≠ b.1 :=
    pairwise_map.mp state.dustUtxos.keys_nodup
  refine pairwise_map.mpr (keys.filterMap _ fun a b apart x first y second => ?_)
  have named {e : Sigma fun _ : DustNullifier => DustWalletUtxoState}
      {x : DustNullifier × DustWalletUtxoState × Nat} (made : (do
        let genIdx ← state.nightIndices.lookup e.2.utxo.backingNight
        let leaf ← state.generatingTree.index _ genIdx
        if e.2.utxo.output.updatedValue leaf.2 time state.params = 0 ∧ e.2.utxo.ctime < time then none
        else some (e.1, ripened time e.2, genIdx)) = some x) : x.1 = e.1 := by
    obtain ⟨index, -, rest⟩ := bind_eq_some_iff.mp made
    obtain ⟨leaf, -, last⟩ := bind_eq_some_iff.mp rest
    split at last <;> cases last
    rfl
  rw [named first, named second]
  exact apart

def worth (state : DustLocalState) (time : Timestamp) (utxo : QualifiedDustOutput) : Nat :=
  ((state.valueAt time utxo).map BitVec.toNat).getD 0

theorem countedSum (state : DustLocalState) (time : Timestamp) :
    ((state.utxos.filterMap (state.valueAt time)).map BitVec.toNat).sum =
      (state.dustUtxos.entries.map fun entry =>
        if entry.2.pendingUntil.isNone then state.worth time entry.2.utxo else 0).sum := by
  rw [utxos, filterMap_filterMap, sumFilterMap]
  congr 1
  refine map_congr_left fun entry _ => ?_
  cases entry.2.pendingUntil <;> rfl

theorem releasedSum (state : DustLocalState) (time later : Timestamp) :
    ((state.released time later).map BitVec.toNat).sum = (state.dustUtxos.entries.map fun entry =>
        if entry.2.pendingUntil.any (· ≤ time) then state.worth later entry.2.utxo else 0).sum := by
  rw [released, sumFilterMap]
  congr 1
  refine map_congr_left fun entry _ => ?_
  split <;> rfl

theorem processedSum (order : time ≤ later) :
    (((state.processTtls time).utxos.filterMap ((state.processTtls time).valueAt later)).map
        BitVec.toNat).sum =
      ((state.utxos.filterMap (state.valueAt later) ++ state.released time later).map
        BitVec.toNat).sum := by
  have entries : (state.processTtls time).dustUtxos.entries =
      ((state.surviving time).map fun x => (⟨x.1, x.2.1⟩ : Sigma fun _ => _)).reverse := by
    have distinct : ((state.surviving time).map Prod.fst).Nodup := survivingDistinct
    have made := entriesInserts (fun x => x.2.1) distinct fun x _ => notMem_empty x.1
    exact made.trans (append_nil _)
  rw [map_append, sum_append, countedSum, countedSum, releasedSum, entries,
    map_reverse, sum_reverse, List.map_map, surviving, sumFilterMap, ← sum_map_add]
  congr 1
  refine map_congr_left fun entry mem => ?_
  obtain ⟨nullifier, held⟩ := entry
  have there := mem_lookup_iff.mpr mem
  dsimp only
  cases indexed : state.nightIndices.lookup held.utxo.backingNight with
  | none =>
    have nothing : state.worth later held.utxo = 0 := by
      rw [worth, valueAt, generationInfo, indexed]
      rfl
    simp [nothing]
  | some genIdx =>
    cases found : state.generatingTree.index _ genIdx with
    | none =>
      have nothing : state.worth later held.utxo = 0 := by
        rw [worth, valueAt, generationInfo, indexed]
        simp [found]
      simp [nothing, found]
    | some leaf =>
      have value : state.worth later held.utxo =
          (held.utxo.output.updatedValue leaf.2 later state.params).toNat := by
        rw [worth, valueAt, generationInfo, indexed]
        simp [found]
      by_cases gone : held.utxo.output.updatedValue leaf.2 time state.params = 0 ∧
          held.utxo.ctime < time
      · rw [zeroStays gone.2 order gone.1] at value
        simp [found, gone, value]
      · have same : (state.processTtls time).worth later held.utxo = state.worth later held.utxo := by
          rw [worth, valueAt, generationInfo, processedIndexKept there ⟨indexed, leaf, found, gone⟩,
            worth, valueAt, generationInfo, indexed]
          rfl
        simp only [bind_eq_bind, bind_some, found, if_neg gone, map_some,
          getD_some, Function.comp_apply, same]
        cases held.pendingUntil with
        | none => rfl
        | some deadline => by_cases come : deadline ≤ time <;> simp [come]

theorem processTtlsKeepsValue {ε : Type} (state : DustLocalState) (order : time ≤ later) :
    Same ((state.processTtls time).processTtls later) (state.processTtls later) ∧
    ∀ build : Build, (walletBalance build (state.processTtls time) later : Outcome ε U128) =
      (state.utxos.filterMap (state.valueAt later) ++ state.released time later).foldlM
        (plainAdd build) 0 := by
  refine ⟨processTwice order, fun build => ?_⟩
  rw [walletBalance, foldPlainAdd, foldPlainAdd, processedSum order]

end DustLocalState

def sampleDustHashes : DustHashes :=
  ⟨fun sk => ⟨sk.field⟩, fun _ seq sk => sk.field + Fr.ofNat seq.toNat, fun _ _ nonce _ => ⟨nonce⟩⟩

def dustSample : QualifiedDustOutput := ⟨100, ⟨0⟩, 0, 0, 0, ⟨0⟩, 0⟩

def nightSpent (dtime : Timestamp) : DustGenerationInfo := ⟨1, ⟨0⟩, ⟨0⟩, dtime⟩

def dustSampleParams : DustParameters := ⟨1000, 1, 0⟩

theorem aliveSuccessor : ∃ next, (dustSample.successorUtxo sampleDustHashes .release ⟨0⟩ 10 0 0
      (nightSpent 15) dustSampleParams : Outcome Unit QualifiedDustOutput) = .ok next ∧
    next.output.updatedValue (nightSpent 15) 20 dustSampleParams =
      dustSample.output.updatedValue (nightSpent 15) 20 dustSampleParams := by
  have made : (dustSample.successorUtxo sampleDustHashes .release ⟨0⟩ 10 0 0 (nightSpent 15)
      dustSampleParams : Outcome Unit QualifiedDustOutput) = .ok _ := rfl
  exact ⟨_, made, (successorValueIff (by decide) (by decide) made).mpr (.inl (by decide))⟩

theorem decayCountedTwice : ∃ next, (dustSample.successorUtxo sampleDustHashes .release ⟨0⟩ 10 0 0
      (nightSpent 0) dustSampleParams : Outcome Unit QualifiedDustOutput) = .ok next ∧
    dustSample.output.updatedValue (nightSpent 0) 20 dustSampleParams = 80 ∧
    next.output.updatedValue (nightSpent 0) 20 dustSampleParams = 70 :=
  ⟨_, rfl, by decide, by decide⟩

def nightSpentTree : MerkleTrees.Tree HashOutput Fr DustGenerationInfo dustGenerationTreeDepth :=
  value ((MerkleTrees.Tree.blank dustGenerationTreeDepth).tryUpdateHash _ 0 0 (nightSpent 15))
    (by decide +kernel)

/- One output is pending until 3, the other one can be spent. -/
def dustSampleWallet : DustLocalState where
  generatingTree := nightSpentTree
  generatingTreeFirstFree := 1
  commitmentTree := .blank dustCommitmentTreeDepth
  commitmentTreeFirstFree := 0
  nightIndices := AList.singleton ⟨0⟩ 0
  dustUtxos := (∅ : Map DustNullifier DustWalletUtxoState).insert ⟨0⟩ ⟨dustSample, some 3⟩ |>.insert ⟨1⟩
    ⟨{ dustSample with initialValue := 50, nonce := 1, ctime := 2 }, none⟩
  syncTime := 0
  params := dustSampleParams

theorem dustSampleWalletKept : DustLocalState.Same
      ((dustSampleWallet.processTtls 3).processTtls 7) (dustSampleWallet.processTtls 7) ∧
    DustLocalState.walletBalance .debug (dustSampleWallet.processTtls 3) 7 =
      (.ok 162 : Outcome Unit U128) := by
  obtain ⟨same, balance⟩ := DustLocalState.processTtlsKeepsValue (ε := Unit) dustSampleWallet
    (by decide : (3 : Timestamp) ≤ 7)
  exact ⟨same, (balance .debug).trans (by decide +kernel)⟩

end MidnightLedger.Ledger

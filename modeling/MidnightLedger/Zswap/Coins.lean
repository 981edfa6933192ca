import MidnightLedger.Fab.Conversions
import MidnightLedger.Zswap.Ledger

/-! Shielded coins and wallets (coin-structure/src/coin.rs, coin-structure/src/transfer.rs,
zswap/src/keys.rs, zswap/src/local.rs), and what the spends of an offer stand for (`spend` in
zswap/zswap.compact). The persistent hash and the decryption are outside this repository. The state
over runs is read off the list of what was applied; a whitelist keeps the leaves and the nullifiers
of some contracts alone. -/
namespace MidnightLedger.Zswap
open ByteString Fab MidnightLedger.Ledger List Maps Loops Option Output Offer

structure CoinInfo where
  nonce : HashOutput
  type : ShieldedTokenType
  value : U128
  deriving DecidableEq, Repr

structure QualifiedCoinInfo where
  nonce : HashOutput
  type : ShieldedTokenType
  value : U128
  mtIndex : Nat
  deriving DecidableEq, Repr

def CoinInfo.qualify (coin : CoinInfo) (mtIndex : Nat) : QualifiedCoinInfo :=
  ⟨coin.nonce, coin.type, coin.value, mtIndex⟩

inductive Recipient where
  | user (publicKey : HashOutput)
  | contract (address : ContractAddress)
  deriving DecidableEq, Repr

inductive SenderEvidence where
  | user (secretKey : HashOutput)
  | contract (address : ContractAddress)
  deriving DecidableEq, Repr

structure SecretKeys (E : Type) where
  coinSecretKey : HashOutput
  encryptionSecretKey : E

structure Cryptography (E : Type) where
  persistentHash : Bytes → HashOutput
  decrypt : E → Bytes → Option CoinInfo

def flagged (flag : Bool) (hash : HashOutput) : Bytes := flag.toUInt8 :: hashBytes hash

def CoinInfo.binaryRepr (coin : CoinInfo) : Bytes :=
  hashBytes coin.nonce ++ (hashBytes coin.type.hash ++ leBytes 16 coin.value.toNat)

def Recipient.binaryRepr : Recipient → Bytes
  | .user publicKey => flagged true publicKey
  | .contract address => flagged false address.hash

def SenderEvidence.binaryRepr : SenderEvidence → Bytes
  | .user secretKey => flagged true secretKey
  | .contract address => flagged false address.hash

def CoinInfo.commitmentPreimage (coin : CoinInfo) (recipient : Recipient) : Bytes :=
  ascii "midnight:zswap-cc[v1]" ++ (coin.binaryRepr ++ recipient.binaryRepr)

def CoinInfo.nullifierPreimage (coin : CoinInfo) (sender : SenderEvidence) : Bytes :=
  ascii "midnight:zswap-cn[v1]" ++ (coin.binaryRepr ++ sender.binaryRepr)

variable {E : Type}

section

variable (C : Cryptography E)

def CoinInfo.commitment (coin : CoinInfo) (recipient : Recipient) : Commitment :=
  C.persistentHash (coin.commitmentPreimage recipient)

def CoinInfo.nullifier (coin : CoinInfo) (sender : SenderEvidence) : Nullifier :=
  C.persistentHash (coin.nullifierPreimage sender)

def publicKey (secretKey : HashOutput) : HashOutput :=
  C.persistentHash (ascii "midnight:zswap-pk[v1]" ++ hashBytes secretKey)

def SenderEvidence.recipient : SenderEvidence → Recipient
  | .user secretKey => .user (publicKey C secretKey)
  | .contract address => .contract address

namespace SecretKeys

variable (keys : SecretKeys E)

def sender : SenderEvidence := .user keys.coinSecretKey

def coinPublicKey : HashOutput := publicKey C keys.coinSecretKey

def tryDecrypt (ciphertext : Bytes) : Option CoinInfo :=
  C.decrypt keys.encryptionSecretKey ciphertext

def opened (out : Output) : Option CoinInfo := out.ciphertext.bind (keys.tryDecrypt C)

def commitmentOf (coin : CoinInfo) : Commitment := coin.commitment C (.user (keys.coinPublicKey C))

def nullifierOf (coin : CoinInfo) : Nullifier := coin.nullifier C keys.sender

end SecretKeys

end

def SecretKeys.Unrivalled {E : Type} (C : Cryptography E) (keys : SecretKeys E) (coin : CoinInfo) :
    Prop :=
  ∀ bytes, C.persistentHash bytes = keys.nullifierOf C coin →
    bytes = coin.nullifierPreimage keys.sender

def SenderEvidence.contractAddress : SenderEvidence → Option ContractAddress
  | .user _ => none
  | .contract address => some address

theorem coinReprLength (coin : CoinInfo) : coin.binaryRepr.length = 80 := by
  simp only [CoinInfo.binaryRepr, length_append, hashBytesLength, leBytesLength]

variable {sender : SenderEvidence} {other : CoinInfo} {coin : CoinInfo}

theorem coinReprInj (same : coin.binaryRepr = other.binaryRepr) : coin = other := by
  have hashes : ∀ x y : HashOutput, (hashBytes x).length = (hashBytes y).length :=
    fun x y => (hashBytesLength x).trans (hashBytesLength y).symm
  obtain ⟨nonces, rest⟩ := append_inj same (hashes _ _)
  obtain ⟨types, values⟩ := append_inj rest (hashes _ _)
  have value : coin.value = other.value := by
    have room : 2 ^ 128 = 256 ^ 16 := by decide
    have read := congrArg leNat values
    rw [leNatLeBytes, leNatLeBytes, ← room, Nat.mod_eq_of_lt coin.value.isLt,
      Nat.mod_eq_of_lt other.value.isLt] at read
    exact BitVec.eq_of_toNat_eq read
  obtain ⟨_, ⟨_⟩, _⟩ := other
  cases hashBytesInj nonces
  cases hashBytesInj types
  cases value
  rfl

theorem senderReprInj {other : SenderEvidence} (same : sender.binaryRepr = other.binaryRepr) :
    sender = other := by
  cases sender with
  | user secretKey =>
    cases other with
    | user secretKey' => rw [hashBytesInj (tail_eq_of_cons_eq same)]
    | contract address => cases head_eq_of_cons_eq same
  | contract address =>
    cases other with
    | user secretKey => cases head_eq_of_cons_eq same
    | contract address' =>
      obtain ⟨hash⟩ := address
      obtain ⟨hash'⟩ := address'
      rw [show hash = hash' from hashBytesInj (tail_eq_of_cons_eq same)]

theorem nullifierPreimageInj {sender' : SenderEvidence}
    (same : coin.nullifierPreimage sender = other.nullifierPreimage sender') :
    coin = other ∧ sender = sender' := by
  have rest := append_cancel_left same
  obtain ⟨coins, senders⟩ :=
    append_inj rest ((coinReprLength coin).trans (coinReprLength other).symm)
  exact ⟨coinReprInj coins, senderReprInj senders⟩

theorem SecretKeys.Unrivalled.determines {C : Cryptography E} {keys : SecretKeys E}
    (unrivalled : keys.Unrivalled C coin)
    (same : other.nullifier C sender = keys.nullifierOf C coin) :
    other = coin ∧ sender = keys.sender :=
  nullifierPreimageInj (unrivalled _ same)

structure LocalState where
  coins : Map Nullifier QualifiedCoinInfo
  pendingSpends : Map Nullifier QualifiedCoinInfo
  pendingOutputs : Map Commitment CoinInfo
  merkleTree : CommitmentTree Unit
  firstFree : Nat

namespace LocalState

def new : LocalState where
  coins := ∅
  pendingSpends := ∅
  pendingOutputs := ∅
  merkleTree := .blank zswapTreeHeight
  firstFree := 0

def receive (state : LocalState) (nullifier : Nullifier) (coin : CoinInfo) (mtIndex : Nat) :
    LocalState :=
  { state with coins := state.coins.insert nullifier (coin.qualify mtIndex) }

def settle (state : LocalState) (coinCom : Commitment) : LocalState :=
  { state with pendingOutputs := state.pendingOutputs.erase coinCom }

def spent (state : LocalState) (nullifier : Nullifier) : LocalState :=
  { state with
    coins := state.coins.erase nullifier
    pendingSpends := state.pendingSpends.erase nullifier }

section

variable (C : Cryptography E) (H : TreeHashing) (keys : SecretKeys E)

/- A ciphertext that opens to another coin than the commitment is for is not accepted, and
its commitment is not looked up among the awaited ones either. -/
def applyOutput (state : LocalState) (out : Commitment × Option Bytes) :
    Except MerkleTrees.InvalidUpdate LocalState := do
  let (coinCom, ciphertext) := out
  let index := state.firstFree
  let merkleTree ← state.merkleTree.tryUpdateHash _ index coinCom ()
  let written := { state with merkleTree := merkleTree, firstFree := index + 1 }
  match ciphertext.bind (keys.tryDecrypt C) with
  | some coin =>
    if coin.commitment C (.user (keys.coinPublicKey C)) = coinCom then
      .ok ((written.receive (coin.nullifier C keys.sender) coin index).settle coinCom)
    else .ok written
  | none =>
    match state.pendingOutputs.lookup coinCom with
    | some coin => .ok ((written.receive (coin.nullifier C keys.sender) coin index).settle coinCom)
    | none => .ok { written with merkleTree := merkleTree.collapse H _ index index }

/- Outputs come first, so that a transient coin is there when its nullifier is. -/
def apply (state : LocalState) (offer : Offer) : Except MerkleTrees.InvalidUpdate LocalState := do
  let outputs := offer.outputs.map (fun o => (o.coinCom, o.ciphertext)) ++
    offer.transient.map (fun io => (io.coinCom, io.ciphertext))
  let received ← outputs.foldlM (applyOutput C H keys) state
  let nullifiers := offer.inputs.map Input.nullifier ++ offer.transient.map Transient.nullifier
  let final := nullifiers.foldl spent received
  .ok { final with merkleTree := final.merkleTree.rehash H }

end

end LocalState

open MerkleTrees Tree Simulation

section

variable (H : TreeHashing)

def ephemeralTree (coinCom : Commitment) : CommitmentTree Unit :=
  match tryUpdateHash _ (blank zswapTreeHeight : CommitmentTree Unit) 0 coinCom () with
  | .ok tree => tree
  | .error _ => blank zswapTreeHeight

def Transient.asInput (io : Transient) : Input where
  nullifier := io.nullifier
  valueCommitment := io.valueCommitmentInput
  contractAddress := io.contractAddress
  merkleTreeRoot := (ephemeralTree io.coinCom).digest H
  memo := none

def Transient.asOutput (io : Transient) : Output where
  coinCom := io.coinCom
  valueCommitment := io.valueCommitmentOutput
  contractAddress := io.contractAddress
  ciphertext := io.ciphertext

namespace Offer

def spent (offer : Offer) : List Input := offer.inputs ++ offer.transient.map (Transient.asInput H)

def created (offer : Offer) : List Output := offer.outputs ++ offer.transient.map Transient.asOutput

end Offer

structure Input.SpentBy {E : Type} (C : Cryptography E) (inp : Input) (coin : CoinInfo)
    (sender : SenderEvidence) : Prop where
  nullifier : inp.nullifier = coin.nullifier C sender
  contract : inp.contractAddress = sender.contractAddress
  path : ∃ path : List (Fr × Bool), path.length = zswapTreeHeight ∧
    pathRoot H (coin.commitment C (sender.recipient C)) path = inp.merkleTreeRoot

end

variable {H : TreeHashing}

section

variable {coinCom : Commitment}

theorem ephemeralUpdated : tryUpdateHash _
    (blank zswapTreeHeight : CommitmentTree Unit) 0 coinCom () = .ok (ephemeralTree coinCom) := by
  obtain ⟨tree, written⟩ := (tryUpdateHashIff coinCom ()).mpr
    (blankOpen (by decide : 0 < 2 ^ zswapTreeHeight) : IsOpen _
      (blank zswapTreeHeight : CommitmentTree Unit) 0)
  rw [written, ephemeralTree, written]

theorem ephemeralHashes {other : Commitment} (mem : other ∈ (ephemeralTree coinCom).hashes) :
    other = coinCom :=
  (tryUpdateHashHashes ephemeralUpdated mem).resolve_right not_mem_nil

end

def Indexed (indices : ComIndices) : Nat → List Commitment → Prop
  | _, [] => True
  | start, coinCom :: rest =>
    indices.lookup coinCom = some start ∧ Indexed indices (start + 1) rest

variable {indices : ComIndices} {xs : List Commitment} {start : Nat}

theorem indexedAppend {ys : List Commitment} : Indexed indices start (xs ++ ys) ↔
      Indexed indices start xs ∧ Indexed indices (start + xs.length) ys := by
  induction xs generalizing start with
  | nil => simp [Indexed]
  | cons x xs ih =>
    rw [cons_append, Indexed, Indexed, ih, and_assoc, length_cons,
      show start + (xs.length + 1) = start + 1 + xs.length by omega]

theorem indexedAt {i : Nat} {com : Commitment} (indexed : Indexed indices start xs) (mem : com ∈ xs)
    (found : indices.lookup com = some i) : ∃ k, i = start + k ∧ xs[k]? = some com := by
  induction xs generalizing start with
  | nil => cases mem
  | cons x xs ih =>
    rcases mem_cons.mp mem with rfl | inside
    · exact ⟨0, some.inj (found.symm.trans indexed.1), rfl⟩
    · obtain ⟨k, rfl, there⟩ := ih indexed.2 inside
      exact ⟨k + 1, by omega, there⟩

theorem indexedFrame {others : ComIndices}
    (same : ∀ x ∈ xs, others.lookup x = indices.lookup x) (indexed : Indexed indices start xs) :
    Indexed others start xs := by
  induction xs generalizing start with
  | nil => trivial
  | cons x xs ih =>
    refine ⟨(same x mem_cons_self).trans indexed.1, ih ?_ indexed.2⟩
    exact (forall_mem_cons.mp same).2

variable {contract : Option ContractAddress} {next : State} {items : List Item}

namespace State

variable {whitelist : Whitelist} {state : State} {offer : Offer}

def Appends {X : Type} (step : State → X → Except TransactionInvalid (State × Commitment × Nat))
    (coinComOf : X → Commitment) : Prop :=
  ∀ ⦃s x t com index⦄, step s x = .ok (t, com, index) →
    com = coinComOf x ∧ index = s.firstFree ∧ t.firstFree = s.firstFree + 1 ∧
      s.firstFree < 2 ^ zswapTreeHeight

theorem appendCommitmentAppends {coinCom com : Commitment}
    {index : Nat} (ok : state.appendCommitment H whitelist coinCom contract = .ok (next, com, index)) :
    com = coinCom ∧ index = state.firstFree ∧ next.firstFree = state.firstFree + 1 ∧
      state.firstFree < 2 ^ zswapTreeHeight := by
  obtain ⟨tree, written, last⟩ := bindOk.mp ok
  cases last
  obtain ⟨updated, here, -⟩ := bindOk.mp (mapErrorOk.mp written)
  exact ⟨rfl, rfl, rfl, openInside ((tryUpdateHashIff coinCom contract).mp ⟨_, here⟩)⟩

theorem outputAppends : Appends (applyOutput H whitelist) coinCom := by
  intro s out t com index ok
  rw [applyOutput] at ok
  split at ok <;> try contradiction
  exact appendCommitmentAppends ok

theorem transientAppends : Appends (applyTransient H whitelist) Transient.coinCom := by
  intro s io t com index ok
  rw [applyTransient] at ok
  split at ok <;> try contradiction
  split at ok <;> try contradiction
  have appended := appendCommitmentAppends ok
  split at appended <;> exact appended

theorem collectIndexed {X : Type}
    {step : State → X → Except TransactionInvalid (State × Commitment × Nat)}
    {coinComOf : X → Commitment} (appends : Appends step coinComOf) {xs : List X}
    (nodup : (xs.map coinComOf).Nodup) {before : ComIndices}
    (room : state.firstFree ≤ 2 ^ zswapTreeHeight)
    (ok : xs.foldlM (collect step) (state, before) = .ok (next, indices)) :
    Indexed indices state.firstFree (xs.map coinComOf) ∧
      next.firstFree = state.firstFree + xs.length ∧ next.firstFree ≤ 2 ^ zswapTreeHeight ∧
      ∀ com ∉ xs.map coinComOf, indices.lookup com = before.lookup com := by
  induction xs generalizing state before with
  | nil =>
    cases runNil.mp ok
    exact ⟨trivial, rfl, room, fun _ _ => rfl⟩
  | cons x xs ih =>
    obtain ⟨⟨middle, numbered⟩, taken, rest⟩ := runCons.mp ok
    obtain ⟨⟨reached, com, index⟩, stepped, last⟩ := bindOk.mp taken
    cases last
    obtain ⟨rfl, rfl, count, inside⟩ := appends stepped
    obtain ⟨fresh, others⟩ := nodup_cons.mp nodup
    obtain ⟨indexed, length, bound, frame⟩ := ih others (by omega) rest
    refine ⟨⟨?_, by rwa [count] at indexed⟩, ?_, bound, ?_⟩
    · rw [frame _ fresh, AList.lookup_insert]
    · rw [length, count, length_cons, Nat.add_assoc, Nat.add_comm 1]
    · intro com absent
      obtain ⟨different, elsewhere⟩ := ne_and_not_mem_of_not_mem_cons absent
      rw [frame com elsewhere, AList.lookup_insert_ne different]

theorem itemsCommitments (offer : Offer) :
    offer.items.flatMap Item.commitments = offer.created.map coinCom := by
  simp [items, created, Item.commitments, Item.creates,
    Transient.asOutput, map_eq_flatMap, flatMap_assoc]

theorem itemsRecorded (offer : Offer) :
    offer.items.flatMap (Item.recorded none) = (offer.spent H).map Input.nullifier := by
  simp [items, spent, Item.recorded, Item.spends, onWhitelist,
    Transient.asInput, map_eq_flatMap, flatMap_assoc]

theorem createdNodup (ok : state.tryApply H whitelist offer = .ok (next, indices)) :
    (offer.created.map coinCom).Nodup ∧
      ∀ com ∈ offer.created.map coinCom, com ∉ state.coinComsSet := by
  obtain ⟨-, nodup, fresh⟩ := runCommitted (tryApplyIff.mp ⟨indices, ok⟩)
  rw [itemsCommitments] at nodup fresh
  exact ⟨nodup, fresh⟩

theorem tryApplyIndexed (room : state.firstFree ≤ 2 ^ zswapTreeHeight)
    (ok : state.tryApply H whitelist offer = .ok (next, indices)) :
    Indexed indices state.firstFree (offer.created.map coinCom) ∧
      next.firstFree = state.firstFree + offer.created.length ∧
      next.firstFree ≤ 2 ^ zswapTreeHeight ∧
      ∀ com ∉ offer.created.map coinCom, indices.lookup com = none := by
  have nodup := (createdNodup ok).1
  have coms : offer.created.map coinCom =
      offer.outputs.map coinCom ++ offer.transient.map Transient.coinCom := by
    simp [created, Transient.asOutput]
  rw [coms, nodup_append] at nodup
  obtain ⟨outputsOnce, transientsOnce, apart⟩ := nodup
  obtain ⟨spent, inputs, rest⟩ := bindOk.mp ok
  obtain ⟨⟨created, collected⟩, outputs, transients⟩ := bindOk.mp rest
  have start : spent.firstFree = state.firstFree := by
    refine runPreserves (fun s : State => s.firstFree = state.firstFree) ?_ rfl inputs
    intro s inp t _ same taken
    have item : s.applyItem H whitelist (.input inp) = .ok t := taken
    obtain ⟨-, tree, -, rfl⟩ := applyItemIff.mp item
    exact same
  rw [← start] at room ⊢
  obtain ⟨first, count, bound, empty⟩ := collectIndexed outputAppends outputsOnce room outputs
  obtain ⟨second, total, limit, frame⟩ :=
    collectIndexed transientAppends transientsOnce bound transients
  refine ⟨?_, ?_, limit, ?_⟩
  · rw [coms, indexedAppend, length_map, ← count]
    refine ⟨indexedFrame (fun com mem => frame com fun other => ?_) first, second⟩
    exact apart com mem com other rfl
  · rw [total, count, Offer.created, length_append, length_map]
    omega
  · intro com absent
    rw [coms, mem_append, not_or] at absent
    rw [frame com absent.2, empty com absent.1]
    rfl

theorem runRoots (ok : run (applyItem H whitelist) state items = .ok next) :
    next.pastRoots = state.pastRoots ∧
      ∀ item ∈ items, ∀ r ∈ item.root, state.pastRoots.contains r := by
  induction items generalizing state with
  | nil =>
    cases runNil.mp ok
    exact ⟨rfl, fun _ mem => absurd mem not_mem_nil⟩
  | cons item items ih =>
    obtain ⟨reached, taken, rest⟩ := runCons.mp ok
    obtain ⟨admissible, tree, -, rfl⟩ := applyItemIff.mp taken
    obtain ⟨same, known⟩ := ih rest
    refine ⟨same, fun other mem => ?_⟩
    rcases mem_cons.mp mem with rfl | inside
    · exact admissible.known
    · exact known other inside

section Proofs

variable (C : Cryptography E) (H)

/- Every nullifier of the state was made of a coin whose commitment the state has, and every
root it accepts is one of a tree with commitments of the state alone. -/
structure Backed (state : State) : Prop where
  leaves : state.coinComs.hashes ⊆ state.coinComsSet
  roots : ∀ root leaf path, state.pastRoots.contains root → path.length = zswapTreeHeight →
    pathRoot H leaf path = root → leaf ∈ state.coinComsSet
  spent : ∀ nullifier ∈ state.nullifiers, ∃ coin sender, nullifier = CoinInfo.nullifier C coin sender ∧
    CoinInfo.commitment C coin (sender.recipient C) ∈ state.coinComsSet

/- Sound proofs: every spend was made with a coin, and the trees of the transients bind. -/
structure Proven (offer : Offer) : Prop where
  spends : ∀ inp ∈ offer.spent H, ∃ coin sender, inp.SpentBy H C coin sender
  binding : ∀ io ∈ offer.transient, (ephemeralTree io.coinCom).Binding H

end Proofs

section

variable {C : Cryptography E}

theorem newBacked : (State.new).Backed H C where
  leaves := fun _ mem => absurd mem not_mem_nil
  roots := by
    intro root leaf path inside
    exact absurd inside Bool.false_ne_true
  spent := fun _ mem => absurd mem not_mem_nil

theorem spendCommitted (backed : state.Backed H C) (proven : Proven H C offer)
    (ok : state.tryApply H whitelist offer = .ok (next, indices)) {inp : Input}
    (mem : inp ∈ offer.spent H) {coin : CoinInfo}
    (spends : inp.SpentBy H C coin sender) :
    coin.commitment C (sender.recipient C) ∈ state.coinComsSet ∨
      ∃ io ∈ offer.transient, coin.commitment C (sender.recipient C) = io.coinCom := by
  obtain ⟨path, full, root⟩ := spends.path
  rcases mem_append.mp mem with plain | ephemeral
  · have known := (runRoots (tryApplyIff.mp ⟨indices, ok⟩)).2 (.input inp)
      (mem_append_left _ (mem_map_of_mem plain)) inp.merkleTreeRoot rfl
    exact .inl (backed.roots _ _ path known full root)
  · obtain ⟨io, inside, rfl⟩ := mem_map.mp ephemeral
    exact .inr ⟨io, inside, ephemeralHashes (proven.binding io inside _ path full root)⟩

theorem itemLeaves {item : Item} (leaves : state.coinComs.hashes ⊆ state.coinComsSet)
    (ok : state.applyItem H none item = .ok next) : next.coinComs.hashes ⊆ next.coinComsSet := by
  obtain ⟨-, tree, written, rfl⟩ := applyItemIff.mp ok
  intro com mem
  rw [itemTree] at written
  split at written
  · rename_i coinCom contract made
    obtain ⟨updated, here, rfl⟩ := pureOk.mp written
    have shape : item.commitments = [coinCom] := by rw [Item.commitments, made]; rfl
    rcases tryUpdateHashHashes here mem with rfl | before
    · exact mem_append_left _ (by rw [shape]; exact mem_cons_self)
    · exact mem_append_right _ (leaves before)
  · cases written
    exact mem_append_right _ (leaves mem)

theorem tryApplyNullifiers (ok : state.tryApply H none offer = .ok (next, indices))
    (nullifier : Nullifier) : nullifier ∈ next.nullifiers ↔
      nullifier ∈ (offer.spent H).map Input.nullifier ∨ nullifier ∈ state.nullifiers := by
  rw [(runRecorded (tryApplyIff.mp ⟨indices, ok⟩)).1, itemsRecorded]

theorem tryApplyCommitments (ok : state.tryApply H whitelist offer = .ok (next, indices))
    (com : Commitment) : com ∈ next.coinComsSet ↔
      com ∈ offer.created.map coinCom ∨ com ∈ state.coinComsSet := by
  rw [(runCommitted (tryApplyIff.mp ⟨indices, ok⟩)).1, itemsCommitments]

theorem tryApplyBacked (backed : state.Backed H C) (proven : Proven H C offer)
    (ok : state.tryApply H none offer = .ok (next, indices)) : next.Backed H C := by
  have runs := tryApplyIff.mp ⟨indices, ok⟩
  have grows : ∀ {com}, com ∈ state.coinComsSet → com ∈ next.coinComsSet :=
    fun mem => (tryApplyCommitments ok _).mpr (.inr mem)
  refine ⟨?_, ?_, ?_⟩
  · refine runPreserves (fun s : State => s.coinComs.hashes ⊆ s.coinComsSet) ?_ backed.leaves runs
    exact fun _ leaves taken => itemLeaves leaves taken
  · intro root leaf path known full reaches
    rw [(runRoots runs).1] at known
    exact grows (backed.roots root leaf path known full reaches)
  · intro nullifier mem
    rcases (tryApplyNullifiers ok nullifier).mp mem with new | old
    · obtain ⟨inp, inside, rfl⟩ := mem_map.mp new
      obtain ⟨coin, sender, spends⟩ := proven.spends inp inside
      refine ⟨coin, sender, spends.nullifier, ?_⟩
      rcases spendCommitted backed proven ok inside spends with before | ⟨io, transient, same⟩
      · exact grows before
      · refine (tryApplyCommitments ok _).mpr (.inl ?_)
        rw [same]
        exact mem_map.mpr ⟨io.asOutput, mem_append_right _ (mem_map_of_mem transient), rfl⟩
    · obtain ⟨coin, sender, same, committed⟩ := backed.spent nullifier old
      exact ⟨coin, sender, same, grows committed⟩

theorem postBlockBacked (backed : state.Backed H C) (binding : state.coinComs.Binding H)
    (tblock : Timestamp) (retention : Duration) :
    (state.postBlockUpdate H tblock retention).Backed H C where
  leaves := by
    rw [postBlockUpdate, rehashHashes]
    exact backed.leaves
  roots := by
    intro root leaf path known full reaches
    rcases TimeFilterMap.containsInsert (TimeFilterMap.containsFiltered known) with rfl | old
    · exact backed.leaves (binding leaf path full reaches)
    · exact backed.roots root leaf path old full reaches
  spent := backed.spent

end

end State

open MerkleTrees State Tree Item Simulation

structure Placement where
  coinCom : Commitment
  contract : Option ContractAddress
  kept : Bool
  deriving DecidableEq, Repr

structure Acceptance where
  nullifier : Nullifier
  recorded : Bool
  deriving DecidableEq, Repr

section

variable (whitelist : Whitelist)

def Item.placements (item : Item) : List Placement :=
  item.creates.toList.map fun made => ⟨made.1, made.2, onWhitelist whitelist made.2⟩

def Item.acceptances (item : Item) : List Acceptance :=
  item.spends.toList.map fun spent => ⟨spent.1, onWhitelist whitelist spent.2⟩

end

structure Placed (placed : List Placement) (state : State) : Prop where
  count : placed.length = state.firstFree
  room : state.firstFree ≤ 2 ^ zswapTreeHeight
  committed : ∀ com, com ∈ state.coinComsSet ↔ com ∈ placed.map Placement.coinCom
  once : (placed.map Placement.coinCom).Nodup
  leaves : ∀ i < 2 ^ zswapTreeHeight, ∀ com contract,
    state.coinComs.index _ i = some (com, contract) ↔ placed[i]? = some ⟨com, contract, true⟩

structure Accepted (accepted : List Acceptance) (state : State) : Prop where
  recorded : ∀ n, n ∈ state.nullifiers ↔ ⟨n, true⟩ ∈ accepted
  unrepeated : accepted.Pairwise fun first second =>
    first.recorded = true → second.nullifier ≠ first.nullifier

theorem newPlaced : Placed [] new where
  count := rfl
  room := Nat.zero_le _
  committed _ := Iff.rfl
  once := nodup_nil
  leaves i _ com contract := by
    rw [new, blankIndex]
    exact ⟨nofun, nofun⟩

theorem newAccepted : Accepted [] new where
  recorded _ := by simp [new]
  unrepeated := List.Pairwise.nil

variable {state : State} {whitelist : Whitelist} {accepted : List Acceptance}
  {placed : List Placement}

namespace State

variable {item : Item} {history : History}

theorem writeCommitmentIndex {coinCom : Commitment} {tree : CommitmentTree (Option ContractAddress)}
    (ok : state.writeCommitment H whitelist coinCom contract = .ok tree) {i : Nat}
    (inside : i < 2 ^ zswapTreeHeight) : tree.index _ i =
      if i = state.firstFree then
        if onWhitelist whitelist contract then some (coinCom, contract) else none
      else state.coinComs.index _ i := by
  obtain ⟨written, updated, last⟩ := bindOk.mp ok
  have free := openInside ((tryUpdateHashIff coinCom contract).mp ⟨_, updated⟩)
  split at last <;> rename_i listed <;> cases last
  · rw [tryUpdateHashIndex updated inside, if_pos listed]
  · rw [collapseIndex (Nat.le_succ _) free free inside, tryUpdateHashIndex updated inside,
      if_neg listed, if_congr (by omega : _ ↔ i = state.firstFree) rfl rfl]
    split <;> rfl

theorem applyItemPlaced (before : Placed placed state)
    (ok : state.applyItem H whitelist item = .ok next) :
    Placed (placed ++ item.placements whitelist) next := by
  obtain ⟨admissible, tree, written, rfl⟩ := applyItemIff.mp ok
  cases made : item.creates with
  | none =>
    rw [itemTree, made] at written
    cases written
    have nothing : item.commitments = [] := by rw [Item.commitments, made]; rfl
    rw [placements, made, grown, nothing, toList_none, map_nil, append_nil]
    exact ⟨before.count, before.room, before.committed, before.once, before.leaves⟩
  | some pair =>
    obtain ⟨coinCom, contract⟩ := pair
    rw [itemTree, made] at written
    have one : item.commitments = [coinCom] := by rw [Item.commitments, made]; rfl
    have fresh : coinCom ∉ placed.map Placement.coinCom :=
      fun mem => admissible.fresh _ made ((before.committed coinCom).mpr mem)
    have free : state.firstFree < 2 ^ zswapTreeHeight := by
      obtain ⟨_, updated, -⟩ := bindOk.mp written
      exact openInside ((tryUpdateHashIff coinCom contract).mp ⟨_, updated⟩)
    rw [placements, made, grown, one]
    refine ⟨?_, free, ?_, ?_, ?_⟩
    · simp [before.count]
    · intro com
      simp [before.committed com, or_comm]
    · simp only [toList_some, map_cons, map_nil, map_append]
      refine nodup_append.mpr ⟨before.once, nodup_singleton _, ?_⟩
      rintro com inside other here rfl
      cases mem_singleton.mp here
      exact fresh inside
    · intro i inside com owner
      rw [writeCommitmentIndex written inside]
      split
      · rename_i here
        rw [here, ← before.count]
        by_cases listed : onWhitelist whitelist contract <;> simp [listed]
      · rename_i elsewhere
        rw [before.leaves i inside]
        rcases Nat.lt_or_ge i placed.length with below | beyond
        · rw [getElem?_append_left below]
        · have past : placed.length + 1 ≤ i := by
            rw [← before.count] at elsewhere
            omega
          rw [getElem?_eq_none beyond, getElem?_eq_none (by simpa using past)]

theorem applyItemAccepted (before : Accepted accepted state)
    (ok : state.applyItem H whitelist item = .ok next) :
    Accepted (accepted ++ item.acceptances whitelist) next := by
  obtain ⟨admissible, tree, -, rfl⟩ := applyItemIff.mp ok
  cases spent : item.spends with
  | none =>
    have nothing : item.recorded whitelist = [] := by rw [recorded, spent]
    rw [acceptances, spent, grown, nothing, toList_none, map_nil, append_nil]
    exact ⟨before.recorded, before.unrepeated⟩
  | some pair =>
    obtain ⟨nullifier, contract⟩ := pair
    have shape : item.recorded whitelist =
        if onWhitelist whitelist contract then [nullifier] else [] := by
      rw [recorded, spent]
    have unspent : ⟨nullifier, true⟩ ∉ accepted :=
      fun mem => admissible.unspent _ spent ((before.recorded nullifier).mpr mem)
    rw [acceptances, spent, grown, shape]
    refine ⟨?_, ?_⟩
    · intro n
      by_cases listed : onWhitelist whitelist contract <;>
        simp [listed, before.recorded n, or_comm]
    · refine pairwise_append.mpr ⟨before.unrepeated, pairwise_singleton _ _, ?_⟩
      intro first mem second here kept same
      cases mem_singleton.mp here
      obtain ⟨old, flag⟩ := first
      cases kept
      cases same
      exact unspent mem

end State

inductive Call where
  | tryApply (whitelist : Whitelist) (offer : Offer)
  | postBlockUpdate (tblock : Timestamp) (retention : Duration)

section

variable (H : TreeHashing)

/- A refused offer leaves the state as it was. -/
def State.take (state : State) : Call → State
  | .tryApply whitelist offer =>
    match state.tryApply H whitelist offer with
    | .ok (next, _) => next
    | .error _ => state
  | .postBlockUpdate tblock retention => state.postBlockUpdate H tblock retention

def State.after (state : State) (calls : List Call) : State := calls.foldl (take H) state

def State.applied (state : State) : Call → Whitelist × List Item
  | .tryApply whitelist offer =>
    match state.tryApply H whitelist offer with
    | .ok _ => (whitelist, offer.items)
    | .error _ => (whitelist, [])
  | .postBlockUpdate _ _ => (none, [])

def State.placements : State → List Call → List Placement
  | _, [] => []
  | state, call :: calls =>
    (state.applied H call).2.flatMap (Item.placements (state.applied H call).1) ++
      (state.take H call).placements calls

def State.acceptances : State → List Call → List Acceptance
  | _, [] => []
  | state, call :: calls =>
    (state.applied H call).2.flatMap (Item.acceptances (state.applied H call).1) ++
      (state.take H call).acceptances calls

end

section

theorem itemsPlaced (before : Placed placed state)
    (ok : run (applyItem H whitelist) state items = .ok next) :
    Placed (placed ++ items.flatMap (placements whitelist)) next := by
  induction items generalizing state placed with
  | nil =>
    cases runNil.mp ok
    simpa using before
  | cons item items ih =>
    obtain ⟨middle, taken, rest⟩ := runCons.mp ok
    rw [flatMap_cons, ← append_assoc]
    exact ih (applyItemPlaced before taken) rest

theorem itemsAccepted (before : Accepted accepted state)
    (ok : run (applyItem H whitelist) state items = .ok next) :
    Accepted (accepted ++ items.flatMap (acceptances whitelist)) next := by
  induction items generalizing state accepted with
  | nil =>
    cases runNil.mp ok
    simpa using before
  | cons item items ih =>
    obtain ⟨middle, taken, rest⟩ := runCons.mp ok
    rw [flatMap_cons, ← append_assoc]
    exact ih (applyItemAccepted before taken) rest

variable (H) in
theorem takeApplies (state : State) (call : Call) :
    run (applyItem H (state.applied H call).1) state (state.applied H call).2 =
      .ok (state.take H call) ∨ ∃ tblock retention, call = .postBlockUpdate tblock retention := by
  cases call with
  | postBlockUpdate tblock retention => exact .inr ⟨tblock, retention, rfl⟩
  | tryApply whitelist offer =>
    left
    rw [State.applied, State.take]
    cases tried : state.tryApply H whitelist offer with
    | error e => rfl
    | ok reached => exact tryApplyIff.mp ⟨reached.2, tried⟩

theorem callPlaced (before : Placed placed state) (call : Call) :
    Placed (placed ++ (state.applied H call).2.flatMap (placements (state.applied H call).1))
      (state.take H call) := by
  obtain runs | ⟨tblock, retention, rfl⟩ := takeApplies H state call
  · exact itemsPlaced before runs
  · rw [applied, flatMap_nil, append_nil]
    refine ⟨before.count, before.room, before.committed, before.once, fun i inside com contract => ?_⟩
    rw [State.take, State.postBlockUpdate, Tree.rehashIndex]
    exact before.leaves i inside com contract

theorem callAccepted (before : Accepted accepted state) (call : Call) :
    Accepted (accepted ++ (state.applied H call).2.flatMap (acceptances (state.applied H call).1))
      (state.take H call) := by
  obtain runs | ⟨tblock, retention, rfl⟩ := takeApplies H state call
  · exact itemsAccepted before runs
  · rw [applied, flatMap_nil, append_nil]
    exact ⟨before.recorded, before.unrepeated⟩

theorem runPlaced (before : Placed placed state) (calls : List Call) :
    Placed (placed ++ state.placements H calls) (state.after H calls) := by
  induction calls generalizing state placed with
  | nil => simpa [State.placements, State.after] using before
  | cons call calls ih =>
    rw [State.placements, ← append_assoc]
    exact ih (callPlaced before call)

theorem runAccepted (before : Accepted accepted state) (calls : List Call) :
    Accepted (accepted ++ state.acceptances H calls) (state.after H calls) := by
  induction calls generalizing state accepted with
  | nil => simpa [State.acceptances, State.after] using before
  | cons call calls ih =>
    rw [State.acceptances, ← append_assoc]
    exact ih (callAccepted before call)

theorem afterAppend (first second : List Call) :
    state.after H (first ++ second) = (state.after H first).after H second :=
  foldl_append

theorem placementsAppend (first second : List Call) : state.placements H (first ++ second) =
      state.placements H first ++ (state.after H first).placements H second := by
  induction first generalizing state with
  | nil => rfl
  | cons call first ih =>
    rw [cons_append, State.placements, State.placements, ih, append_assoc]
    rfl

theorem returnedPlaced {offer : Offer} (before : Placed placed state)
    (ok : state.tryApply H whitelist offer = .ok (next, indices)) {com : Commitment} {i : Nat}
    (found : indices.lookup com = some i) : ∃ contract,
      (placed ++ offer.items.flatMap (placements whitelist))[i]? =
        some ⟨com, contract, onWhitelist whitelist contract⟩ := by
  obtain ⟨indexed, -, -, others⟩ := tryApplyIndexed before.room ok
  have made : com ∈ offer.created.map coinCom := by
    by_contra absent
    cases (others com absent).symm.trans found
  obtain ⟨k, rfl, there⟩ := indexedAt indexed made found
  rw [getElem?_map, map_eq_some_iff] at there
  obtain ⟨out, atK, rfl⟩ := there
  refine ⟨out.contractAddress, ?_⟩
  have placed : offer.items.flatMap (placements whitelist) = offer.created.map fun out =>
      ⟨out.coinCom, out.contractAddress, onWhitelist whitelist out.contractAddress⟩ := by
    simp [items, created, Item.placements, Item.creates, Transient.asOutput, map_eq_flatMap,
      flatMap_assoc]
  rw [placed, ← before.count, getElem?_append_right (Nat.le_add_right ..),
    Nat.add_sub_cancel_left, getElem?_map, atK]
  rfl

variable (state) in
theorem nullifiersGrow (earlier later : List Call) :
    (state.after H earlier).nullifiers ⊆ (state.after H (earlier ++ later)).nullifiers := by
  rw [afterAppend]
  induction later generalizing state earlier with
  | nil => exact List.Subset.refl _
  | cons call later ih =>
    have grows : (state.after H earlier).nullifiers ⊆
        ((state.after H earlier).take H call).nullifiers := by
      obtain runs | ⟨tblock, retention, rfl⟩ := takeApplies H (state.after H earlier) call
      · exact (runGrowing runs).1
      · exact List.Subset.refl _
    have rest := ih ((state.after H earlier).take H call) []
    exact List.Subset.trans grows rest

end

def Call.Unlisted : Call → Prop
  | .tryApply whitelist _ => whitelist = none
  | .postBlockUpdate _ _ => True

section

variable (H state) in
theorem unlistedApplied {call : Call} (unlisted : call.Unlisted) :
    (state.applied H call).1 = none := by
  cases call with
  | postBlockUpdate tblock retention => rfl
  | tryApply whitelist offer =>
    cases unlisted
    rw [applied]
    split <;> rfl

variable (state) in
theorem unlistedKept {calls : List Call} (unlisted : ∀ call ∈ calls, call.Unlisted) :
    (∀ p ∈ state.placements H calls, p.kept) ∧ ∀ a ∈ state.acceptances H calls, a.recorded := by
  induction calls generalizing state with
  | nil => exact ⟨fun _ mem => absurd mem not_mem_nil, fun _ mem => absurd mem not_mem_nil⟩
  | cons call calls ih =>
    have whitelist := unlistedApplied H state (unlisted call mem_cons_self)
    obtain ⟨kept, recorded⟩ := ih (state.take H call) (forall_mem_cons.mp unlisted).2
    rw [State.placements, State.acceptances, whitelist]
    refine ⟨fun p mem => ?_, fun a mem => ?_⟩
    · rcases mem_append.mp mem with here | there
      · obtain ⟨item, -, inside⟩ := mem_flatMap.mp here
        obtain ⟨made, -, rfl⟩ := mem_map.mp inside
        rfl
      · exact kept p there
    · rcases mem_append.mp mem with here | there
      · obtain ⟨item, -, inside⟩ := mem_flatMap.mp here
        obtain ⟨spent, -, rfl⟩ := mem_map.mp inside
        rfl
      · exact recorded a there

end

theorem reachableRecords (H : TreeHashing) (calls : List Call) :
    Placed (new.placements H calls) (new.after H calls) ∧
    Accepted (new.acceptances H calls) (new.after H calls) ∧
    (∀ earlier later, calls = earlier ++ later →
      (new.after H earlier).nullifiers ⊆ (new.after H calls).nullifiers) ∧
    (∀ earlier whitelist offer later next indices,
      calls = earlier ++ .tryApply whitelist offer :: later →
      (new.after H earlier).tryApply H whitelist offer = .ok (next, indices) →
      ∀ com i, indices.lookup com = some i → ∃ contract, (new.placements H calls)[i]? =
        some ⟨com, contract, onWhitelist whitelist contract⟩) ∧
    ((∀ call ∈ calls, call.Unlisted) → (∀ p ∈ new.placements H calls, p.kept) ∧
        ∀ a ∈ new.acceptances H calls, a.recorded) := by
  refine ⟨runPlaced newPlaced calls, runAccepted newAccepted calls, ?_, ?_, unlistedKept new⟩
  · rintro earlier later rfl
    exact nullifiersGrow new earlier later
  · rintro earlier whitelist offer later next indices rfl ok com i found
    obtain ⟨contract, there⟩ := returnedPlaced (runPlaced newPlaced earlier) ok found
    refine ⟨contract, ?_⟩
    have applied : (new.after H earlier).applied H (.tryApply whitelist offer) =
        (whitelist, offer.items) := by
      rw [applied, ok]
    rw [placementsAppend, State.placements, applied, ← append_assoc]
    rw [nil_append] at there
    exact getElem?_append_left (List.getElem?_eq_some_iff.mp there).1 ▸ there

def spendOffer : Offer := ⟨[⟨5, ⟨0, 0⟩, none, 39, none⟩], [], [], []⟩

/- A user's coin is created and spent twice where no contract is tracked. -/
def trackingCalls : List Call :=
  [.tryApply (some []) ⟨[], [⟨7, ⟨0, 0⟩, none, none⟩], [], []⟩, .postBlockUpdate 1 10,
    .tryApply (some []) spendOffer, .tryApply (some []) spendOffer]

theorem trackingForgets :
    (new.after sampleHashing trackingCalls).coinComsSet = [7] ∧
      (new.after sampleHashing trackingCalls).coinComs.hashes = [] ∧
      new.acceptances sampleHashing trackingCalls = [⟨5, false⟩, ⟨5, false⟩] := by
  refine ⟨?_, ?_, ?_⟩ <;> decide +kernel

end MidnightLedger.Zswap

import MidnightLedger.Ledger.Books
import MidnightLedger.Ledger.WalletReplay
import MidnightLedger.Zswap.Built

/-! A wallet beside a ledger (zswap/src/local.rs): offers that the ledger applies are applied to the
wallet too, between calls that watch for coins, prepare spends and give up failed offers. -/
namespace MidnightLedger.Zswap
open Maps Loops Words MerkleTrees MidnightLedger.Ledger AList List LocalState

variable {E : Type}

def Offer.nullifiers (offer : Offer) : List Nullifier :=
  offer.inputs.map Input.nullifier ++ offer.transient.map Transient.nullifier

namespace LocalState

end LocalState

inductive WalletEntry where
  | applied (offer : Offer)
  | watched (coin : CoinInfo)
  | failed (offer : Offer)

section

variable (C : Cryptography E) (keys : SecretKeys E) (coin : CoinInfo)

/- The coin is watched for, and no offer that would have created it was given up since. -/
def WatchedIn : List WalletEntry → Prop
  | [] => False
  | .watched other :: log => other = coin ∨ WatchedIn log
  | .failed offer :: log =>
    keys.commitmentOf C coin ∉ offer.created.map Output.coinCom ∧ WatchedIn log
  | .applied _ :: log => WatchedIn log

/- The offer creates the coin with a ciphertext that opens to it, or while it is watched for. -/
def ReceivedFrom (offer : Offer) (earlier : List WalletEntry) : Prop :=
  ∃ out ∈ offer.created, out.coinCom = keys.commitmentOf C coin ∧
    (keys.opened C out = some coin ∨ WatchedIn C keys coin earlier)

def OwnedIn : List WalletEntry → Prop
  | [] => False
  | .applied offer :: log => (ReceivedFrom C keys coin offer log ∨ OwnedIn log) ∧
    keys.nullifierOf C coin ∉ offer.nullifiers
  | _ :: log => OwnedIn log

/- No applied output creates the coin, while it is watched for, with a ciphertext that opens to
another one. -/
def Undisguised : List WalletEntry → Prop
  | [] => True
  | .applied offer :: log => (WatchedIn C keys coin log → ∀ out ∈ offer.created,
      out.coinCom = keys.commitmentOf C coin → ∀ other, keys.opened C out = some other →
        other = coin) ∧ Undisguised log
  | _ :: log => Undisguised log

/- No other coin of these keys has the commitment or the nullifier of the coin. -/
structure Distinct : Prop where
  commitment : ∀ other, keys.commitmentOf C other = keys.commitmentOf C coin → other = coin
  nullifier : ∀ other, keys.nullifierOf C other = keys.nullifierOf C coin → other = coin

end

section Offers

variable {C : Cryptography E} {H : TreeHashing} {keys : SecretKeys E}
  {wallet next : LocalState} {roll : Roll HashOutput} {coin : CoinInfo}

def Takes (C : Cryptography E) (keys : SecretKeys E) (wallet : LocalState) (out : Output)
    (coin : CoinInfo) : Prop :=
  keys.opened C out = some coin ∧ out.coinCom = keys.commitmentOf C coin ∨
    keys.opened C out = none ∧ wallet.pendingOutputs.lookup out.coinCom = some coin

structure Receives (C : Cryptography E) (keys : SecretKeys E) (wallet : LocalState)
    (outs : List Output) (next : LocalState) : Prop where
  others : ∀ com, com ∉ outs.map Output.coinCom →
    next.pendingOutputs.lookup com = wallet.pendingOutputs.lookup com
  fewer : ∀ com coin, next.pendingOutputs.lookup com = some coin →
    wallet.pendingOutputs.lookup com = some coin
  coins : ∀ coin, Distinct C keys coin → (Holds C keys next coin ↔
    Holds C keys wallet coin ∨ ∃ out ∈ outs, Takes C keys wallet out coin)

variable {out : Output}

theorem receivesCoin {other : CoinInfo} {index : Nat}
    (takes : ∀ coin, Takes C keys wallet out coin ↔ other = coin)
    (coins : next.coins = wallet.coins.insert (keys.nullifierOf C other) (other.qualify index))
    (pending : next.pendingOutputs = wallet.pendingOutputs.erase out.coinCom) :
    Receives C keys wallet [out] next where
  others com absent := by
    rw [pending, lookup_erase_ne (by simpa using absent)]
  fewer com coin found := by
    rw [pending] at found
    by_cases same : com = out.coinCom
    · rw [same, lookup_erase] at found
      cases found
    · rwa [lookup_erase_ne same] at found
  coins coin distinct := by
    simp only [mem_singleton, exists_eq_left, takes]
    by_cases same : other = coin
    · subst same
      exact ⟨fun _ => .inr rfl, fun _ => ⟨index, by rw [coins, lookup_insert]⟩⟩
    · have differ : keys.nullifierOf C coin ≠ keys.nullifierOf C other :=
        fun equal => same (distinct.nullifier other equal.symm)
      rw [Holds, coins, or_iff_left same]
      simp only [lookup_insert_ne differ]
      exact Iff.rfl

theorem receivesNothing (takes : ∀ coin, ¬ Takes C keys wallet out coin)
    (coins : next.coins = wallet.coins) (pending : next.pendingOutputs = wallet.pendingOutputs) :
    Receives C keys wallet [out] next where
  others com _ := by rw [pending]
  fewer com coin found := by rwa [pending] at found
  coins coin _ := by
    simp only [mem_singleton, exists_eq_left, takes, or_false, Holds, coins]

variable (C keys) in
theorem outputApplied (tracks : wallet.merkleTree.Tracks H wallet.firstFree roll)
    (room : roll.count < 2 ^ zswapTreeHeight) (out : Output) :
    ∃ next, wallet.applyOutput C H keys (out.coinCom, out.ciphertext) = .ok next ∧
      next.merkleTree.Tracks H next.firstFree (roll.append out.coinCom) ∧
      Receives C keys wallet [out] next := by
  obtain ⟨tree, update, after⟩ := tracks.append room out.coinCom ()
  let written : LocalState := { wallet with merkleTree := tree, firstFree := wallet.firstFree + 1 }
  let taken (coin : CoinInfo) : LocalState :=
    (written.receive (keys.nullifierOf C coin) coin wallet.firstFree).settle out.coinCom
  rw [applyOutput, update]
  cases opens : keys.opened C out with
  | some other =>
    have found : out.ciphertext.bind (keys.tryDecrypt C) = some other := opens
    by_cases own : keys.commitmentOf C other = out.coinCom
    · refine ⟨taken other, ?_, after, receivesCoin (fun coin => ?_) rfl rfl⟩
      · simp only [found]
        exact if_pos own
      · rw [Takes, opens]
        grind
    · refine ⟨written, ?_, after, receivesNothing (fun coin => ?_) rfl rfl⟩
      · simp only [found]
        exact if_neg own
      · rw [Takes, opens]
        grind
  | none =>
    have found : out.ciphertext.bind (keys.tryDecrypt C) = none := opens
    cases waits : wallet.pendingOutputs.lookup out.coinCom with
    | some other =>
      refine ⟨taken other, by simp only [found]; rfl, after, receivesCoin (fun coin => ?_) rfl rfl⟩
      rw [Takes, opens, waits]
      grind
    | none =>
      have below : wallet.firstFree < (roll.append out.coinCom).count :=
        tracks.next ▸ Nat.lt_succ_self _
      refine ⟨{ written with merkleTree := tree.collapse H _ wallet.firstFree wallet.firstFree },
        by simp only [found]; rfl, after.collapse below (tracks.next ▸ room),
        receivesNothing (fun coin => ?_) rfl rfl⟩
      rw [Takes, opens, waits]
      grind

variable (C keys) in
theorem outputsApplied {outs : List Output}
    (tracks : wallet.merkleTree.Tracks H wallet.firstFree roll)
    (room : roll.count + outs.length ≤ 2 ^ zswapTreeHeight)
    (nodup : (outs.map Output.coinCom).Nodup) :
    ∃ next, (outs.map fun o => (o.coinCom, o.ciphertext)).foldlM (applyOutput C H keys)
        wallet = .ok next ∧
      next.merkleTree.Tracks H next.firstFree (roll.appendAll (outs.map Output.coinCom)) ∧
      Receives C keys wallet outs next := by
  induction outs generalizing wallet roll with
  | nil =>
    exact ⟨wallet, rfl, tracks, fun _ _ => rfl, fun _ _ => id, fun coin _ => by simp⟩
  | cons out outs ih =>
    rw [length_cons] at room
    rw [map_cons, nodup_cons] at nodup
    obtain ⟨middle, taken, tracks', first⟩ := outputApplied C keys tracks (by omega) out
    have count : (roll.append out.coinCom).count = roll.count + 1 := rfl
    obtain ⟨next, runs, final, rest⟩ := ih tracks' (by omega) nodup.2
    refine ⟨next, bindOk.mpr ⟨middle, taken, runs⟩, final, fun com absent => ?_,
      fun com coin found => first.fewer com coin (rest.fewer com coin found), fun coin distinct => ?_⟩
    · rw [map_cons, mem_cons, not_or] at absent
      rw [rest.others com absent.2, first.others com (by simpa using absent.1)]
    · have later : ∀ other ∈ outs, Takes C keys middle other coin ↔ Takes C keys wallet other coin := by
        intro other mem
        have apart : other.coinCom ≠ out.coinCom := fun same => nodup.1 (same ▸ mem_map_of_mem mem)
        have unmoved := first.others other.coinCom (by simpa using apart)
        rw [Takes, Takes, unmoved]
      rw [rest.coins coin distinct, first.coins coin distinct]
      simp only [mem_cons, not_mem_nil, or_false, exists_eq_left, exists_eq_or_imp, or_assoc]
      exact or_congr_right (or_congr_right (exists_congr fun other => and_congr_right (later other)))

variable (wallet) in
theorem nullifiersFrame (nullifiers : List Nullifier) :
    (nullifiers.foldl spent wallet).pendingOutputs = wallet.pendingOutputs ∧
      (nullifiers.foldl spent wallet).merkleTree = wallet.merkleTree ∧
      (nullifiers.foldl spent wallet).firstFree = wallet.firstFree := by
  induction nullifiers generalizing wallet with
  | nil => exact ⟨rfl, rfl, rfl⟩
  | cons nullifier nullifiers ih => exact ih (wallet.spent nullifier)

theorem nullifiersSpent (nullifiers : List Nullifier) :
    Holds C keys (nullifiers.foldl spent wallet) coin ↔
      Holds C keys wallet coin ∧ keys.nullifierOf C coin ∉ nullifiers := by
  induction nullifiers generalizing wallet with
  | nil => simp
  | cons nullifier nullifiers ih =>
    rw [foldl_cons, ih]
    simp only [Holds, spentLookup, mem_cons, not_or]
    grind

end Offers

section Runs

variable {B : Building E} {keys : SecretKeys E} {log : List WalletEntry} {ledger next : State}
  {wallet : LocalState}

structure Beside (B : Building E) (keys : SecretKeys E) (log : List WalletEntry) (ledger : State)
    (wallet : LocalState) : Prop where
  roll : ∃ roll, ledger.coinComs.Tracks B.hashing ledger.firstFree roll ∧
    wallet.merkleTree.Tracks B.hashing wallet.firstFree roll
  room : ledger.firstFree ≤ 2 ^ zswapTreeHeight
  pending : ∀ com coin, wallet.pendingOutputs.lookup com = some coin →
    com = keys.commitmentOf B.cryptography coin ∧ WatchedIn B.cryptography keys coin log
  awaited : ∀ coin, Distinct B.cryptography keys coin → WatchedIn B.cryptography keys coin log →
    keys.commitmentOf B.cryptography coin ∉ ledger.coinComsSet →
    wallet.pendingOutputs.lookup (keys.commitmentOf B.cryptography coin) = some coin
  coins : ∀ coin, Distinct B.cryptography keys coin → Undisguised B.cryptography keys coin log →
    (Holds B.cryptography keys wallet coin ↔ OwnedIn B.cryptography keys coin log)

theorem Beside.takes (beside : Beside B keys log ledger wallet) {offer : Offer} {coin : CoinInfo}
    (distinct : Distinct B.cryptography keys coin)
    (undisguised : Undisguised B.cryptography keys coin (.applied offer :: log))
    (fresh : ∀ com ∈ offer.created.map Output.coinCom, com ∉ ledger.coinComsSet) :
    (∃ out ∈ offer.created, Takes B.cryptography keys wallet out coin) ↔
      ReceivedFrom B.cryptography keys coin offer log := by
  refine exists_congr fun out => and_congr_right fun mem => ?_
  constructor
  · rintro (⟨opens, own⟩ | ⟨closed, waits⟩)
    · exact ⟨own, .inl opens⟩
    · obtain ⟨own, watched⟩ := beside.pending _ _ waits
      exact ⟨own, .inr watched⟩
  · rintro ⟨own, opens | watched⟩
    · exact .inl ⟨opens, own⟩
    · cases opens : keys.opened B.cryptography out with
      | some other =>
        cases undisguised.1 watched out mem own other opens
        exact .inl ⟨opens, own⟩
      | none =>
        refine .inr ⟨opens, ?_⟩
        rw [own]
        exact beside.awaited coin distinct watched (own ▸ fresh _ (mem_map_of_mem mem))

theorem Beside.offer (beside : Beside B keys log ledger wallet)
    {whitelist : Whitelist} {offer : Offer} {indices : ComIndices}
    (accepted : ledger.tryApply B.hashing whitelist offer = .ok (next, indices)) :
    ∃ held, wallet.apply B.cryptography B.hashing keys offer = .ok held ∧
      Beside B keys (.applied offer :: log) next held := by
  obtain ⟨roll, ledgerTracks, walletTracks⟩ := beside.roll
  obtain ⟨nodup, fresh⟩ := State.createdNodup accepted
  obtain ⟨-, count, room, -⟩ := State.tryApplyIndexed beside.room accepted
  have fits : roll.count + offer.created.length ≤ 2 ^ zswapTreeHeight := by
    rw [← ledgerTracks.next, ← count]
    exact room
  obtain ⟨received, runs, tracks, receives⟩ :=
    outputsApplied B.cryptography keys walletTracks fits nodup
  have outputs : offer.outputs.map (fun o => (o.coinCom, o.ciphertext)) ++
      offer.transient.map (fun io => (io.coinCom, io.ciphertext)) =
      offer.created.map fun o => (o.coinCom, o.ciphertext) := by
    rw [Offer.created, map_append, map_map]
    rfl
  obtain ⟨pending, tree, free⟩ := nullifiersFrame received offer.nullifiers
  refine ⟨_, bindOk.mpr ⟨received, outputs ▸ runs, rfl⟩, ⟨_, tryApplyTracked ledgerTracks accepted, ?_⟩,
    room, fun com coin found => ?_, fun coin distinct watched absent => ?_,
    fun coin distinct undisguised => ?_⟩
  · have rehashed := tracks.rehash
    rw [← tree, ← free] at rehashed
    exact rehashed
  · exact beside.pending com coin (receives.fewer com coin (pending ▸ found))
  · rw [State.tryApplyCommitments accepted, not_or] at absent
    have kept := receives.others _ absent.1
    rw [← pending] at kept
    exact kept.trans (beside.awaited coin distinct watched absent.2)
  · rw [OwnedIn, ← beside.coins coin distinct undisguised.2, or_comm]
    refine (nullifiersSpent offer.nullifiers).trans ?_
    rw [receives.coins coin distinct, beside.takes distinct undisguised fresh]

end Runs

end MidnightLedger.Zswap

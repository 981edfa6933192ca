import Mathlib.Data.Nat.Log
import MidnightLedger.Lib.Bytes
import MidnightLedger.Lib.Graphs

/-! Keys of stored nodes and the graph of the nodes (storage-core/src/arena.rs): a small child is
inlined with its data, every other child is referred to by its hash. -/
namespace MidnightLedger.Storage
open ByteString Graphs List

inductive ArenaKey (H : Type) where
  | ref (hash : H)
  | direct (data : Bytes) (children : List (ArenaKey H)) (hash : H)
  deriving Repr

variable {H : Type}

namespace ArenaKey

mutual

def decEq [DecidableEq H] : (a b : ArenaKey H) → Decidable (a = b)
  | .ref x, .ref y => decidable_of_iff (x = y) (by rw [ref.injEq])
  | .ref _, .direct .. => .isFalse nofun
  | .direct .., .ref _ => .isFalse nofun
  | .direct data children hash, .direct data' children' hash' =>
    match decEqAll children children' with
    | .isTrue same => decidable_of_iff (data = data' ∧ hash = hash') (by simp [same])
    | .isFalse other => .isFalse fun same => other (by cases same; rfl)

def decEqAll [DecidableEq H] : (as bs : List (ArenaKey H)) → Decidable (as = bs)
  | [], [] => .isTrue rfl
  | [], _ :: _ => .isFalse nofun
  | _ :: _, [] => .isFalse nofun
  | a :: as, b :: bs =>
    match decEq a b, decEqAll as bs with
    | .isTrue head, .isTrue tail => .isTrue (by rw [head, tail])
    | .isFalse other, _ => .isFalse fun same => other (cons.inj same).1
    | _, .isFalse other => .isFalse fun same => other (cons.inj same).2

end

instance [DecidableEq H] : DecidableEq (ArenaKey H) := decEq

def hash : ArenaKey H → H
  | .ref hash => hash
  | .direct _ _ hash => hash

def isRef : ArenaKey H → Bool
  | .ref _ => true
  | .direct .. => false

mutual

def refs : ArenaKey H → List H
  | .ref hash => [hash]
  | .direct _ children _ => refsAll children

def refsAll : List (ArenaKey H) → List H
  | [] => []
  | child :: children => refsAll children ++ refs child

end

end ArenaKey

def scaleSize (n : ℕ) : ℕ :=
  if n < 2 ^ 6 then 1
  else if n < 2 ^ 14 then 2
  else if n < 2 ^ 30 then 4
  else 1 + (Nat.log 256 n + 1)

def hashBytes : ℕ := 32

mutual

def ArenaKey.serializedSize {H : Type} : ArenaKey H → ℕ
  | .ref _ => 1 + hashBytes
  | .direct data children _ =>
    1 + (scaleSize data.length + data.length) +
      (scaleSize children.length + serializedSizeAll children)

def serializedSizeAll {H : Type} : List (ArenaKey H) → ℕ
  | [] => 0
  | child :: children => child.serializedSize + serializedSizeAll children

end

structure OnDiskObject (H : Type) where
  data : Bytes
  children : List (ArenaKey H)

namespace OnDiskObject

def size (node : OnDiskObject H) : ℕ := node.data.length + 4 + node.children.length * hashBytes

def refs (node : OnDiskObject H) : List H := node.children.flatMap ArenaKey.refs

end OnDiskObject

structure Store (H : Type) where
  node : H → OnDiskObject H
  height : H → ℕ
  acyclic : ∀ h, ∀ c ∈ (node h).refs, height c < height h

namespace Store

variable (S : Store H)

/- The edges of a key lead over inlined nodes. -/
def edges (key : ArenaKey H) : List (ArenaKey H) :=
  (match key with
  | .ref hash => (S.node hash).refs
  | .direct .. => key.refs).map .ref

theorem edgesRef {key c : ArenaKey H} (mem : c ∈ S.edges key) : c.isRef = true := by
  obtain ⟨h, -, rfl⟩ := mem_map.mp mem
  rfl

def rank : ArenaKey H → ℕ
  | .ref hash => S.height hash
  | key@(.direct ..) => (key.refs.map S.height).foldr max 0 + 1

theorem lower (key : ArenaKey H) : ∀ c ∈ S.edges key, S.rank c < S.rank key := by
  intro c mem
  cases key with
  | ref hash =>
    obtain ⟨h, edge, rfl⟩ := mem_map.mp mem
    exact S.acyclic hash h edge
  | direct data children hash =>
    obtain ⟨h, edge, rfl⟩ := mem_map.mp mem
    have bounded : ∀ {ns : List ℕ} {n : ℕ}, n ∈ ns → n ≤ ns.foldr max 0 := by
      intro ns n member
      induction ns with
      | nil => cases member
      | cons m ns ih =>
        rcases mem_cons.mp member with rfl | rest
        · exact le_max_left ..
        · exact (ih rest).trans (le_max_right ..)
    exact Nat.lt_succ_of_le (bounded (mem_map_of_mem edge))

end Store

end MidnightLedger.Storage

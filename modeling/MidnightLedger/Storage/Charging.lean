import MidnightLedger.Lib.Maps
import MidnightLedger.Lib.Words
import MidnightLedger.Storage.Keys
import MidnightLedger.Lib.Loops

/-! Costs of writes and deletes of a contract's state (storage/src/delta_tracking/mod.rs,
storage/src/delta_tracking/rcmap.rs, ChargedState in onchain-state/src/state.rs), and that adding and
collecting keys keeps the counts exact. Sets are lists without repetitions; the order in which they
are iterated is a parameter. -/
namespace MidnightLedger.Storage
open Maps Words Graphs

structure RunningCost where
  readTime : ℕ
  computeTime : ℕ
  bytesWritten : ℕ
  bytesDeleted : ℕ
  deriving DecidableEq, Repr

instance : Add RunningCost where
  add a b := ⟨a.readTime + b.readTime, a.computeTime + b.computeTime,
    a.bytesWritten + b.bytesWritten, a.bytesDeleted + b.bytesDeleted⟩

structure RcMap (H : Type) where
  rcGe1 : Map H ℕ
  rc0 : List (ArenaKey H)

namespace RcMap

variable {H : Type} [DecidableEq H]

def empty : RcMap H := ⟨∅, []⟩

def getRc (rc : RcMap H) (key : ArenaKey H) : Option ℕ :=
  match key with
  | .ref hash =>
    match rc.rcGe1.lookup hash with
    | some count => some count
    | none => if .ref hash ∈ rc.rc0 then some 0 else none
  | .direct data children hash => if .direct data children hash ∈ rc.rc0 then some 0 else none

def contains (rc : RcMap H) (key : ArenaKey H) : Bool := (rc.getRc key).isSome

def insRoot (rc : RcMap H) (key : ArenaKey H) : RcMap H := { rc with rc0 := rc.rc0.insert key }

def rmRoot (rc : RcMap H) (key : ArenaKey H) : RcMap H := { rc with rc0 := rc.rc0.erase key }

def modifyRc (rc : RcMap H) (hash : H) (updated : ℕ) : RcMap H :=
  match (rc.rcGe1.lookup hash).getD 0, updated with
  | 0, 0 => { rc with rc0 := rc.rc0.insert (.ref hash) }
  | 0, n + 1 => ⟨rc.rcGe1.insert hash (n + 1), rc.rc0.erase (.ref hash)⟩
  | _ + 1, n + 1 => { rc with rcGe1 := rc.rcGe1.insert hash (n + 1) }
  | _ + 1, 0 => ⟨rc.rcGe1.erase hash, rc.rc0.insert (.ref hash)⟩

def getUnreachableKeysNotIn (rc : RcMap H) (roots : List (ArenaKey H)) : List (ArenaKey H) :=
  rc.rc0.filter (· ∉ roots)

def removeUnreachableKey (rc : RcMap H) (key : ArenaKey H) : Option (RcMap H) :=
  if key ∈ rc.rc0 then some { rc with rc0 := rc.rc0.erase key } else none

end RcMap

structure Iteration (K : Type) where
  order : List K → List K
  perm : ∀ keys, (order keys).Perm keys

def bump {K : Type} [DecidableEq K] (m : Map K ℕ) (k : K) : Map K ℕ :=
  m.insert k ((m.lookup k).getD 0 + 1)

def expect {α : Type} : Option α → Except Panic α
  | some a => .ok a
  | none => .error .panic

structure WriteDeleteResults (H : Type) where
  bytesWritten : ℕ
  bytesDeleted : ℕ
  nodesWritten : ℕ
  nodesDeleted : ℕ
  processingCost : RunningCost
  updatedChargedKeys : RcMap H

def WriteDeleteResults.runningCost {H : Type} (results : WriteDeleteResults H) : RunningCost :=
  ⟨0, 0, results.bytesWritten, results.bytesDeleted⟩ + results.processingCost

section Costs

variable {H : Type} [DecidableEq H] (S : Store H) (I : Iteration (ArenaKey H)) (live : H → Bool)

def load (hash : H) : Except Panic (OnDiskObject H) :=
  expect (if live hash then some (S.node hash) else none)

def childRefs (key : ArenaKey H) : Except Panic (List (ArenaKey H)) :=
  match key with
  | .ref hash => do
    let node ← load S live hash
    .ok (node.refs.map .ref)
  | .direct data children hash => .ok ((ArenaKey.direct data children hash).refs.map .ref)

def getWrites (fuel : ℕ) (rc : RcMap H) (roots : List (ArenaKey H)) :
    Option (Except Panic (List (ArenaKey H))) :=
  collect (childRefs S live) rc.contains fuel (I.order roots).reverse []

def incMap (added : List (ArenaKey H)) : Except Panic (Map (ArenaKey H) ℕ) :=
  (I.order added).foldlM (fun inc key => do
    let children ← childRefs S live key
    .ok (children.foldl bump inc)) ((I.order added).foldl (fun inc key => inc.insert key 0) ∅)

def addRefs (inc : Map (ArenaKey H) ℕ) (rc : RcMap H) (key : ArenaKey H) : RcMap H :=
  match key with
  | .ref hash => rc.modifyRc hash ((rc.getRc (.ref hash)).getD 0 + (inc.lookup (.ref hash)).getD 0)
  | .direct data children hash => rc.insRoot (.direct data children hash)

def updateRcmap (rc : RcMap H) (added : List (ArenaKey H)) : Except Panic (RcMap H) := do
  let inc ← incMap S I live added
  .ok ((I.order inc.keys).foldl (addRefs inc) rc)

structure Collection (H : Type) where
  queue : List (ArenaKey H)
  rcCache : Map (ArenaKey H) ℕ
  updateQueue : Map (ArenaKey H) ℕ
  keysRemoved : List (ArenaKey H)

def decrement (rc : RcMap H) (roots : List (ArenaKey H)) (s : Collection H) (child : ArenaKey H) :
    Collection H :=
  let existing := (s.rcCache.lookup child).getD ((rc.getRc child).getD 0)
  let sub := (s.updateQueue.lookup child).getD 0 + 1
  { s with
    rcCache := s.rcCache.insert child existing
    updateQueue := s.updateQueue.insert child sub
    queue := if existing ≤ sub ∧ child ∉ roots then child :: s.queue else s.queue }

def collectKey (rc : RcMap H) (roots : List (ArenaKey H)) (s : Collection H) (key : ArenaKey H) :
    Except Panic (Collection H) := do
  let children ← childRefs S live key
  let s := children.foldl (decrement rc roots) s
  .ok { s with keysRemoved := s.keysRemoved.insert key }

/- Up to the step limit; the keys in storage come before those in the queue. -/
def gcLoop (rc : RcMap H) (roots : List (ArenaKey H)) :
    ℕ → List (ArenaKey H) → Collection H → Except Panic (Collection H)
  | 0, _, s => .ok s
  | steps + 1, key :: storage, s => do
    let s ← collectKey S live rc roots s key
    gcLoop rc roots steps storage s
  | steps + 1, [], s =>
    match s.queue with
    | [] => .ok s
    | key :: queue => do
      let s ← collectKey S live rc roots { s with queue := queue } key
      gcLoop rc roots steps [] s

def dropRefs (s : Collection H) (rc : RcMap H) (key : ArenaKey H) : Except Panic (RcMap H) :=
  match key with
  | .ref hash => do
    let original ← expect (s.rcCache.lookup (.ref hash))
    .ok (rc.modifyRc hash (original - (s.updateQueue.lookup (.ref hash)).getD 0))
  | .direct data children hash => .ok (rc.rmRoot (.direct data children hash))

def gcRcmap (rc : RcMap H) (roots : List (ArenaKey H)) (stepLimit : ℕ) :
    Except Panic (RcMap H × List (ArenaKey H)) := do
  let s ← gcLoop S live rc roots stepLimit (I.order (rc.getUnreachableKeysNotIn roots))
    ⟨[], ∅, ∅, []⟩
  let rc ← (I.order s.updateQueue.keys).foldlM (dropRefs s) rc
  let rc ← (I.order s.keysRemoved).foldlM (fun rc key => expect (rc.removeUnreachableKey key)) rc
  .ok (rc, s.keysRemoved)

def keyBytes (key : ArenaKey H) : Except Panic ℕ :=
  match key with
  | .ref hash => do
    let node ← load S live hash
    .ok (node.size + 32 + 4)
  | .direct data children hash => .ok ((ArenaKey.direct data children hash).serializedSize * 2)

def computeBytesFromKeys (keys : List (ArenaKey H)) : Except Panic ℕ := do
  let sizes ← (I.order keys).mapM (keyBytes S live)
  .ok sizes.sum

def WriteDeleteResults.new (added removed : List (ArenaKey H)) (charged : RcMap H)
    (cpuCost : ℕ → ℕ → RunningCost) : Except Panic (WriteDeleteResults H) := do
  let written ← computeBytesFromKeys S I live added
  let deleted ← computeBytesFromKeys S I live removed
  .ok ⟨written, deleted, added.length, removed.length, cpuCost added.length removed.length, charged⟩

/- `none` is a worklist that has not come to its end within the fuel. -/
def initialWriteDeleteCosts (fuel : ℕ) (r0 : List (ArenaKey H)) (cpuCost : ℕ → ℕ → RunningCost) :
    Option (Except Panic (WriteDeleteResults H)) := do
  let reachable ← getWrites S I live fuel .empty r0
  some do
    let added ← reachable
    let k0 ← updateRcmap S I live .empty added
    WriteDeleteResults.new S I live added [] k0 cpuCost

def incrementalWriteDeleteCosts (fuel : ℕ) (k0 : RcMap H) (r1 : List (ArenaKey H))
    (cpuCost : ℕ → ℕ → RunningCost) (gcLimit : RunningCost → ℕ) :
    Option (Except Panic (WriteDeleteResults H)) := do
  let writes ← getWrites S I live fuel k0 r1
  some do
    let added ← writes
    let k ← updateRcmap S I live k0 added
    let (k1, removed) ← gcRcmap S I live k r1 (gcLimit (cpuCost added.length 0))
    WriteDeleteResults.new S I live added removed k1 cpuCost

end Costs

structure ChargedState (H : Type) where
  state : ArenaKey H
  chargedKeys : RcMap H

namespace ChargedState

variable {H : Type} [DecidableEq H] (S : Store H) (I : Iteration (ArenaKey H)) (live : H → Bool)

def new (fuel : ℕ) (state : ArenaKey H) : Option (Except Panic (ChargedState H)) := do
  let results ← initialWriteDeleteCosts S I live fuel [state] fun _ _ => ⟨0, 0, 0, 0⟩
  some (results.map fun results => ⟨state, results.updatedChargedKeys⟩)

def update (fuel : ℕ) (charged : ChargedState H) (newState : ArenaKey H)
    (cpuCost : ℕ → ℕ → RunningCost) (gcLimit : RunningCost → ℕ) :
    Option (Except Panic (ChargedState H × RunningCost)) := do
  let results ←
    incrementalWriteDeleteCosts S I live fuel charged.chargedKeys [newState] cpuCost gcLimit
  some (results.map fun results => (⟨newState, results.updatedChargedKeys⟩, results.runningCost))

end ChargedState

open Loops List AList

variable {H : Type} [DecidableEq H] {rc : RcMap H}

namespace RcMap

structure WellFormed (rc : RcMap H) : Prop where
  positive : ∀ h n, rc.rcGe1.lookup h = some n → 0 < n
  apart : ∀ h, .ref h ∈ rc.rc0 → rc.rcGe1.lookup h = none
  nodup : rc.rc0.Nodup

theorem emptyWellFormed : WellFormed (empty : RcMap H) := by
  refine ⟨fun h n found => ?_, fun h mem => ?_, nodup_nil⟩
  · cases found
  · cases mem

theorem getRcRef (hash : H) : rc.getRc (.ref hash) =
    match rc.rcGe1.lookup hash with
    | some count => some count
    | none => if .ref hash ∈ rc.rc0 then some 0 else none := rfl

theorem getRcZero (wf : rc.WellFormed) {key : ArenaKey H} :
    rc.getRc key = some 0 ↔ key ∈ rc.rc0 := by
  cases key with
  | ref hash =>
    rw [getRcRef]
    cases found : rc.rcGe1.lookup hash with
    | none => simp
    | some count =>
      have positive := wf.positive hash count found
      refine ⟨fun zero => ?_, fun mem => ?_⟩
      · cases zero
        omega
      · rw [wf.apart hash mem] at found
        cases found
  | direct data children hash => simp [getRc]

structure Sets (rc next : RcMap H) (hash : H) (updated : ℕ) : Prop where
  others : ∀ h, h ≠ hash → next.rcGe1.lookup h = rc.rcGe1.lookup h
  keys : ∀ key, key ≠ .ref hash → (key ∈ next.rc0 ↔ key ∈ rc.rc0)
  nodup : next.rc0.Nodup
  here : updated = 0 ∧ next.rcGe1.lookup hash = none ∧ .ref hash ∈ next.rc0 ∨
    0 < updated ∧ next.rcGe1.lookup hash = some updated ∧ .ref hash ∉ next.rc0

section

variable {next : RcMap H} {hash : H} {updated : ℕ} (sets : Sets rc next hash updated)
include sets

theorem Sets.wellFormed (wf : rc.WellFormed) : next.WellFormed := by
  refine ⟨fun h n found => ?_, fun h mem => ?_, sets.nodup⟩
  · by_cases same : h = hash
    · subst same
      rcases sets.here with ⟨-, absent, -⟩ | ⟨positive, present, -⟩
      · rw [absent] at found
        cases found
      · rw [present] at found
        cases found
        exact positive
    · exact wf.positive h n (sets.others h same ▸ found)
  · by_cases same : h = hash
    · subst same
      rcases sets.here with ⟨-, absent, -⟩ | ⟨-, -, outside⟩
      · exact absent
      · exact absurd mem outside
    · rw [sets.others h same]
      exact wf.apart h ((sets.keys _ (by simpa using same)).mp mem)

theorem Sets.getRc (key : ArenaKey H) :
    next.getRc key = if key = .ref hash then some updated else rc.getRc key := by
  cases key with
  | ref h =>
    by_cases same : h = hash
    · subst same
      rw [if_pos rfl, getRcRef]
      rcases sets.here with ⟨rfl, absent, inside⟩ | ⟨-, present, -⟩
      · rw [absent]
        exact if_pos inside
      · rw [present]
    · have other : ArenaKey.ref h ≠ .ref hash := by simpa using same
      rw [if_neg other, getRcRef, getRcRef, sets.others h same]
      simp only [sets.keys _ other]
  | direct data children h =>
    rw [if_neg nofun]
    simp only [RcMap.getRc, sets.keys (.direct data children h) nofun]

end

section

variable (wf : rc.WellFormed)
include wf

theorem modifyRcSets (hash : H) (updated : ℕ) :
    Sets rc (rc.modifyRc hash updated) hash updated := by
  have inserted : ∀ key, key ≠ .ref hash → (key ∈ rc.rc0.insert (.ref hash) ↔ key ∈ rc.rc0) :=
    fun key other => by simp [other]
  have erased : ∀ key, key ≠ .ref hash → (key ∈ rc.rc0.erase (.ref hash) ↔ key ∈ rc.rc0) :=
    fun key other => mem_erase_of_ne other
  cases found : rc.rcGe1.lookup hash with
  | none =>
    cases updated with
    | zero =>
      have shape : rc.modifyRc hash 0 = { rc with rc0 := rc.rc0.insert (.ref hash) } := by
        unfold modifyRc
        rw [found]
        rfl
      rw [shape]
      exact ⟨fun _ _ => rfl, inserted, wf.nodup.insert, .inl ⟨rfl, found, by simp⟩⟩
    | succ n =>
      have shape : rc.modifyRc hash (n + 1) =
          ⟨rc.rcGe1.insert hash (n + 1), rc.rc0.erase (.ref hash)⟩ := by
        unfold modifyRc
        rw [found]
        rfl
      rw [shape]
      exact ⟨fun h other => lookup_insert_ne other, erased, wf.nodup.erase _,
        .inr ⟨n.succ_pos, lookup_insert _, wf.nodup.not_mem_erase⟩⟩
  | some count =>
    obtain ⟨m, rfl⟩ := Nat.exists_eq_add_one_of_ne_zero (wf.positive hash count found).ne'
    have outside : .ref hash ∉ rc.rc0 := fun mem => by
      rw [wf.apart hash mem] at found
      cases found
    cases updated with
    | zero =>
      have shape : rc.modifyRc hash 0 = ⟨rc.rcGe1.erase hash, rc.rc0.insert (.ref hash)⟩ := by
        unfold modifyRc
        rw [found]
        rfl
      rw [shape]
      exact ⟨fun h other => lookup_erase_ne other, inserted, wf.nodup.insert,
        .inl ⟨rfl, lookup_erase .., by simp⟩⟩
    | succ n =>
      have shape : rc.modifyRc hash (n + 1) = { rc with rcGe1 := rc.rcGe1.insert hash (n + 1) } := by
        unfold modifyRc
        rw [found]
        rfl
      rw [shape]
      exact ⟨fun h other => lookup_insert_ne other, fun _ _ => Iff.rfl, wf.nodup,
        .inr ⟨n.succ_pos, lookup_insert _, outside⟩⟩

theorem modifyRcSpec (hash : H) (updated : ℕ) : (rc.modifyRc hash updated).WellFormed ∧
      ∀ key, (rc.modifyRc hash updated).getRc key =
        if key = .ref hash then some updated else rc.getRc key :=
  ⟨(modifyRcSets wf hash updated).wellFormed wf, (modifyRcSets wf hash updated).getRc⟩

theorem insRootSpec {key : ArenaKey H} (direct : key.isRef = false) : (rc.insRoot key).WellFormed ∧
      ∀ k, (rc.insRoot key).getRc k = if k = key then some 0 else rc.getRc k := by
  have other : ∀ h, ArenaKey.ref h ≠ key := by
    rintro h rfl
    cases direct
  refine ⟨⟨wf.positive, fun h mem => wf.apart h ?_, wf.nodup.insert⟩, fun k => ?_⟩
  · simpa [insRoot, other h] using mem
  · cases k with
    | ref h => simp [getRc, insRoot, other h]
    | direct data children h =>
      by_cases same : ArenaKey.direct data children h = key
      · simp [getRc, insRoot, same]
      · simp [getRc, insRoot, same]

theorem removeUnreachableKeySpec {key : ArenaKey H} (zero : rc.getRc key = some 0) :
    ∃ next, rc.removeUnreachableKey key = some next ∧
      next.WellFormed ∧ ∀ k, next.getRc k = if k = key then none else rc.getRc k := by
  have mem := (getRcZero wf).mp zero
  refine ⟨_, if_pos mem, ⟨wf.positive, fun h inside => wf.apart h (mem_of_mem_erase inside),
    wf.nodup.erase _⟩, fun k => ?_⟩
  have members : ∀ k, k ∈ rc.rc0.erase key ↔ k ≠ key ∧ k ∈ rc.rc0 := fun k => wf.nodup.mem_erase_iff
  cases k with
  | ref h =>
    by_cases same : ArenaKey.ref h = key
    · have absent := wf.apart h (same ▸ mem)
      simp [getRc, absent, members, same]
    · simp [getRc, members, same]
  | direct data children h =>
    by_cases same : ArenaKey.direct data children h = key
    · simp [getRc, members, same]
    · simp [getRc, members, same]

end

def charged (rc : RcMap H) : Finset (ArenaKey H) :=
  (rc.rc0 ++ rc.rcGe1.keys.map ArenaKey.ref).toFinset

theorem memCharged {key : ArenaKey H} : key ∈ rc.charged ↔ rc.getRc key ≠ none := by
  rw [charged, mem_toFinset, mem_append]
  cases key with
  | ref hash =>
    have counted : hash ∈ rc.rcGe1.keys ↔ rc.rcGe1.lookup hash ≠ none := by
      rw [← AList.mem_keys, ← lookup_isSome, Option.isSome_iff_ne_none]
    rw [getRcRef]
    cases found : rc.rcGe1.lookup hash <;> simp [counted, found]
  | direct data children hash => simp [getRc]

theorem foldSets {f : RcMap H → ArenaKey H → Except Panic (RcMap H)} {v : ArenaKey H → Option ℕ}
    {keys : List (ArenaKey H)} (nodup : keys.Nodup) (wf : rc.WellFormed)
    (each : ∀ key ∈ keys, ∀ rc', WellFormed rc' → rc'.getRc key = rc.getRc key →
      ∃ next, f rc' key = .ok next ∧ next.WellFormed ∧
        ∀ k, next.getRc k = if k = key then v key else rc'.getRc k) :
    ∃ final, keys.foldlM f rc = .ok final ∧ final.WellFormed ∧
      ∀ k, final.getRc k = if k ∈ keys then v k else rc.getRc k := by
  suffices general : ∀ rc', WellFormed rc' → (∀ key ∈ keys, rc'.getRc key = rc.getRc key) →
      ∃ final, keys.foldlM f rc' = .ok final ∧ final.WellFormed ∧
        ∀ k, final.getRc k = if k ∈ keys then v k else rc'.getRc k from
    general rc wf fun _ _ => rfl
  induction keys with
  | nil => exact fun rc' wf' _ => ⟨rc', rfl, wf', fun k => rfl⟩
  | cons key keys ih =>
    intro rc' wf' same
    obtain ⟨absent, nodup⟩ := nodup_cons.mp nodup
    obtain ⟨next, done, wfNext, values⟩ := each key mem_cons_self rc' wf' (same key mem_cons_self)
    have untouched : ∀ other ∈ keys, next.getRc other = rc.getRc other := by
      intro other mem
      have apart : other ≠ key := fun equal => absent (equal ▸ mem)
      rw [values, if_neg apart, same other (mem_cons_of_mem _ mem)]
    obtain ⟨final, rest, wfFinal, results⟩ :=
      ih nodup (forall_mem_cons.mp each).2 next wfNext untouched
    refine ⟨final, ?_, wfFinal, fun k => ?_⟩
    · rw [foldlM_cons, done]
      exact rest
    · rw [results, values]
      by_cases first : k = key
      · subst first
        simp [absent]
      · simp [first]

end RcMap

section Tallies

variable {K : Type} [DecidableEq K]

theorem bumpLookup (m : Map K ℕ) (k other : K) :
    (bump m k).lookup other =
      if other = k then some ((m.lookup k).getD 0 + 1) else m.lookup other := by
  by_cases same : other = k
  · rw [same, if_pos rfl, bump, lookup_insert]
  · rw [if_neg same, bump, lookup_insert_ne same]

theorem bumpsCount (m : Map K ℕ) (ks : List K) (k : K) :
    ((ks.foldl bump m).lookup k).getD 0 = (m.lookup k).getD 0 + ks.count k := by
  induction ks generalizing m with
  | nil => rfl
  | cons x ks ih =>
    rw [foldl_cons, ih, bumpLookup, count_cons]
    by_cases same : k = x
    · subst same
      rw [if_pos rfl, Option.getD_some, beq_self_eq_true, if_pos rfl]
      omega
    · simp [same, Ne.symm same]

theorem bumpsKeys (m : Map K ℕ) (ks : List K) (k : K) : k ∈ ks.foldl bump m ↔ k ∈ m ∨ k ∈ ks := by
  induction ks generalizing m with
  | nil => simp
  | cons x ks ih =>
    rw [foldl_cons, ih, bump, mem_insert, mem_cons]
    tauto

end Tallies

section Updates

variable {S : Store H} {I : Iteration (ArenaKey H)} {live : H → Bool} {roots : ArenaKey H → Prop}
  {added : List (ArenaKey H)}

def Loadable (live : H → Bool) : ArenaKey H → Prop
  | .ref hash => live hash = true
  | .direct .. => True

variable {key : ArenaKey H}

omit [DecidableEq H] in
theorem childRefsOk (loadable : Loadable live key) : childRefs S live key = .ok (S.edges key) := by
  cases key with
  | ref hash =>
    have alive : live hash = true := loadable
    rw [childRefs, load, if_pos alive]
    rfl
  | direct data children hash => rfl

theorem incMapOk (S : Store H) (I : Iteration (ArenaKey H))
    (loadable : ∀ key ∈ added, Loadable live key) :
    ∃ inc, incMap S I live added = .ok inc ∧
      ∀ k, (inc.lookup k).getD 0 = (added.flatMap S.edges).count k ∧
        (k ∈ inc.keys ↔ k ∈ added ∨ k ∈ added.flatMap S.edges) := by
  have zeros : ∀ (keys : List (ArenaKey H)) (m : Map (ArenaKey H) ℕ) (k : ArenaKey H),
      (∀ j, (m.lookup j).getD 0 = 0) →
      ((keys.foldl (fun inc key => inc.insert key 0) m).lookup k).getD 0 = 0 ∧
        (k ∈ keys.foldl (fun inc key => inc.insert key 0) m ↔ k ∈ m ∨ k ∈ keys) := by
    intro keys
    induction keys with
    | nil => exact fun m k zero => ⟨zero k, by simp⟩
    | cons key keys ih =>
      intro m k zero
      obtain ⟨value, members⟩ := ih (m.insert key 0) k fun j => by
        by_cases same : j = key
        · rw [same, lookup_insert]
          rfl
        · rw [lookup_insert_ne same, zero]
      rw [foldl_cons, members, mem_insert, mem_cons]
      tauto
  have loops : ∀ (keys : List (ArenaKey H)) (m : Map (ArenaKey H) ℕ),
      (∀ key ∈ keys, Loadable live key) →
      keys.foldlM (fun inc key => do
        let children ← childRefs S live key
        .ok (children.foldl bump inc)) m = .ok ((keys.flatMap S.edges).foldl bump m) := by
    intro keys
    induction keys with
    | nil => exact fun m _ => rfl
    | cons key keys ih =>
      intro m each
      rw [foldlM_cons, childRefsOk (each key mem_cons_self), okBind, okBind,
        ih _ (forall_mem_cons.mp each).2, flatMap_cons, foldl_append]
  have order := I.perm added
  refine ⟨_, loops (I.order added) _ fun key mem => loadable key (order.mem_iff.mp mem), fun k => ?_⟩
  obtain ⟨zero, members⟩ := zeros (I.order added) ∅ k fun j => rfl
  have edges := order.flatMap_right S.edges
  refine ⟨?_, ?_⟩
  · rw [bumpsCount, zero, zero_add, edges.count_eq]
  · rw [← AList.mem_keys, bumpsKeys, members, order.mem_iff, edges.mem_iff]
    simp

theorem incomingList (nodup : added.Nodup) (k : ArenaKey H) :
    (added.flatMap S.edges).count k = incoming S.edges added.toFinset k := by
  rw [incoming, count_flatMap, sum_toFinset _ nodup]
  rfl

structure Exact (S : Store H) (rc : RcMap H) : Prop where
  wf : rc.WellFormed
  closed : Closed S.edges rc.charged
  counts : ∀ k, rc.getRc k =
    if k ∈ rc.charged then some (incoming S.edges rc.charged k) else none

theorem exactOf {T : Finset (ArenaKey H)} (wf : rc.WellFormed) (closed : Closed S.edges T)
    (values : ∀ k, rc.getRc k = if k ∈ T then some (incoming S.edges T k) else none) :
    Exact S rc ∧ rc.charged = T := by
  have same : rc.charged = T := by
    ext k
    rw [RcMap.memCharged, values]
    by_cases mem : k ∈ T <;> simp [mem]
  exact ⟨⟨wf, same ▸ closed, same ▸ values⟩, same⟩

theorem emptyExact : Exact S (RcMap.empty : RcMap H) ∧ (RcMap.empty : RcMap H).charged = ∅ := by
  refine exactOf RcMap.emptyWellFormed (fun x mem => absurd mem (Finset.notMem_empty x)) fun k => ?_
  cases k <;> rfl

theorem containsIff : rc.contains key = true ↔ key ∈ rc.charged := by
  rw [RcMap.contains, RcMap.memCharged, Option.isSome_iff_ne_none]

theorem addRefsSpec {inc : Map (ArenaKey H) ℕ} (wf : rc.WellFormed)
    (direct : key.isRef = false → (inc.lookup key).getD 0 = 0) :
    (addRefs inc rc key).WellFormed ∧ ∀ k, (addRefs inc rc key).getRc k =
      if k = key then some ((rc.getRc key).getD 0 + (inc.lookup key).getD 0) else rc.getRc k := by
  cases key with
  | ref hash => exact RcMap.modifyRcSpec wf hash _
  | direct data children hash =>
    have zero : (rc.getRc (.direct data children hash)).getD 0 = 0 := by
      rw [RcMap.getRc]
      split <;> rfl
    rw [zero, direct rfl]
    exact RcMap.insRootSpec wf rfl

theorem updateRcmapExact (exact : Exact S rc)
    (collected : Collecting S.edges rc.contains roots [] added)
    (loadable : ∀ key ∈ added, Loadable live key) :
    ∃ next, updateRcmap S I live rc added = .ok next ∧ Exact S next ∧
      next.charged = rc.charged ∪ added.toFinset := by
  obtain ⟨inc, counted, entries⟩ := incMapOk S I loadable
  let A := added.toFinset
  have apart : Disjoint rc.charged A := by
    rw [Finset.disjoint_right]
    intro k mem charged
    have fresh := collected.fresh k (mem_toFinset.mp mem)
    rw [containsIff.mpr charged] at fresh
    cases fresh
  have settled : ∀ k, rc.contains k = true ∨ k ∈ added ∨ k ∈ [] → k ∈ rc.charged ∪ A := by
    rintro k (old | new | none)
    · exact Finset.mem_union_left _ (containsIff.mp old)
    · exact Finset.mem_union_right _ (mem_toFinset.mpr new)
    · cases none
  have closed : Closed S.edges (rc.charged ∪ A) := by
    intro x mem c edge
    rcases Finset.mem_union.mp mem with old | new
    · exact Finset.mem_union_left _ (exact.closed x old c edge)
    · exact settled c (collected.closed x (mem_toFinset.mp new) c edge)
  have counts : ∀ k, (inc.lookup k).getD 0 = incoming S.edges A k := fun k =>
    (entries k).1.trans (incomingList collected.nodup k)
  have direct : ∀ k : ArenaKey H, k.isRef = false → (inc.lookup k).getD 0 = 0 := by
    intro k flag
    rw [counts]
    by_contra entered
    obtain ⟨x, -, edge⟩ := incomingPos.mp (Nat.pos_of_ne_zero entered)
    rw [S.edgesRef edge] at flag
    cases flag
  have order := I.perm inc.keys
  obtain ⟨final, folded, wf, values⟩ := RcMap.foldSets (f := fun rc key => .ok (addRefs inc rc key))
    (order.nodup_iff.mpr inc.keys_nodup) exact.wf fun key mem rc' wf' same => by
      obtain ⟨wfNext, next⟩ := addRefsSpec wf' (direct key)
      refine ⟨_, rfl, wfNext, fun k => ?_⟩
      rw [next, same, counts]
  rw [foldlMPure] at folded
  obtain ⟨done, shape⟩ := exactOf wf closed fun k => by
    rw [values, incomingUnion apart, exact.counts]
    by_cases listed : k ∈ I.order inc.keys
    · have touched := (entries k).2.mp (order.mem_iff.mp listed)
      have inside : k ∈ rc.charged ∪ A := by
        rcases touched with new | edge
        · exact settled k (.inr (.inl new))
        · obtain ⟨x, mem, edge⟩ := mem_flatMap.mp edge
          exact settled k (collected.closed x mem k edge)
      rw [if_pos listed, if_pos inside]
      by_cases old : k ∈ rc.charged
      · rw [if_pos old, Option.getD_some]
      · rw [if_neg old, incomingOutside exact.closed old]
        rfl
    · have untouched : k ∉ added ∧ incoming S.edges A k = 0 := by
        refine ⟨fun new => listed (order.mem_iff.mpr ((entries k).2.mpr (.inl new))), ?_⟩
        rw [← incomingList collected.nodup, count_eq_zero]
        exact fun edge => listed (order.mem_iff.mpr ((entries k).2.mpr (.inr edge)))
      have same : k ∈ rc.charged ∪ A ↔ k ∈ rc.charged := by
        rw [Finset.mem_union, mem_toFinset]
        exact or_iff_left untouched.1
      rw [if_neg listed, untouched.2, add_zero]
      simp only [same]
  refine ⟨final, ?_, done, shape⟩
  rw [updateRcmap, counted, okBind, folded]

end Updates

end MidnightLedger.Storage

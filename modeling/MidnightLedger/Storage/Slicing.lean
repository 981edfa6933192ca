import MidnightLedger.Lib.Loops
import MidnightLedger.Lib.Words
import MidnightLedger.Lib.Slices
import MidnightLedger.Storage.Keys

/-! Translation of stored values in slices of time (storage/src/state_translation.rs). Queues are
lists, front first; maps are functions of their keys. A translation that is cut into slices passes
the points of the translation that runs through, as long as every entry of its cache outlives a
pause. -/
namespace MidnightLedger.Storage
open Loops Words

abbrev CostDuration := ℕ

structure TranslationId where
  source : String
  target : String
  deriving DecidableEq, Repr

structure TranslationCacheKey (H : Type) where
  tlid : TranslationId
  hash : H
  persist : Bool
  deriving DecidableEq, Repr

def TranslationCacheKey.fromKey {H : Type} (tlid : TranslationId) (key : ArenaKey H) :
    TranslationCacheKey H := ⟨tlid, key.hash, key.isRef⟩

structure TranslationCache (V H : Type) where
  persistentMap : TranslationCacheKey H → Option V
  transientMap : TranslationCacheKey H → Option V

namespace TranslationCache

variable {V H : Type}

def ofMap (map : TranslationCacheKey H → Option V) : TranslationCache V H := ⟨map, fun _ => none⟩

/- Entries of inlined nodes do not outlive the call. -/
def toMap (cache : TranslationCache V H) : TranslationCacheKey H → Option V := fun key =>
  if key.persist then (cache.transientMap key).or (cache.persistentMap key)
  else cache.persistentMap key

def insert [DecidableEq H] (cache : TranslationCache V H) (id : TranslationId) (origin : ArenaKey H)
    (target : V) : TranslationCache V H :=
  { cache with
    transientMap := Function.update cache.transientMap (.fromKey id origin) (some target) }

def lookup (cache : TranslationCache V H) (id : TranslationId) (child : ArenaKey H) : Option V :=
  (cache.transientMap (.fromKey id child)).or (cache.persistentMap (.fromKey id child))

end TranslationCache

inductive IoError where
  | unknownTranslation (id : TranslationId)
  | other (message : String)
  deriving DecidableEq, Repr

/- `finalize` may use up time, and may return nothing. -/
structure DirectTranslation (V H : Type) where
  childTranslations : V → List (TranslationId × V)
  finalize : V → CostDuration → TranslationCache V H →
    Except IoError (Option V × CostDuration)

inductive StepResult (V : Type) where
  | finished (res : V)
  | notEnoughTime
  | suspended
  | depends (dependencies : List (TranslationId × V))

structure DirectSpTranslationState (V H : Type) where
  translation : DirectTranslation V H
  value : V

structure TaggedTranslationState (V H : Type) where
  id : TranslationId
  origin : ArenaKey H
  typelessState : DirectSpTranslationState V H

structure TranslationTable (V H : Type) where
  table : List (TranslationId × DirectTranslation V H)
  asChild : V → ArenaKey H

structure Queue (T : Type) where
  persistentQueue : List T
  transientQueue : List T

namespace Queue

variable {T : Type}

def ofList (queue : List T) : Queue T := ⟨queue, []⟩

def toList (queue : Queue T) : List T := queue.transientQueue ++ queue.persistentQueue

def isEmpty (queue : Queue T) : Bool :=
  queue.persistentQueue.isEmpty && queue.transientQueue.isEmpty

def pushFront (queue : Queue T) (value : T) : Queue T :=
  { queue with transientQueue := value :: queue.transientQueue }

def removeFront (queue : Queue T) : Option (T × Queue T) :=
  match queue.transientQueue with
  | value :: rest => some (value, { queue with transientQueue := rest })
  | [] =>
    match queue.persistentQueue with
    | value :: rest => some (value, { queue with persistentQueue := rest })
    | [] => none

end Queue

structure TranslationState (V H : Type) where
  workQueue : List (TaggedTranslationState V H)
  cache : TranslationCacheKey H → Option V
  result : Option V

structure InflightTranslationState (V H : Type) where
  workQueue : Queue (TaggedTranslationState V H)
  cache : TranslationCache V H

def TranslationState.toInflight {V H : Type} (state : TranslationState V H) :
    InflightTranslationState V H := ⟨.ofList state.workQueue, .ofMap state.cache⟩

def InflightTranslationState.toState {V H : Type} (state : InflightTranslationState V H)
    (result : Option V) : TranslationState V H :=
  ⟨state.workQueue.toList, state.cache.toMap, result⟩

def nodeOverhead : ℕ := 20000000

section

variable {V H : Type} [DecidableEq H] (T : TranslationTable V H)

namespace TranslationTable

def get (id : TranslationId) : Except IoError (DirectTranslation V H) :=
  okOr (.unknownTranslation id) ((T.table.find? fun entry => id = entry.1).map Prod.snd)

def start (id : TranslationId) (node : V) : Except IoError (TaggedTranslationState V H) := do
  let translation ← T.get id
  .ok ⟨id, T.asChild node, ⟨translation, node⟩⟩

end TranslationTable

def DirectSpTranslationState.step (state : DirectSpTranslationState V H) (limit : CostDuration)
    (cache : TranslationCache V H) : Except IoError (StepResult V × CostDuration) :=
  let required := (state.translation.childTranslations state.value).filter fun child =>
    (cache.lookup child.1 (T.asChild child.2)).isNone
  if required.isEmpty then do
    let (res, left) ← state.translation.finalize state.value limit cache
    match res with
    | some res => .ok (.finished res, left - nodeOverhead)
    | none =>
      .ok (if left - nodeOverhead = 0 then .notEnoughTime else .suspended, left - nodeOverhead)
  else .ok (.depends required, limit)

def pushMissing (cache : TranslationCache V H) (queue : Queue (TaggedTranslationState V H))
    (dependencies : List (TranslationId × V)) :
    Except IoError (Queue (TaggedTranslationState V H)) :=
  dependencies.foldlM (fun queue child =>
    if (cache.lookup child.1 (T.asChild child.2)).isNone then do
      let item ← T.start child.1 child.2
      .ok (queue.pushFront item)
    else .ok queue) queue

def lifted {α : Type} (x : Except IoError α) : Outcome IoError α := x.mapError .error

namespace InflightTranslationState

/- What becomes of the item at the front. An item that lacks time is not put back. -/
def settle (state : InflightTranslationState V H) (cur : TaggedTranslationState V H)
    (queue : Queue (TaggedTranslationState V H)) (res : StepResult V) (left : CostDuration) :
    Outcome IoError ((Bool ⊕ V) × InflightTranslationState V H × CostDuration) :=
  match res with
  | .suspended => .ok (.inl (left = 0), { state with workQueue := queue.pushFront cur }, left)
  | .depends dependencies => do
    let queue ← lifted (pushMissing T state.cache (queue.pushFront cur) dependencies)
    .ok (.inl (left = 0), { state with workQueue := queue }, left)
  | .finished res =>
    if queue.isEmpty then .ok (.inr res, { state with workQueue := queue }, left)
    else .ok (.inl (left = 0), ⟨queue, state.cache.insert cur.id cur.origin res⟩, left)
  | .notEnoughTime => .ok (.inl true, { state with workQueue := queue }, left)

def step (state : InflightTranslationState V H) (limit : CostDuration) :
    Outcome IoError ((Bool ⊕ V) × InflightTranslationState V H × CostDuration) := do
  let (cur, queue) ← okOr .panic state.workQueue.removeFront
  let (res, left) ← lifted (cur.typelessState.step T limit state.cache)
  state.settle T cur queue res left

theorem stepSettles {state : InflightTranslationState V H} {limit left : CostDuration}
    {cur : TaggedTranslationState V H} {queue : Queue (TaggedTranslationState V H)}
    {res : StepResult V} (removed : state.workQueue.removeFront = some (cur, queue))
    (stepped : cur.typelessState.step T limit state.cache = .ok (res, left)) :
    state.step T limit = state.settle T cur queue res left := by
  rw [step, removed, okOr, okBind]
  dsimp only
  rw [stepped]
  rfl

end InflightTranslationState

namespace TranslationState

def start (id : TranslationId) (node : V) : Except IoError (TranslationState V H) := do
  let item ← T.start id node
  .ok ⟨[item], fun _ => none, none⟩

/- `none` is a call that has not returned after `fuel` steps. -/
def run (fuel : ℕ) (state : TranslationState V H) (limit : CostDuration) :
    Option (Outcome IoError (TranslationState V H)) := do
  let out ← Slices.loop (InflightTranslationState.step T) fuel state.toInflight limit
  some (out.map fun (result, cur) => cur.toState result)

def runAll (fuel : ℕ) : TranslationState V H → List CostDuration →
    Option (Outcome IoError (TranslationState V H))
  | state, [] => some (.ok state)
  | state, limit :: limits =>
    if state.result.isSome then some (.ok state)
    else do
      let out ← state.run T fuel limit
      match out with
      | .ok next => runAll fuel next limits
      | .error e => some (.error e)

end TranslationState

end

open Slices List Option TranslationState Function InflightTranslationState

section Queues

variable {T : Type} {queue : Queue T}

theorem Queue.removeFrontOk {x : T} {rest : List T} (front : queue.toList = x :: rest) :
    ∃ next, queue.removeFront = some (x, next) ∧ next.toList = rest := by
  obtain ⟨persistent, stack⟩ := queue
  cases stack with
  | cons y stack =>
    cases front
    exact ⟨⟨persistent, stack⟩, rfl, rfl⟩
  | nil =>
    cases front
    exact ⟨⟨rest, []⟩, rfl, rfl⟩

theorem Queue.isEmptyIff : queue.isEmpty ↔ queue.toList = [] := by
  simp [isEmpty, toList, and_comm]

@[simp] theorem Queue.toListPushFront (queue : Queue T) (x : T) :
    (queue.pushFront x).toList = x :: queue.toList := rfl

end Queues

abbrev Task (V : Type) := TranslationId × V

section Tasks

variable {V H : Type} (T : TranslationTable V H)

namespace TranslationTable

def translation (id : TranslationId) : DirectTranslation V H :=
  match T.get id with
  | .ok translation => translation
  | .error _ => ⟨fun _ => [], fun _ limit _ => .ok (none, limit)⟩

def item (x : Task V) : TaggedTranslationState V H :=
  ⟨x.1, T.asChild x.2, ⟨T.translation x.1, x.2⟩⟩

def children (x : Task V) : List (Task V) := (T.translation x.1).childTranslations x.2

def key (x : Task V) : TranslationCacheKey H := .fromKey x.1 (T.asChild x.2)

def finalizes (x : Task V) : CostDuration → TranslationCache V H →
    Except IoError (Option V × CostDuration) := (T.translation x.1).finalize x.2

inductive Needed (root : Task V) : Task V → Prop
  | root : Needed root root
  | child {x c : Task V} (parent : Needed root x) (mem : c ∈ T.children x) : Needed root c

def Ready (meaning : Task V → V) (x : Task V) (cache : TranslationCache V H) : Prop :=
  ∀ c ∈ T.children x, cache.lookup c.1 (T.asChild c.2) = some (meaning c)

/- The translation of a node depends only on the node and on the translations of its
dependencies, which are finitely many and known to the table; hashes do not collide. -/
structure Deterministic (meaning : Task V → V) (root : Task V) : Prop where
  known : ∀ x, T.Needed root x → T.get x.1 = .ok (T.translation x.1)
  finite : Acc (fun c x => c ∈ T.children x) root
  unique : ∀ x y, T.Needed root x → T.Needed root y → T.key x = T.key y → x = y
  final : ∀ x, T.Needed root x → ∃ cost : ℕ, ∀ (limit : ℕ) cache, T.Ready meaning x cache →
    ∃ (out : Option V) (left : ℕ), T.finalizes x limit cache = .ok (out, left) ∧
      (out = none ∨ out = some (meaning x)) ∧
      left ≤ limit ∧ limit ≤ left + cost

def Prompt (meaning : Task V → V) (root : Task V) : Prop :=
  ∀ x, T.Needed root x → ∀ limit cache, T.Ready meaning x cache →
    ∀ left, T.finalizes x limit cache ≠ .ok (none, left)

def Stored (root : Task V) : Prop :=
  ∀ x, T.Needed root x → ∀ c ∈ T.children x, (T.asChild c.2).isRef = true

end TranslationTable

end Tasks

section Points

variable {V H : Type} {T : TranslationTable V H} {meaning : Task V → V} {root : Task V} {kept : Prop}

structure Point (V H : Type) where
  queue : List (TaggedTranslationState V H)
  found : TranslationCacheKey H → Option V

def InflightTranslationState.found (state : InflightTranslationState V H)
    (key : TranslationCacheKey H) : Option V :=
  (state.cache.transientMap key).or (state.cache.persistentMap key)

structure Shows (kept : Prop) (state : InflightTranslationState V H) (point : Point V H) : Prop where
  queue : state.workQueue.toList = point.queue
  found : ∀ key, state.found key = point.found key
  lasting : kept → ∀ key, key.persist = false → state.cache.transientMap key = none

variable {state : InflightTranslationState V H} {x : Task V}
  {rest : List (TaggedTranslationState V H)} {point : Point V H}
  {found : TranslationCacheKey H → Option V}

theorem Shows.paused (shown : Shows True state point) (result : Option V) :
    Shows True (state.toState result).toInflight point := by
  refine ⟨shown.queue, fun key => ?_, fun _ _ _ => rfl⟩
  have same : state.cache.toMap key = point.found key := by
    rw [← shown.found, TranslationCache.toMap, InflightTranslationState.found]
    cases lasts : key.persist with
    | true => rfl
    | false =>
      rw [shown.lasting trivial key lasts]
      rfl
  exact same

def Sound (T : TranslationTable V H) (meaning : Task V → V) (root : Task V)
    (found : TranslationCacheKey H → Option V) : Prop :=
  ∀ x, T.Needed root x → ∀ r, found (T.key x) = some r → r = meaning x

theorem startKnown (deterministic : T.Deterministic meaning root) (needed : T.Needed root x) :
    T.start x.1 x.2 = .ok (T.item x) := by
  rw [TranslationTable.start, deterministic.known x needed]
  rfl

theorem pushMissingOk {cache : TranslationCache V H} (queue : Queue (TaggedTranslationState V H))
    {missing : List (Task V)} (known : ∀ c ∈ missing, T.start c.1 c.2 = .ok (T.item c))
    (absent : ∀ c ∈ missing, cache.lookup c.1 (T.asChild c.2) = none) :
    ∃ next, pushMissing T cache queue missing = .ok next ∧
      next.toList = missing.reverse.map T.item ++ queue.toList := by
  induction missing generalizing queue with
  | nil => exact ⟨queue, rfl, rfl⟩
  | cons c missing ih =>
    obtain ⟨next, pushed, shape⟩ := ih (queue.pushFront (T.item c)) (forall_mem_cons.mp known).2
      (forall_mem_cons.mp absent).2
    refine ⟨next, ?_, by simp [shape]⟩
    rw [pushMissing, foldlM_cons, absent c mem_cons_self, known c mem_cons_self]
    exact pushed

def missing (T : TranslationTable V H) (found : TranslationCacheKey H → Option V) (x : Task V) :
    List (Task V) :=
  (T.children x).filter fun c => (found (T.key c)).isNone

theorem requiredMissing (shown : Shows kept state point) (x : Task V) :
    ((T.item x).typelessState.translation.childTranslations (T.item x).typelessState.value).filter
      (fun c => (state.cache.lookup c.1 (T.asChild c.2)).isNone) = missing T point.found x :=
  filter_congr fun c _ => congrArg Option.isNone (shown.found (T.key c))

theorem readyOf (shown : Shows kept state point) (sound : Sound T meaning root point.found)
    (needed : T.Needed root x) (all : missing T point.found x = []) :
    T.Ready meaning x state.cache := by
  intro c mem
  have present : point.found (T.key c) ≠ none := by
    simpa using filter_eq_nil_iff.mp all c mem
  obtain ⟨r, entry⟩ := ne_none_iff_exists'.mp present
  have value := sound c (.child needed mem) r entry
  rw [← value, ← entry]
  exact shown.found (T.key c)

theorem stepItem (shown : Shows kept state ⟨T.item x :: rest, found⟩) :
    ∃ queue, state.workQueue.removeFront = some (T.item x, queue) ∧ queue.toList = rest :=
  Queue.removeFrontOk shown.queue

theorem startShown (kept : Prop) :
    Shows kept (toInflight ⟨[T.item root], fun _ => none, none⟩) ⟨[T.item root], fun _ => none⟩ :=
  ⟨rfl, fun _ => rfl, fun _ _ _ => rfl⟩

inductive Unkept (T : TranslationTable V H) : Task V → Prop
  | inlined {x c : Task V} (mem : c ∈ T.children x) (brief : (T.asChild c.2).isRef = false) : Unkept T x
  | deeper {x c : Task V} (mem : c ∈ T.children x) (unkept : Unkept T c) : Unkept T x

theorem unkeptRoot (needed : T.Needed root x) (unkept : Unkept T x) : Unkept T root := by
  induction needed with
  | root => exact unkept
  | child _ mem ih => exact ih (.deeper mem unkept)

structure Stuck (T : TranslationTable V H) (meaning : Task V → V) (root : Task V)
    (state : InflightTranslationState V H) : Prop where
  queue : ∃ items : List (Task V), state.workQueue.toList = items.map T.item ++ [T.item root] ∧
    ∀ x ∈ items, T.Needed root x
  sound : Sound T meaning root state.found
  brief : ∀ key, key.persist = false → state.found key = none
  absent : ∀ x, T.Needed root x → Unkept T x → state.found (T.key x) = none

theorem Stuck.shown (stuck : Stuck T meaning root state)
    (shape : state.workQueue.toList = rest) : Shows True state ⟨rest, state.found⟩ :=
  ⟨shape, fun _ => rfl, fun _ key brief => (or_eq_none_iff.mp (stuck.brief key brief)).1⟩

theorem Stuck.missing (stuck : Stuck T meaning root state) (needed : T.Needed root x)
    (unkept : Unkept T x) : Storage.missing T state.found x ≠ [] := by
  have absent : ∃ c ∈ T.children x, state.found (T.key c) = none := by
    cases unkept with
    | inlined mem brief => exact ⟨_, mem, stuck.brief _ brief⟩
    | deeper mem unkept => exact ⟨_, mem, stuck.absent _ (.child needed mem) unkept⟩
  obtain ⟨c, mem, gone⟩ := absent
  exact ne_nil_of_mem (mem_filter.mpr ⟨mem, by rw [gone]; rfl⟩)

theorem startOk (deterministic : T.Deterministic meaning root) :
    start T root.1 root.2 = .ok ⟨[T.item root], fun _ => none, none⟩ := by
  rw [start, startKnown deterministic .root]
  rfl

theorem startStuck : Stuck T meaning root (toInflight ⟨[T.item root], fun _ => none, none⟩) where
  queue := ⟨[], rfl, by simp⟩
  sound := fun _ _ _ entry => nomatch entry
  brief := fun _ _ => rfl
  absent := fun _ _ _ => rfl

theorem finishedStep (kept : Prop) (deterministic : T.Deterministic meaning root)
    (prompt : T.Prompt meaning root) (needed : T.Needed root x) :
    ∃ cost : ℕ, ∀ {state : InflightTranslationState V H}
      {rest : List (TaggedTranslationState V H)} {found : TranslationCacheKey H → Option V}
      (limit : ℕ), Shows kept state ⟨T.item x :: rest, found⟩ →
      Sound T meaning root found → missing T found x = [] →
      ∃ left : ℕ, (T.item x).typelessState.step T limit state.cache = .ok (.finished (meaning x), left) ∧
        left ≤ limit - nodeOverhead ∧ limit ≤ left + cost := by
  obtain ⟨cost, final⟩ := deterministic.final x needed
  refine ⟨cost + nodeOverhead, fun {state rest found} limit shown sound all => ?_⟩
  have ready := readyOf shown sound needed all
  obtain ⟨out, left, done, outcome, spends, bounded⟩ := final limit state.cache ready
  have finished : out = some (meaning x) := by
    rcases outcome with rfl | finished
    · exact absurd done (prompt x needed limit state.cache ready left)
    · exact finished
  refine ⟨left - nodeOverhead, ?_, by omega, by omega⟩
  rw [DirectSpTranslationState.step, requiredMissing shown x, all]
  refine bindOk.mpr ⟨(out, left), done, ?_⟩
  rw [finished]

variable [DecidableEq H]

structure Reaches (T : TranslationTable V H) (meaning : Task V → V) (root : Task V) (kept : Prop)
    (start final : Point V H) : Prop where
  way : ∃ steps cost, Along (step T) (Shows kept) start final steps cost
  sound : Sound T meaning root final.found
  keeps : ∀ key, start.found key ≠ none → final.found key ≠ none

theorem Reaches.refl (sound : Sound T meaning root point.found) :
    Reaches T meaning root kept point point :=
  ⟨⟨0, 0, .refl _⟩, sound, fun _ entry => entry⟩

variable {a b : Point V H} {cost : ℕ}

theorem Reaches.trans {c : Point V H} (first : Reaches T meaning root kept a b)
    (second : Reaches T meaning root kept b c) : Reaches T meaning root kept a c := by
  obtain ⟨_, _, way⟩ := first.way
  obtain ⟨_, _, way'⟩ := second.way
  exact ⟨⟨_, _, way.trans way'⟩, second.sound, fun key entry => second.keeps key (first.keeps key entry)⟩

theorem Reaches.turn (turn : Turns (step T) (Shows kept) a b cost)
    (sound : Sound T meaning root b.found) (keeps : ∀ key, a.found key ≠ none → b.found key ≠ none)
    : Reaches T meaning root kept a b :=
  ⟨⟨1, cost, .head turn (.refl b)⟩, sound, keeps⟩

def Translates (T : TranslationTable V H) (meaning : Task V → V) (root : Task V) (kept : Prop)
    (x : Task V) : Prop :=
  ∀ rest found, rest ≠ [] → Sound T meaning root found → ∃ found',
    Reaches T meaning root kept ⟨T.item x :: rest, found⟩ ⟨rest, found'⟩ ∧ found' (T.key x) ≠ none

theorem allTranslate {xs : List (Task V)} (each : ∀ x ∈ xs, Translates T meaning root kept x)
    (more : rest ≠ []) (sound : Sound T meaning root found) :
    ∃ found', Reaches T meaning root kept ⟨xs.map T.item ++ rest, found⟩ ⟨rest, found'⟩ ∧
      ∀ x ∈ xs, found' (T.key x) ≠ none := by
  induction xs generalizing found with
  | nil => exact ⟨found, .refl sound, by simp⟩
  | cons x xs ih =>
    obtain ⟨middle, first, here⟩ :=
      each x mem_cons_self (xs.map T.item ++ rest) found (by simp [more]) sound
    obtain ⟨found', second, others⟩ := ih (forall_mem_cons.mp each).2 first.sound
    refine ⟨found', first.trans second, fun y mem => ?_⟩
    rcases mem_cons.mp mem with rfl | inside
    · exact second.keeps _ here
    · exact others y inside

variable {fuel : ℕ}

theorem runAllAlong {r : V} {final : Point V H} (ends : Ends (step T) (Shows True) final r)
    (limits : List CostDuration) {state : TranslationState V H} {n : ℕ}
    (way : Along (step T) (Shows True) point final n cost)
    (shown : Shows True state.toInflight point) (pending : state.result = none)
    (enough : n < fuel) :
    ∃ last, state.runAll T fuel limits = some (.ok last) ∧
      (last.result = none ∨ last.result = some r) ∧ (n < limits.length → last.result = some r) := by
  induction limits generalizing state point n cost with
  | nil => exact ⟨state, rfl, .inl pending, fun short => absurd short (Nat.not_lt_zero n)⟩
  | cons limit limits ih =>
    obtain ⟨out, next, looped, outcome⟩ := loopAlong way ends shown limit enough
    have ran : state.run T fuel limit = some (.ok (next.toState out)) := by
      rw [run, looped]
      rfl
    have unrolled : state.runAll T fuel (limit :: limits) =
        (next.toState out).runAll T fuel limits := by
      rw [runAll, pending, ran]
      rfl
    rw [unrolled]
    rcases outcome with rfl | ⟨rfl, point', m, cost', less, rest, shown'⟩
    · refine ⟨next.toState (some r), ?_, .inr rfl, fun _ => rfl⟩
      cases limits <;> rfl
    · obtain ⟨last, later, results, done⟩ := ih rest (shown'.paused none) rfl (by omega)
      refine ⟨last, later, results, fun long => done ?_⟩
      rw [length_cons] at long
      omega

/- Calls with any positive limits return, and come to the result after finitely many. -/
def TranslationTable.Sliced (T : TranslationTable V H) (root : Task V) (r : V) : Prop :=
  ∃ start steps calls, TranslationState.start T root.1 root.2 = .ok start ∧
    ∀ fuel, steps ≤ fuel → ∀ limits : List CostDuration, (∀ limit ∈ limits, 0 < limit) →
      ∃ final, start.runAll T fuel limits = some (.ok final) ∧
        (final.result = none ∨ final.result = some r) ∧
        (calls ≤ limits.length → final.result = some r)

variable (deterministic : T.Deterministic meaning root)
include deterministic

theorem Sound.update (sound : Sound T meaning root found) (needed : T.Needed root x) :
    Sound T meaning root (Function.update found (T.key x) (some (meaning x))) := by
  intro y needed' r entry
  by_cases same : T.key y = T.key x
  · cases deterministic.unique y x needed' needed same
    rw [update_self] at entry
    exact (Option.some.inj entry).symm
  · rw [update_of_ne same] at entry
    exact sound y needed' r entry

theorem dependsTurn (needed : T.Needed root x) (some_missing : missing T found x ≠ []) :
    Turns (step T) (Shows kept) ⟨T.item x :: rest, found⟩
      ⟨(missing T found x).reverse.map T.item ++ T.item x :: rest, found⟩ 0 := by
  intro state limit shown
  obtain ⟨queue, removed, shape⟩ := stepItem shown
  have step : (T.item x).typelessState.step T limit state.cache =
      .ok (.depends (missing T found x), limit) := by
    rw [DirectSpTranslationState.step, requiredMissing shown x]
    exact if_neg (by simpa using some_missing)
  have known : ∀ c ∈ missing T found x, T.start c.1 c.2 = .ok (T.item c) := fun c mem =>
    startKnown deterministic (.child needed (mem_filter.mp mem).1)
  have absent : ∀ c ∈ missing T found x, state.cache.lookup c.1 (T.asChild c.2) = none := by
    intro c mem
    have entry := (mem_filter.mp mem).2
    exact (shown.found (T.key c)).trans (isNone_iff_eq_none.mp entry)
  obtain ⟨next, pushed, shape'⟩ := pushMissingOk (queue.pushFront (T.item x)) known absent
  refine ⟨{ state with workQueue := next }, limit, ?_, ⟨?_, shown.found, shown.lasting⟩, le_rfl,
    le_rfl⟩
  · rw [stepSettles T removed step]
    exact bindOk.mpr ⟨next, mapErrorOk.mpr pushed, rfl⟩
  · rw [shape', Queue.toListPushFront, shape]

theorem dependenciesTranslated
    (needed : T.Needed root x) (each : ∀ c ∈ T.children x, Translates T meaning root kept c)
    (rest : List (TaggedTranslationState V H)) (sound : Sound T meaning root found) :
    ∃ found', Reaches T meaning root kept ⟨T.item x :: rest, found⟩ ⟨T.item x :: rest, found'⟩ ∧
      missing T found' x = [] := by
  by_cases all : missing T found x = []
  · exact ⟨found, .refl sound, all⟩
  · have members : ∀ c ∈ (missing T found x).reverse, c ∈ T.children x := fun c mem =>
      (mem_filter.mp (mem_reverse.mp mem)).1
    obtain ⟨found', later, entries⟩ := allTranslate (fun c mem => each c (members c mem))
      (cons_ne_nil (T.item x) rest) sound
    refine ⟨found', (Reaches.turn (dependsTurn deterministic needed all) sound
      fun _ entry => entry).trans later, ?_⟩
    refine filter_eq_nil_iff.mpr fun c mem absent => ?_
    have gone : found' (T.key c) = none := by simpa using absent
    by_cases before : found (T.key c) = none
    · have listed : c ∈ missing T found x := mem_filter.mpr ⟨mem, by rw [before]; rfl⟩
      exact entries c (mem_reverse.mpr listed) gone
    · exact later.keeps _ before gone

theorem Stuck.depends (stuck : Stuck T meaning root state) (needed : T.Needed root x)
    (front : state.workQueue.toList = T.item x :: rest)
    (some_missing : Storage.missing T state.found x ≠ []) (limit : ℕ) :
    ∃ next, ∃ left : ℕ, state.step T limit = .ok (.inl (decide (left = 0)), next, left) ∧
      left = limit ∧ Stuck T meaning root next := by
  obtain ⟨next, left, taken, shown, least, most⟩ :=
    dependsTurn deterministic needed some_missing state limit (stuck.shown front)
  obtain ⟨items, shape, each⟩ := stuck.queue
  have same : next.found = state.found := funext fun key => shown.found key
  refine ⟨next, left, taken, by omega, ⟨?_, same ▸ stuck.sound, same ▸ stuck.brief, same ▸ stuck.absent⟩⟩
  refine ⟨(Storage.missing T state.found x).reverse ++ items, ?_, ?_⟩
  · rw [shown.queue, map_append, append_assoc, ← shape, front]
  · intro c mem
    rcases mem_append.mp mem with fresh | old
    · exact .child needed (mem_filter.mp (mem_reverse.mp fresh)).1
    · exact each c old

variable (prompt : T.Prompt meaning root)
include prompt

theorem finishTurn (needed : T.Needed root x) (lasts : kept → (T.asChild x.2).isRef)
    (more : rest ≠ [])
    (sound : Sound T meaning root found) (all : missing T found x = []) :
    ∃ cost, Turns (step T) (Shows kept) ⟨T.item x :: rest, found⟩
      ⟨rest, Function.update found (T.key x) (some (meaning x))⟩ cost := by
  obtain ⟨cost, finish⟩ := finishedStep kept deterministic prompt needed
  refine ⟨cost, fun state limit shown => ?_⟩
  obtain ⟨queue, removed, shape⟩ := stepItem shown
  obtain ⟨left, step, spends, bounded⟩ := finish limit shown sound all
  have goesOn : ¬ queue.isEmpty := by
    rw [Queue.isEmptyIff, shape]
    exact more
  refine ⟨⟨queue, state.cache.insert x.1 (T.asChild x.2) (meaning x)⟩, left, ?_,
    ⟨shape, fun key => ?_, fun kept key brief => ?_⟩, by omega, bounded⟩
  · rw [stepSettles T removed step]
    exact if_neg goesOn
  · have inserted : (Function.update state.cache.transientMap (T.key x) (some (meaning x)) key).or
          (state.cache.persistentMap key) =
        Function.update found (T.key x) (some (meaning x)) key := by
      by_cases same : key = T.key x
      · subst same
        rw [update_self, update_self]
        rfl
      · rw [update_of_ne same, update_of_ne same]
        exact shown.found key
    exact inserted
  · have other : key ≠ T.key x := by
      rintro rfl
      rw [TranslationTable.key, TranslationCacheKey.fromKey, lasts kept] at brief
      cases brief
    exact (update_of_ne other ..).trans (shown.lasting kept key brief)

theorem finishEnds (needed : T.Needed root x) (sound : Sound T meaning root found)
    (all : missing T found x = []) :
    Ends (step T) (Shows kept) ⟨[T.item x], found⟩ (meaning x) := by
  obtain ⟨cost, finish⟩ := finishedStep kept deterministic prompt needed
  intro state limit shown
  obtain ⟨queue, removed, shape⟩ := stepItem shown
  obtain ⟨left, step, -, -⟩ := finish limit shown sound all
  refine ⟨{ state with workQueue := queue }, left, ?_⟩
  rw [stepSettles T removed step]
  exact if_pos (Queue.isEmptyIff.mpr shape)

theorem translates (stored : kept → T.Stored root) (finite : Acc (fun c x => c ∈ T.children x) x)
    (needed : T.Needed root x) (lasts : kept → (T.asChild x.2).isRef) :
    Translates T meaning root kept x := by
  induction finite with
  | intro x _ ih =>
    intro rest found more sound
    have each : ∀ c ∈ T.children x, Translates T meaning root kept c := fun c mem =>
      ih c mem (.child needed mem) fun kept => stored kept x needed c mem
    obtain ⟨found', first, all⟩ := dependenciesTranslated deterministic needed each rest sound
    obtain ⟨cost, turn⟩ := finishTurn deterministic prompt needed lasts more first.sound all
    have here : Function.update found' (T.key x) (some (meaning x)) (T.key x) ≠ none := by
      rw [update_self]
      exact some_ne_none _
    have keeps : ∀ key, found' key ≠ none →
        Function.update found' (T.key x) (some (meaning x)) key ≠ none := by
      intro key entry
      by_cases same : key = T.key x
      · exact same ▸ here
      · rwa [update_of_ne same]
    exact ⟨_, first.trans (.turn turn (first.sound.update deterministic needed) keeps), here⟩

theorem wholeWay (kept : Prop) (stored : kept → T.Stored root) : ∃ final steps cost,
      Along (step T) (Shows kept) ⟨[T.item root], fun _ => none⟩ final
        steps cost ∧ Ends (step T) (Shows kept) final (meaning root) := by
  have each : ∀ c ∈ T.children root, Translates T meaning root kept c := fun c mem =>
    translates deterministic prompt stored (deterministic.finite.inv mem) (.child .root mem)
      fun kept => stored kept root .root c mem
  have empty : Sound T meaning root fun _ => none := by
    intro x _ r entry
    cases entry
  obtain ⟨found, reaches, all⟩ := dependenciesTranslated deterministic .root each [] empty
  obtain ⟨steps, cost, way⟩ := reaches.way
  exact ⟨_, steps, cost, way, finishEnds deterministic prompt .root reaches.sound all⟩

theorem Stuck.finishes (stuck : Stuck T meaning root state) (needed : T.Needed root x)
    {items : List (Task V)} (each : ∀ y ∈ items, T.Needed root y)
    (front : state.workQueue.toList = T.item x :: (items.map T.item ++ [T.item root]))
    (all : Storage.missing T state.found x = []) {limit : ℕ} (short : limit ≤ nodeOverhead) :
    ∃ next, state.step T limit = .ok (.inl true, next, 0) ∧
      Stuck T meaning root (next.toState none).toInflight := by
  obtain ⟨cost, finish⟩ := finishedStep True deterministic prompt needed
  have shown := stuck.shown front
  obtain ⟨queue, removed, shape⟩ := stepItem shown
  obtain ⟨left, step, spends, -⟩ := finish limit shown stuck.sound all
  have spent : left = 0 := by omega
  subst spent
  have goesOn : ¬ queue.isEmpty := by
    rw [Queue.isEmptyIff, shape]
    simp
  let next : InflightTranslationState V H :=
    ⟨queue, state.cache.insert x.1 (T.asChild x.2) (meaning x)⟩
  have entries : ∀ key, (next.toState none).toInflight.found key =
      if key.persist then Function.update state.found (T.key x) (some (meaning x)) key else none := by
    intro key
    have stored : next.cache.toMap key =
        if key.persist then Function.update state.found (T.key x) (some (meaning x)) key else none := by
      rw [TranslationCache.toMap]
      split
      · by_cases same : key = T.key x
        · have entry : next.cache.transientMap key = some (meaning x) :=
            same ▸ update_self (T.key x) _ state.cache.transientMap
          rw [entry, same, update_self]
          rfl
        · have entry : next.cache.transientMap key = state.cache.transientMap key :=
            update_of_ne same _ state.cache.transientMap
          rw [entry, update_of_ne same]
          rfl
      · have brief := stuck.brief key (by simpa using ‹¬ key.persist = true›)
        exact (or_eq_none_iff.mp brief).2
    exact stored
  refine ⟨next, ?_, ⟨⟨items, shape, each⟩, ?_, ?_, ?_⟩⟩
  · rw [stepSettles T removed step]
    exact if_neg goesOn
  · intro y needed' r entry
    rw [entries] at entry
    split at entry
    · exact stuck.sound.update deterministic needed y needed' r entry
    · cases entry
  · intro key brief
    rw [entries, brief]
    rfl
  · intro y needed' unkept
    have apart : T.key y ≠ T.key x := by
      intro same
      cases deterministic.unique y x needed' needed same
      exact stuck.missing needed unkept all
    rw [entries, update_of_ne apart, stuck.absent y needed' unkept, ite_self]

theorem stuckLoop (unkept : Unkept T root) (stuck : Stuck T meaning root state)
    {limit : ℕ} (positive : 0 < limit)
    (short : limit ≤ nodeOverhead) {out : Option V} {next : InflightTranslationState V H}
    (ended : loop (step T) fuel state limit = some (.ok (out, next))) :
    out = none ∧ Stuck T meaning root (next.toState none).toInflight := by
  have turn : ∀ {s : InflightTranslationState V H} {limit : ℕ},
      (Stuck T meaning root s ∧ 0 < limit ∧ limit ≤ nodeOverhead) →
      (∃ next, s.step T limit = .ok (.inl false, next, limit) ∧ Stuck T meaning root next) ∨
        ∃ next, s.step T limit = .ok (.inl true, next, 0) ∧
          Stuck T meaning root (next.toState none).toInflight := by
    rintro s limit ⟨stuck, positive, short⟩
    obtain ⟨items, shape, each⟩ := stuck.queue
    cases items with
    | nil =>
      obtain ⟨next, left, taken, rfl, again⟩ :=
        stuck.depends deterministic .root shape (stuck.missing .root unkept) limit
      exact .inl ⟨next, by rw [taken, decide_eq_false (by omega)], again⟩
    | cons x items =>
      by_cases all : Storage.missing T s.found x = []
      · exact .inr (stuck.finishes deterministic prompt (each x mem_cons_self)
          (forall_mem_cons.mp each).2 shape all short)
      · obtain ⟨next, left, taken, rfl, again⟩ :=
          stuck.depends deterministic (each x mem_cons_self) shape all limit
        exact .inl ⟨next, by rw [taken, decide_eq_false (by omega)], again⟩
  refine loopPreserves (fun s limit => Stuck T meaning root s ∧ 0 < limit ∧ limit ≤ nodeOverhead)
    (fun next => Stuck T meaning root (next.toState none).toInflight) ?_ ?_ ?_
    ⟨stuck, positive, short⟩ ended
  · intro s limit next left invariant taken
    rcases turn invariant with ⟨next', again, stuck'⟩ | ⟨next', again, -⟩
    · cases taken.symm.trans again
      exact ⟨stuck', invariant.2⟩
    · cases taken.symm.trans again
  · intro s limit next left invariant taken
    rcases turn invariant with ⟨next', again, -⟩ | ⟨next', again, stuck'⟩
    · cases taken.symm.trans again
    · cases taken.symm.trans again
      exact stuck'
  · intro s limit r next left invariant taken
    rcases turn invariant with ⟨next', again, -⟩ | ⟨next', again, -⟩ <;>
      cases taken.symm.trans again

theorem stuckRuns (unkept : Unkept T root) {limits : List ℕ}
    {state final : TranslationState V H} (stuck : Stuck T meaning root state.toInflight)
    (pending : state.result = none)
    (short : ∀ limit ∈ limits, 0 < limit ∧ limit ≤ nodeOverhead)
    (ran : state.runAll T fuel limits = some (.ok final)) : final.result = none := by
  induction limits generalizing state with
  | nil =>
    cases ran
    exact pending
  | cons limit limits ih =>
    rw [runAll, pending] at ran
    obtain ⟨out, called, rest⟩ := bind_eq_some_iff.mp ran
    cases out with
    | error e => cases rest
    | ok next =>
      obtain ⟨looped, ended, last⟩ := bind_eq_some_iff.mp called
      cases looped with
      | error e => cases last
      | ok pair =>
        cases last
        obtain ⟨positive, below⟩ := short limit mem_cons_self
        obtain ⟨nothing, again⟩ := stuckLoop deterministic prompt unkept stuck positive below ended
        obtain ⟨out, cur⟩ := pair
        cases nothing
        exact ih again rfl (forall_mem_cons.mp short).2 rest

theorem slicedTranslation :
    (T.Sliced root (meaning root) ↔ T.Stored root) ∧
    ∃ start steps enough, TranslationState.start T root.1 root.2 = .ok start ∧
      ∀ fuel limit, steps ≤ fuel → enough ≤ limit →
        ∃ final, start.run T fuel limit = some (.ok final) ∧ final.result = some (meaning root) := by
  refine ⟨⟨fun sliced => ?_, fun stored => ?_⟩, ?_⟩
  · obtain ⟨start, steps, calls, started, slices⟩ := sliced
    cases started.symm.trans (startOk deterministic)
    by_contra inlined
    obtain ⟨x, needed, c, mem, brief⟩ : ∃ x, T.Needed root x ∧ ∃ c ∈ T.children x,
        ¬ (T.asChild c.2).isRef = true := by
      simpa [TranslationTable.Stored] using inlined
    have unkept : Unkept T root := unkeptRoot needed (.inlined mem (by simpa using brief))
    obtain ⟨final, ran, -, done⟩ := slices steps le_rfl (List.replicate calls 1) (by simp)
    have nothing := stuckRuns deterministic prompt unkept startStuck rfl
      (fun limit mem => by
        rw [eq_of_mem_replicate mem]
        exact ⟨by decide, by decide⟩) ran
    have something := done (by simp)
    rw [nothing] at something
    cases something
  · obtain ⟨last, steps, cost, way, ends⟩ := wholeWay deterministic prompt True fun _ => stored
    refine ⟨_, steps + 1, steps + 1, startOk deterministic, fun fuel enough limits _ => ?_⟩
    obtain ⟨final, ran, results, done⟩ :=
      runAllAlong ends limits way (startShown True) rfl (Nat.lt_of_succ_le enough)
    exact ⟨final, ran, results, fun long => done (Nat.lt_of_succ_le long)⟩
  · obtain ⟨last, steps, cost, way, ends⟩ := wholeWay deterministic prompt False nofun
    refine ⟨_, steps + 1, cost + 1, startOk deterministic, fun fuel limit enough afford => ?_⟩
    obtain ⟨next, looped⟩ := loopThrough way ends (startShown False)
      (Nat.lt_of_succ_le afford) (Nat.lt_of_succ_le enough)
    refine ⟨next.toState (some (meaning root)), ?_, rfl⟩
    rw [run, looped]
    rfl

end Points

/- The translation of storage/examples/state-translation.rs that mirrors trees. -/
inductive Nesty where
  | empty
  | node (n : UInt32) (left right : Nesty)
  deriving DecidableEq, Repr

def nestyId : TranslationId := ⟨"nesty-lr", "nesty-rl"⟩

def nestyLrToRl (asChild : Nesty → ArenaKey Nesty) : DirectTranslation Nesty Nesty where
  childTranslations
    | .empty => []
    | .node _ a b => [(nestyId, a), (nestyId, b)]
  finalize source limit cache :=
    match source with
    | .empty => .ok (some .empty, limit)
    | .node n a b =>
      match cache.lookup nestyId (asChild a), cache.lookup nestyId (asChild b) with
      | some atrans, some btrans => .ok (some (.node n btrans atrans), limit)
      | _, _ => .ok (none, limit)

def nestyTable (asChild : Nesty → ArenaKey Nesty) : TranslationTable Nesty Nesty :=
  ⟨[(nestyId, nestyLrToRl asChild)], asChild⟩

def Nesty.mirrored : Nesty → Nesty
  | .empty => .empty
  | .node n a b => .node n b.mirrored a.mirrored

section Nesty

variable {asChild : Nesty → ArenaKey Nesty} {root : Task Nesty}

theorem nestyNeeded (named : root.1 = nestyId) {x : Task Nesty}
    (needed : (nestyTable asChild).Needed root x) : x.1 = nestyId := by
  induction needed with
  | root => exact named
  | @child x c _ mem ih =>
    obtain ⟨id, value⟩ := x
    cases ih
    cases value with
    | empty => cases mem
    | node n a b =>
      rcases mem_pair.mp mem with rfl | rfl <;> rfl

theorem nestyFinite (value : Nesty) :
    Acc (fun c x => c ∈ (nestyTable asChild).children x) (nestyId, value) := by
  induction value with
  | empty => exact ⟨_, fun c mem => nomatch mem⟩
  | node n a b left right =>
    refine ⟨_, fun c mem => ?_⟩
    rcases mem_pair.mp mem with rfl | rfl
    · exact left
    · exact right

theorem nestyFinal {value : Nesty} {cache : TranslationCache Nesty Nesty}
    (ready : (nestyTable asChild).Ready (fun x => x.2.mirrored) (nestyId, value) cache)
    (limit : ℕ) :
    (nestyTable asChild).finalizes (nestyId, value) limit cache =
      .ok (some value.mirrored, limit) := by
  cases value with
  | empty => rfl
  | node n a b =>
    have left : cache.lookup nestyId (asChild a) = some a.mirrored :=
      ready (nestyId, a) (mem_pair.mpr (.inl rfl))
    have right : cache.lookup nestyId (asChild b) = some b.mirrored :=
      ready (nestyId, b) (mem_pair.mpr (.inr rfl))
    show (nestyLrToRl asChild).finalize (.node n a b) limit cache = _
    simp only [nestyLrToRl, left, right]
    rfl

theorem nestyDeterministic (asChild : Nesty → ArenaKey Nesty)
    (injective : Function.Injective fun v => ((asChild v).hash, (asChild v).isRef)) (value : Nesty) :
    (nestyTable asChild).Deterministic (fun x => x.2.mirrored) (nestyId, value) where
  known x needed := by
    rw [nestyNeeded rfl needed]
    rfl
  finite := nestyFinite value
  unique x y needed needed' same := by
    refine Prod.ext ((nestyNeeded rfl needed).trans (nestyNeeded rfl needed').symm) (injective ?_)
    exact Prod.ext (congrArg TranslationCacheKey.hash same) (congrArg TranslationCacheKey.persist same)
  final x needed := by
    obtain ⟨id, value⟩ := x
    cases nestyNeeded rfl needed
    exact ⟨0, fun limit cache ready => ⟨_, limit, nestyFinal ready limit, .inr rfl, le_rfl, le_rfl⟩⟩

theorem nestyPrompt (value : Nesty) :
    (nestyTable asChild).Prompt (fun x => x.2.mirrored) (nestyId, value) := by
  intro x needed limit cache ready left returned
  obtain ⟨id, value⟩ := x
  cases nestyNeeded rfl needed
  cases returned.symm.trans (nestyFinal ready limit)

end Nesty

def sampleTree : Nesty := .node 1 .empty (.node 2 .empty .empty)

theorem storedNestySliced :
    (nestyTable .ref).Sliced (nestyId, sampleTree) (.node 1 (.node 2 .empty .empty) .empty) := by
  have deterministic := nestyDeterministic .ref
    (fun _ _ same => congrArg Prod.fst same) sampleTree
  exact (slicedTranslation deterministic (nestyPrompt sampleTree)).1.mpr fun _ _ _ _ => rfl

def inlined : Nesty → ArenaKey Nesty := .direct [] []

def slowTable : TranslationTable Nesty Nesty where
  table := [(nestyId, ⟨fun _ => [], fun source limit _ =>
    if limit < 30000000 then .ok (none, limit) else .ok (some source, limit - 30000000)⟩)]
  asChild := .ref

/- Inlined nodes, with calls of 20 µs, which is what the step of a node takes: no call returns the
result. A slow node with a short first call: its item is lost, and the second call panics. -/
theorem slicesFail :
    (∃ start, TranslationState.start (nestyTable inlined) nestyId sampleTree = .ok start ∧
      (∃ final, start.run (nestyTable inlined) 20 1000000000 = some (.ok final) ∧
        final.result = some (.node 1 (.node 2 .empty .empty) .empty)) ∧
      ∀ fuel calls final, start.runAll (nestyTable inlined) fuel (List.replicate calls 20000000) =
        some (.ok final) → final.result = none) ∧
    ∃ start, TranslationState.start slowTable nestyId .empty = .ok start ∧
      (∃ final, start.run slowTable 5 50000000 = some (.ok final) ∧ final.result = some .empty) ∧
      start.runAll slowTable 5 [25000000, 50000000] = some (.error .panic) := by
  have deterministic := nestyDeterministic inlined
    (fun _ _ same => congrArg Prod.fst same) sampleTree
  have unkept : Unkept (nestyTable inlined) (nestyId, sampleTree) :=
    .inlined (c := (nestyId, .empty)) (mem_pair.mpr (.inl rfl)) rfl
  refine ⟨⟨_, rfl, ⟨_, rfl, rfl⟩, fun fuel calls final ran => ?_⟩, _, rfl, ⟨_, rfl, rfl⟩, rfl⟩
  refine stuckRuns deterministic (nestyPrompt sampleTree) unkept startStuck rfl ?_ ran
  intro limit mem
  rw [eq_of_mem_replicate mem]
  exact ⟨by decide, by decide⟩

end MidnightLedger.Storage

import MidnightLedger.Storage.Charging

/-! Charged states over whole histories: the collection takes out exactly what has lost all its
references, the keys that are paid for stay closed and counted, and the bytes written and deleted
account for their total size. -/
namespace MidnightLedger.Storage
open Maps Words Graphs Loops Function List AList

variable {H : Type} [DecidableEq H] {S : Store H} {I : Iteration (ArenaKey H)} {live : H → Bool}
  {rc : RcMap H} {roots : List (ArenaKey H)}

structure Full (S : Store H) (rc : RcMap H) (roots : List (ArenaKey H)) (taken : ArenaKey H → ℕ)
    (k : ArenaKey H) : Prop where
  charged : k ∈ rc.charged
  apart : k ∉ roots
  all : incoming S.edges rc.charged k = taken k

structure Tracks (S : Store H) (rc : RcMap H) (roots : List (ArenaKey H)) (taken : ArenaKey H → ℕ)
    (outside : List (ArenaKey H)) (s : Collection H) : Prop where
  cache : ∀ k, s.rcCache.lookup k =
    if 0 < taken k then some (incoming S.edges rc.charged k) else none
  subs : ∀ k, s.updateQueue.lookup k = if 0 < taken k then some (taken k) else none
  nodup : (outside ++ s.queue).Nodup
  full : ∀ k, k ∈ outside ++ s.queue ↔ Full S rc roots taken k

variable {taken : ArenaKey H → ℕ} {s : Collection H} {storage : List (ArenaKey H)}

theorem Tracks.rearrange {outside : List (ArenaKey H)} (tracks : Tracks S rc roots taken outside s)
    (outside' queue : List (ArenaKey H)) (perm : (outside' ++ queue).Perm (outside ++ s.queue)) :
    Tracks S rc roots taken outside' { s with queue := queue } :=
  ⟨tracks.cache, tracks.subs, perm.nodup_iff.mpr tracks.nodup,
    fun k => perm.mem_iff.trans (tracks.full k)⟩

theorem fullUpdate (roots : List (ArenaKey H)) {child : ArenaKey H} (charged : child ∈ rc.charged)
    (left : taken child + 1 ≤ incoming S.edges rc.charged child) (k : ArenaKey H) :
    Full S rc roots (Function.update taken child (taken child + 1)) k ↔ Full S rc roots taken k ∨
        k = child ∧ child ∉ roots ∧ incoming S.edges rc.charged child ≤ taken child + 1 := by
  by_cases same : k = child
  · subst same
    refine ⟨fun full => .inr ⟨rfl, full.apart, ?_⟩, ?_⟩
    · have all := full.all
      rw [update_self] at all
      omega
    · rintro (full | ⟨-, apart, last⟩)
      · have all := full.all
        omega
      · refine ⟨charged, apart, ?_⟩
        rw [update_self]
        omega
  · have kept : ∀ n, Function.update taken child n k = taken k := fun n => update_of_ne same ..
    refine ⟨fun full => .inl ⟨full.charged, full.apart, ?_⟩, ?_⟩
    · rw [← kept (taken child + 1)]
      exact full.all
    · rintro (full | ⟨equal, -⟩)
      · refine ⟨full.charged, full.apart, ?_⟩
        rw [kept]
        exact full.all
      · exact absurd equal same

section

variable (exact : Exact S rc) {outside : List (ArenaKey H)}
  (tracks : Tracks S rc roots taken outside s)
include exact tracks

theorem decrementTracks {child : ArenaKey H} (charged : child ∈ rc.charged)
    (left : taken child + 1 ≤ incoming S.edges rc.charged child) :
    Tracks S rc roots (Function.update taken child (taken child + 1)) outside
      (decrement rc roots s child) := by
  have existing : (s.rcCache.lookup child).getD ((rc.getRc child).getD 0) =
      incoming S.edges rc.charged child := by
    rw [tracks.cache, exact.counts, if_pos charged]
    split <;> rfl
  have sub : (s.updateQueue.lookup child).getD 0 + 1 = taken child + 1 := by
    rw [tracks.subs]
    split
    · rfl
    · have zero : taken child = 0 := by omega
      rw [zero]
      rfl
  have fresh : child ∉ outside ++ s.queue := by
    intro mem
    have all := ((tracks.full child).mp mem).all
    omega
  have members := fullUpdate roots charged left
  have queue : (decrement rc roots s child).queue =
      if incoming S.edges rc.charged child ≤ taken child + 1 ∧ child ∉ roots then child :: s.queue
      else s.queue := by
    rw [← existing, ← sub]
    rfl
  refine ⟨fun k => ?_, fun k => ?_, ?_, fun k => ?_⟩
  · by_cases same : k = child
    · subst same
      rw [update_self, if_pos (Nat.succ_pos _), ← existing]
      exact lookup_insert _
    · rw [update_of_ne same, ← tracks.cache k]
      exact lookup_insert_ne same
  · by_cases same : k = child
    · subst same
      rw [update_self, if_pos (Nat.succ_pos _), ← sub]
      exact lookup_insert _
    · rw [update_of_ne same, ← tracks.subs k]
      exact lookup_insert_ne same
  · rw [queue]
    split
    · exact (perm_middle.nodup_iff).mpr (nodup_cons.mpr ⟨fresh, tracks.nodup⟩)
    · exact tracks.nodup
  · rw [queue, members, ← tracks.full]
    split
    · rename_i last
      rw [perm_middle.mem_iff, mem_cons]
      tauto
    · tauto

theorem decrementsTrack {children : List (ArenaKey H)} (charged : ∀ c ∈ children, c ∈ rc.charged)
    (left : ∀ k, taken k + children.count k ≤ incoming S.edges rc.charged k) :
    Tracks S rc roots (fun k => taken k + children.count k) outside
        (children.foldl (decrement rc roots) s) ∧
      (children.foldl (decrement rc roots) s).keysRemoved = s.keysRemoved := by
  induction children generalizing taken s with
  | nil => exact ⟨tracks, rfl⟩
  | cons child children ih =>
    have here : taken child + 1 ≤ incoming S.edges rc.charged child := by
      have bound := left child
      rw [count_cons_self] at bound
      omega
    have next := decrementTracks exact tracks (charged child mem_cons_self) here
    have step : ∀ k, Function.update taken child (taken child + 1) k + children.count k =
        taken k + (child :: children).count k := by
      intro k
      by_cases same : k = child
      · subst same
        rw [update_self, count_cons_self]
        omega
      · rw [update_of_ne same, count_cons_of_ne (Ne.symm same)]
    obtain ⟨last, removed⟩ := ih next (forall_mem_cons.mp charged).2
      fun k => (step k).le.trans (left k)
    rw [funext step] at last
    exact ⟨last, removed⟩

end

def Sweeping (S : Store H) (rc : RcMap H) (roots storage : List (ArenaKey H)) (s : Collection H) :
    Prop :=
  Tracks S rc roots (incoming S.edges s.keysRemoved.toFinset) (s.keysRemoved ++ storage) s

theorem Sweeping.collectKey (exact : Exact S rc) (loadable : ∀ k ∈ rc.charged, Loadable live k)
    {key : ArenaKey H} (tracks : Tracks S rc roots (incoming S.edges s.keysRemoved.toFinset)
      (key :: (s.keysRemoved ++ storage)) s) :
    ∃ next, Storage.collectKey S live rc roots s key = .ok next ∧ Sweeping S rc roots storage next ∧
      next.keysRemoved.length = s.keysRemoved.length + 1 := by
  have full := (tracks.full key).mp (by simp)
  have fresh : key ∉ s.keysRemoved := by
    intro mem
    have nodup := (nodup_cons.mp tracks.nodup).1
    exact nodup (mem_append_left _ (mem_append_left _ mem))
  have inside : insert key s.keysRemoved.toFinset ⊆ rc.charged := by
    intro k mem
    rcases Finset.mem_insert.mp mem with rfl | old
    · exact full.charged
    · exact ((tracks.full k).mp (by simp [mem_toFinset.mp old])).charged
  have total : ∀ k, incoming S.edges s.keysRemoved.toFinset k + (S.edges key).count k =
      incoming S.edges (insert key s.keysRemoved.toFinset) k := by
    intro k
    rw [incoming, incoming, Finset.sum_insert (by simpa using fresh), add_comm]
  obtain ⟨last, removed⟩ := decrementsTrack exact tracks (exact.closed key full.charged) fun k => by
    rw [total]
    exact Finset.sum_le_sum_of_subset inside
  have shape : Storage.collectKey S live rc roots s key =
      .ok { (S.edges key).foldl (decrement rc roots) s with keysRemoved := key :: s.keysRemoved } := by
    rw [Storage.collectKey, childRefsOk (loadable key full.charged), okBind]
    simp only [removed, insert_of_not_mem fresh]
  refine ⟨_, shape, ?_, by simp⟩
  rw [funext total] at last
  have set : (key :: s.keysRemoved).toFinset = insert key s.keysRemoved.toFinset := toFinset_cons
  rw [Sweeping, set]
  exact ⟨last.cache, last.subs, last.nodup, last.full⟩

theorem gcLoopSweeps (exact : Exact S rc) (loadable : ∀ k ∈ rc.charged, Loadable live k) (steps : ℕ)
    (sweeping : Sweeping S rc roots storage s) :
    ∃ final rest, gcLoop S live rc roots steps storage s = .ok final ∧
      Sweeping S rc roots rest final ∧
      (rest = [] ∧ final.queue = [] ∨ final.keysRemoved.length = s.keysRemoved.length + steps) := by
  induction steps generalizing storage s with
  | zero => exact ⟨s, storage, by cases storage <;> rfl, sweeping, .inr rfl⟩
  | succ steps ih =>
    cases storage with
    | cons key storage =>
      have tracks := sweeping.rearrange (key :: (s.keysRemoved ++ storage)) s.queue
        (List.Perm.append_right _ perm_middle.symm)
      obtain ⟨next, taken, sweeping', counted⟩ := Sweeping.collectKey exact loadable tracks
      obtain ⟨final, rest, looped, last, ended⟩ := ih sweeping'
      refine ⟨final, rest, ?_, last, ended.imp_right fun length => ?_⟩
      · rw [gcLoop, taken]
        exact looped
      · omega
    | nil =>
      cases queued : s.queue with
      | nil =>
        refine ⟨s, [], ?_, sweeping, .inl ⟨rfl, queued⟩⟩
        rw [gcLoop, queued]
      | cons key queue =>
        have tracks := sweeping.rearrange (key :: (s.keysRemoved ++ [])) queue (by
            rw [queued, append_nil]
            exact perm_middle.symm)
        obtain ⟨next, taken, sweeping', counted⟩ :=
          Sweeping.collectKey (s := { s with queue := queue }) exact loadable tracks
        obtain ⟨final, rest, looped, last, ended⟩ := ih sweeping'
        refine ⟨final, rest, ?_, last, ended.imp_right fun length => ?_⟩
        · rw [gcLoop, queued]
          exact bindOk.mpr ⟨next, taken, looped⟩
        · have same : ({ s with queue := queue } : Collection H).keysRemoved = s.keysRemoved := rfl
          rw [same] at counted
          omega

theorem sweepingStart (I : Iteration (ArenaKey H)) (roots : List (ArenaKey H)) (exact : Exact S rc) :
    Sweeping S rc roots (I.order (rc.getUnreachableKeysNotIn roots)) ⟨[], ∅, ∅, []⟩ := by
  have order := I.perm (rc.getUnreachableKeysNotIn roots)
  have nothing : ∀ k, ¬ 0 < incoming S.edges (∅ : Finset (ArenaKey H)) k := by simp [incoming]
  refine ⟨fun k => (if_neg (nothing k)).symm, fun k => (if_neg (nothing k)).symm, ?_, fun k => ?_⟩
  · rw [append_nil, nil_append]
    exact order.nodup_iff.mpr (exact.wf.nodup.filter _)
  · rw [append_nil, nil_append, order.mem_iff, RcMap.getUnreachableKeysNotIn,
      mem_filter, ← RcMap.getRcZero exact.wf, exact.counts]
    by_cases charged : k ∈ rc.charged
    · rw [if_pos charged, Option.some_inj]
      exact ⟨fun h => ⟨charged, of_decide_eq_true h.2, h.1⟩, fun h => ⟨h.all, decide_eq_true h.apart⟩⟩
    · rw [if_neg charged]
      exact ⟨fun h => absurd h.1 (by simp), fun h => absurd h.charged charged⟩

theorem Sweeping.garbage (sweeping : Sweeping S rc roots storage s) :
    s.keysRemoved.Nodup ∧ Garbage S.edges (· ∈ roots) rc.charged s.keysRemoved.toFinset := by
  have full : ∀ k ∈ s.keysRemoved.toFinset,
      Full S rc roots (incoming S.edges s.keysRemoved.toFinset) k :=
    fun k mem => (sweeping.full k).mp (by simp [mem_toFinset.mp mem])
  exact ⟨(nodup_append.mp (nodup_append.mp sweeping.nodup).1).1,
    fun k mem => (full k mem).charged, fun k mem => (full k mem).apart, fun k mem => (full k mem).all⟩

theorem dropRefsCounts (I : Iteration (ArenaKey H)) (exact : Exact S rc)
    (sweeping : Sweeping S rc roots storage s) :
    ∃ next, (I.order s.updateQueue.keys).foldlM (dropRefs s) rc = .ok next ∧ next.WellFormed ∧
      ∀ k, next.getRc k =
        if k ∈ rc.charged then some (incoming S.edges (rc.charged \ s.keysRemoved.toFinset) k)
        else none := by
  let R := s.keysRemoved.toFinset
  have inside : R ⊆ rc.charged := sweeping.garbage.2.inside
  have split := incomingSdiff S.edges inside
  have queued : ∀ k, k ∈ I.order s.updateQueue.keys ↔ 0 < incoming S.edges R k := by
    intro k
    rw [(I.perm s.updateQueue.keys).mem_iff, ← AList.mem_keys, ← lookup_isSome, sweeping.subs]
    by_cases taken : 0 < incoming S.edges R k
    · simp [R, taken]
    · simp [R, taken]
  obtain ⟨next, folded, wf, values⟩ := RcMap.foldSets (f := dropRefs s)
    (v := fun k => some (incoming S.edges (rc.charged \ R) k))
    ((I.perm _).nodup_iff.mpr s.updateQueue.keys_nodup) exact.wf fun key mem rc' wf' _ => by
      have taken := (queued key).mp mem
      obtain ⟨x, -, edge⟩ := incomingPos.mp taken
      cases key with
      | direct data children hash => cases S.edgesRef edge
      | ref hash =>
        have cached := sweeping.cache (.ref hash)
        have subs := sweeping.subs (.ref hash)
        rw [if_pos taken] at cached subs
        have left : incoming S.edges rc.charged (.ref hash) - incoming S.edges R (.ref hash) =
            incoming S.edges (rc.charged \ R) (.ref hash) := by
          have both := split (.ref hash)
          omega
        have done : dropRefs s rc' (.ref hash) =
            .ok (rc'.modifyRc hash (incoming S.edges (rc.charged \ R) (.ref hash))) := by
          rw [dropRefs, cached, subs, ← left]
          rfl
        exact ⟨_, done, RcMap.modifyRcSpec wf' hash _⟩
  refine ⟨next, folded, wf, fun k => ?_⟩
  rw [values, exact.counts]
  by_cases taken : 0 < incoming S.edges R k
  · have charged : k ∈ rc.charged := by
      obtain ⟨x, mem, edge⟩ := incomingPos.mp taken
      exact exact.closed x (inside mem) k edge
    rw [if_pos ((queued k).mpr taken), if_pos charged]
  · have same : incoming S.edges rc.charged k = incoming S.edges (rc.charged \ R) k := by
      have both := split k
      omega
    rw [if_neg fun mem => taken ((queued k).mp mem), same]

structure Swept (S : Store H) (rc : RcMap H) (roots : List (ArenaKey H)) (limit : ℕ)
    (next : RcMap H) (removed : List (ArenaKey H)) : Prop where
  exact : Exact S next
  nodup : removed.Nodup
  inside : removed.toFinset ⊆ rc.charged
  charged : next.charged = rc.charged \ removed.toFinset
  kept : ∀ k ∈ roots, k ∈ next.charged
  unlimited : rc.charged.card ≤ limit → ∀ k, k ∈ next.charged ↔ Reached S.edges (· ∈ roots) k

theorem gcRcmapSwept (I : Iteration (ArenaKey H)) (exact : Exact S rc)
    (loadable : ∀ k ∈ rc.charged, Loadable live k) (rooted : ∀ k ∈ roots, k ∈ rc.charged)
    (limit : ℕ) : ∃ next removed, gcRcmap S I live rc roots limit = .ok (next, removed) ∧
      Swept S rc roots limit next removed := by
  obtain ⟨s, rest, looped, sweeping, ended⟩ := gcLoopSweeps exact loadable limit
    (sweepingStart I roots exact)
  obtain ⟨nodup, garbage⟩ := sweeping.garbage
  let R := s.keysRemoved.toFinset
  obtain ⟨dropped, drops, wfDropped, counts⟩ := dropRefsCounts I exact sweeping
  have order := I.perm s.keysRemoved
  obtain ⟨next, removes, wf, values⟩ := RcMap.foldSets (v := fun _ => none)
    (f := fun rc key => expect (rc.removeUnreachableKey key))
    (order.nodup_iff.mpr nodup) wfDropped fun key mem rc' wf' same => by
      have removed : key ∈ R := mem_toFinset.mpr (order.mem_iff.mp mem)
      have zero : rc'.getRc key = some 0 := by
        have both := incomingSdiff S.edges garbage.inside key
        rw [same, counts, if_pos (garbage.inside removed), Option.some_inj]
        have only := garbage.only key removed
        omega
      obtain ⟨next, done, rest⟩ := RcMap.removeUnreachableKeySpec wf' zero
      exact ⟨next, by rw [done]; rfl, rest⟩
  obtain ⟨exact', charged⟩ := exactOf wf (garbage.closed exact.closed) fun k => by
    rw [values, counts]
    by_cases removed : k ∈ s.keysRemoved
    · simp [order.mem_iff, removed]
    · simp [order.mem_iff, removed]
  refine ⟨next, s.keysRemoved, ?_, exact', nodup, garbage.inside, charged, fun k mem => ?_,
    fun enough k => ?_⟩
  · rw [gcRcmap, looped, okBind, drops, okBind, removes, okBind]
  · rw [charged, Finset.mem_sdiff]
    exact ⟨rooted k mem, fun removed => garbage.apart k removed mem⟩
  · rw [charged]
    refine garbage.exact S.lower exact.closed rooted (fun x member apart all => ?_) k
    rcases ended with ⟨rfl, empty⟩ | length
    · have mem := (sweeping.full x).mpr ⟨member, apart, all⟩
      rw [empty, append_nil, append_nil] at mem
      exact mem_toFinset.mpr mem
    · -- as many keys as are charged have been removed
      have count : R.card = limit := by
        rw [toFinset_card_of_nodup nodup, length]
        exact Nat.zero_add limit
      rw [Finset.eq_of_subset_of_card_le garbage.inside (enough.trans count.ge)]
      exact member

open Option

def keySize (S : Store H) : ArenaKey H → ℕ
  | .ref hash => (S.node hash).size + 32 + 4
  | .direct data children hash => (ArenaKey.direct data children hash).serializedSize * 2

def totalSize (S : Store H) (keys : Finset (ArenaKey H)) : ℕ := ∑ k ∈ keys, keySize S k

omit [DecidableEq H] in
theorem keyBytesOk {key : ArenaKey H} (loadable : Loadable live key) :
    keyBytes S live key = .ok (keySize S key) := by
  cases key with
  | ref hash =>
    have alive : live hash = true := loadable
    rw [keyBytes, load, if_pos alive]
    rfl
  | direct data children hash => rfl

theorem computeBytesOk (I : Iteration (ArenaKey H)) {keys : List (ArenaKey H)} (nodup : keys.Nodup)
    (loadable : ∀ k ∈ keys, Loadable live k) :
    computeBytesFromKeys S I live keys = .ok (totalSize S keys.toFinset) := by
  have order := I.perm keys
  have sizes : ∀ listed : List (ArenaKey H), (∀ k ∈ listed, Loadable live k) →
      listed.mapM (keyBytes S live) = .ok (listed.map (keySize S)) := by
    intro listed each
    induction listed with
    | nil => rfl
    | cons key listed ih =>
      rw [mapM_cons, keyBytesOk (each key mem_cons_self), okBind,
        ih (forall_mem_cons.mp each).2, okBind]
      rfl
  rw [computeBytesFromKeys, sizes _ fun k mem => loadable k (order.mem_iff.mp mem), okBind, totalSize,
    sum_toFinset _ nodup, (order.map (keySize S)).sum_eq]

def Available (S : Store H) (live : H → Bool) (roots : ArenaKey H → Prop) : Prop :=
  ∀ k, Reached S.edges roots k → Loadable live k

theorem Exact.reached (exact : Exact S rc) {k : ArenaKey H} (charged : k ∈ rc.charged) :
    Reached S.edges (· ∈ rc.rc0) k := by
  refine allReached S.lower (fun x mem => ?_) charged
  rcases Nat.eq_zero_or_pos (incoming S.edges rc.charged x) with zero | positive
  · have count := exact.counts x
    rw [if_pos mem, zero] at count
    exact .inl ((RcMap.getRcZero exact.wf).mp count)
  · exact .inr positive

structure Added (S : Store H) (k0 : RcMap H) (roots added : List (ArenaKey H)) (next : RcMap H) :
    Prop where
  exact : Exact S next
  nodup : added.Nodup
  fresh : Disjoint k0.charged added.toFinset
  reached : ∀ k ∈ added, Reached S.edges (· ∈ roots) k
  charged : next.charged = k0.charged ∪ added.toFinset
  rooted : ∀ k ∈ roots, k ∈ next.charged

theorem writesAdded (I : Iteration (ArenaKey H)) (exact : Exact S rc)
    (available : Available S live (· ∈ roots)) : ∃ bound, ∀ fuel ≥ bound, ∃ added next,
      getWrites S I live fuel rc roots = some (.ok added) ∧
      updateRcmap S I live rc added = .ok next ∧ Added S rc roots added next := by
  refine ⟨(((I.order roots).reverse.map (weight S.edges S.rank S.lower)).sum), fun fuel enough => ?_⟩
  have order : ∀ k, k ∈ (I.order roots).reverse ↔ k ∈ roots := fun k => by
    rw [mem_reverse, (I.perm roots).mem_iff]
  have start : Collecting S.edges rc.contains (· ∈ roots) (I.order roots).reverse [] :=
    ⟨nodup_nil, nofun, fun k mem => .root ((order k).mp mem), nofun, nofun,
      fun k mem => .inr (.inr ((order k).mpr mem))⟩
  obtain ⟨added, collected, collecting⟩ := collects S.lower
    (fun k reached _ => childRefsOk (available k reached)) start enough
  obtain ⟨next, updated, exact', charged⟩ := updateRcmapExact (I := I) exact collecting
    fun k mem => available k (collecting.reached k mem)
  refine ⟨added, next, collected, updated, exact', collecting.nodup, ?_, collecting.reached, charged,
    fun k mem => ?_⟩
  · rw [Finset.disjoint_right]
    intro k mem old
    have fresh := collecting.fresh k (mem_toFinset.mp mem)
    rw [containsIff.mpr old] at fresh
    cases fresh
  · rw [charged, Finset.mem_union]
    rcases collecting.covers k mem with old | new | none
    · exact .inl (containsIff.mp old)
    · exact .inr (mem_toFinset.mpr new)
    · cases none

structure Accounted (S : Store H) (k0 : RcMap H) (roots : List (ArenaKey H)) (limit : ℕ)
    (results : WriteDeleteResults H) : Prop where
  exact : Exact S results.updatedChargedKeys
  rooted : ∀ k, Reached S.edges (· ∈ roots) k → k ∈ results.updatedChargedKeys.charged
  bytes : totalSize S results.updatedChargedKeys.charged + results.bytesDeleted =
    totalSize S k0.charged + results.bytesWritten
  unlimited : k0.charged.card + results.nodesWritten ≤ limit →
    ∀ k, k ∈ results.updatedChargedKeys.charged ↔ Reached S.edges (· ∈ roots) k

theorem initialAccounted (I : Iteration (ArenaKey H)) (available : Available S live (· ∈ roots))
    (cpuCost : ℕ → ℕ → RunningCost) : ∃ bound, ∀ fuel ≥ bound, ∃ results,
      initialWriteDeleteCosts S I live fuel roots cpuCost = some (.ok results) ∧
        Exact S results.updatedChargedKeys ∧
        ∀ k, k ∈ results.updatedChargedKeys.charged ↔ Reached S.edges (· ∈ roots) k := by
  obtain ⟨exact, empty⟩ := emptyExact (S := S)
  obtain ⟨bound, writes⟩ := writesAdded I exact available
  refine ⟨bound, fun fuel enough => ?_⟩
  obtain ⟨added, next, collected, updated, adds⟩ := writes fuel enough
  have made : initialWriteDeleteCosts S I live fuel roots cpuCost = some (.ok
      ⟨totalSize S added.toFinset, 0, added.length, 0, cpuCost added.length 0, next⟩) := by
    rw [initialWriteDeleteCosts, collected]
    simp only [bind_eq_bind, bind_some, okBind, updated, WriteDeleteResults.new,
      computeBytesOk I adds.nodup fun k mem => available k (adds.reached k mem),
      computeBytesOk I nodup_nil fun k mem => (nomatch mem)]
    rfl
  refine ⟨_, made, adds.exact, fun k => ⟨fun mem => ?_, fun reached => ?_⟩⟩
  · rw [adds.charged, empty, Finset.empty_union, List.mem_toFinset] at mem
    exact adds.reached k mem
  · exact adds.exact.closed.reached adds.rooted reached

theorem incrementalAccounted (I : Iteration (ArenaKey H)) (exact : Exact S rc)
    (roots : List (ArenaKey H))
    (available : Available S live fun k => k ∈ roots ∨ k ∈ rc.rc0) (cpuCost : ℕ → ℕ → RunningCost)
    (gcLimit : RunningCost → ℕ) : ∃ bound, ∀ fuel ≥ bound, ∃ results,
      incrementalWriteDeleteCosts S I live fuel rc roots cpuCost gcLimit = some (.ok results) ∧
        Accounted S rc roots (gcLimit (cpuCost results.nodesWritten 0)) results := by
  have reachable : Available S live (· ∈ roots) := fun k reached =>
    available k (reached.through fun root mem => .root (.inl mem))
  obtain ⟨bound, writes⟩ := writesAdded I exact reachable
  refine ⟨bound, fun fuel enough => ?_⟩
  obtain ⟨added, next, collected, updated, adds⟩ := writes fuel enough
  have loadable : ∀ k ∈ next.charged, Loadable live k := by
    intro k mem
    rw [adds.charged, Finset.mem_union, List.mem_toFinset] at mem
    rcases mem with old | new
    · exact available k ((exact.reached old).through fun root held => .root (.inr held))
    · exact reachable k (adds.reached k new)
  obtain ⟨final, removed, collects, swept⟩ := gcRcmapSwept I adds.exact loadable adds.rooted
    (gcLimit (cpuCost added.length 0))
  have gone : ∀ k ∈ removed, Loadable live k := fun k mem =>
    loadable k (swept.inside (mem_toFinset.mpr mem))
  have made : incrementalWriteDeleteCosts S I live fuel rc roots cpuCost gcLimit = some (.ok
      ⟨totalSize S added.toFinset, totalSize S removed.toFinset, added.length, removed.length,
        cpuCost added.length removed.length, final⟩) := by
    rw [incrementalWriteDeleteCosts, collected]
    simp only [bind_eq_bind, bind_some, okBind, updated, collects,
      WriteDeleteResults.new, computeBytesOk I swept.nodup gone,
      computeBytesOk I adds.nodup fun k mem => reachable k (adds.reached k mem)]
  refine ⟨_, made, swept.exact, fun k => swept.exact.closed.reached swept.kept, ?_, fun enough => ?_⟩
  · calc totalSize S final.charged + totalSize S removed.toFinset = totalSize S next.charged := by
          rw [swept.charged]
          exact Finset.sum_sdiff swept.inside
      _ = totalSize S rc.charged + totalSize S added.toFinset := by
          rw [adds.charged]
          exact Finset.sum_union adds.fresh
  · refine swept.unlimited (le_trans ?_ enough)
    rw [adds.charged, Finset.card_union_of_disjoint adds.fresh, toFinset_card_of_nodup adds.nodup]

variable {fuel bound : ℕ} {cpuCost : ℕ → ℕ → RunningCost} {results expected : WriteDeleteResults H}

theorem getWritesMore {more : ℕ} {writes : Except Panic (List (ArenaKey H))}
    (ended : getWrites S I live fuel rc roots = some writes) (enough : fuel ≤ more) :
    getWrites S I live more rc roots = some writes :=
  collectMore ended enough

theorem initialUnique
    (made : initialWriteDeleteCosts S I live fuel roots cpuCost = some (.ok results))
    (enough : initialWriteDeleteCosts S I live (max fuel bound) roots cpuCost = some (.ok expected))
    : results = expected := by
  rw [initialWriteDeleteCosts] at enough
  obtain ⟨writes, ended, rest⟩ := bind_eq_some_iff.mp made
  rw [getWritesMore ended (le_max_left ..)] at enough
  cases rest.symm.trans enough
  rfl

theorem incrementalUnique {gcLimit : RunningCost → ℕ}
    (made : incrementalWriteDeleteCosts S I live fuel rc roots cpuCost gcLimit = some (.ok results))
    (enough : incrementalWriteDeleteCosts S I live (max fuel bound) rc roots cpuCost gcLimit =
      some (.ok expected)) : results = expected := by
  rw [incrementalWriteDeleteCosts] at enough
  obtain ⟨writes, ended, rest⟩ := bind_eq_some_iff.mp made
  rw [getWritesMore ended (le_max_left ..)] at enough
  have same := rest.symm.trans enough
  rw [some_inj, Except.ok.injEq] at same
  exact same

/- Charged states that come from an initial state by updates, with the size of the initial state
and the bytes that have been reported written and deleted since. The new state and what the
charged keys hold are in the back-end during an update. -/
inductive History (S : Store H) (I : Iteration (ArenaKey H)) : ChargedState H → ℕ → ℕ → ℕ → Prop
  | new {live : H → Bool} {fuel : ℕ} {state : ArenaKey H} {charged : ChargedState H}
    (available : Available S live (· = state))
    (made : ChargedState.new S I live fuel state = some (.ok charged)) :
    History S I charged (totalSize S charged.chargedKeys.charged) 0 0
  | update {charged : ChargedState H} {initial written deleted : ℕ}
    (before : History S I charged initial written deleted) {live : H → Bool} {fuel : ℕ}
    {newState : ArenaKey H} {cpuCost : ℕ → ℕ → RunningCost} {gcLimit : RunningCost → ℕ}
    {results : WriteDeleteResults H}
    (available : Available S live fun k => k = newState ∨ k ∈ charged.chargedKeys.rc0)
    (made : incrementalWriteDeleteCosts S I live fuel charged.chargedKeys [newState] cpuCost gcLimit =
      some (.ok results)) :
    History S I ⟨newState, results.updatedChargedKeys⟩ initial (written + results.bytesWritten)
      (deleted + results.bytesDeleted)

structure Charges (S : Store H) (charged : ChargedState H) : Prop where
  exact : Exact S charged.chargedKeys
  rooted : ∀ k, Reached S.edges (· = charged.state) k → k ∈ charged.chargedKeys.charged

omit [DecidableEq H] in
theorem oneRoot (root : ArenaKey H) : (· ∈ [root]) = (· = root) :=
  funext fun _ => propext mem_singleton

theorem History.charges {charged : ChargedState H} {initial written deleted : ℕ}
    (history : History S I charged initial written deleted) :
    Charges S charged ∧ totalSize S charged.chargedKeys.charged + deleted = initial + written := by
  induction history with
  | @new live fuel state charged available made =>
    obtain ⟨results, computed, shape⟩ := bind_eq_some_iff.mp made
    cases results with
    | error e => cases shape
    | ok results =>
      cases shape
      obtain ⟨bound, accounts⟩ :=
        initialAccounted I (oneRoot state ▸ available) fun _ _ => ⟨0, 0, 0, 0⟩
      obtain ⟨expected, done, exact, rooted⟩ := accounts _ (le_max_right fuel bound)
      cases initialUnique computed done
      rw [oneRoot] at rooted
      exact ⟨⟨exact, fun k => (rooted k).mpr⟩, rfl⟩
  | @update charged initial written deleted before live fuel newState cpuCost gcLimit results
      available made ih =>
    obtain ⟨charges, sizes⟩ := ih
    obtain ⟨bound, accounts⟩ := incrementalAccounted I charges.exact [newState]
      (by simpa only [mem_singleton] using available) cpuCost gcLimit
    obtain ⟨expected, done, accounted⟩ := accounts _ (le_max_right fuel bound)
    cases incrementalUnique made done
    refine ⟨⟨accounted.exact, fun k => oneRoot newState ▸ accounted.rooted k⟩, ?_⟩
    have bytes := accounted.bytes
    change totalSize S results.updatedChargedKeys.charged + _ = _
    omega

theorem historyAccounted (S : Store H) (I : Iteration (ArenaKey H)) :
    (∀ (live : H → Bool) (state : ArenaKey H), Available S live (· = state) →
      ∃ bound, ∀ fuel ≥ bound, ∃ charged, ChargedState.new S I live fuel state = some (.ok charged) ∧
        charged.state = state ∧ History S I charged (totalSize S charged.chargedKeys.charged) 0 0) ∧
    ∀ (charged : ChargedState H) (initial written deleted : ℕ),
      History S I charged initial written deleted → Closed S.edges charged.chargedKeys.charged ∧
      (∀ k, Reached S.edges (· = charged.state) k → k ∈ charged.chargedKeys.charged) ∧
      (∀ k, charged.chargedKeys.getRc k =
        if k ∈ charged.chargedKeys.charged then
          some (incoming S.edges charged.chargedKeys.charged k)
        else none) ∧ totalSize S charged.chargedKeys.charged + deleted = initial + written ∧
      ∀ (live : H → Bool) (newState : ArenaKey H) (cpuCost : ℕ → ℕ → RunningCost)
        (gcLimit : RunningCost → ℕ),
        Available S live (fun k => k = newState ∨ k ∈ charged.chargedKeys.rc0) →
        ∃ bound, ∀ fuel ≥ bound, ∃ results : WriteDeleteResults H,
          charged.update S I live fuel newState cpuCost gcLimit =
            some (.ok (⟨newState, results.updatedChargedKeys⟩, results.runningCost)) ∧
          History S I ⟨newState, results.updatedChargedKeys⟩ initial
            (written + results.bytesWritten) (deleted + results.bytesDeleted) ∧
          (charged.chargedKeys.charged.card + results.nodesWritten ≤
              gcLimit (cpuCost results.nodesWritten 0) →
            ∀ k, k ∈ results.updatedChargedKeys.charged ↔ Reached S.edges (· = newState) k) := by
  refine ⟨fun live state available => ?_, fun charged initial written deleted history => ?_⟩
  · obtain ⟨bound, accounts⟩ :=
      initialAccounted I (oneRoot state ▸ available) fun _ _ => ⟨0, 0, 0, 0⟩
    refine ⟨bound, fun fuel enough => ?_⟩
    obtain ⟨results, computed, -, -⟩ := accounts fuel enough
    have made : ChargedState.new S I live fuel state =
        some (.ok ⟨state, results.updatedChargedKeys⟩) := by
      rw [ChargedState.new, computed]
      rfl
    exact ⟨_, made, rfl, .new available made⟩
  · obtain ⟨charges, sizes⟩ := history.charges
    refine ⟨charges.exact.closed, charges.rooted, charges.exact.counts, sizes,
      fun live newState cpuCost gcLimit available => ?_⟩
    obtain ⟨bound, accounts⟩ := incrementalAccounted I charges.exact [newState]
      (by simpa only [mem_singleton] using available) cpuCost gcLimit
    refine ⟨bound, fun fuel enough => ?_⟩
    obtain ⟨results, computed, accounted⟩ := accounts fuel enough
    refine ⟨results, ?_, history.update available computed, oneRoot newState ▸ accounted.unlimited⟩
    rw [ChargedState.update, computed]
    rfl

def diamond : Store ℕ where
  node
    | 3 => ⟨[], [.ref 1, .ref 2]⟩
    | 2 => ⟨[], [.ref 0]⟩
    | 1 => ⟨[], [.ref 0]⟩
    | _ => ⟨[], []⟩
  height := id
  acyclic := by
    intro h c mem
    match h with
    | 0 => cases mem
    | 1 | 2 => simp_all [OnDiskObject.refs, ArenaKey.refs]
    | 3 =>
      have cases : c = 1 ∨ c = 2 := by simpa [OnDiskObject.refs, ArenaKey.refs] using mem
      simp only [id]
      omega
    | _ + 4 => cases mem

theorem diamondAccounted : ∃ (charged next : ChargedState ℕ) (written deleted : ℕ),
    charged.state = .ref 3 ∧ next.state = .ref 1 ∧
      totalSize diamond next.chargedKeys.charged + deleted =
        totalSize diamond charged.chargedKeys.charged + written ∧
      ∀ k, k ∈ next.chargedKeys.charged ↔ Reached diamond.edges (· = .ref 1) k := by
  let I : Iteration (ArenaKey ℕ) := ⟨id, fun keys => .refl keys⟩
  have available : ∀ roots, Available diamond (fun _ => true) roots := by
    intro roots k _
    cases k with
    | ref hash => rfl
    | direct data children hash => trivial
  obtain ⟨bound, made⟩ := (historyAccounted diamond I).1 _ (.ref 3) (available _)
  obtain ⟨charged, -, state, history⟩ := made bound le_rfl
  obtain ⟨-, -, -, -, updates⟩ := (historyAccounted diamond I).2 _ _ _ _ history
  let total := charged.chargedKeys.charged.card
  obtain ⟨bound, updated⟩ := updates _ (.ref 1) (fun added _ => ⟨0, added, 0, 0⟩)
    (fun cost => total + cost.computeTime) (available _)
  obtain ⟨results, -, later, exact⟩ := updated bound le_rfl
  obtain ⟨-, -, -, sizes, -⟩ := (historyAccounted diamond I).2 _ _ _ _ later
  rw [Nat.zero_add, Nat.zero_add] at sizes
  exact ⟨charged, _, _, _, state, rfl, sizes, exact le_rfl⟩

end MidnightLedger.Storage

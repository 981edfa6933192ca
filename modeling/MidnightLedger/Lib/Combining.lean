import MidnightLedger.Lib.Maps
import MidnightLedger.Lib.Loops

/-! Two maps put into one, entry by entry: with distinct keys, or with the values of a common key
combined. -/
namespace Maps
open Loops List AList

variable {K V ε : Type} [DecidableEq K]

def insertNew (clash : K → ε) (m : Map K V) (entry : Sigma fun _ : K => V) : Except ε (Map K V) :=
  if (m.lookup entry.1).isSome then .error (clash entry.1) else .ok (m.insert entry.1 entry.2)

variable {clash : K → ε} {entries : List (Sigma fun _ : K => V)} {entry : Sigma fun _ : K => V}

theorem insertNewOk {m n : Map K V} (ok : insertNew clash m entry = .ok n) :
    m.lookup entry.1 = none ∧ n = m.insert entry.1 entry.2 := by
  rw [insertNew] at ok
  obtain ⟨absent, ok⟩ := elseOk.mp ok
  cases ok
  exact ⟨by simpa using absent, rfl⟩

theorem insertNewLookup {m n : Map K V} (ok : entries.foldlM (insertNew clash) m = .ok n) (k : K) :
    n.lookup k = (m.lookup k).or (entries.dlookup k) ∧ (k ∈ entries.keys → m.lookup k = none) := by
  induction entries generalizing m with
  | nil =>
    cases ok
    simp
  | cons entry entries ih =>
    obtain ⟨key, value⟩ := entry
    obtain ⟨next, first, rest⟩ := bindOk.mp ok
    obtain ⟨fresh, rfl⟩ := insertNewOk first
    obtain ⟨held, absent⟩ := ih rest
    rw [keys_cons, mem_cons]
    by_cases same : k = key
    · cases same
      rw [held, lookup_insert, fresh, dlookup_cons_eq]
      exact ⟨rfl, fun _ => rfl⟩
    · rw [lookup_insert_ne same] at held absent
      rw [dlookup_cons_ne _ _ same]
      exact ⟨held, fun mem => absent (mem.resolve_left same)⟩

variable {e : ε}

theorem insertNewFails {m : Map K V} (nodup : entries.NodupKeys)
    (fails : entries.foldlM (insertNew clash) m = .error e) :
    ∃ k ∈ entries.keys, e = clash k ∧ (m.lookup k).isSome := by
  induction entries generalizing m with
  | nil => cases fails
  | cons entry entries ih =>
    obtain ⟨key, value⟩ := entry
    obtain ⟨fresh, others⟩ := nodupKeys_cons.mp nodup
    rcases bindError.mp fails with refused | ⟨next, first, rest⟩
    · rw [insertNew] at refused
      split at refused <;> try contradiction
      rename_i present
      cases refused
      exact ⟨key, mem_cons_self, rfl, present⟩
    · obtain ⟨-, rfl⟩ := insertNewOk first
      obtain ⟨k, mem, clashed, present⟩ := ih others rest
      have apart : k ≠ key := fun same => fresh (same ▸ mem)
      rw [lookup_insert_ne apart] at present
      exact ⟨k, mem_cons_of_mem _ mem, clashed, present⟩

def combineEntry (f : V → V → Except ε V) (m : Map K V) (entry : Sigma fun _ : K => V) :
    Except ε (Map K V) :=
  match m.lookup entry.1 with
  | some v => (f v entry.2).map (m.insert entry.1)
  | none => .ok (m.insert entry.1 entry.2)

def combined (f : V → V → Except ε V) : Option V → Option V → Except ε (Option V)
  | some v, some w => (f v w).map some
  | some v, none => .ok (some v)
  | none, some w => .ok (some w)
  | none, none => .ok none

variable {f : V → V → Except ε V}

section Values

variable {x y z left right : Option V}

theorem combinedNone (f : V → V → Except ε V) (x : Option V) : combined f x none = .ok x := by
  cases x <;> rfl

theorem noneCombined (f : V → V → Except ε V) (x : Option V) : combined f none x = .ok x := by
  cases x <;> rfl

theorem combinedSome {v w : V} (ok : combined f (some v) (some w) = .ok x) :
    ∃ u, f v w = .ok u ∧ x = some u := by
  obtain ⟨u, made, same⟩ := mapOk.mp ok
  exact ⟨u, made, same.symm⟩

theorem combinedComm (comm : ∀ v w u u', f v w = .ok u → f w v = .ok u' → u = u')
    (first : combined f x y = .ok left) (second : combined f y x = .ok right) : left = right := by
  rcases x with - | v
  · rw [noneCombined] at first
    rw [combinedNone] at second
    exact Except.ok.inj (first.symm.trans second)
  · rcases y with - | w
    · exact Except.ok.inj (first.symm.trans second)
    · obtain ⟨u, made, rfl⟩ := combinedSome first
      obtain ⟨u', reversed, rfl⟩ := combinedSome second
      rw [comm v w u u' made reversed]

theorem combinedAssoc {xy yz : Option V}
    (assoc : ∀ u v w uv vw l r, f u v = .ok uv → f uv w = .ok l → f v w = .ok vw →
      f u vw = .ok r → l = r)
    (first : combined f x y = .ok xy) (second : combined f xy z = .ok left)
    (third : combined f y z = .ok yz) (fourth : combined f x yz = .ok right) : left = right := by
  rcases x with - | u
  · rw [noneCombined] at first fourth
    cases first
    cases fourth
    exact Except.ok.inj (second.symm.trans third)
  · rcases y with - | v
    · rw [noneCombined] at third
      cases first
      cases third
      exact Except.ok.inj (second.symm.trans fourth)
    · rcases z with - | w
      · rw [combinedNone] at second third
        cases second
        cases third
        exact Except.ok.inj (first.symm.trans fourth)
      · obtain ⟨uv, low, rfl⟩ := combinedSome first
        obtain ⟨vw, high, rfl⟩ := combinedSome third
        obtain ⟨l, outer, rfl⟩ := combinedSome second
        obtain ⟨r, inner, rfl⟩ := combinedSome fourth
        rw [assoc u v w uv vw l r low outer high inner]

end Values

variable {m n : Map K V}

theorem combineEntryLookup (ok : combineEntry f m entry = .ok n) (k : K) :
    if k = entry.1 then combined f (m.lookup k) (some entry.2) = .ok (n.lookup k)
      else n.lookup k = m.lookup k := by
  rw [combineEntry] at ok
  split at ok
  · rename_i v found
    obtain ⟨w, made, rfl⟩ := mapOk.mp ok
    split
    · rename_i same
      rw [same, found, lookup_insert, combined, made]
      rfl
    · rename_i apart
      exact lookup_insert_ne apart
  · rename_i absent
    cases ok
    split
    · rename_i same
      rw [same, absent, lookup_insert]
      rfl
    · rename_i apart
      exact lookup_insert_ne apart

theorem combineEntryFails (fails : combineEntry f m entry = .error e) :
    combined f (m.lookup entry.1) (some entry.2) = .error e := by
  rw [combineEntry] at fails
  split at fails <;> try contradiction
  rename_i v found
  rw [found, combined]
  cases made : f v entry.2 with
  | error e' =>
    rw [made] at fails
    cases fails
    rfl
  | ok w =>
    rw [made] at fails
    cases fails

section

variable (nodup : entries.NodupKeys)

include nodup

theorem combineLookup (ok : entries.foldlM (combineEntry f) m = .ok n) (k : K) :
    combined f (m.lookup k) (entries.dlookup k) = .ok (n.lookup k) := by
  induction entries generalizing m with
  | nil =>
    cases ok
    exact combinedNone f _
  | cons entry entries ih =>
    obtain ⟨fresh, others⟩ := nodupKeys_cons.mp nodup
    obtain ⟨next, first, remaining⟩ := bindOk.mp ok
    have rest := ih others remaining
    have step := combineEntryLookup first k
    split at step
    · rename_i same
      cases same
      rw [dlookup_eq_none.mpr fresh, combinedNone] at rest
      rw [dlookup_cons_eq, ← Except.ok.inj rest]
      exact step
    · rename_i apart
      rwa [dlookup_cons_ne _ _ apart, ← step]

theorem combineFails (fails : entries.foldlM (combineEntry f) m = .error e) :
    ∃ k, combined f (m.lookup k) (entries.dlookup k) = .error e := by
  induction entries generalizing m with
  | nil => cases fails
  | cons entry entries ih =>
    obtain ⟨key, value⟩ := entry
    obtain ⟨fresh, others⟩ := nodupKeys_cons.mp nodup
    rcases bindError.mp fails with refused | ⟨next, first, remaining⟩
    · refine ⟨key, ?_⟩
      rw [dlookup_cons_eq]
      exact combineEntryFails refused
    · obtain ⟨k, failed⟩ := ih others remaining
      have apart : k ≠ key := by
        rintro rfl
        rw [dlookup_eq_none.mpr fresh, combinedNone] at failed
        cases failed
      have step := combineEntryLookup first k
      rw [if_neg apart] at step
      exact ⟨k, by rwa [dlookup_cons_ne _ _ apart, ← step]⟩

end

end Maps

import MidnightLedger.Lib.Loops
import MidnightLedger.Lib.Words

/-! Transitions that also report what they did, next to the plain transitions. -/
namespace Journals
open Loops Words List

variable {σ τ ι ε δ α β : Type}

def tellEach (body : σ → ι → Except ε (σ × List α)) (xs : List ι) (s : σ) : Except ε (σ × List α) :=
  xs.foldlM (fun acc i => do
    let (next, told) ← body acc.1 i
    .ok (next, acc.2 ++ told)) (s, [])

def telling (plain : Except ε σ) (report : σ → List α) : Except ε (σ × List α) := do
  let next ← plain
  .ok (next, report next)

def Told (told : Outcome ε (σ × List α)) (plain : Outcome ε σ) : Prop :=
  told = .error .panic ∨ told.map Prod.fst = plain

variable {xs : List ι} {told : Outcome ε (σ × List α)} {plain : Outcome ε σ} {reports : List α}
  {body : σ → ι → Except ε (σ × List α)}

variable {s u : σ} {made : List α}

theorem toldOk (follows : Told told plain) (ok : told = .ok (s, reports)) : plain = .ok s := by
  rcases follows with panics | same
  · cases panics.symm.trans ok
  · rw [← same, ok]
    rfl

theorem toldRefused {e : ε} (follows : Told told plain) (refused : told = .error (.error e)) :
    plain = .error (.error e) := by
  rcases follows with panics | same
  · cases panics.symm.trans refused
  · rw [← same, refused]
    rfl

theorem toldTelling {report : σ → List α} : Told (telling plain report) plain := by
  cases plain with
  | error e => exact .inr rfl
  | ok s => exact .inr rfl

theorem toldPure : Told (.ok (s, reports) : Outcome ε (σ × List α)) (.ok s) := .inr rfl

theorem toldMapFault {told : Outcome δ (σ × List α)} {plain : Outcome δ σ} {wrap : δ → ε}
    (follows : Told told plain) : Told (mapFault wrap told) (mapFault wrap plain) := by
  rcases follows with panics | same
  · exact .inl (by rw [panics, mapFault])
  · refine .inr ?_
    rw [← same]
    rcases told with (e | -) | ⟨s, reports⟩ <;> rfl

theorem toldBind {continues : σ × List α → Outcome ε (τ × List β)} {next : σ → Outcome ε τ}
    (first : Told told plain) (second : ∀ {s reports}, Told (continues (s, reports)) (next s)) :
    Told (told >>= continues) (plain >>= next) := by
  rcases first with panics | same
  · rw [panics]
    exact .inl rfl
  · rw [← same]
    rcases told with e | ⟨s, reports⟩
    · exact .inr rfl
    · exact second

theorem toldBindLast {continues : σ × List α → Outcome ε (σ × List β)} (first : Told told plain)
    (last : ∀ {s reports}, Told (continues (s, reports)) (.ok s)) :
    Told (told >>= continues) plain := by
  rcases first with panics | same
  · rw [panics]
    exact .inl rfl
  · rw [← same]
    rcases told with e | ⟨s, reports⟩
    · exact .inr rfl
    · exact last

theorem toldAfter {check : Outcome ε τ} {continues : τ → Outcome ε (σ × List α)}
    {next : τ → Outcome ε σ} (each : ∀ {t}, Told (continues t) (next t)) :
    Told (check >>= continues) (check >>= next) := by
  cases check with
  | error e => exact .inr rfl
  | ok t => exact each

theorem toldEach {body : σ → ι → Outcome ε (σ × List α)} {plain : σ → ι → Outcome ε σ}
    (each : ∀ {s i}, Told (body s i) (plain s i)) :
    Told (tellEach body xs s) (xs.foldlM plain s) := by
  suffices through : ∀ {reports}, Told (xs.foldlM (fun acc i => do
      let (next, told) ← body acc.1 i
      .ok (next, acc.2 ++ told)) (s, reports)) (xs.foldlM plain s) from through
  induction xs generalizing s with
  | nil => exact toldPure
  | cons x xs ih =>
    intro reports
    exact toldBind (toldBindLast each toldPure) ih

theorem tellEachNil (ok : tellEach body [] s = .ok (u, reports)) : s = u ∧ reports = [] := by
  cases ok
  exact ⟨rfl, rfl⟩

theorem tellAfter {before : List α} (ok : xs.foldlM (fun acc i => do
      let (next, told) ← body acc.1 i
      .ok (next, acc.2 ++ told)) (s, before) = .ok (u, reports)) :
    ∃ rest, tellEach body xs s = .ok (u, rest) ∧ reports = before ++ rest := by
  suffices through : ∀ start, ∃ rest, xs.foldlM (fun acc i => do
      let (next, told) ← body acc.1 i
      .ok (next, acc.2 ++ told)) (s, start) = .ok (u, start ++ rest) ∧ reports = before ++ rest by
    exact through []
  intro start
  induction xs generalizing s before start with
  | nil =>
    cases ok
    exact ⟨[], by rw [append_nil]; rfl, (append_nil _).symm⟩
  | cons i xs ih =>
    obtain ⟨middle, taken, others⟩ := bindOk.mp ok
    obtain ⟨⟨next, told⟩, stepped, rfl⟩ := pureOk.mp taken
    obtain ⟨rest, run, whole⟩ := ih others (start ++ told)
    refine ⟨told ++ rest, ?_, by rw [whole, append_assoc]⟩
    rw [← append_assoc]
    exact bindOk.mpr ⟨_, bindOk.mpr ⟨_, stepped, rfl⟩, run⟩

theorem tellEachCons {i : ι} (ok : tellEach body (i :: xs) s = .ok (u, reports)) :
    ∃ t first rest, body s i = .ok (t, first) ∧ tellEach body xs t = .ok (u, rest) ∧
      reports = first ++ rest := by
  obtain ⟨middle, taken, others⟩ := bindOk.mp ok
  obtain ⟨⟨next, told⟩, stepped, rfl⟩ := pureOk.mp taken
  obtain ⟨rest, run, whole⟩ := tellAfter others
  exact ⟨next, told, rest, stepped, run, by rw [whole, nil_append]⟩

theorem tellEachAll {P : α → Prop}
    (each : ∀ {s i t told}, i ∈ xs → body s i = .ok (t, told) → ∀ a ∈ told, P a)
    (ok : tellEach body xs s = .ok (u, reports)) : ∀ a ∈ reports, P a := by
  induction xs generalizing s reports with
  | nil =>
    obtain ⟨-, rfl⟩ := tellEachNil ok
    exact forall_mem_nil _
  | cons i xs ih =>
    obtain ⟨t, first, rest, taken, others, rfl⟩ := tellEachCons ok
    refine forall_mem_append.mpr ⟨each mem_cons_self taken, ?_⟩
    exact ih (fun mem => each (mem_cons_of_mem _ mem)) others

theorem tellEachKeeps (read : σ → τ)
    (each : ∀ {s i t told}, body s i = .ok (t, told) → read t = read s)
    (ok : tellEach body xs s = .ok (u, reports)) : read u = read s := by
  induction xs generalizing s reports with
  | nil =>
    obtain ⟨rfl, -⟩ := tellEachNil ok
    rfl
  | cons i xs ih =>
    obtain ⟨t, first, rest, taken, others, -⟩ := tellEachCons ok
    exact (ih others).trans (each taken)

theorem tellEachSilent (reason : σ → ι → Prop) (each : ∀ {s i t told}, body s i = .ok (t, told) →
      (told = [] ↔ ¬ reason s i) ∧ ∀ j, reason t j ↔ reason s j)
    (ok : tellEach body xs s = .ok (u, reports)) :
    (reports = [] ↔ ∀ i ∈ xs, ¬ reason s i) ∧ ∀ j, reason u j ↔ reason s j := by
  induction xs generalizing s reports with
  | nil =>
    obtain ⟨rfl, rfl⟩ := tellEachNil ok
    exact ⟨by simp, fun _ => Iff.rfl⟩
  | cons i xs ih =>
    obtain ⟨t, first, rest, taken, others, rfl⟩ := tellEachCons ok
    obtain ⟨here, kept⟩ := each taken
    obtain ⟨later, keptLater⟩ := ih others
    refine ⟨?_, fun j => (keptLater j).trans (kept j)⟩
    rw [append_eq_nil_iff, here, later, forall_mem_cons]
    exact and_congr_right fun _ => forall₂_congr fun j _ => not_congr (kept j)

theorem tellingSilent {plain : σ → ι → Except ε σ} {report : σ → ι → List α}
    (ok : tellEach (fun t i => telling (plain t i) fun _ => report t i) xs s = .ok (u, reports)) :
    reports = [] ↔ ∀ front i back t, xs = front ++ i :: back → front.foldlM plain s = .ok t →
      report t i = [] := by
  induction xs generalizing s reports with
  | nil =>
    obtain ⟨-, rfl⟩ := tellEachNil ok
    simp
  | cons x xs ih =>
    obtain ⟨t, first, rest, taken, others, rfl⟩ := tellEachCons ok
    obtain ⟨next, stepped, last⟩ := bindOk.mp taken
    cases last
    rw [append_eq_nil_iff, ih others]
    constructor
    · rintro ⟨here, later⟩ front i back reached order run
      cases front with
      | nil =>
        cases order
        cases run
        exact here
      | cons first front =>
        cases order
        obtain ⟨middle, again, run⟩ := bindOk.mp run
        cases stepped.symm.trans again
        exact later front i back reached rfl run
    · intro all
      refine ⟨all [] x xs s rfl rfl, fun front i back reached order run => ?_⟩
      exact all (x :: front) i back reached (by rw [order, cons_append])
        (bindOk.mpr ⟨_, stepped, run⟩)

def labelled {κ : Type} (label : κ) (told : Except ε (σ × List α)) : Except ε (σ × List (κ × α)) :=
  told.map fun outcome => (outcome.1, outcome.2.map (Prod.mk label))

def unlabelled {κ : Type} (told : Except ε (σ × List (κ × α))) : Except ε (σ × List α) :=
  told.map fun outcome => (outcome.1, outcome.2.map Prod.snd)

section

variable {κ : Type}

theorem labelledOk {label : κ} {told : Except ε (σ × List α)} {s : σ} {reports : List (κ × α)} :
    labelled label told = .ok (s, reports) ↔
      ∃ plain, told = .ok (s, plain) ∧ reports = plain.map (Prod.mk label) := by
  cases told with
  | error e => simp [labelled, Except.map]
  | ok outcome =>
    obtain ⟨t, plain⟩ := outcome
    simp only [labelled, Except.map, Except.ok.injEq, Prod.mk.injEq]
    constructor
    · rintro ⟨rfl, rfl⟩
      exact ⟨plain, ⟨rfl, rfl⟩, rfl⟩
    · rintro ⟨_, ⟨rfl, rfl⟩, rfl⟩
      exact ⟨rfl, rfl⟩

theorem unlabelledLabelled (label : κ) (told : Except ε (σ × List α)) :
    unlabelled (labelled label told) = told := by
  cases told with
  | error e => rfl
  | ok outcome => simp [unlabelled, labelled, Except.map, Function.comp_def]

theorem unlabelledBind {told : Except ε (σ × List (κ × α))} {κ' : Type}
    {continues : σ × List (κ × α) → Except ε (τ × List (κ' × β))}
    {next : σ × List α → Except ε (τ × List β)}
    (each : ∀ {s reports}, unlabelled (continues (s, reports)) = next (s, reports.map Prod.snd)) :
    unlabelled (told >>= continues) = unlabelled told >>= next := by
  cases told with
  | error e => rfl
  | ok outcome => exact each

theorem unlabelledAfter {check : Except ε τ} {continues : τ → Except ε (σ × List (κ × α))}
    {next : τ → Except ε (σ × List α)} (each : ∀ {t}, unlabelled (continues t) = next t) :
    unlabelled (check >>= continues) = check >>= next := by
  cases check with
  | error e => rfl
  | ok t => exact each

theorem unlabelledEach (label : ι → κ) (body : σ → ι → Except ε (σ × List α)) :
    unlabelled (tellEach (fun t i => labelled (label i) (body t i)) xs s) = tellEach body xs s := by
  suffices through : ∀ reports, unlabelled (xs.foldlM (fun acc i => do
      let (next, told) ← labelled (label i) (body acc.1 i)
      .ok (next, acc.2 ++ told)) (s, reports)) = xs.foldlM (fun acc i => do
      let (next, told) ← body acc.1 i
      .ok (next, acc.2 ++ told)) (s, reports.map Prod.snd) from through []
  induction xs generalizing s with
  | nil => exact fun reports => rfl
  | cons x xs ih =>
    intro reports
    rw [foldlM_cons, foldlM_cons]
    cases taken : body s x with
    | error e => simp [labelled, Except.map, bind, Except.bind, unlabelled]
    | ok outcome =>
      have rest := ih (s := outcome.1) (reports ++ outcome.2.map (Prod.mk (label x)))
      rw [map_append, map_map, Function.comp_def, map_id'] at rest
      simpa only [labelled, taken, Except.map, bind, Except.bind] using rest

end

theorem madeNone (told : ([] : List (Option α)) = made.map some) : made = [] :=
  map_eq_nil_iff.mp told.symm

theorem madeOne {a : Option α} (told : [a] = made.map some) :
    ∃ report, a = some report ∧ made = [report] := by
  obtain ⟨report, rfl, same⟩ := map_eq_singleton_iff.mp told.symm
  exact ⟨report, same.symm, rfl⟩

/- A transition taken apart into moves, each with its own reports. -/
inductive Trace (move : σ → List α → σ → Prop) : σ → List α → σ → Prop where
  | done (s : σ) : Trace move s [] s
  | next {s t u : σ} {told more : List α} (first : move s told t) (rest : Trace move t more u) :
      Trace move s (told ++ more) u

namespace Trace

variable {move : σ → List α → σ → Prop} {t : σ} {told more : List α}

theorem single (first : move s told t) : Trace move s told t := by
  have trace := Trace.next first (.done t)
  rwa [append_nil] at trace

theorem append (first : Trace move s told t) (second : Trace move t more u) :
    Trace move s (told ++ more) u := by
  induction first with
  | done s => exact second
  | next taken rest ih =>
    rw [append_assoc]
    exact .next taken (ih second)

theorem mono {wider : σ → List α → σ → Prop} (each : ∀ {s told t}, move s told t → wider s told t)
    (trace : Trace move s told t) : Trace wider s told t := by
  induction trace with
  | done s => exact .done s
  | next taken rest ih => exact .next (each taken) ih

theorem each {body : τ → ι → Except ε (τ × List (Option β))} (view : τ → σ) (read : β → α)
    (steps : ∀ {a b : τ} {i : ι} {made : List β}, i ∈ xs → body a i = .ok (b, made.map some) →
      Trace move (view a) (made.map read) (view b))
    {a b : τ} {made : List β} (ok : tellEach body xs a = .ok (b, made.map some)) :
    Trace move (view a) (made.map read) (view b) := by
  induction xs generalizing a made with
  | nil =>
    obtain ⟨rfl, none⟩ := tellEachNil ok
    rw [madeNone none.symm]
    exact .done _
  | cons i xs ih =>
    obtain ⟨middle, first, rest, taken, others, whole⟩ := tellEachCons ok
    obtain ⟨early, late, rfl, rfl, rfl⟩ := map_eq_append_iff.mp whole
    rw [map_append]
    refine (steps mem_cons_self taken).append (ih (fun mem => ?_) others)
    exact steps (mem_cons_of_mem _ mem)

end Trace

inductive Record (reads : σ → α → σ → Prop) : σ → List α → σ → Prop where
  | nil (s : σ) : Record reads s [] s
  | cons {s t u : σ} {report : α} {reports : List α} (first : reads s report t)
      (rest : Record reads t reports u) : Record reads s (report :: reports) u

namespace Record

variable {reads : σ → α → σ → Prop} {t : σ} {told more : List α}

theorem single {report : α} (read : reads s report t) : Record reads s [report] t :=
  .cons read (.nil t)

theorem append (first : Record reads s told t) (second : Record reads t more u) :
    Record reads s (told ++ more) u := by
  induction first with
  | nil s => exact second
  | cons read rest ih => exact .cons read (ih second)

theorem split (record : Record reads s (told ++ more) u) :
    ∃ t, Record reads s told t ∧ Record reads t more u := by
  induction told generalizing s with
  | nil => exact ⟨s, .nil s, record⟩
  | cons report told ih =>
    cases record with
    | cons read rest =>
      obtain ⟨t, first, second⟩ := ih rest
      exact ⟨t, .cons read first, second⟩

end Record

end Journals

import Mathlib.Algebra.Order.BigOperators.Ring.List
import MidnightLedger.Lib.Loops

/-! Interpreters that fold a fallible step over a program, and lockstep simulation of one by
another. The simulating step may look at the end of the simulated run. -/
namespace Simulation
open List

variable {σ τ ι ε : Type}

def run (step : σ → ι → Except ε σ) (s : σ) (program : List ι) : Except ε σ :=
  program.foldlM step s

def Along (step : σ → ι → Except ε σ) (good : σ → ι → Prop) : σ → List ι → Prop
  | _, [] => True
  | s, i :: program => good s i ∧ ∀ s', step s i = .ok s' → Along step good s' program

variable {good : σ → ι → Prop} {s final : σ} {step : σ → ι → Except ε σ} {program : List ι}

theorem alongOfForall (each : ∀ i ∈ program, ∀ s, good s i) : Along step good s program := by
  induction program generalizing s with
  | nil => trivial
  | cons i program ih =>
    refine ⟨each i mem_cons_self s, fun next _ => ih ?_⟩
    exact (forall_mem_cons.mp each).2

theorem alongWith {fixed : ι → Prop} (along : Along step good s program)
    (each : ∀ i ∈ program, fixed i) : Along step (fun s i => good s i ∧ fixed i) s program := by
  induction program generalizing s with
  | nil => trivial
  | cons i program ih =>
    refine ⟨⟨along.1, each i mem_cons_self⟩, fun next taken => ih (along.2 next taken) ?_⟩
    exact (forall_mem_cons.mp each).2

theorem runNil : run step s [] = .ok final ↔ s = final :=
  ⟨Except.ok.inj, congrArg Except.ok⟩

theorem runCons {i : ι} : run step s (i :: program) = .ok final ↔
      ∃ next, step s i = .ok next ∧ run step next program = .ok final := Loops.bindOk

theorem runPreserves (invariant : σ → Prop)
    (preserved : ∀ {s i next}, i ∈ program → invariant s → step s i = .ok next → invariant next)
    (start : invariant s) (ok : run step s program = .ok final) : invariant final := by
  induction program generalizing s with
  | nil => exact runNil.mp ok ▸ start
  | cons i program ih =>
    obtain ⟨next, taken, rest⟩ := runCons.mp ok
    refine ih (fun mem => preserved (mem_cons_of_mem _ mem)) ?_ rest
    exact preserved mem_cons_self start taken

/- An invariant that speaks about what is still to run. -/
theorem runConsumes (invariant : List ι → σ → Prop)
    (consumed : ∀ {s i rest next}, invariant (i :: rest) s → step s i = .ok next →
      invariant rest next) (start : invariant program s) (ok : run step s program = .ok final) :
    invariant [] final := by
  induction program generalizing s with
  | nil => exact runNil.mp ok ▸ start
  | cons i program ih =>
    obtain ⟨next, taken, rest⟩ := runCons.mp ok
    exact ih (consumed start taken) rest

/- An invariant that speaks about what has run. -/
theorem runProcesses (invariant : List ι → σ → Prop)
    (processed : ∀ {done i rest s next}, program = done ++ i :: rest → invariant done s →
      step s i = .ok next → invariant (done ++ [i]) next) (start : invariant [] s)
    (ok : run step s program = .ok final) : invariant program final := by
  have prefixes (done rest : List ι) (reached : σ) (whole : program = done ++ rest)
      (holds : invariant done reached) (left : run step reached rest = .ok final) :
      invariant program final := by
    induction rest generalizing done reached with
    | nil =>
      rw [whole, append_nil, ← runNil.mp left]
      exact holds
    | cons i rest ih =>
      obtain ⟨next, taken, others⟩ := runCons.mp left
      exact ih (done ++ [i]) next (by simp [whole]) (processed whole holds taken) others
  exact prefixes [] program s rfl start ok

theorem runGrows (grown : σ → σ → Prop) (self : ∀ s, grown s s)
    (chain : ∀ {a b c}, grown a b → grown b c → grown a c)
    (grows : ∀ {s i next}, i ∈ program → step s i = .ok next → grown s next)
    (ok : run step s program = .ok final) : grown s final := by
  refine runPreserves (grown s) (fun mem before taken => ?_) (self s) ok
  exact chain before (grows mem taken)

theorem runMeasures (measure : σ → Nat) (gain loss : ι → Nat)
    (bounded : ∀ {s i next}, i ∈ program → step s i = .ok next →
      measure next + loss i ≤ measure s + gain i) (ok : run step s program = .ok final) :
    measure final + (program.map loss).sum ≤ measure s + (program.map gain).sum := by
  induction program generalizing s with
  | nil =>
    rw [runNil.mp ok]
    simp
  | cons i program ih =>
    obtain ⟨next, taken, rest⟩ := runCons.mp ok
    have first := bounded mem_cons_self taken
    have others := ih (fun mem => bounded (mem_cons_of_mem _ mem)) rest
    rw [map_cons, map_cons, sum_cons, sum_cons]
    omega

theorem runStepped (ok : run step s program = .ok final) :
    ∀ i ∈ program, ∃ before after, step before i = .ok after := by
  induction program generalizing s with
  | nil => simp
  | cons i program ih =>
    obtain ⟨next, taken, rest⟩ := runCons.mp ok
    intro j mem
    rcases mem_cons.mp mem with rfl | inside
    · exact ⟨s, next, taken⟩
    · exact ih rest j inside

theorem runFailed {e : ε} (failed : run step s program = .error e) :
    ∃ i ∈ program, ∃ before, step before i = .error e := by
  induction program generalizing s with
  | nil => cases failed
  | cons i program ih =>
    cases taken : step s i with
    | error other =>
      have same : run step s (i :: program) = .error other := by
        simp [run, taken, bind, Except.bind]
      cases failed.symm.trans same
      exact ⟨i, mem_cons_self, s, taken⟩
    | ok next =>
      have rest : run step s (i :: program) = run step next program := by
        simp [run, taken, bind, Except.bind]
      obtain ⟨j, mem, before, refused⟩ := ih (rest ▸ failed)
      exact ⟨j, mem_cons_of_mem _ mem, before, refused⟩

variable {stepA : σ → ι → Except ε σ}

theorem lockstep {stepB : τ → ι → Except ε τ} {related : σ → τ → Prop}
    (simulates : ∀ {s t i next rest}, related s t → good s i → stepA s i = .ok next →
      run stepA next rest = .ok final → ∃ t', stepB t i = .ok t' ∧ related next t') {t : τ}
    (start : related s t) (along : Along stepA good s program)
    (ok : run stepA s program = .ok final) :
    ∃ t', run stepB t program = .ok t' ∧ related final t' := by
  induction program generalizing s t with
  | nil => exact ⟨t, rfl, runNil.mp ok ▸ start⟩
  | cons i program ih =>
    obtain ⟨next, taken, rest⟩ := runCons.mp ok
    obtain ⟨t', stepped, same⟩ := simulates start along.1 taken rest
    obtain ⟨t'', runs, last⟩ := ih same (along.2 next taken) rest
    exact ⟨t'', runCons.mpr ⟨t', stepped, runs⟩, last⟩

theorem runProjected {δ : Type} {stepB : τ → ι → Except δ τ} (view : σ → τ)
    (same : ∀ {s i next}, stepA s i = .ok next → stepB (view s) i = .ok (view next))
    (ok : run stepA s program = .ok final) : run stepB (view s) program = .ok (view final) := by
  induction program generalizing s with
  | nil => rw [runNil.mp ok]; rfl
  | cons i program ih =>
    obtain ⟨next, taken, rest⟩ := runCons.mp ok
    exact runCons.mpr ⟨view next, same taken, ih rest⟩

theorem runMapped {κ δ : Type} {stepB : σ → κ → Except δ σ} {image : ι → κ}
    (same : ∀ {s i next}, stepA s i = .ok next → stepB s (image i) = .ok next)
    (ok : run stepA s program = .ok final) : run stepB s (program.map image) = .ok final := by
  induction program generalizing s with
  | nil => exact runNil.mpr (runNil.mp ok)
  | cons i program ih =>
    obtain ⟨next, taken, rest⟩ := runCons.mp ok
    exact runCons.mpr ⟨next, same taken, ih rest⟩

/- A run that leaves steps out, beside one that takes them all: a relation that a step of
the full run keeps, whether the partial run follows it or not. -/
theorem runSublist {related : σ → σ → Prop}
    (skips : ∀ {s t i next}, related s t → step t i = .ok next → related s next)
    (follows : ∀ {s t i next}, related s t → step t i = .ok next →
      ∃ s', step s i = .ok s' ∧ related s' next) {t : σ} {part : List ι}
    (sub : part.Sublist program) (start : related s t) (ok : run step t program = .ok final) :
    ∃ s', run step s part = .ok s' ∧ related s' final := by
  induction sub generalizing s t with
  | slnil => exact ⟨s, rfl, runNil.mp ok ▸ start⟩
  | cons i sub ih =>
    obtain ⟨next, taken, rest⟩ := runCons.mp ok
    exact ih (skips start taken) rest
  | cons_cons i sub ih =>
    obtain ⟨next, taken, rest⟩ := runCons.mp ok
    obtain ⟨s', stepped, kept⟩ := follows start taken
    obtain ⟨s'', runs, last⟩ := ih kept rest
    exact ⟨s'', runCons.mpr ⟨s', stepped, runs⟩, last⟩

end Simulation

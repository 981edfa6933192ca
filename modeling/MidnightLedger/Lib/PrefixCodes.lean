import Mathlib.Data.List.Basic

/-! Encodings read from the front. Two encodings split when, whatever follows each of them, equal
inputs leave equal rests and establish what the encodings stand for. -/
namespace PrefixCodes
open List Option

variable {α β : Type}

def Splits (left right : Option (List β)) (P : Prop) : Prop :=
  ∀ ⦃a b rest other : List β⦄, left = some a → right = some b → a ++ rest = b ++ other →
    P ∧ rest = other

def writeAll (write : α → Option (List β)) : List α → Option (List β)
  | [] => some []
  | x :: xs => do
    let head ← write x
    let tail ← writeAll write xs
    some (head ++ tail)

theorem splitsSelf (e : Option (List β)) : Splits e e True := by
  intro a b rest other first second same
  cases first.symm.trans second
  exact ⟨trivial, append_cancel_left same⟩

variable {left right : Option (List β)} {P : Prop}

theorem Splits.imp {Q : Prop} (splits : Splits left right P) (stronger : P → Q) :
    Splits left right Q := by
  intro a b rest other first second same
  obtain ⟨holds, rests⟩ := splits first second same
  exact ⟨stronger holds, rests⟩

theorem Splits.cons (c : β) (splits : Splits left right P) :
    Splits (left.bind fun out => some (c :: out)) (right.bind fun out => some (c :: out)) P := by
  intro a b rest other first second same
  obtain ⟨out, written, last⟩ := bind_eq_some_iff.mp first
  obtain ⟨out', written', last'⟩ := bind_eq_some_iff.mp second
  cases last
  cases last'
  exact splits written written' (tail_eq_of_cons_eq same)

theorem splitsApart {c d : β} (apart : c ≠ d) (first : ∀ a, left = some a → ∃ out, a = c :: out)
    (second : ∀ b, right = some b → ∃ out, b = d :: out) : Splits left right P := by
  intro a b rest other written written' same
  obtain ⟨out, rfl⟩ := first a written
  obtain ⟨out', rfl⟩ := second b written'
  exact absurd (head_eq_of_cons_eq same) apart

section WriteAll

variable {write : α → Option (List β)} {xs ys : List α} {out : List β}

theorem writeAllCons {x : α} : writeAll write (x :: xs) = some out ↔
      ∃ head tail, write x = some head ∧ writeAll write xs = some tail ∧ out = head ++ tail := by
  simp only [writeAll, bind, bind_eq_some_iff, some.injEq]
  constructor
  · rintro ⟨head, written, tail, rest, rfl⟩
    exact ⟨head, tail, written, rest, rfl⟩
  · rintro ⟨head, tail, written, rest, rfl⟩
    exact ⟨head, written, tail, rest, rfl⟩

theorem writeAllAppend : writeAll write (xs ++ ys) = some out ↔
      ∃ left right, writeAll write xs = some left ∧ writeAll write ys = some right ∧
        out = left ++ right := by
  induction xs generalizing out with
  | nil => simp [writeAll]
  | cons x xs ih =>
    rw [cons_append, writeAllCons]
    constructor
    · rintro ⟨head, tail, written, rest, rfl⟩
      obtain ⟨left, right, first, second, rfl⟩ := ih.mp rest
      exact ⟨head ++ left, right, writeAllCons.mpr ⟨head, left, written, first, rfl⟩, second,
        (append_assoc ..).symm⟩
    · rintro ⟨left, right, first, second, rfl⟩
      obtain ⟨head, tail, written, rest, rfl⟩ := writeAllCons.mp first
      exact ⟨head, tail ++ right, written, ih.mpr ⟨tail, right, rest, second, rfl⟩, append_assoc ..⟩

theorem writeAllTotal (each : ∀ x ∈ xs, ∃ out, write x = some out) :
    ∃ out, writeAll write xs = some out := by
  induction xs with
  | nil => exact ⟨[], rfl⟩
  | cons x xs ih =>
    obtain ⟨head, written⟩ := each x mem_cons_self
    obtain ⟨tail, rest⟩ := ih (forall_mem_cons.mp each).2
    exact ⟨head ++ tail, writeAllCons.mpr ⟨head, tail, written, rest, rfl⟩⟩

theorem splitsSingle {x y : α} {P : Prop} (splits : Splits (write x) (write y) P) :
    Splits (writeAll write [x]) (writeAll write [y]) P := by
  intro a b rest other first second same
  obtain ⟨head, tail, written, last, rfl⟩ := writeAllCons.mp first
  obtain ⟨head', tail', written', last', rfl⟩ := writeAllCons.mp second
  cases last
  cases last'
  rw [append_nil, append_nil] at same
  exact splits written written' same

theorem splitsAppend {zs ws : List α} {P Q : Prop}
    (first : Splits (writeAll write xs) (writeAll write ys) P)
    (second : Splits (writeAll write zs) (writeAll write ws) Q) :
    Splits (writeAll write (xs ++ zs)) (writeAll write (ys ++ ws)) (P ∧ Q) := by
  intro a b rest other written written' same
  obtain ⟨left, right, front, back, rfl⟩ := writeAllAppend.mp written
  obtain ⟨left', right', front', back', rfl⟩ := writeAllAppend.mp written'
  rw [append_assoc, append_assoc] at same
  obtain ⟨holds, rests⟩ := first front front' same
  obtain ⟨holds', rests'⟩ := second back back' rests
  exact ⟨⟨holds, holds'⟩, rests'⟩

end WriteAll

end PrefixCodes

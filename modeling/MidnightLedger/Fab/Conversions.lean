import MidnightLedger.Fab.Repr
import MidnightLedger.Ledger.Structure

/-! What the field representation of an aligned value determines: everything but the reduction of
Field atoms modulo the field prime. Then the conversions of the repository's types into aligned
values (base-crypto/src/fab/conversions.rs, base-crypto/src/fab/alignments.rs,
transient-crypto/src/fab.rs). -/
namespace MidnightLedger.Fab
open ByteString List Fab.Alignment Option Nat

/- Counts are written as `u32`, so they come back only when they fit one. -/
mutual

def AlignmentSegment.countsFit : AlignmentSegment → Bool
  | .atom _ => true
  | .option options => options.length < 2 ^ 32 && branchesCountsFit options

def segmentsCountsFit : Alignment → Bool
  | [] => true
  | segment :: rest => segment.countsFit && segmentsCountsFit rest

def branchesCountsFit : List Alignment → Bool
  | [] => true
  | branch :: options =>
    branch.length < 2 ^ 32 && segmentsCountsFit branch && branchesCountsFit options

end

def Alignment.countsFit (alignment : Alignment) : Bool :=
  alignment.length < 2 ^ 32 && segmentsCountsFit alignment

theorem countReprInj {n m : Nat} (left : n < 2 ^ 32) (right : m < 2 ^ 32)
    (same : countRepr n = countRepr m) : n = m := by
  have room : 2 ^ 32 < fieldModulus := by decide
  rw [countRepr, countRepr, mod_eq_of_lt left, mod_eq_of_lt right] at same
  exact Fr.ofNatInj (by omega) (by omega) same

theorem lengthReprNeTag (length : UInt32) (tag : Fr) (high : 2 ^ 32 ≤ tag.val) :
    Fr.ofNat length.toNat ≠ tag := by
  intro same
  have bound := length.toNat_lt
  have value := congrArg Fin.val same
  rw [Fr.ofNatVal, mod_eq_of_lt (by omega)] at value
  omega

variable {a : AlignmentAtom} {x : ValueAtom} {out : List Fr} {align : Alignment} {other : Value}
  {r s : List Fr} {y : ValueAtom} {atoms : List AlignmentAtom}

theorem atomReprInj {b : AlignmentAtom} (same : a.fieldRepr ++ r = b.fieldRepr ++ s) :
    a = b ∧ r = s := by
  have minusOne : 2 ^ 32 ≤ (-1 : Fr).val := by decide
  have minusTwo : 2 ^ 32 ≤ (-2 : Fr).val := by decide
  have tags : (-1 : Fr) ≠ -2 := by decide
  cases a with
  | compress =>
    cases b with
    | compress => exact ⟨rfl, (cons.inj same).2⟩
    | bytes m => exact absurd (cons.inj same).1.symm (lengthReprNeTag m _ minusOne)
    | field => exact absurd (cons.inj same).1 tags
  | bytes n =>
    cases b with
    | compress => exact absurd (cons.inj same).1 (lengthReprNeTag n _ minusOne)
    | bytes m =>
      obtain ⟨lengths, rest⟩ := cons.inj same
      have left := n.toNat_lt
      have right := m.toNat_lt
      have equal := Fr.ofNatInj (by omega) (by omega) lengths
      exact ⟨by rw [UInt32.toNat_inj.mp equal], rest⟩
    | field => exact absurd (cons.inj same).1 (lengthReprNeTag n _ minusTwo)
  | field =>
    cases b with
    | compress => exact absurd (cons.inj same).1.symm tags
    | bytes m => exact absurd (cons.inj same).1.symm (lengthReprNeTag m _ minusTwo)
    | field => exact ⟨rfl, (cons.inj same).2⟩

theorem atomReprNeOption : a.fieldRepr ++ r ≠ -3 :: s := by
  intro same
  have minusThree : 2 ^ 32 ≤ (-3 : Fr).val := by decide
  cases a with
  | compress | field => exact absurd (cons.inj same).1 (by decide)
  | bytes n => exact lengthReprNeTag n _ minusThree (cons.inj same).1

def PrefixCode (a : Alignment) : Prop :=
  ∀ (b : Alignment) (r s : List Fr), a.length = b.length →
    segmentsCountsFit a = true → segmentsCountsFit b = true →
    segmentsFieldRepr a ++ r = segmentsFieldRepr b ++ s → a = b ∧ r = s

theorem branchesPrefixCode {as : List Alignment} (each : ∀ a ∈ as, PrefixCode a)
    (bs : List Alignment) (r s : List Fr) (length : as.length = bs.length)
    (left : branchesCountsFit as) (right : branchesCountsFit bs)
    (same : branchesFieldRepr as ++ r = branchesFieldRepr bs ++ s) : as = bs ∧ r = s := by
  induction as generalizing bs with
  | nil =>
    cases bs with
    | nil => exact ⟨rfl, by simpa [branchesFieldRepr] using same⟩
    | cons b bs => simp at length
  | cons a as ih =>
    cases bs with
    | nil => simp at length
    | cons b bs =>
      simp only [branchesCountsFit, Bool.and_eq_true, decide_eq_true_eq] at left right
      simp only [branchesFieldRepr, cons_append, append_assoc, cons.injEq] at same
      have count := countReprInj left.1.1 right.1.1 same.1
      obtain ⟨head, rest⟩ := each a mem_cons_self b _ _ count left.1.2 right.1.2 same.2
      obtain ⟨tail, final⟩ := ih (forall_mem_cons.mp each).2 bs
        (by simpa using length) left.2 right.2 rest
      exact ⟨by rw [head, tail], final⟩

theorem alignmentPrefixCode (a : Alignment) : PrefixCode a := by
  induction a using alignmentInduction with
  | nil =>
    intro b r s length _ _ same
    have empty : b = [] := eq_nil_of_length_eq_zero length.symm
    subst b
    exact ⟨rfl, by simpa [segmentsFieldRepr] using same⟩
  | atom a rest ih =>
    intro b r s length left right same
    obtain ⟨segment, tail, rfl⟩ := exists_cons_of_length_eq_add_one length.symm
    simp only [segmentsCountsFit, Bool.and_eq_true] at left right
    cases segment with
    | atom c =>
      simp only [segmentsFieldRepr, AlignmentSegment.fieldRepr, append_assoc] at same
      obtain ⟨rfl, after⟩ := atomReprInj same
      obtain ⟨rfl, final⟩ := ih tail r s (by simpa using length) left.2 right.2 after
      exact ⟨rfl, final⟩
    | option options =>
      simp only [segmentsFieldRepr, AlignmentSegment.fieldRepr, append_assoc, cons_append] at same
      exact absurd same atomReprNeOption
  | option as rest each ih =>
    intro b r s length left right same
    obtain ⟨segment, tail, rfl⟩ := exists_cons_of_length_eq_add_one length.symm
    simp only [segmentsCountsFit, Bool.and_eq_true] at left right
    cases segment with
    | atom c =>
      simp only [segmentsFieldRepr, AlignmentSegment.fieldRepr, append_assoc, cons_append] at same
      exact absurd same.symm atomReprNeOption
    | option bs =>
      simp only [AlignmentSegment.countsFit, Bool.and_eq_true, decide_eq_true_eq] at left right
      simp only [segmentsFieldRepr, AlignmentSegment.fieldRepr, append_assoc,
        cons_append, cons.injEq, true_and] at same
      have count := countReprInj left.1.1 right.1.1 same.1
      obtain ⟨rfl, after⟩ := branchesPrefixCode each bs _ _ count left.1.2 right.1.2 same.2
      obtain ⟨rfl, final⟩ := ih tail r s (by simpa using length) left.2 right.2 after
      exact ⟨rfl, final⟩

theorem alignmentReprInj {a b : Alignment} (left : countsFit a) (right : countsFit b)
    (same : fieldRepr a ++ r = fieldRepr b ++ s) : a = b ∧ r = s := by
  simp only [countsFit, Bool.and_eq_true, decide_eq_true_eq] at left right
  simp only [Alignment.fieldRepr, cons_append, cons.injEq] at same
  exact alignmentPrefixCode a b r s (countReprInj left.1 right.1 same.1) left.2 right.2 same.2

def SameAtom (a : AlignmentAtom) (x y : ValueAtom) : Prop :=
  a.fits x = true ∧ a.fits y = true ∧
    match a with
    | .field => leNat x % fieldModulus = leNat y % fieldModulus
    | _ => x = y

inductive SameValue : Alignment → Value → Value → Prop where
  | nil : SameValue [] [] []
  | atom {a rest x y value other} (same : SameAtom a x y) (tail : SameValue rest value other) :
      SameValue (.atom a :: rest) (x :: value) (y :: other)
  | option {tys rest x inner twin value other index branch}
      (fits : discriminantAtom.fits x = true) (discriminant : u16TryFrom x = some index)
      (chosen : tys[index]? = some branch) (head : SameValue branch inner twin)
      (tail : SameValue rest value other) :
      SameValue (.option tys :: rest) (x :: (inner ++ value)) (x :: (twin ++ other))

def commitAtom (hash : TransientHash) (atom : ValueAtom) : Option Fr :=
  (bytesFieldRepr atom).map (fun repr => transientCommit hash repr (Fr.ofNat atom.length))

/- Collision resistance as an assumption: no two of the given atoms collide and
none of them commits to zero. No function into the field is injective on all byte
strings, so the atoms in question are part of the assumption. -/
structure CommitSound (hash : TransientHash) (atoms : Set ValueAtom) : Prop where
  injective : ∀ x ∈ atoms, ∀ y ∈ atoms, commitAtom hash x = commitAtom hash y → x = y
  nonzero : ∀ x ∈ atoms, commitAtom hash x ≠ some 0

variable {hash : TransientHash} {value : Value}

theorem bytesReprDigits {length : UInt32}
    (written : atomFieldReprUnchecked hash (.bytes length) x = some out) :
    ofDigits (256 ^ frBytesStored) (out.reverse.map Fin.val) = leNat x := by
  simp only [atomFieldReprUnchecked, chunksMapFromLeBytes] at written
  split at written <;> try contradiction
  simp only [bind, bind_some, some.injEq] at written
  have values : (chunks frBytesStored x).map (Fin.val ∘ fun chunk => Fr.ofNat (leNat chunk)) =
      (chunks frBytesStored x).map leNat :=
    map_congr_left (fun _ mem => mod_eq_of_lt (Fr.storedLt (splitChunksBound mem)))
  rw [← written]
  simp only [reverse_append, reverse_reverse, reverse_replicate, map_append,
    List.map_map, map_replicate, values]
  rw [show ((0 : Fr) : Nat) = 0 from rfl, ofDigits_append_replicate_zero]
  exact chunksDigits (by decide) x

theorem atomDetermined {atoms : Set ValueAtom} (sound : CommitSound hash atoms) (left : x ∈ atoms)
    (right : y ∈ atoms) (fitsLeft : a.fits x) (fitsRight : a.fits y)
    (first : atomFieldReprUnchecked hash a x = some out)
    (second : atomFieldReprUnchecked hash a y = some out) : SameAtom a x y := by
  refine ⟨fitsLeft, fitsRight, ?_⟩
  cases a with
  | compress =>
    have outOf : ∀ z ∈ atoms, atomFieldReprUnchecked hash .compress z = some out →
        (z = [] ∧ out = [0]) ∨ (z ≠ [] ∧ ∃ c, c ≠ 0 ∧ out = [c] ∧ commitAtom hash z = some c) := by
      intro z mem written
      simp only [atomFieldReprUnchecked] at written
      split at written
      · rename_i empty
        exact .inl ⟨by simpa using empty, (some.inj written).symm⟩
      · rename_i nonempty
        obtain ⟨repr, total, _⟩ := bytesFieldReprTotal z
        simp only [total, bind, bind_some, some.injEq] at written
        have commits : commitAtom hash z =
            some (transientCommit hash repr (Fr.ofNat z.length)) := by simp [commitAtom, total]
        refine .inr ⟨by simpa using nonempty, _, ?_, written.symm, commits⟩
        intro zero
        exact sound.nonzero z mem (by rw [commits, zero])
    rcases outOf x left first with ⟨rfl, single⟩ | ⟨_, c, nonzero, single, commits⟩
    · rcases outOf y right second with ⟨rfl, _⟩ | ⟨_, d, nonzero, other, _⟩
      · rfl
      · exact absurd (by simpa using other.symm.trans single) nonzero
    · rcases outOf y right second with ⟨rfl, other⟩ | ⟨_, d, _, other, commitsToo⟩
      · exact absurd (by simpa using single.symm.trans other) nonzero
      · have same : c = d := by simpa using single.symm.trans other
        exact sound.injective x left y right (by rw [commits, commitsToo, same])
  | bytes length =>
    have normal : ∀ z, (AlignmentAtom.bytes length).fits z = true → normalForm z = true := by
      intro z fits
      simp only [AlignmentAtom.fits, Bool.and_eq_true] at fits
      exact fits.2
    exact leNatInjOfNormal (normal x fitsLeft) (normal y fitsRight)
      ((bytesReprDigits first).symm.trans (bytesReprDigits second))
  | field =>
    have reduced : ∀ z, atomFieldReprUnchecked hash .field z = some out →
        out = [Fr.ofNat (leNat z)] := by
      intro z written
      simp only [atomFieldReprUnchecked] at written
      split at written <;> try contradiction
      rw [← some.inj written, Fr.fromUniformBytes, leNatAppendZeros]
    have same : Fr.ofNat (leNat x) = Fr.ofNat (leNat y) := by
      simpa using (reduced x first).symm.trans (reduced y second)
    exact congrArg Fin.val same

theorem sameAtomRepr (same : SameAtom a x y) :
    atomFieldReprUnchecked hash a x = atomFieldReprUnchecked hash a y := by
  obtain ⟨left, right, equal⟩ := same
  cases a with
  | compress | bytes length => rw [show x = y from equal]
  | field =>
    simp only [AlignmentAtom.fits, Bool.and_eq_true, decide_eq_true_eq] at left right
    have reduced : Fr.ofNat (leNat x) = Fr.ofNat (leNat y) := Fin.ext equal
    simp only [atomFieldReprUnchecked, if_pos left.1, if_pos right.1, Fr.fromUniformBytes,
      leNatAppendZeros, reduced]

def fittingRepr (hash : TransientHash) (a : AlignmentAtom) (x : ValueAtom) : Option (List Fr) :=
  if a.fits x then atomFieldReprUnchecked hash a x else none

theorem fittingReprInv (written : fittingRepr hash a x = some out) :
    a.fits x ∧ atomFieldReprUnchecked hash a x = some out := by
  simp only [fittingRepr] at written
  split at written <;> try contradiction
  exact ⟨by assumption, written⟩

theorem writesOfResolves (resolves : Resolves align value atoms) {used rest tail : Value}
    (writes : Writes 0 (atomFieldReprUnchecked hash) fieldLen align used out)
    (split : value ++ tail = used ++ rest) :
    used = value ∧ Writes 0 (fittingRepr hash) fieldLen align value out := by
  induction resolves generalizing used rest tail out with
  | nil =>
    cases writes
    exact ⟨rfl, .nil⟩
  | atom fits _ ih =>
    cases writes with
    | atom written after =>
      simp only [cons_append, cons.injEq] at split
      obtain ⟨rfl, split⟩ := split
      obtain ⟨rfl, checked⟩ := ih after split
      exact ⟨rfl, .atom (by rw [fittingRepr, if_pos fits, written]) checked⟩
  | option fits discriminant chosen _ _ headIh tailIh =>
    cases writes with
    | option discriminant' chosen' written inside after =>
      simp only [cons_append, append_assoc, cons.injEq] at split
      obtain ⟨rfl, split⟩ := split
      cases discriminant.symm.trans discriminant'
      cases chosen.symm.trans chosen'
      obtain ⟨rfl, checkedHead⟩ := headIh inside split
      obtain ⟨rfl, checkedTail⟩ := tailIh after (append_cancel_left split)
      exact ⟨rfl, .option discriminant chosen (by rw [fittingRepr, if_pos fits, written])
        checkedHead checkedTail⟩

theorem fieldReprWrites (fits : Fits align value)
    (ok : fieldReprUnchecked hash value align = some out) :
    Writes 0 (fittingRepr hash) fieldLen align value out := by
  obtain ⟨atoms, resolves⟩ := fits
  obtain ⟨⟨rest, result⟩, traversed, rfl⟩ := map_eq_some_iff.mp ok
  obtain ⟨used, out, split, rfl, writes⟩ := traverseSound traversed
  exact (writesOfResolves resolves writes (by rw [append_nil]; exact split)).2

theorem fittingReprLength (hash : TransientHash) (a : AlignmentAtom) (x : ValueAtom)
    (out : List Fr) (written : fittingRepr hash a x = some out) : out.length = a.fieldLen :=
  atomFieldReprLength hash a x out (fittingReprInv written).2

/- Two runs of the traversal side by side: every part has the same length in
both, so equal outputs are equal part by part, discriminants first. -/
theorem writesDetermine {atoms : Set ValueAtom} (sound : CommitSound hash atoms) {out' : List Fr}
    (first : Writes 0 (fittingRepr hash) fieldLen align value out)
    (second : Writes 0 (fittingRepr hash) fieldLen align other out') (same : out = out')
    (left : ∀ x ∈ value, x ∈ atoms) (right : ∀ y ∈ other, y ∈ atoms) :
    SameValue align value other := by
  induction first generalizing other out' with
  | nil =>
    cases second
    exact .nil
  | atom written _ ih =>
    cases second with
    | atom written' after =>
      have lengths := (fittingReprLength hash _ _ _ written).trans
        (fittingReprLength hash _ _ _ written').symm
      obtain ⟨rfl, rest⟩ := append_inj same lengths
      obtain ⟨fits, write⟩ := fittingReprInv written
      obtain ⟨fits', write'⟩ := fittingReprInv written'
      exact .atom (atomDetermined sound (left _ mem_cons_self) (right _ mem_cons_self) fits fits'
          write write')
        (ih after rest (forall_mem_cons.mp left).2 (forall_mem_cons.mp right).2)
  | option discriminant chosen written inside _ headIh tailIh =>
    cases second with
    | option discriminant' chosen' written' inside' after =>
      have lengths := (fittingReprLength hash _ _ _ written).trans
        (fittingReprLength hash _ _ _ written').symm
      obtain ⟨rfl, rest⟩ := append_inj same lengths
      obtain ⟨fits, write⟩ := fittingReprInv written
      obtain ⟨fits', write'⟩ := fittingReprInv written'
      obtain ⟨_, _, equal⟩ := atomDetermined sound (left _ mem_cons_self)
        (right _ mem_cons_self) fits fits' write write'
      cases equal
      cases discriminant.symm.trans discriminant'
      cases chosen.symm.trans chosen'
      have inner := (writesLength (fittingReprLength hash) inside).trans
        (writesLength (fittingReprLength hash) inside').symm
      obtain ⟨sameInner, rest⟩ := append_inj rest inner
      have sameTail := (append_inj rest (by simp)).2
      exact .option fits discriminant chosen
        (headIh inside' sameInner (fun x mem => left x (by simp [mem]))
          (fun y mem => right y (by simp [mem])))
        (tailIh after sameTail (fun x mem => left x (by simp [mem]))
          (fun y mem => right y (by simp [mem])))

section

variable (same : SameValue align value other)

include same

theorem sameTraverse (tail tail' : Value) (acc : List Fr) : ∃ result : Option (List Fr),
      traverseWriting 0 (atomFieldReprUnchecked hash) fieldLen align (value ++ tail) acc =
        result.map (fun out => (tail, out)) ∧
      traverseWriting 0 (atomFieldReprUnchecked hash) fieldLen align (other ++ tail') acc =
        result.map (fun out => (tail', out)) := by
  induction same generalizing tail tail' acc with
  | nil => exact ⟨some acc, by simp [traverseWriting, reprTraverse]⟩
  | @atom a rest x y value other same _ ih =>
    have equal : atomFieldReprUnchecked hash a x = atomFieldReprUnchecked hash a y :=
      sameAtomRepr same
    cases written : atomFieldReprUnchecked hash a y with
    | none =>
      simp [traverseWriting, reprTraverse, reprTraverseSegment, equal, written]
    | some out =>
      obtain ⟨result, first, second⟩ := ih tail tail' (acc ++ out)
      refine ⟨result, ?_⟩
      simp only [traverseWriting] at first second
      simp [traverseWriting, reprTraverse, reprTraverseSegment, equal, written, first, second]
  | @option tys rest x inner twin value other index branch fits discriminant chosen _ _ headIh
      tailIh =>
    cases written : atomFieldReprUnchecked hash discriminantAtom x with
    | none =>
      simp [traverseWriting, reprTraverse, reprTraverseSegment, discriminant, written]
    | some out =>
      obtain ⟨inside, first, second⟩ := headIh (value ++ tail) (other ++ tail') (acc ++ out)
      cases inside with
      | none =>
        simp only [traverseWriting, map_none] at first second
        simp [traverseWriting, reprTraverse, reprTraverseSegment, reprTraverseChoiceAt,
          discriminant, chosen, written, first, second]
      | some acc' =>
        obtain ⟨result, third, fourth⟩ := tailIh tail tail' (acc' ++
          replicate ((tys.map Alignment.fieldLen).max?.getD 0 - Alignment.fieldLen branch) 0)
        refine ⟨result, ?_⟩
        simp only [traverseWriting, map_some] at first second third fourth
        simp [traverseWriting, reprTraverse, reprTraverseSegment, reprTraverseChoiceAt,
          discriminant, chosen, written, first, second, third, fourth]

theorem sameValueRepr :
    fieldReprUnchecked hash value align = fieldReprUnchecked hash other align := by
  obtain ⟨result, first, second⟩ := sameTraverse same [] [] []
  rw [append_nil] at first second
  rw [fieldReprUnchecked, fieldReprUnchecked, first, second]

theorem sameValueAtoms : ∃ atoms, Resolves align value atoms ∧ Resolves align other atoms ∧
      ∀ t ∈ atoms.zip (value.zip other), SameAtom t.1 t.2.1 t.2.2 := by
  induction same with
  | nil => exact ⟨[], .nil, .nil, by simp⟩
  | @atom a rest x y value other same _ ih =>
    obtain ⟨atoms, first, second, each⟩ := ih
    refine ⟨a :: atoms, .atom same.1 first, .atom same.2.1 second, ?_⟩
    intro t mem
    rcases mem_cons.mp mem with rfl | inside
    · exact same
    · exact each t inside
  | @option tys rest x inner twin value other index branch fits discriminant chosen _ _ headIh
      tailIh =>
    obtain ⟨innerAtoms, firstHead, secondHead, eachHead⟩ := headIh
    obtain ⟨atoms, firstTail, secondTail, eachTail⟩ := tailIh
    refine ⟨discriminantAtom :: (innerAtoms ++ atoms),
      .option fits discriminant chosen firstHead firstTail,
      .option fits discriminant chosen secondHead secondTail, ?_⟩
    have lengths : inner.length = twin.length :=
      (resolvesLength firstHead).symm.trans (resolvesLength secondHead)
    intro t mem
    rw [zip_cons_cons, zip_cons_cons, zip_append lengths,
      zip_append (by simp [← lengths, resolvesLength firstHead])] at mem
    rcases mem_cons.mp mem with rfl | inside
    · exact ⟨fits, fits, rfl⟩
    · rcases mem_append.mp inside with head | tail
      · exact eachHead t head
      · exact eachTail t tail

end

def FieldsCanonical (av : AlignedValue) : Prop :=
  ∀ atoms, Resolves av.alignment av.value atoms →
    ∀ t ∈ atoms.zip av.value, t.1 = .field → leNat t.2 < fieldModulus

theorem sameAtomCanonical (same : SameAtom a x y) (left : a = .field → leNat x < fieldModulus)
    (right : a = .field → leNat y < fieldModulus) : x = y := by
  obtain ⟨fitsLeft, fitsRight, equal⟩ := same
  cases a with
  | compress => exact equal
  | bytes length => exact equal
  | field =>
    simp only [AlignmentAtom.fits, Bool.and_eq_true] at fitsLeft fitsRight
    have value : leNat x = leNat y := by
      have reduced : leNat x % fieldModulus = leNat y % fieldModulus := equal
      rwa [mod_eq_of_lt (left rfl), mod_eq_of_lt (right rfl)] at reduced
    exact leNatInjOfNormal fitsLeft.2 fitsRight.2 value

theorem sameAtomsCanonical (first : atoms.length = value.length)
    (second : atoms.length = other.length)
    (each : ∀ t ∈ atoms.zip (value.zip other), SameAtom t.1 t.2.1 t.2.2)
    (left : ∀ t ∈ atoms.zip value, t.1 = .field → leNat t.2 < fieldModulus)
    (right : ∀ t ∈ atoms.zip other, t.1 = .field → leNat t.2 < fieldModulus) : value = other := by
  induction atoms generalizing value other with
  | nil =>
    rw [eq_nil_of_length_eq_zero first.symm, eq_nil_of_length_eq_zero second.symm]
  | cons a atoms ih =>
    obtain ⟨x, value, rfl⟩ := exists_cons_of_length_eq_add_one first.symm
    obtain ⟨y, other, rfl⟩ := exists_cons_of_length_eq_add_one second.symm
    have head : x = y := sameAtomCanonical (each _ mem_cons_self)
      (left (a, x) mem_cons_self) (right (a, y) mem_cons_self)
    have tail : value = other := ih (by simpa using first) (by simpa using second)
      (forall_mem_cons.mp each).2
      (forall_mem_cons.mp left).2
      (forall_mem_cons.mp right).2
    rw [head, tail]

theorem fieldReprDetermines (hash : TransientHash) (atoms : Set ValueAtom)
    (sound : CommitSound hash atoms) (av bw : AlignedValue)
    (fitsLeft : fits av.alignment av.value) (fitsRight : fits bw.alignment bw.value)
    (countsLeft : countsFit av.alignment) (countsRight : countsFit bw.alignment)
    (left : ∀ x ∈ av.value, x ∈ atoms) (right : ∀ x ∈ bw.value, x ∈ atoms) (r s : List Fr)
    (reprLeft : av.fieldRepr hash = some r) (reprRight : bw.fieldRepr hash = some s) :
    (r = s ↔ av.alignment = bw.alignment ∧ SameValue av.alignment av.value bw.value) ∧
    (FieldsCanonical av → FieldsCanonical bw → r = s → av = bw) := by
  obtain ⟨value, align⟩ := av
  obtain ⟨other, align'⟩ := bw
  simp only [AlignedValue.fieldRepr, bind, bind_eq_some_iff, some.injEq]
    at reprLeft reprRight
  obtain ⟨out, written, rfl⟩ := reprLeft
  obtain ⟨out', written', rfl⟩ := reprRight
  have determines : fieldRepr align ++ out = fieldRepr align' ++ out' →
      align = align' ∧ SameValue align value other := by
    intro same
    obtain ⟨rfl, rfl⟩ := alignmentReprInj countsLeft countsRight same
    exact ⟨rfl, writesDetermine sound (fieldReprWrites ((fitsIff _ _).mp fitsLeft) written)
      (fieldReprWrites ((fitsIff _ _).mp fitsRight) written') rfl left right⟩
  refine ⟨⟨determines, ?_⟩, ?_⟩
  · rintro ⟨alignments, same⟩
    simp only at alignments same
    subst alignments
    have equal : fieldReprUnchecked hash value align = fieldReprUnchecked hash other align :=
      sameValueRepr same
    rw [written, written'] at equal
    rw [some.inj equal]
  · intro canonicalLeft canonicalRight same
    obtain ⟨rfl, sameValue⟩ := determines same
    obtain ⟨resolved, first, second, each⟩ := sameValueAtoms sameValue
    have equal : value = other := sameAtomsCanonical (resolvesLength first) (resolvesLength second)
      each (canonicalLeft resolved first) (canonicalRight resolved second)
    rw [equal]

def radixHash : TransientHash := fun elems => elems.foldl (fun acc e => acc * 1000 + e + 1) 0

def reducedAlignment : Alignment :=
  [.option [[.atom (.bytes 40)], [.atom .field]], .atom .compress]
def zeroValue : AlignedValue := ⟨[[1], [], [7]], reducedAlignment⟩
def primeValue : AlignedValue := ⟨[[1], leBytes 32 fieldModulus, [7]], reducedAlignment⟩
def reducedAtoms : List ValueAtom := [[1], [], [7], leBytes 32 fieldModulus]

theorem radixCommitSound : CommitSound radixHash {x | x ∈ reducedAtoms} where
  injective := by
    have all : ∀ x ∈ reducedAtoms, ∀ y ∈ reducedAtoms,
        commitAtom radixHash x = commitAtom radixHash y → x = y := by decide +kernel
    exact all
  nonzero := by
    have all : ∀ x ∈ reducedAtoms, commitAtom radixHash x ≠ some 0 := by decide +kernel
    exact all

theorem equalReprDistinctValues :
    fits zeroValue.alignment zeroValue.value ∧
    fits primeValue.alignment primeValue.value ∧
    CommitSound radixHash {x | x ∈ reducedAtoms} ∧ (zeroValue.fieldRepr radixHash).isSome ∧
    zeroValue.fieldRepr radixHash = primeValue.fieldRepr radixHash ∧
    zeroValue.value ≠ primeValue.value :=
  ⟨by decide +kernel, by decide +kernel, radixCommitSound, by decide +kernel, by decide +kernel,
    by decide +kernel⟩

theorem zeroAndPrimeDetermined :
    ∃ r, zeroValue.fieldRepr radixHash = some r ∧ primeValue.fieldRepr radixHash = some r ∧
      SameValue reducedAlignment zeroValue.value primeValue.value := by
  obtain ⟨r, left⟩ := isSome_iff_exists.mp
    (by decide +kernel : (zeroValue.fieldRepr radixHash).isSome = true)
  have same : zeroValue.fieldRepr radixHash = primeValue.fieldRepr radixHash := by decide +kernel
  have right : primeValue.fieldRepr radixHash = some r := same.symm.trans left
  have all := fieldReprDetermines radixHash {x | x ∈ reducedAtoms} radixCommitSound zeroValue
    primeValue (by decide +kernel) (by decide +kernel) (by decide +kernel) (by decide +kernel)
    (by decide +kernel) (by decide +kernel) r r left right
  exact ⟨r, left, right, (all.1.mp rfl).2⟩

open MidnightLedger.Ledger AlignmentAtom

/- `Aligned` and `Into<Value>` together; `expect` in the conversion to an aligned value
relies on `fits`. -/
class Aligned (T : Type) where
  alignment : Alignment
  toValue : T → Value
  fits : ∀ x, Fits alignment (toValue x)
  short : ∀ x, ∀ atom ∈ toValue x, atom.length < 2 ^ 32

def AlignedValue.of {T : Type} [Aligned T] (x : T) : AlignedValue :=
  ⟨Aligned.toValue x, Aligned.alignment T⟩

class Determined (T : Type) [Aligned T] : Prop where
  determined : ∀ (hash : TransientHash) (x y : T) (out : List Fr),
    fieldReprUnchecked hash (Aligned.toValue x) (Aligned.alignment T) = some out →
    fieldReprUnchecked hash (Aligned.toValue y) (Aligned.alignment T) = some out → x = y

section Code

variable {T : Type} [Aligned T] (hash : TransientHash)

theorem ofReprExact (x : T) : ∃ out, (AlignedValue.of x).fieldRepr hash = some out ∧
    out.length = Alignment.fieldSize (Aligned.alignment T) +
      Alignment.fieldLen (Aligned.alignment T) :=
  @alignedFieldReprExact (.of x) hash (Aligned.fits x) (Aligned.short x)

theorem ofReprInj [Determined T] {x y : T} {left right rest other : List Fr}
    (first : (AlignedValue.of x).fieldRepr hash = some left)
    (second : (AlignedValue.of y).fieldRepr hash = some right)
    (same : left ++ rest = right ++ other) : x = y ∧ rest = other := by
  obtain ⟨_, exactLeft, length⟩ := ofReprExact hash x
  obtain ⟨_, exactRight, length'⟩ := ofReprExact hash y
  cases exactLeft.symm.trans first
  cases exactRight.symm.trans second
  obtain ⟨reprs, rests⟩ := append_inj same (length.trans length'.symm)
  simp only [AlignedValue.fieldRepr, bind, bind_eq_some_iff, some.injEq] at first second
  obtain ⟨out, written, rfl⟩ := first
  obtain ⟨out', written', rfl⟩ := second
  have values : out = out' := append_cancel_left reprs
  exact ⟨Determined.determined hash x y out written (values ▸ written'), rests⟩

end Code

variable {length : UInt32} {n : Nat}

theorem fitsSingle (fits : a.fits x) : Fits [.atom a] [x] := ⟨[a], .atom fits .nil⟩

theorem singleRepr (ok : fieldReprUnchecked hash [x] [.atom a] = some out) :
    atomFieldReprUnchecked hash a x = some out := by
  cases written : atomFieldReprUnchecked hash a x with
  | none =>
    simp [fieldReprUnchecked, traverseWriting, reprTraverse, reprTraverseSegment, written] at ok
  | some out' =>
    have writes := fieldReprUncheckedOfWrites (.atom written .nil)
    rw [append_nil] at writes
    exact writes.symm.trans ok

theorem trimFits {bytes : Bytes} (short : bytes.length ≤ length.toNat) :
    (AlignmentAtom.bytes length).fits (trimZeros bytes) := by
  have trimmed := le_trans (trimZerosLength bytes) short
  have small := length.toNat_lt
  simp only [AlignmentAtom.fits, Bool.and_eq_true, decide_eq_true_eq]
  rw [mod_eq_of_lt (by omega)]
  exact ⟨trimmed, trimZerosNormal bytes⟩

theorem trimLeBytes {w k : Nat} (wide : n < 256 ^ w) (small : n < 256 ^ k) :
    trimZeros (leBytes w n) = trimZeros (leBytes k n) := by
  refine leNatInjOfNormal (trimZerosNormal _) (trimZerosNormal _) ?_
  rw [leNatTrimZeros, leNatTrimZeros, leNatLeBytes, leNatLeBytes, mod_eq_of_lt wide,
    mod_eq_of_lt small]

theorem bytesDetermined {x y : Bytes}
    (first : fieldReprUnchecked hash [trimZeros x] [.atom (.bytes length)] = some out)
    (second : fieldReprUnchecked hash [trimZeros y] [.atom (.bytes length)] = some out) :
    leNat x = leNat y := by
  have left := bytesReprDigits (singleRepr first)
  have right := bytesReprDigits (singleRepr second)
  rw [leNatTrimZeros] at left right
  exact left.symm.trans right

def uintAtom (n : Nat) : ValueAtom := trimZeros (leBytes 16 n)

theorem uintAtomFits (width : length.toNat ≤ 16) (small : n < 256 ^ length.toNat) :
    (bytes length).fits (uintAtom n) := by
  have wide : n < 256 ^ 16 := Nat.lt_of_lt_of_le small (Nat.pow_le_pow_right (by decide) width)
  rw [uintAtom, trimLeBytes wide small]
  exact trimFits (leBytesLength ..).le

theorem uintAtomShort (n : Nat) : (uintAtom n).length < 2 ^ 32 := by
  have trimmed := trimZerosLength (leBytes 16 n)
  rw [leBytesLength] at trimmed
  exact lt_of_le_of_lt trimmed (by decide)

instance : Aligned UInt8 where
  alignment := [.atom (.bytes 1)]
  toValue x := [uintAtom x.toNat]
  fits x := fitsSingle (uintAtomFits (by decide) x.toNat_lt)
  short x := forall_mem_singleton.mpr (uintAtomShort x.toNat)

instance : Aligned Bool where
  alignment := [.atom (.bytes 1)]
  toValue x := [trimZeros [if x then 1 else 0]]
  fits x := fitsSingle (trimFits (Nat.le_refl 1))
  short x := forall_mem_singleton.mpr
    (Nat.lt_of_le_of_lt (trimZerosLength _) (by decide : 1 < 2 ^ 32))

instance : Aligned Segment where
  alignment := [.atom (.bytes 2)]
  toValue x := [uintAtom x.val]
  fits x := fitsSingle (uintAtomFits (by decide) x.isLt)
  short x := forall_mem_singleton.mpr (uintAtomShort x.val)

instance : Determined Segment where
  determined _ x y _ first second := by
    have small : 2 ^ 16 < 256 ^ 16 := by decide
    have same := bytesDetermined first second
    rw [leNatLeBytes, leNatLeBytes, mod_eq_of_lt (x.isLt.trans small),
      mod_eq_of_lt (y.isLt.trans small)] at same
    exact Fin.ext same

def hashBytes (hash : HashOutput) : Bytes := (leBytes 32 hash.toNat).reverse

theorem hashBytesLength (hash : HashOutput) : (hashBytes hash).length = 32 := by
  rw [hashBytes, length_reverse, leBytesLength]

theorem hashBytesInj {x y : HashOutput} (same : hashBytes x = hashBytes y) : x = y := by
  have values := congrArg leNat (reverse_injective same)
  have room : 2 ^ 256 = 256 ^ 32 := by decide
  rw [leNatLeBytes, leNatLeBytes, ← room, mod_eq_of_lt x.isLt, mod_eq_of_lt y.isLt] at values
  exact BitVec.eq_of_toNat_eq values

instance : Aligned HashOutput where
  alignment := [.atom (.bytes 32)]
  toValue x := [trimZeros (hashBytes x)]
  fits x := fitsSingle (trimFits (hashBytesLength x).le)
  short x := forall_mem_singleton.mpr
    (Nat.lt_of_le_of_lt (trimZerosLength _) (by rw [hashBytesLength]; decide))

instance : Determined HashOutput where
  determined _ x y _ first second := hashBytesInj
    (leNatInjOfLength ((hashBytesLength x).trans (hashBytesLength y).symm)
      (bytesDetermined first second))

def fieldAtom (f : Fr) : ValueAtom := trimZeros f.asLeBytes

theorem fieldAtomLength (f : Fr) : (fieldAtom f).length ≤ frBytes :=
  le_trans (trimZerosLength _) (Fr.asLeBytesLength f).le

theorem fieldAtomFits (f : Fr) : field.fits (fieldAtom f) := by
  have short := fieldAtomLength f
  simp only [AlignmentAtom.fits, Bool.and_eq_true, decide_eq_true_eq]
  exact ⟨le_trans short (by decide), trimZerosNormal _⟩

theorem fieldAtomRepr (hash : TransientHash) (f : Fr) :
    atomFieldReprUnchecked hash .field (fieldAtom f) = some [f] := by
  have short : (fieldAtom f).length ≤ fieldByteLimit := le_trans (fieldAtomLength f) (by decide)
  have value : Fr.ofNat (leNat (fieldAtom f)) = f := by
    rw [fieldAtom, leNatTrimZeros, Fr.leNatAsLeBytes]
    exact Fin.ext (mod_eq_of_lt f.isLt)
  rw [atomFieldReprUnchecked, if_pos short, Fr.fromUniformBytes, leNatAppendZeros, value]

instance : Aligned Fr where
  alignment := [.atom .field]
  toValue x := [fieldAtom x]
  fits x := fitsSingle (fieldAtomFits x)
  short x := forall_mem_singleton.mpr (Nat.lt_of_le_of_lt (fieldAtomLength x) (by decide))

instance : Determined Fr where
  determined hash x y out first second := by
    have left := (fieldAtomRepr hash x).symm.trans (singleRepr first)
    have right := (fieldAtomRepr hash y).symm.trans (singleRepr second)
    exact singleton_injective (some.inj (left.trans right.symm))

end MidnightLedger.Fab

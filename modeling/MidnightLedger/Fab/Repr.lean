import MidnightLedger.Crypto.Field
import MidnightLedger.Lib.Loops

/-! Field-aligned binary values and alignments (base-crypto/src/fab/encoding.rs), their field and
binary representations and the way back (transient-crypto/src/fab.rs, `bytes_from_field_repr`).
`Fits` states the code's fitting check without its counter. The traversal indexes atoms and
branches without looking, so `none` stands for a panic; `Writes` is its inversion. -/
namespace MidnightLedger.Fab
open ByteString Option Nat

abbrev ValueAtom := Bytes
abbrev Value := List ValueAtom

inductive AlignmentAtom where
  | compress
  | bytes (length : UInt32)
  | field
  deriving DecidableEq, Repr

inductive AlignmentSegment where
  | atom (atom : AlignmentAtom)
  | option (branches : List (List AlignmentSegment))
  deriving Repr

abbrev Alignment := List AlignmentSegment

structure AlignedValue where
  value : Value
  alignment : Alignment
  deriving Repr

def fieldByteLimit : Nat := 64

/- `value.0.len() as u32` drops the high bits of the length. -/
def AlignmentAtom.fits : AlignmentAtom → ValueAtom → Bool
  | .compress, _ => true
  | .bytes length, value => value.length % 2 ^ 32 ≤ length.toNat && normalForm value
  | .field, value => value.length ≤ fieldByteLimit && normalForm value

def u16TryFrom (atom : ValueAtom) : Option Nat :=
  if atom.length ≤ 16 ∧ leNat atom < 2 ^ 16 then some (leNat atom) else none

def discriminantAtom : AlignmentAtom := .bytes 2

mutual

def consumeSegment {T : Type} (f : T → AlignmentAtom → T) (len : T → Nat) :
    AlignmentSegment → Value → T → Option (Value × T)
  | .atom _, [], _ => none
  | .atom pty, x :: value, acc => if pty.fits x then some (value, f acc pty) else none
  | .option _, [], _ => none
  | .option tys, x :: value, acc =>
    if discriminantAtom.fits x then do
      let branch ← u16TryFrom x
      let acc := f acc discriminantAtom
      let prevConsumed := len acc
      let acc ← consumeBranch f len tys branch value acc
      let consumed := len acc - prevConsumed
      some (value.drop consumed, acc)
    else none

def consumeInternal {T : Type} (f : T → AlignmentAtom → T) (len : T → Nat) :
    Alignment → Value → T → Option T
  | [], _, acc => some acc
  | segment :: rest, value, acc => do
    let (value, acc) ← consumeSegment f len segment value acc
    consumeInternal f len rest value acc

def consumeBranch {T : Type} (f : T → AlignmentAtom → T) (len : T → Nat) :
    List Alignment → Nat → Value → T → Option T
  | [], _, _, _ => none
  | branch :: _, 0, value, acc => consumeInternal f len branch value acc
  | _ :: tys, index + 1, value, acc => consumeBranch f len tys index value acc

end

def Alignment.consume (alignment : Alignment) (value : Value) : Option (Value × Value) := do
  let splitPoint ← consumeInternal (fun ctr _ => ctr + 1) id alignment value 0
  some (value.take splitPoint, value.drop splitPoint)

def Alignment.fits (alignment : Alignment) (value : Value) : Bool :=
  (Alignment.consume alignment value).map (fun res => res.2.isEmpty) == some true

def AlignedValue.new (value : Value) (alignment : Alignment) : Option AlignedValue :=
  if Alignment.fits alignment value then some ⟨value, alignment⟩ else none

theorem alignmentInduction {P : Alignment → Prop} (nil : P [])
    (atom : ∀ a rest, P rest → P (.atom a :: rest))
    (option : ∀ bs rest, (∀ b ∈ bs, P b) → P rest → P (.option bs :: rest)) : ∀ a, P a :=
  @AlignmentSegment.rec_2 (fun s => ∀ rest, P rest → P (s :: rest)) (fun bs => ∀ b ∈ bs, P b) P
    atom (fun bs each rest => option bs rest each) (by simp)
    (fun _ _ head tail b mem => by
      rcases List.mem_cons.mp mem with rfl | rest
      · exact head
      · exact tail b rest)
    nil (fun _ rest head tail => head rest tail)

/- `Resolves alignment value atoms`: the value fits the alignment, and `atoms` are
the alignment atoms its entries are read with, discriminants included. -/
inductive Resolves : Alignment → Value → List AlignmentAtom → Prop where
  | nil : Resolves [] [] []
  | atom {a rest x value atoms} (fits : AlignmentAtom.fits a x = true)
      (tail : Resolves rest value atoms) : Resolves (.atom a :: rest) (x :: value) (a :: atoms)
  | option {tys rest x inner value index branch innerAtoms atoms}
      (fits : discriminantAtom.fits x = true) (discriminant : u16TryFrom x = some index)
      (chosen : tys[index]? = some branch) (head : Resolves branch inner innerAtoms)
      (tail : Resolves rest value atoms) :
      Resolves (.option tys :: rest) (x :: (inner ++ value))
        (discriminantAtom :: (innerAtoms ++ atoms))

def Fits (alignment : Alignment) (value : Value) : Prop := ∃ atoms, Resolves alignment value atoms

variable {atoms : List AlignmentAtom} {alignment : Alignment} {value : Value}

theorem resolvesLength
    (resolves : Resolves alignment value atoms) : atoms.length = value.length := by
  induction resolves with
  | nil => rfl
  | atom fits tail ih => simp [ih]
  | option fits discriminant chosen head tail headIh tailIh => simp [headIh, tailIh]

variable {T : Type}

theorem consumeBranchAt (f : T → AlignmentAtom → T) (len : T → Nat)
    (tys : List Alignment) (index : Nat) (value : Value) (acc : T) :
    consumeBranch f len tys index value acc =
      tys[index]?.bind (fun branch => consumeInternal f len branch value acc) := by
  induction tys generalizing index with
  | nil => simp [consumeBranch]
  | cons branch tys ih =>
    cases index with
    | zero => simp [consumeBranch]
    | succ index => simpa [consumeBranch] using ih index

section Counting

variable (f : T → AlignmentAtom → T) (len : T → Nat)

theorem foldLen (counts : ∀ acc a, len (f acc a) = len acc + 1) (atoms : List AlignmentAtom)
    (acc : T) : len (atoms.foldl f acc) = len acc + atoms.length := by
  induction atoms generalizing acc with
  | nil => rfl
  | cons a atoms ih =>
    rw [List.foldl_cons, ih, counts, List.length_cons]
    omega

section

variable (counts : ∀ acc a, len (f acc a) = len acc + 1)

include counts

theorem consumeSound {value : Value} {start stop : T}
    (ok : consumeInternal f len alignment value start = some stop) :
    ∃ used rest atoms, value = used ++ rest ∧ stop = atoms.foldl f start ∧
      Resolves alignment used atoms := by
  induction alignment using alignmentInduction generalizing value start stop with
  | nil =>
    simp only [consumeInternal, some.injEq] at ok
    exact ⟨[], value, [], rfl, ok.symm, .nil⟩
  | atom a rest ih =>
    cases value with
    | nil => simp [consumeInternal, consumeSegment] at ok
    | cons x value =>
      simp only [consumeInternal, consumeSegment, bind, bind_eq_some_iff] at ok
      obtain ⟨⟨_, _⟩, consumed, after⟩ := ok
      split at consumed <;> try contradiction
      rename_i fits
      cases consumed
      obtain ⟨used, left, atoms, rfl, rfl, tail⟩ := ih after
      exact ⟨x :: used, left, a :: atoms, rfl, rfl, .atom fits tail⟩
  | option tys rest each ih =>
    cases value with
    | nil => simp [consumeInternal, consumeSegment] at ok
    | cons x value =>
      simp only [consumeInternal, consumeSegment, bind, bind_eq_some_iff] at ok
      obtain ⟨⟨_, _⟩, consumed, after⟩ := ok
      split at consumed <;> try contradiction
      rename_i fits
      simp only [bind_eq_some_iff, consumeBranchAt, some.injEq, Prod.mk.injEq] at consumed
      obtain ⟨index, discriminant, middle, ⟨branch, chosen, inside⟩, rfl, rfl⟩ := consumed
      obtain ⟨inner, left, innerAtoms, rfl, rfl, head⟩ :=
        each branch (List.mem_of_getElem? chosen) inside
      have moved : len (innerAtoms.foldl f (f start discriminantAtom)) -
          len (f start discriminantAtom) = inner.length := by
        rw [foldLen f len counts, resolvesLength head]
        omega
      rw [moved, List.drop_left] at after
      obtain ⟨used, left, atoms, rfl, rfl, tail⟩ := ih after
      exact ⟨x :: (inner ++ used), left, _, by simp, by simp,
        .option fits discriminant chosen head tail⟩

theorem consumeComplete {used : Value}
    (resolves : Resolves alignment used atoms) (rest : Value) (start : T) :
    consumeInternal f len alignment (used ++ rest) start = some (atoms.foldl f start) := by
  induction resolves generalizing rest start with
  | nil => simp [consumeInternal]
  | atom fits tail ih =>
    simp only [List.cons_append, consumeInternal, consumeSegment, fits, if_true, bind,
      bind_some, ih, List.foldl_cons]
  | @option tys align x inner value index branch innerAtoms atoms fits discriminant chosen head
      tail headIh tailIh =>
    have moved : len (innerAtoms.foldl f (f start discriminantAtom)) -
        len (f start discriminantAtom) = inner.length := by
      rw [foldLen f len counts, resolvesLength head]
      omega
    simp only [List.cons_append, List.append_assoc, consumeInternal, consumeSegment, fits, if_true,
      bind, discriminant, bind_some, consumeBranchAt, chosen, headIh, moved, List.drop_left,
      tailIh, List.foldl_cons, List.foldl_append]

end

end Counting

theorem countAtoms (atoms : List AlignmentAtom) :
    atoms.foldl (fun ctr _ => ctr + 1) 0 = atoms.length := by
  have moved := foldLen (fun ctr _ => ctr + 1) id (fun _ _ => rfl) atoms 0
  rwa [id, id, zero_add] at moved

theorem consumeFits (fits : Fits alignment value)
    (rest : Value) : Alignment.consume alignment (value ++ rest) = some (value, rest) := by
  obtain ⟨atoms, resolves⟩ := fits
  have counted := consumeComplete (fun ctr _ => ctr + 1) id (fun _ _ => rfl) resolves rest 0
  rw [countAtoms, resolvesLength resolves] at counted
  simp [Alignment.consume, counted]

theorem fitsIff (alignment : Alignment) (value : Value) :
    Alignment.fits alignment value ↔ Fits alignment value := by
  constructor
  · intro ok
    simp only [Alignment.fits, Alignment.consume, beq_iff_eq, map_eq_some_iff] at ok
    obtain ⟨⟨used, rest⟩, found, empty⟩ := ok
    simp only [bind, bind_eq_some_iff, some.injEq, Prod.mk.injEq] at found
    obtain ⟨stop, counted, rfl, rfl⟩ := found
    obtain ⟨used, rest, atoms, rfl, rfl, resolves⟩ :=
      consumeSound (fun ctr _ => ctr + 1) id (fun _ _ => rfl) counted
    rw [countAtoms, resolvesLength resolves, List.drop_left] at empty
    have none : rest = [] := by simpa using empty
    exact ⟨atoms, by simpa [none] using resolves⟩
  · intro fits
    have consumed := consumeFits fits []
    rw [List.append_nil] at consumed
    simp [Alignment.fits, consumed]

def AlignmentAtom.fieldLen : AlignmentAtom → Nat
  | .compress => 1
  | .bytes length => divCeil length.toNat frBytesStored
  | .field => 1

def AlignmentAtom.binLen : AlignmentAtom → Nat
  | .compress => frBytes
  | .bytes length => length.toNat
  | .field => frBytes

mutual

def segmentLenWith (atomLen : AlignmentAtom → Nat) (discriminant : Nat) : AlignmentSegment → Nat
  | .atom atom => atomLen atom
  | .option options => discriminant + maxLenWith atomLen discriminant options

def lenWith (atomLen : AlignmentAtom → Nat) (discriminant : Nat) : Alignment → Nat
  | [] => 0
  | segment :: rest =>
    segmentLenWith atomLen discriminant segment + lenWith atomLen discriminant rest

def maxLenWith (atomLen : AlignmentAtom → Nat) (discriminant : Nat) : List Alignment → Nat
  | [] => 0
  | branch :: options =>
    max (lenWith atomLen discriminant branch) (maxLenWith atomLen discriminant options)

end

def Alignment.fieldLen (alignment : Alignment) : Nat :=
  lenWith AlignmentAtom.fieldLen 1 alignment

def Alignment.binLen (alignment : Alignment) : Nat :=
  lenWith AlignmentAtom.binLen 2 alignment

mutual

def reprTraverseSegment {T : Type} (f : T → AlignmentAtom → ValueAtom → Option T)
    (len : Alignment → Nat) (pad : T → Nat → T) :
    AlignmentSegment → Value → T → Option (Value × T)
  | .atom _, [], _ => none
  | .atom atom, x :: slice, acc => do
    let acc ← f acc atom x
    some (slice, acc)
  | .option _, [], _ => none
  | .option options, x :: slice, acc => do
    let discriminant ← u16TryFrom x
    let choice ← options[discriminant]?
    let acc ← f acc discriminantAtom x
    let (slice, acc) ← reprTraverseChoice f len pad options discriminant slice acc
    let padding := (options.map len).max?.getD 0 - len choice
    some (slice, pad acc padding)

def reprTraverse {T : Type} (f : T → AlignmentAtom → ValueAtom → Option T)
    (len : Alignment → Nat) (pad : T → Nat → T) : Alignment → Value → T → Option (Value × T)
  | [], slice, acc => some (slice, acc)
  | segment :: rest, slice, acc => do
    let (slice, acc) ← reprTraverseSegment f len pad segment slice acc
    reprTraverse f len pad rest slice acc

def reprTraverseChoice {T : Type} (f : T → AlignmentAtom → ValueAtom → Option T)
    (len : Alignment → Nat) (pad : T → Nat → T) :
    List Alignment → Nat → Value → T → Option (Value × T)
  | [], _, _, _ => none
  | choice :: _, 0, slice, acc => reprTraverse f len pad choice slice acc
  | _ :: options, index + 1, slice, acc => reprTraverseChoice f len pad options index slice acc

end

/- The `usize` subtraction that counts the leading zeros underflows when the atom
is longer than its alignment; the allocation that follows then panics as well. -/
def atomFieldReprUnchecked (hash : TransientHash) : AlignmentAtom → ValueAtom → Option (List Fr)
  | .compress, atom =>
    if atom.isEmpty then some [0]
    else do
      let repr ← bytesFieldRepr atom
      some [transientCommit hash repr (Fr.ofNat atom.length)]
  | .bytes length, atom =>
    if divCeil length.toNat frBytesStored < divCeil atom.length frBytesStored then none
    else do
      let raw ← (chunks frBytesStored atom).mapM Fr.fromLeBytes
      some (List.replicate
        (divCeil length.toNat frBytesStored - divCeil atom.length frBytesStored) 0 ++ raw.reverse)
  | .field, atom =>
    if atom.length ≤ fieldByteLimit then
      some [Fr.fromUniformBytes (atom ++ List.replicate (fieldByteLimit - atom.length) 0)]
    else none

def atomBinaryReprUnchecked (hash : TransientHash) : AlignmentAtom → ValueAtom → Option Bytes
  | .compress, atom => do
    let repr ← bytesFieldRepr atom
    some (transientCommit hash repr (Fr.ofNat atom.length)).asLeBytes
  | .bytes length, atom =>
    if length.toNat < atom.length then none
    else some (atom ++ List.replicate (length.toNat - atom.length) 0)
  | .field, atom =>
    if atom.length ≤ fieldByteLimit then
      some (Fr.fromUniformBytes (atom ++ List.replicate (fieldByteLimit - atom.length) 0)).asLeBytes
    else none

def traverseWriting {β : Type} (zero : β) (write : AlignmentAtom → ValueAtom → Option (List β))
    (len : Alignment → Nat) : Alignment → Value → List β → Option (Value × List β) :=
  reprTraverse (fun acc atom x => (write atom x).map (acc ++ ·)) len
    (fun acc n => acc ++ List.replicate n zero)

def fieldReprUnchecked (hash : TransientHash) (value : Value) (align : Alignment) :
    Option (List Fr) :=
  (traverseWriting 0 (atomFieldReprUnchecked hash) Alignment.fieldLen align value []).map (·.2)

def binaryReprUnchecked (hash : TransientHash) (value : Value) (align : Alignment) : Option Bytes :=
  (traverseWriting 0 (atomBinaryReprUnchecked hash) Alignment.binLen align value []).map (·.2)

/- The alignment itself is written before the value: counts are cast to `u32`. -/
def countRepr (n : Nat) : Fr := Fr.ofNat (n % 2 ^ 32)

def AlignmentAtom.fieldRepr : AlignmentAtom → List Fr
  | .bytes length => [Fr.ofNat length.toNat]
  | .compress => [-1]
  | .field => [-2]

mutual

def AlignmentSegment.fieldRepr : AlignmentSegment → List Fr
  | .atom atom => AlignmentAtom.fieldRepr atom
  | .option options => -3 :: countRepr options.length :: branchesFieldRepr options

def segmentsFieldRepr : Alignment → List Fr
  | [] => []
  | segment :: rest => AlignmentSegment.fieldRepr segment ++ segmentsFieldRepr rest

def branchesFieldRepr : List Alignment → List Fr
  | [] => []
  | branch :: options =>
    countRepr branch.length :: (segmentsFieldRepr branch ++ branchesFieldRepr options)

end

def Alignment.fieldRepr (alignment : Alignment) : List Fr :=
  countRepr alignment.length :: segmentsFieldRepr alignment

mutual

def AlignmentSegment.fieldSize : AlignmentSegment → Nat
  | .atom _ => 1
  | .option options => 2 + branchesFieldSize options

def segmentsFieldSize : Alignment → Nat
  | [] => 0
  | segment :: rest => AlignmentSegment.fieldSize segment + segmentsFieldSize rest

def branchesFieldSize : List Alignment → Nat
  | [] => 0
  | branch :: options => (1 + segmentsFieldSize branch) + branchesFieldSize options

end

def Alignment.fieldSize (alignment : Alignment) : Nat := 1 + segmentsFieldSize alignment

def AlignedValue.fieldRepr (hash : TransientHash) (av : AlignedValue) : Option (List Fr) := do
  let value ← fieldReprUnchecked hash av.value av.alignment
  some (Alignment.fieldRepr av.alignment ++ value)

def AlignedValue.fieldSize (av : AlignedValue) : Nat :=
  Alignment.fieldSize av.alignment + Alignment.fieldLen av.alignment

/- `ValueReprAlignedValue`: the wrapper whose representations leave the alignment out. -/
def AlignedValue.binaryRepr (hash : TransientHash) (av : AlignedValue) : Option Bytes :=
  binaryReprUnchecked hash av.value av.alignment

inductive Writes {β : Type} (zero : β) (write : AlignmentAtom → ValueAtom → Option (List β))
    (len : Alignment → Nat) : Alignment → Value → List β → Prop where
  | nil : Writes zero write len [] [] []
  | atom {a rest x value out outs} (written : write a x = some out)
      (tail : Writes zero write len rest value outs) :
      Writes zero write len (.atom a :: rest) (x :: value) (out ++ outs)
  | option {options rest x inner value index choice out innerOut outs}
      (discriminant : u16TryFrom x = some index) (chosen : options[index]? = some choice)
      (written : write discriminantAtom x = some out)
      (head : Writes zero write len choice inner innerOut)
      (tail : Writes zero write len rest value outs) :
      Writes zero write len (.option options :: rest) (x :: (inner ++ value))
        (out ++ (innerOut ++
          (List.replicate ((options.map len).max?.getD 0 - len choice) zero ++ outs)))

theorem reprTraverseChoiceAt (f : T → AlignmentAtom → ValueAtom → Option T)
    (len : Alignment → Nat) (pad : T → Nat → T) (options : List Alignment) (index : Nat)
    (slice : Value) (acc : T) :
    reprTraverseChoice f len pad options index slice acc =
      options[index]?.bind (fun choice => reprTraverse f len pad choice slice acc) := by
  induction options generalizing index with
  | nil => simp [reprTraverseChoice]
  | cons choice options ih =>
    cases index with
    | zero => simp [reprTraverseChoice]
    | succ index => simpa [reprTraverseChoice] using ih index

variable {β : Type} {len : Alignment → Nat} {align : Alignment}
  {write : AlignmentAtom → ValueAtom → Option (List β)} {zero : β}

theorem traverseSound {slice rest : Value} {acc result : List β}
    (ok : traverseWriting zero write len align slice acc = some (rest, result)) :
    ∃ used out, slice = used ++ rest ∧ result = acc ++ out ∧
      Writes zero write len align used out := by
  induction align using alignmentInduction generalizing slice rest acc result with
  | nil =>
    simp only [traverseWriting, reprTraverse, some.injEq, Prod.mk.injEq] at ok
    exact ⟨[], [], ok.1, by simp [ok.2], .nil⟩
  | atom a align ih =>
    cases slice with
    | nil => simp [traverseWriting, reprTraverse, reprTraverseSegment] at ok
    | cons x slice =>
      simp only [traverseWriting, reprTraverse, reprTraverseSegment, bind,
        bind_eq_some_iff, map_eq_some_iff, some.injEq] at ok
      obtain ⟨_, ⟨_, ⟨out, written, rfl⟩, rfl⟩, after⟩ := ok
      obtain ⟨used, outs, rfl, rfl, tail⟩ := ih after
      exact ⟨x :: used, out ++ outs, rfl, by simp, .atom written tail⟩
  | option options align each ih =>
    cases slice with
    | nil => simp [traverseWriting, reprTraverse, reprTraverseSegment] at ok
    | cons x slice =>
      simp only [traverseWriting, reprTraverse, reprTraverseSegment, bind,
        bind_eq_some_iff, map_eq_some_iff, reprTraverseChoiceAt,
        some.injEq] at ok
      obtain ⟨_, ⟨index, discriminant, choice, chosen, _, ⟨out, written, rfl⟩, ⟨middle, inside⟩,
        ⟨again, found, traversed⟩, rfl⟩, after⟩ := ok
      have same : choice = again := some.inj (chosen.symm.trans found)
      subst same
      obtain ⟨inner, innerOut, rfl, rfl, head⟩ :=
        each choice (List.mem_of_getElem? chosen) traversed
      obtain ⟨used, outs, rfl, rfl, tail⟩ := ih after
      exact ⟨x :: (inner ++ used), _, by simp, by simp,
        .option discriminant chosen written head tail⟩

theorem traverseComplete {used : Value} {out : List β}
    (writes : Writes zero write len align used out) (rest : Value) (acc : List β) :
    traverseWriting zero write len align (used ++ rest) acc = some (rest, acc ++ out) := by
  induction writes generalizing rest acc with
  | nil => simp [traverseWriting, reprTraverse]
  | @atom a align x value out outs written tail ih =>
    have after := ih rest (acc ++ out)
    simpa [traverseWriting, reprTraverse, reprTraverseSegment, written] using after
  | @option options align x inner value index choice out innerOut outs discriminant chosen written
      head tail headIh tailIh =>
    have inside := headIh (value ++ rest) (acc ++ out)
    have after := tailIh rest (acc ++ out ++ innerOut ++
      List.replicate ((options.map len).max?.getD 0 - len choice) zero)
    simp only [traverseWriting] at inside after
    simpa [traverseWriting, reprTraverse, reprTraverseSegment, reprTraverseChoiceAt, discriminant,
      chosen, written, inside] using after

section

variable (atomLen : AlignmentAtom → Nat) (discriminant : Nat)

theorem maxLenWithEq (options : List Alignment) :
    (options.map (lenWith atomLen discriminant)).max?.getD 0 =
      maxLenWith atomLen discriminant options := by
  induction options with
  | nil => simp [maxLenWith]
  | cons branch options ih =>
    rw [maxLenWith, ← ih, List.map_cons, List.max?_cons]
    cases (options.map (lenWith atomLen discriminant)).max? <;> simp

theorem lenWithLeMax {options : List Alignment} {branch : Alignment} (mem : branch ∈ options) :
    lenWith atomLen discriminant branch ≤ maxLenWith atomLen discriminant options := by
  induction options with
  | nil => simp at mem
  | cons head options ih =>
    rcases List.mem_cons.mp mem with rfl | rest
    · exact le_max_left ..
    · exact le_trans (ih rest) (le_max_right ..)

end

theorem writesLength {atomLen : AlignmentAtom → Nat}
    (exact : ∀ a x out, write a x = some out → out.length = atomLen a) {out : List β}
    (writes : Writes zero write (lenWith atomLen (atomLen discriminantAtom)) align value out) :
    out.length = lenWith atomLen (atomLen discriminantAtom) align := by
  induction writes with
  | nil => rfl
  | atom written tail ih => simp [lenWith, segmentLenWith, exact _ _ _ written, ih]
  | option discriminant chosen written head tail headIh tailIh =>
    have shorter := lenWithLeMax atomLen (atomLen discriminantAtom) (List.mem_of_getElem? chosen)
    simp only [lenWith, segmentLenWith, List.length_append, List.length_replicate, maxLenWithEq,
      exact _ _ _ written, headIh, tailIh]
    omega

open List Fab.Alignment

theorem chunksMapFromLeBytes (atom : ValueAtom) : (chunks frBytesStored atom).mapM Fr.fromLeBytes =
      some ((chunks frBytesStored atom).map (fun chunk => Fr.ofNat (leNat chunk))) :=
  Loops.mapMSome fun _ mem => Fr.fromLeBytesStored (splitChunksBound mem)

theorem atomFieldReprLength (hash : TransientHash) (a : AlignmentAtom) (x : ValueAtom)
    (out : List Fr) (written : atomFieldReprUnchecked hash a x = some out) :
    out.length = a.fieldLen := by
  cases a with
  | compress =>
    simp only [atomFieldReprUnchecked] at written
    split at written
    · cases written; rfl
    · obtain ⟨repr, total, _⟩ := bytesFieldReprTotal x
      simp only [total, bind, bind_some, some.injEq] at written
      rw [← written]; rfl
  | bytes length =>
    simp only [atomFieldReprUnchecked, chunksMapFromLeBytes] at written
    split at written <;> try contradiction
    simp only [bind, bind_some, some.injEq] at written
    rw [← written]
    simp only [length_append, length_replicate, length_reverse, length_map,
      chunksLength, AlignmentAtom.fieldLen]
    omega
  | field =>
    simp only [atomFieldReprUnchecked] at written
    split at written <;> try contradiction
    cases written; rfl

variable {x : ValueAtom}

theorem fitsBytesLength {length : UInt32} (fits : (AlignmentAtom.bytes length).fits x)
    (small : x.length < 2 ^ 32) : x.length ≤ length.toNat ∧ normalForm x := by
  simp only [AlignmentAtom.fits, mod_eq_of_lt small, Bool.and_eq_true, decide_eq_true_eq] at fits
  exact fits

theorem atomFieldReprFits (hash : TransientHash) {a : AlignmentAtom} (fits : a.fits x)
    (small : x.length < 2 ^ 32) : ∃ out, atomFieldReprUnchecked hash a x = some out := by
  cases a with
  | compress =>
    obtain ⟨repr, total, _⟩ := bytesFieldReprTotal x
    simp only [atomFieldReprUnchecked, total]
    split
    · exact ⟨_, rfl⟩
    · exact ⟨_, rfl⟩
  | bytes length =>
    have room := divCeilMono (fitsBytesLength fits small).1 (k := frBytesStored)
    simp only [atomFieldReprUnchecked, if_neg (not_lt.mpr room), chunksMapFromLeBytes]
    exact ⟨_, rfl⟩
  | field =>
    have short : x.length ≤ fieldByteLimit := by
      simp only [AlignmentAtom.fits, Bool.and_eq_true, decide_eq_true_eq] at fits
      exact fits.1
    exact ⟨_, by rw [atomFieldReprUnchecked, if_pos short]⟩

variable {hash : TransientHash}

theorem writesOfFits
    (defined : ∀ {a : AlignmentAtom} {x : ValueAtom}, a.fits x → x.length < 2 ^ 32 →
      ∃ out, write a x = some out) (fits : Fits align value)
    (small : ∀ x ∈ value, x.length < 2 ^ 32) : ∃ out, Writes zero write len align value out := by
  obtain ⟨atoms, resolves⟩ := fits
  induction resolves with
  | nil => exact ⟨[], .nil⟩
  | atom fits tail ih =>
    obtain ⟨out, written⟩ := defined fits (small _ mem_cons_self)
    obtain ⟨outs, rest⟩ := ih (forall_mem_cons.mp small).2
    exact ⟨_, .atom written rest⟩
  | option fits discriminant chosen head tail headIh tailIh =>
    obtain ⟨out, written⟩ := defined fits (small _ mem_cons_self)
    obtain ⟨innerOut, inside⟩ := headIh (fun x mem => small x (by simp [mem]))
    obtain ⟨outs, rest⟩ := tailIh (fun x mem => small x (by simp [mem]))
    exact ⟨_, .option discriminant chosen written inside rest⟩

variable {out : List Fr}

theorem fieldReprUncheckedOfWrites
    (writes : Writes 0 (atomFieldReprUnchecked hash) fieldLen align value out) :
    fieldReprUnchecked hash value align = some out := by
  have done := traverseComplete writes [] []
  simp only [append_nil, nil_append] at done
  rw [fieldReprUnchecked, done, map_some]

theorem binaryReprUncheckedOfWrites {out : Bytes}
    (writes : Writes 0 (atomBinaryReprUnchecked hash) binLen align value out) :
    binaryReprUnchecked hash value align = some out := by
  have done := traverseComplete writes [] []
  simp only [append_nil, nil_append] at done
  rw [binaryReprUnchecked, done, map_some]

theorem segmentsFieldReprLength (alignment : Alignment) :
    (segmentsFieldRepr alignment).length = segmentsFieldSize alignment := by
  have branches : ∀ bs : List Alignment,
      (∀ b ∈ bs, (segmentsFieldRepr b).length = segmentsFieldSize b) →
      (branchesFieldRepr bs).length = branchesFieldSize bs := by
    intro bs each
    induction bs with
    | nil => rfl
    | cons b bs ih =>
      have head := each b mem_cons_self
      have tail := ih (forall_mem_cons.mp each).2
      simp only [branchesFieldRepr, branchesFieldSize, length_cons, length_append, head, tail]
      omega
  induction alignment using alignmentInduction with
  | nil => rfl
  | atom a rest ih =>
    cases a <;> simp [segmentsFieldRepr, segmentsFieldSize, AlignmentSegment.fieldRepr,
      AlignmentSegment.fieldSize, AlignmentAtom.fieldRepr, ih, add_comm]
  | option bs rest each ih =>
    simp only [segmentsFieldRepr, segmentsFieldSize, AlignmentSegment.fieldRepr,
      AlignmentSegment.fieldSize, length_append, length_cons, branches bs each, ih]
    omega

theorem valueReprLength (written : fieldReprUnchecked hash value align = some out) :
    out.length = fieldLen align := by
  obtain ⟨⟨rest, result⟩, traversed, rfl⟩ := map_eq_some_iff.mp written
  obtain ⟨used, out, -, rfl, writes⟩ := traverseSound traversed
  exact writesLength (atomFieldReprLength hash) writes

variable {av : AlignedValue}

theorem alignedReprLength (written : av.fieldRepr hash = some out) : out.length = av.fieldSize := by
  obtain ⟨value, inner, last⟩ := bind_eq_some_iff.mp written
  cases last
  simp only [Alignment.fieldRepr, cons_append, length_cons, length_append,
    segmentsFieldReprLength, valueReprLength inner, AlignedValue.fieldSize, Alignment.fieldSize]
  omega

theorem alignedFieldReprExact (hash : TransientHash)
    (fits : Fits av.alignment av.value) (small : ∀ x ∈ av.value, x.length < 2 ^ 32) :
    ∃ out, av.fieldRepr hash = some out ∧ out.length = av.fieldSize := by
  obtain ⟨out, writes⟩ : ∃ out,
      Writes 0 (atomFieldReprUnchecked hash) fieldLen av.alignment av.value out :=
    writesOfFits (atomFieldReprFits hash) fits small
  have whole : av.fieldRepr hash = some (fieldRepr av.alignment ++ out) := by
    simp [AlignedValue.fieldRepr, fieldReprUncheckedOfWrites writes]
  exact ⟨_, whole, alignedReprLength whole⟩

/- Reading a value back: a Bytes atom keeps its trailing zeros, a Field atom is trimmed. -/
def bytesFrom (k : Nat) (f : Fr) : Option Bytes :=
  if (f.asLeBytes.drop k).any (· != 0) then none else some (f.asLeBytes.take k)

def strayFrom (stray : Nat) (repr : List Fr) : Option (Bytes × List Fr) :=
  if stray > 0 then do
    let first ← repr.head?
    let tail ← bytesFrom stray first
    some (tail, repr.drop 1)
  else some ([], repr)

/- Chunk `i` of the result is element `chunks - 1 - i`: the last element comes first. -/
def chunksFrom (chunks : Nat) (repr : List Fr) : Option (Bytes × List Fr) := do
  let full ← (range chunks).mapM (fun i => do
    let f ← repr[chunks - 1 - i]?
    bytesFrom frBytesStored f)
  some (full.flatten, repr.drop chunks)

def expectedSize (n : Nat) : Nat :=
  n / frBytesStored + (if n % frBytesStored ≠ 0 then 1 else 0)

def bytesFromFieldRepr (repr : List Fr) (n : Nat) : Option (Bytes × List Fr) :=
  if repr.length < expectedSize n then none
  else do
    let (tail, repr) ← strayFrom (n % frBytesStored) repr
    let (full, repr) ← chunksFrom (n / frBytesStored) repr
    some (full ++ tail, repr)

def AlignmentAtom.parseFieldRepr : AlignmentAtom → List Fr → Option (ValueAtom × List Fr)
  | .compress, _ => none
  | .field, repr => do
    let res ← repr.head?
    some (trimZeros res.asLeBytes, repr.drop 1)
  | .bytes length, repr => bytesFromFieldRepr repr length.toNat

mutual

def parseSegment : AlignmentSegment → List Fr → Option (Value × List Fr)
  | .atom atom, repr => do
    let (x, repr) ← atom.parseFieldRepr repr
    some ([x], repr)
  | .option options, repr => do
    let first ← repr.head?
    let variant ← first.toU16
    let choice ← options[variant]?
    let (value, repr) ← parseChoice options variant (repr.drop 1)
    let padding := (options.map Alignment.fieldLen).max?.getD 0 - Alignment.fieldLen choice
    if repr.length < padding || (repr.take padding).any (· != 0) then none
    else some (trimZeros (leBytes 16 variant) :: value, repr.drop padding)

def parseFieldReprInner : Alignment → List Fr → Option (Value × List Fr)
  | [], repr => some ([], repr)
  | segment :: rest, repr => do
    let (value, repr) ← parseSegment segment repr
    let (tail, repr) ← parseFieldReprInner rest repr
    some (value ++ tail, repr)

def parseChoice : List Alignment → Nat → List Fr → Option (Value × List Fr)
  | [], _, _ => none
  | choice :: _, 0, repr => parseFieldReprInner choice repr
  | _ :: options, index + 1, repr => parseChoice options index repr

end

def Alignment.parseFieldRepr (alignment : Alignment) (repr : List Fr) : Option AlignedValue := do
  let (value, _) ← parseFieldReprInner alignment repr
  some ⟨value, alignment⟩

theorem leBytesTake (width k n : Nat) (short : k ≤ width) :
    (leBytes width n).take k = leBytes k n := by
  induction k generalizing width n with
  | zero => simp [leBytes]
  | succ k ih =>
    cases width with
    | zero => omega
    | succ width => simp [leBytes, ih width (n / 256) (by omega)]

theorem bytesFromEq {k : Nat} (short : k ≤ frBytes) (f : Fr) :
    bytesFrom k f = if f.val < 256 ^ k then some (leBytes k f.val) else none := by
  have split := leNatTakeDrop k f.asLeBytes
  rw [Fr.leNatAsLeBytes] at split
  have low := leNatLt (f.asLeBytes.take k)
  have width : (f.asLeBytes.take k).length = k := by simp [short]
  rw [width] at low
  by_cases zero : leNat (f.asLeBytes.drop k) = 0
  · have rest : f.asLeBytes.drop k = replicate (f.asLeBytes.drop k).length 0 :=
      leNatInjOfLength (by simp) (by rw [zero, leNatZeros])
    have none : (f.asLeBytes.drop k).any (· != 0) = false := by
      rw [rest]
      simp
    have small : f.val < 256 ^ k := by rw [zero] at split; omega
    rw [bytesFrom, none, if_neg (by simp), if_pos small, Fr.asLeBytes, leBytesTake _ _ _ short]
  · have some : (f.asLeBytes.drop k).any (· != 0) = true := by
      by_contra all
      have every : ∀ b ∈ f.asLeBytes.drop k, b = 0 := by simpa using all
      exact zero (by rw [eq_replicate_of_mem every, leNatZeros])
    have large : ¬ f.val < 256 ^ k := by
      have := Nat.le_mul_of_pos_right (256 ^ k) (Nat.pos_of_ne_zero zero)
      omega
    rw [bytesFrom, some, if_pos rfl, if_neg large]

mutual

def AlignmentSegment.default : AlignmentSegment → Value
  | .atom _ => [[]]
  | .option tys => firstDefault tys

def Alignment.default : Alignment → Value
  | [] => []
  | segment :: rest => segment.default ++ Alignment.default rest

def firstDefault : List Alignment → Value
  | [] => []
  | branch :: _ => Alignment.default branch

end

def AlignedValue.concat (iter : List AlignedValue) : AlignedValue :=
  ⟨iter.flatMap AlignedValue.value, iter.flatMap AlignedValue.alignment⟩

/- Consuming one alignment after the other, each from what the one before has left. -/
def consumeEach : List Alignment → Value → Option (List Value × Value)
  | [], value => some ([], value)
  | alignment :: rest, value => do
    let (part, value) ← Alignment.consume alignment value
    let (parts, value) ← consumeEach rest value
    some (part :: parts, value)

theorem Resolves.append {left right : Alignment} {other : Value} {more : List AlignmentAtom}
    (first : Resolves left value atoms) (second : Resolves right other more) :
    Resolves (left ++ right) (value ++ other) (atoms ++ more) := by
  induction first with
  | nil => exact second
  | atom fits tail ih => exact .atom fits ih
  | option fits discriminant chosen head tail headIh tailIh =>
    simp only [cons_append, append_assoc]
    exact .option fits discriminant chosen head tailIh

theorem concatFits {iter : List AlignedValue} (fit : ∀ v ∈ iter, Fits v.alignment v.value) :
    Fits (AlignedValue.concat iter).alignment (AlignedValue.concat iter).value ∧
      consumeEach (iter.map AlignedValue.alignment) (AlignedValue.concat iter).value =
        some (iter.map AlignedValue.value, []) := by
  induction iter with
  | nil => exact ⟨⟨[], .nil⟩, rfl⟩
  | cons v iter ih =>
    obtain ⟨here, others⟩ := forall_mem_cons.mp fit
    obtain ⟨⟨more, tail⟩, parts⟩ := ih others
    obtain ⟨atoms, head⟩ := here
    refine ⟨⟨atoms ++ more, head.append tail⟩, ?_⟩
    rw [AlignedValue.concat] at parts ⊢
    rw [flatMap_cons, map_cons, consumeEach, consumeFits ⟨atoms, head⟩]
    simp only [bind, bind_some, parts, map_cons]

theorem emptyFits (atom : AlignmentAtom) : atom.fits [] := by
  cases atom <;> simp [AlignmentAtom.fits, normalForm]

/- An option takes its discriminant from an empty atom more than its default has. -/
theorem defaultShort (resolves : Resolves alignment value atoms) (empty : ∀ x ∈ value, x = []) :
    (Alignment.default alignment).length ≤ value.length ∧
      ((Alignment.default alignment).length = value.length →
        ∀ segment ∈ alignment, ∃ atom, segment = .atom atom) := by
  induction resolves with
  | nil => exact ⟨le_refl _, fun _ => nofun⟩
  | @atom a rest x value atoms fits tail ih =>
    obtain ⟨le, only⟩ := ih (forall_mem_cons.mp empty).2
    simp only [Alignment.default, AlignmentSegment.default, cons_append, nil_append,
      length_cons, add_le_add_iff_right, add_right_cancel_iff, forall_mem_cons]
    exact ⟨le, fun same => ⟨⟨a, rfl⟩, only same⟩⟩
  | @option tys rest x inner value index branch innerAtoms atoms fits discriminant chosen head tail
      headIh tailIh =>
    obtain ⟨rfl, others⟩ := forall_mem_cons.mp empty
    obtain ⟨first, second⟩ := forall_mem_append.mp others
    obtain rfl : 0 = index := some.inj discriminant
    obtain ⟨more, rfl⟩ : ∃ more, tys = branch :: more := by
      cases tys <;> cases chosen
      exact ⟨_, rfl⟩
    have left := (headIh first).1
    have right := (tailIh second).1
    simp only [Alignment.default, AlignmentSegment.default, firstDefault, length_append,
      length_cons]
    exact ⟨by omega, fun same => by omega⟩

theorem defaultEmpty (alignment : Alignment) : ∀ x ∈ Alignment.default alignment, x = [] := by
  induction alignment using alignmentInduction with
  | nil => exact nofun
  | atom a rest ih => exact forall_mem_cons.mpr ⟨rfl, ih⟩
  | option tys rest each ih =>
    refine forall_mem_append.mpr ⟨?_, ih⟩
    cases tys with
    | nil => exact nofun
    | cons branch tys => exact each branch mem_cons_self

theorem defaultResolves (only : ∀ segment ∈ alignment, ∃ atom, segment = .atom atom) :
    Fits alignment (Alignment.default alignment) := by
  induction alignment with
  | nil => exact ⟨[], .nil⟩
  | cons segment rest ih =>
    obtain ⟨⟨atom, rfl⟩, others⟩ := forall_mem_cons.mp only
    obtain ⟨atoms, tail⟩ := ih others
    exact ⟨atom :: atoms, .atom (emptyFits atom) tail⟩

/- The default of an alignment fits it exactly if there is no option in it. -/
theorem defaultAndConcatFit (alignment : Alignment) {iter : List AlignedValue}
    (fit : ∀ v ∈ iter, Alignment.fits v.alignment v.value) :
    (Alignment.fits alignment (Alignment.default alignment) = true ↔
      ∀ segment ∈ alignment, ∃ atom, segment = .atom atom) ∧
    Alignment.fits (AlignedValue.concat iter).alignment (AlignedValue.concat iter).value ∧
      consumeEach (iter.map AlignedValue.alignment) (AlignedValue.concat iter).value =
        some (iter.map AlignedValue.value, []) := by
  simp only [fitsIff] at fit ⊢
  refine ⟨⟨?_, defaultResolves⟩, concatFits fit⟩
  rintro ⟨atoms, resolves⟩
  exact (defaultShort resolves (defaultEmpty alignment)).2 rfl

def nestedOption : Alignment := [.atom .field, .option [[.option [[.atom .field]]]]]

def nestedValue : Value := [[7], [], [], [9]]

theorem nestedTwice :
    consumeEach [nestedOption, nestedOption] (nestedValue ++ nestedValue) =
      some ([nestedValue, nestedValue], []) :=
  (@defaultAndConcatFit [] [⟨nestedValue, nestedOption⟩, ⟨nestedValue, nestedOption⟩]
    (by decide)).2.2

theorem optionDefaultUnfit :
    Alignment.fits [.option [[.atom .field]]] (Alignment.default [.option [[.atom .field]]]) =
      false := by
  decide

end MidnightLedger.Fab

import MidnightLedger.Lib.PrefixCodes
import MidnightLedger.Fab.Conversions
import MidnightLedger.Lib.MerkleTrees

/-! The values of the contract VM (onchain-state/src/state.rs), its operations
(onchain-vm/src/ops.rs), their field representation, and the program fragments that Zswap uses
(onchain-runtime/src/program_fragments.rs). A map is written in the derived order of its keys. -/
namespace MidnightLedger.Onchain
open ByteString PrefixCodes MidnightLedger.Ledger Fab List Option

inductive StateValue where
  | null
  | cell (value : AlignedValue)
  | map (entries : List (AlignedValue × StateValue))
  | array (items : List StateValue)
  | boundedMerkleTree (height : Nat) (tree : MerkleTrees.Tree HashOutput Fr Unit height)

/- The derived orders: variants in the order of their declaration, sequences
lexicographically, the value of an aligned value before its alignment. -/
def atomCmp : AlignmentAtom → AlignmentAtom → Ordering
  | .compress, .compress => .eq
  | .compress, _ => .lt
  | .bytes _, .compress => .gt
  | .bytes n, .bytes m => compare n m
  | .bytes _, .field => .lt
  | .field, .field => .eq
  | .field, _ => .gt

mutual

def segmentCmp : AlignmentSegment → AlignmentSegment → Ordering
  | .atom a, .atom b => atomCmp a b
  | .atom _, .option _ => .lt
  | .option _, .atom _ => .gt
  | .option as, .option bs => branchesCmp as bs

def alignmentCmp : Fab.Alignment → Fab.Alignment → Ordering
  | [], [] => .eq
  | [], _ :: _ => .lt
  | _ :: _, [] => .gt
  | a :: as, b :: bs => (segmentCmp a b).then (alignmentCmp as bs)

def branchesCmp : List Fab.Alignment → List Fab.Alignment → Ordering
  | [], [] => .eq
  | [], _ :: _ => .lt
  | _ :: _, [] => .gt
  | a :: as, b :: bs => (alignmentCmp a b).then (branchesCmp as bs)

end

def alignedCmp (av bw : AlignedValue) : Ordering :=
  (List.compareLex (List.compareLex compare) av.value bw.value).then
    (alignmentCmp av.alignment bw.alignment)

def leafRepr (leaf : Nat × HashOutput) : Option (List Fr) := do
  let hash ← bytesFieldRepr (hashBytes leaf.2)
  some (Fr.ofNat leaf.1 :: hash)

mutual

def StateValue.fieldRepr (hash : TransientHash) : StateValue → Option (List Fr)
  | .null => some [0]
  | .cell value => do
    let out ← value.fieldRepr hash
    some (1 :: out)
  | .map entries => do
    let sorted := (entriesFieldRepr hash entries).mergeSort
      (fun e f => (alignedCmp e.1 f.1).isLE)
    let out ← sorted.mapM (fun e => do
      let key ← e.1.fieldRepr hash
      let value ← e.2
      some (key ++ value))
    some (Fr.ofNat (2 ||| (entries.length <<< 4)) :: out.flatten)
  | .array items => do
    let out ← itemsFieldRepr hash items
    some (Fr.ofNat (3 ||| (items.length <<< 4)) :: out)
  | .boundedMerkleTree height tree => do
    let out ← tree.leaves.mapM leafRepr
    some (Fr.ofNat (4 ||| (height <<< 4) ||| (tree.leaves.length <<< 12)) :: out.flatten)

def entriesFieldRepr (hash : TransientHash) :
    List (AlignedValue × StateValue) → List (AlignedValue × Option (List Fr))
  | [] => []
  | (key, value) :: entries =>
    (key, StateValue.fieldRepr hash value) :: entriesFieldRepr hash entries

def itemsFieldRepr (hash : TransientHash) : List StateValue → Option (List Fr)
  | [] => some []
  | item :: items => do
    let head ← StateValue.fieldRepr hash item
    let tail ← itemsFieldRepr hash items
    some (head ++ tail)

end

mutual

def StateValue.fieldSize : StateValue → Nat
  | .null => 1
  | .cell value => 1 + value.fieldSize
  | .map entries => 1 + entriesFieldSize entries
  | .array items => 1 + itemsFieldSize items
  | .boundedMerkleTree _ tree =>
    1 + (tree.leaves.map fun leaf => 1 + divCeil (hashBytes leaf.2).length frBytesStored).sum

def entriesFieldSize : List (AlignedValue × StateValue) → Nat
  | [] => 0
  | (key, value) :: entries => key.fieldSize + value.fieldSize + entriesFieldSize entries

def itemsFieldSize : List StateValue → Nat
  | [] => 0
  | item :: items => item.fieldSize + itemsFieldSize items

end

inductive Key where
  | value (value : AlignedValue)
  | stack

inductive Op (R : Type) where
  | noop (n : U32)
  | lt
  | eq
  | type
  | size
  | new
  | and
  | or
  | neg
  | log
  | root
  | pop
  | popeq (cached : Bool) (result : R)
  | addi (immediate : U32)
  | subi (immediate : U32)
  | push (storage : Bool) (value : StateValue)
  | branch (skip : U32)
  | jmp (skip : U32)
  | add
  | sub
  | concat (cached : Bool) (n : U32)
  | member
  | rem (cached : Bool)
  | dup (n : UInt8)
  | swap (n : UInt8)
  | idx (cached pushPath : Bool) (path : List Key)
  | ins (cached : Bool) (n : UInt8)
  | ckpt

def Key.fieldRepr (hash : TransientHash) : Key → Option (List Fr)
  | .stack => some [-1]
  | .value av => av.fieldRepr hash

def Key.fieldSize : Key → Nat
  | .stack => 1
  | .value av => av.fieldSize

def opcode (code : UInt8) : Fr := Fr.ofNat code.toNat

def u32Repr (n : U32) : Fr := Fr.ofNat n.toNat

/- The low half of the opcode of a path holds its length less one, cut to a byte. -/
def idxOpcode (cached pushPath : Bool) (length : Nat) : UInt8 :=
  (match cached, pushPath with
    | false, false => 0x50
    | true, false => 0x60
    | false, true => 0x70
    | true, true => 0x80) ||| (UInt8.ofNat length - 1)

namespace Op

variable {R R' : Type}

def fieldRepr (hash : TransientHash) : Op AlignedValue → Option (List Fr)
  | noop n => some (replicate n.toNat 0)
  | lt => some [opcode 0x01]
  | eq => some [opcode 0x02]
  | type => some [opcode 0x03]
  | size => some [opcode 0x04]
  | new => some [opcode 0x05]
  | and => some [opcode 0x06]
  | or => some [opcode 0x07]
  | neg => some [opcode 0x08]
  | log => some [opcode 0x09]
  | root => some [opcode 0x0a]
  | pop => some [opcode 0x0b]
  | popeq cached result => do
    let out ← result.fieldRepr hash
    some (opcode (0x0c + cached.toUInt8) :: out)
  | addi immediate => some [opcode 0x0e, u32Repr immediate]
  | subi immediate => some [opcode 0x0f, u32Repr immediate]
  | push storage value => do
    let out ← value.fieldRepr hash
    some (opcode (0x10 + storage.toUInt8) :: out)
  | branch skip => some [opcode 0x12, u32Repr skip]
  | jmp skip => some [opcode 0x13, u32Repr skip]
  | add => some [opcode 0x14]
  | sub => some [opcode 0x15]
  | concat false n => some [opcode 0x16, u32Repr n]
  | concat true n => some [opcode 0x17, u32Repr n]
  | member => some [opcode 0x18]
  | rem false => some [opcode 0x19]
  | rem true => some [opcode 0x1a]
  | dup n => some [opcode (0x30 ||| n)]
  | swap n => some [opcode (0x40 ||| n)]
  -- An empty path is not written at all.
  | idx cached pushPath path =>
    if path.isEmpty then some []
    else do
      let out ← path.mapM (Key.fieldRepr hash)
      some (opcode (idxOpcode cached pushPath path.length) :: out.flatten)
  | ins false n => some [opcode (0x90 ||| n)]
  | ins true n => some [opcode (0xa0 ||| n)]
  | ckpt => some [opcode 0xff]

def fieldSize : Op AlignedValue → Nat
  | noop n => n.toNat
  | branch _ | jmp _ | concat _ _ | addi _ | subi _ => 2
  | popeq _ result => 1 + result.fieldSize
  | push _ value => 1 + value.fieldSize
  | idx _ _ path => 1 + (path.map Key.fieldSize).sum
  | _ => 1

def translate {m : Type → Type} [Monad m] (f : R → m R') : Op R → m (Op R')
  | noop n => pure (noop n)
  | lt => pure lt
  | eq => pure eq
  | type => pure type
  | size => pure size
  | new => pure new
  | and => pure and
  | or => pure or
  | neg => pure neg
  | log => pure log
  | root => pure root
  | pop => pure pop
  | popeq cached result => do
    let result ← f result
    pure (popeq cached result)
  | addi immediate => pure (addi immediate)
  | subi immediate => pure (subi immediate)
  | push storage value => pure (push storage value)
  | branch skip => pure (branch skip)
  | jmp skip => pure (jmp skip)
  | add => pure add
  | sub => pure sub
  | concat cached n => pure (concat cached n)
  | member => pure member
  | rem cached => pure (rem cached)
  | dup n => pure (dup n)
  | swap n => pure (swap n)
  | idx cached pushPath path => pure (idx cached pushPath path)
  | ins cached n => pure (ins cached n)
  | ckpt => pure ckpt

end Op

section Sizes

variable {hash : TransientHash}

variable {out : List Fr}

theorem leafReprLength {leaf : Nat × HashOutput} (written : leafRepr leaf = some out) :
    out.length = 1 + divCeil (hashBytes leaf.2).length frBytesStored := by
  obtain ⟨repr, total, length⟩ := bytesFieldReprTotal (hashBytes leaf.2)
  simp only [leafRepr, total, bind, bind_some, some.injEq] at written
  rw [← written, length_cons, length, Nat.add_comm]

theorem mapMReprLength {α : Type} {f : α → Option (List Fr)} {size : α → Nat} {xs : List α}
    {outs : List (List Fr)} (exact : ∀ {x out}, f x = some out → out.length = size x)
    (made : xs.mapM f = some outs) : outs.flatten.length = (xs.map size).sum := by
  have lengths : outs.map length = xs.map size := Loops.relatedMap exact (Loops.mapMMade made)
  rw [length_flatten, lengths]

def entryRepr (hash : TransientHash) (entry : AlignedValue × Option (List Fr)) :
    Option (List Fr) := do
  let key ← entry.1.fieldRepr hash
  let value ← entry.2
  some (key ++ value)

def entrySize (entry : AlignedValue × Option (List Fr)) : Nat :=
  entry.1.fieldSize + (entry.2.getD []).length

theorem entryReprLength {entry : AlignedValue × Option (List Fr)}
    (written : entryRepr hash entry = some out) :
    (∃ value, entry.2 = some value) ∧ out.length = entrySize entry := by
  obtain ⟨key, made, rest⟩ := bind_eq_some_iff.mp written
  obtain ⟨value, there, last⟩ := bind_eq_some_iff.mp rest
  cases last
  rw [length_append, alignedReprLength made, entrySize, there]
  exact ⟨⟨value, rfl⟩, rfl⟩

mutual

theorem stateReprLength : ∀ {value : StateValue} {out : List Fr},
    value.fieldRepr hash = some out → out.length = value.fieldSize
  | .null, _, written => by
    cases written
    rfl
  | .cell av, _, written => by
    obtain ⟨inner, made, last⟩ := bind_eq_some_iff.mp written
    cases last
    rw [length_cons, alignedReprLength made, StateValue.fieldSize, Nat.add_comm]
  | .map entries, _, written => by
    obtain ⟨outs, made, last⟩ := bind_eq_some_iff.mp written
    cases last
    have sorted := mergeSort_perm (entriesFieldRepr hash entries)
      fun e f => (alignedCmp e.1 f.1).isLE
    have present : ∀ entry ∈ entriesFieldRepr hash entries, ∃ value, entry.2 = some value := by
      intro entry mem
      obtain ⟨out, -, made⟩ := Loops.relatedMem (Loops.mapMMade made).flip (sorted.mem_iff.mpr mem)
      exact (entryReprLength made).1
    have length := mapMReprLength (f := entryRepr hash) (fun made => (entryReprLength made).2) made
    rw [length_cons, length, (sorted.map _).sum_eq, entriesReprLength present,
      StateValue.fieldSize, Nat.add_comm]
  | .array items, _, written => by
    obtain ⟨inner, made, last⟩ := bind_eq_some_iff.mp written
    cases last
    rw [length_cons, itemsReprLength made, StateValue.fieldSize, Nat.add_comm]
  | .boundedMerkleTree _ tree, _, written => by
    obtain ⟨outs, made, last⟩ := bind_eq_some_iff.mp written
    cases last
    rw [length_cons, mapMReprLength leafReprLength made, StateValue.fieldSize, Nat.add_comm]

theorem entriesReprLength : ∀ {entries : List (AlignedValue × StateValue)},
    (∀ entry ∈ entriesFieldRepr hash entries, ∃ value, entry.2 = some value) →
    ((entriesFieldRepr hash entries).map entrySize).sum = entriesFieldSize entries
  | [], _ => rfl
  | (key, value) :: entries, present => by
    obtain ⟨⟨out, there⟩, others⟩ := forall_mem_cons.mp present
    have head : entrySize (key, value.fieldRepr hash) = key.fieldSize + value.fieldSize := by
      rw [entrySize, there, getD_some, stateReprLength there]
    rw [entriesFieldRepr, map_cons, sum_cons, head, entriesReprLength others, entriesFieldSize]

theorem itemsReprLength : ∀ {items : List StateValue} {out : List Fr},
    itemsFieldRepr hash items = some out → out.length = itemsFieldSize items
  | [], _, written => by
    cases written
    rfl
  | item :: items, _, written => by
    obtain ⟨head, first, rest⟩ := bind_eq_some_iff.mp written
    obtain ⟨tail, others, last⟩ := bind_eq_some_iff.mp rest
    cases last
    rw [length_append, stateReprLength first, itemsReprLength others, itemsFieldSize]

end

end Sizes

def programRepr (hash : TransientHash) : List (Op AlignedValue) → Option (List Fr) :=
  writeAll (Op.fieldRepr hash)

section Codes

variable (hash : TransientHash) {T : Type} [Aligned T]

theorem pushCellTotal (storage : Bool) (x : T) :
    ∃ out, (Op.push storage (.cell (.of x))).fieldRepr hash = some out := by
  obtain ⟨out, written, -⟩ := ofReprExact hash x
  exact ⟨_, by rw [Op.fieldRepr, StateValue.fieldRepr, written]; rfl⟩

theorem popeqTotal (cached : Bool) (x : T) :
    ∃ out, (Op.popeq cached (.of x)).fieldRepr hash = some out := by
  obtain ⟨out, written, -⟩ := ofReprExact hash x
  exact ⟨_, by rw [Op.fieldRepr, written]; rfl⟩

theorem idxTotal (cached pushPath : Bool) (x : T) :
    ∃ out, (Op.idx cached pushPath [.value (.of x)]).fieldRepr hash = some out := by
  obtain ⟨out, written, -⟩ := ofReprExact hash x
  exact ⟨_, by rw [Op.fieldRepr, mapM_cons, Key.fieldRepr, written]; rfl⟩

variable [Determined T] (x y : T)

theorem splitsOf : Splits ((AlignedValue.of x).fieldRepr hash)
    ((AlignedValue.of y).fieldRepr hash) (x = y) :=
  fun _ _ _ _ first second same => ofReprInj hash first second same

theorem splitsPushCell (storage : Bool) : Splits ((Op.push storage (.cell (.of x))).fieldRepr hash)
      ((Op.push storage (.cell (.of y))).fieldRepr hash) (x = y) := by
  exact .cons _ (.cons _ (splitsOf hash x y))

theorem splitsPopeq (cached : Bool) : Splits ((Op.popeq cached (.of x)).fieldRepr hash)
      ((Op.popeq cached (.of y)).fieldRepr hash) (x = y) := by
  exact .cons _ (splitsOf hash x y)

end Codes

section Fragments

variable {R : Type}

def Key.toAligned : Key → Option AlignedValue
  | .value av => some av
  | .stack => none

def key {T : Type} [Aligned T] (x : T) : Key := .value (.of x)

def cellRead (f : List Key) (cached : Bool) : List (Op Unit) :=
  [.dup 0, .idx cached false f, .popeq cached ()]

def cellWrite (f : List Key) (cached : Bool) (value : AlignedValue) : Option (List (Op R)) := do
  let last ← f.getLast?
  let last ← last.toAligned
  some [.idx cached true f.dropLast, .push false (.cell last), .push true (.cell value),
    .ins false 1, .ins true (UInt8.ofNat f.length - 1)]

def setInsert (f : List Key) (cached : Bool) (elem : AlignedValue) : List (Op R) :=
  [.idx cached true f, .push false (.cell elem), .push true .null, .ins false 1,
    .ins true (UInt8.ofNat f.length)]

def historicMerkleTreeCheckRoot (f : List Key) (cached : Bool) (rt : AlignedValue) :
    List (Op Unit) :=
  [.dup 0, .idx cached false f, .idx false false [key (2 : UInt8)], .push false (.cell rt),
    .member, .popeq true ()]

end Fragments

end MidnightLedger.Onchain

import MidnightLedger.Lib.Precedence
import MidnightLedger.Ledger.Consent

/-! Causality between the calls of a transaction. The check looks at the neighbours of fallible
calls in a sparse graph, which finds a guaranteed call after a fallible one wherever the transitive
closure has one. Callees run with their callers: in the section of the claiming transcript, after
their caller and in the order of the sequence numbers. -/
namespace MidnightLedger.Ledger
open ByteString Maps Words Loops Precedence Relation List ContractCall Simulation

variable {W : Components}

def CallNode.Before (a b : CallNode) : Prop :=
  a.segmentId < b.segmentId ∨ a.segmentId = b.segmentId ∧ a.callIndex < b.callIndex

section

variable (epHash : Bytes → HashOutput) (nodes : List (CallNode × ContractCall W))

def CallsWithin (a b : CallNode) : Prop :=
  ∃ caller callee, (a, caller) ∈ nodes ∧ (b, callee) ∈ nodes ∧ a.segmentId = b.segmentId ∧
    caller.calls epHash callee = true

def Precedes (a b : CallNode) : Prop :=
  CallsWithin epHash nodes a b ∨
    a ∈ nodes.map Prod.fst ∧ b ∈ nodes.map Prod.fst ∧ a.addr = b.addr ∧ a.Before b

def CausalityViolated : Prop :=
  ∃ a b, TransGen (Precedes epHash nodes) a b ∧
    (∃ call, (a, call) ∈ nodes ∧ call.fallibleTranscript.isSome) ∧
    ∃ call, (b, call) ∈ nodes ∧ call.guaranteedTranscript.isSome

end

variable {epHash : Bytes → HashOutput} {call : ContractCall W}

theorem callsIff {callee : ContractCall W} :
    call.calls epHash callee = true ↔ ∃ claimed ∈ call.claims,
      claimed.1.key = callee.key epHash := by
  simp only [calls, callsWithSeq, findSome?_isSome_iff]
  refine exists_congr fun claimed => and_congr_right fun _ => ?_
  split <;> simp_all

structure Noted (nodes : List (CallNode × ContractCall W)) (relations : Relations) : Prop where
  guaranteed : ∀ n, n ∈ relations.guaranteedCalls ↔
    ∃ call, (n, call) ∈ nodes ∧ call.guaranteedTranscript.isSome
  fallible : ∀ n, n ∈ relations.fallibleCalls ↔
    ∃ call, (n, call) ∈ nodes ∧ call.fallibleTranscript.isSome
  covered : ∀ {n call}, (n, call) ∈ nodes →
    call.guaranteedTranscript.isSome ∨ call.fallibleTranscript.isSome
  grouped : ∀ addr, listed relations.callsByAddress addr =
    (nodes.map Prod.fst).filter fun n => n.addr = addr

def Adjacent (called : CallNode → CallNode → Prop) (nodes : List (CallNode × ContractCall W))
    (adjacencies : Map CallNode (List CallNode)) : Prop :=
  ∀ a b, b ∈ listed adjacencies a ↔ Consecutive CallNode.addr (nodes.map Prod.fst) a b ∨ called a b

def Described (called : CallNode → CallNode → Prop) (nodes : List (CallNode × ContractCall W))
    (relations : Relations) : Prop :=
  Noted nodes relations ∧ Adjacent called nodes relations.adjacencies

theorem blankNoted : Noted ([] : List (CallNode × ContractCall W)) Relations.blank where
  guaranteed n := by simp [Relations.blank]
  fallible n := by simp [Relations.blank]
  covered mem := absurd mem not_mem_nil
  grouped addr := rfl

theorem memInsertIf {condition : Bool} {node n : CallNode} {nodes : List CallNode} :
    n ∈ insertIf condition node nodes ↔ n ∈ nodes ∨ n = node ∧ condition = true := by
  rw [insertIf]
  split
  · rename_i holds
    simp [holds, or_comm]
  · rename_i fails
    simp [fails]

variable {segmentId : Segment} {callers : Map CallKey (List (CallNode × Bool))}
  {relations : Relations} {entry : Nat × ContractCall W}

section

variable {nodes : List (CallNode × ContractCall W)} {called : CallNode → CallNode → Prop}

def nodeOf (segmentId : Segment) (entry : Nat × ContractCall W) : CallNode × ContractCall W :=
  (callNode segmentId entry, entry.2)

variable {after : Relations × Map CallKey (List (CallNode × Bool))}
  {calls : List (Nat × ContractCall W)} {before : Relations × Map CallKey (List (CallNode × Bool))}

theorem relateNodeOk (ok : relateNode segmentId before entry = .ok after) :
    (entry.2.guaranteedTranscript.isSome ∨ entry.2.fallibleTranscript.isSome) ∧
      after.1 = ⟨insertIf entry.2.guaranteedTranscript.isSome (callNode segmentId entry)
          before.1.guaranteedCalls,
        insertIf entry.2.fallibleTranscript.isSome (callNode segmentId entry)
          before.1.fallibleCalls,
        push before.1.callsByAddress entry.2.address (callNode segmentId entry),
        linkPrevious before.1 entry (callNode segmentId entry)⟩ ∧
      after.2 = (entry.2.claims.map fun claimed =>
        (claimed.1.key, (callNode segmentId entry, claimed.2))).foldl
          (fun callers claimed => push callers claimed.1 claimed.2) before.2 := by
  simp only [relateNode] at ok
  obtain ⟨present, ok⟩ := elseOk.mp ok
  cases ok
  exact ⟨not_not.mp present, rfl, rfl⟩

theorem relateNodeNotes
    (known : Described called nodes before.1) (ok : relateNode segmentId before entry = .ok after) :
    Described called (nodes ++ [nodeOf segmentId entry]) after.1 := by
  obtain ⟨noted, adjacent⟩ := known
  obtain ⟨present, same, -⟩ := relateNodeOk ok
  rw [same]
  have added {P : ContractCall W → Prop} {n : CallNode} :
      (∃ call, (n, call) ∈ nodes ++ [nodeOf segmentId entry] ∧ P call) ↔
        (∃ call, (n, call) ∈ nodes ∧ P call) ∨ n = callNode segmentId entry ∧ P entry.2 := by
    simp [nodeOf, or_and_right, exists_or, and_assoc]
  refine ⟨⟨?_, ?_, ?_, ?_⟩, ?_⟩
  · intro n
    rw [memInsertIf, noted.guaranteed, added]
  · intro n
    rw [memInsertIf, noted.fallible, added]
  · intro n call mem
    rcases mem_append.mp mem with old | new
    · exact noted.covered old
    · cases mem_singleton.mp new
      exact present
  · intro addr
    rw [listedPush, noted.grouped, noted.grouped, map_append, filter_append]
    split
    · rename_i same
      simp [nodeOf, callNode, same]
    · rename_i other
      simp [nodeOf, callNode, Ne.symm other]
  · intro a b
    have links : Consecutive CallNode.addr ((nodes ++ [nodeOf segmentId entry]).map Prod.fst) a b ↔
        Consecutive CallNode.addr (nodes.map Prod.fst) a b ∨ b = callNode segmentId entry ∧
          (listed before.1.callsByAddress entry.2.address).getLast? = some a := by
      rw [map_append, noted.grouped]
      exact consecutiveSnoc
    rw [links, linkPrevious]
    cases last : (listed before.1.callsByAddress entry.2.address).getLast? with
    | none =>
      rw [adjacent]
      simp
    | some previous =>
      rw [memListedPush, adjacent, Option.some.injEq]
      constructor
      · rintro ((link | call) | ⟨rfl, rfl⟩)
        · exact .inl (.inl link)
        · exact .inr call
        · exact .inl (.inr ⟨rfl, rfl⟩)
      · rintro ((link | ⟨rfl, rfl⟩) | call)
        · exact .inl (.inl link)
        · exact .inr ⟨rfl, rfl⟩
        · exact .inl (.inr call)

def Callers (nodes : List (CallNode × ContractCall W))
    (callers : Map CallKey (List (CallNode × Bool))) :
    Prop :=
  ∀ key caller, caller ∈ listed callers key ↔ ∃ call claimed, (caller.1, call) ∈ nodes ∧
    claimed ∈ call.claims ∧ claimed.1.key = key ∧ claimed.2 = caller.2

variable {before : Map CallNode (List CallNode)}

theorem relateNodesNotes (known : Described called nodes relations)
    (ok : relateNodes segmentId relations calls = .ok after) :
    Described called (nodes ++ calls.map (nodeOf segmentId)) after.1 := by
  refine runProcesses
    (fun done acc => Described called (nodes ++ done.map (nodeOf segmentId)) acc.1) ?_ ?_ ok
  · rintro done entry rest acc next - known taken
    rw [map_append, map_singleton, ← append_assoc]
    exact relateNodeNotes known taken
  · rwa [map_nil, append_nil]

theorem relateNodesCallers (ok : relateNodes segmentId relations calls = .ok after) :
    Callers (calls.map (nodeOf segmentId)) after.2 := by
  refine runProcesses
    (fun done acc => Callers (done.map (nodeOf segmentId)) acc.2) ?_ (fun key caller => ?_) ok
  · rintro done entry rest acc next - callers taken
    obtain ⟨-, -, same⟩ := relateNodeOk taken
    rw [map_append, map_singleton]
    rintro key ⟨node, guaranteed⟩
    rw [same, memListedPushes, callers]
    simp only [mem_append, mem_map, mem_singleton, or_and_right, exists_or]
    refine or_congr_right ⟨?_, ?_⟩
    · rintro ⟨claimed, mem, pair⟩
      cases pair
      exact ⟨entry.2, claimed, rfl, mem, rfl, rfl⟩
    · rintro ⟨call, claimed, made, mem, rfl, flag⟩
      cases made
      exact ⟨claimed, mem, Prod.ext rfl (Prod.ext rfl flag)⟩
  · simp

variable {after : Map CallNode (List CallNode)}

theorem contextCallerOk {caller : CallNode × Bool}
    (ok : contextCaller segmentId entry before caller = .ok after) :
    (¬ (caller.2 = true ∧ entry.2.fallibleTranscript.isSome) ∧
      ¬ (¬ caller.2 = true ∧ entry.2.guaranteedTranscript.isSome)) ∧
      after = push before caller.1 (callNode segmentId entry) := by
  rw [contextCaller] at ok
  obtain ⟨guaranteed, ok⟩ := elseOk.mp ok
  obtain ⟨fallible, ok⟩ := elseOk.mp ok
  cases ok
  exact ⟨⟨guaranteed, fallible⟩, rfl⟩

def Contained (epHash : Bytes → HashOutput) (callers : Map CallKey (List (CallNode × Bool)))
    (calls : List (Nat × ContractCall W)) : Prop :=
  ∀ entry ∈ calls, ∀ caller ∈ listed callers (entry.2.key epHash),
    ¬ (caller.2 = true ∧ entry.2.fallibleTranscript.isSome) ∧
      ¬ (¬ caller.2 = true ∧ entry.2.guaranteedTranscript.isSome)

theorem sequencingContextCheckOk
    (ok : sequencingContextCheck epHash segmentId before calls callers = .ok after) :
    Contained epHash callers calls ∧ ∀ a b, b ∈ listed after a ↔ b ∈ listed before a ∨
      ∃ entry ∈ calls, ∃ guaranteed, (a, guaranteed) ∈ listed callers (entry.2.key epHash) ∧
        b = callNode segmentId entry := by
  obtain ⟨contained, same⟩ := foldlMGuarded _ _ (fun taken =>
    foldlMGuarded _ _ (fun taken => contextCallerOk taken) taken) ok
  refine ⟨contained, fun a b => ?_⟩
  have flat : after = (calls.flatMap fun entry => (listed callers (entry.2.key epHash)).map
      fun caller => (caller.1, callNode segmentId entry)).foldl
        (fun adjacencies edge => push adjacencies edge.1 edge.2) before := by
    rw [same, foldl_flatMap]
    simp only [foldl_map]
  rw [flat, memListedPushes]
  refine or_congr_right ?_
  simp only [mem_flatMap, mem_map, Prod.exists, Prod.mk.injEq]
  constructor
  · rintro ⟨index, call, mem, node, guaranteed, calling, rfl, rfl⟩
    exact ⟨index, call, mem, guaranteed, calling, rfl⟩
  · rintro ⟨index, call, mem, guaranteed, calling, rfl⟩
    exact ⟨index, call, mem, a, guaranteed, calling, rfl, rfl⟩

def nodesOf (entries : List (Segment × Intent W)) : List (CallNode × ContractCall W) :=
  entries.flatMap fun entry => (asIndexed entry.2.calls).map (nodeOf entry.1)

theorem nodesOfSegment {entries : List (Segment × Intent W)} {n : CallNode}
    (mem : (n, call) ∈ nodesOf entries) :
    n.segmentId ∈ entries.map Prod.fst := by
  obtain ⟨entry, inside, made⟩ := mem_flatMap.mp mem
  obtain ⟨indexed, -, same⟩ := mem_map.mp made
  cases same
  exact mem_map_of_mem inside

theorem callsWithinAppend {others : List (CallNode × ContractCall W)}
    (apart : ∀ {m n first second}, (m, first) ∈ nodes → (n, second) ∈ others →
      m.segmentId ≠ n.segmentId) (a b : CallNode) :
    CallsWithin epHash (nodes ++ others) a b ↔
      CallsWithin epHash nodes a b ∨ CallsWithin epHash others a b := by
  constructor
  · rintro ⟨caller, callee, first, second, same, calls⟩
    rcases mem_append.mp first with left | right <;>
      rcases mem_append.mp second with left' | right'
    · exact .inl ⟨caller, callee, left, left', same, calls⟩
    · exact absurd same (apart left right')
    · exact absurd same.symm (apart left' right)
    · exact .inr ⟨caller, callee, right, right', same, calls⟩
  · rintro (⟨caller, callee, first, second, rest⟩ | ⟨caller, callee, first, second, rest⟩)
    · exact ⟨caller, callee, mem_append_left _ first, mem_append_left _ second, rest⟩
    · exact ⟨caller, callee, mem_append_right _ first, mem_append_right _ second, rest⟩

theorem callersWithin (known : Callers (calls.map (nodeOf segmentId)) callers) (a b : CallNode) :
    (∃ entry ∈ calls, ∃ guaranteed, (a, guaranteed) ∈ listed callers (entry.2.key epHash) ∧
      b = callNode segmentId entry) ↔ CallsWithin epHash (calls.map (nodeOf segmentId)) a b := by
  constructor
  · rintro ⟨entry, mem, guaranteed, calling, rfl⟩
    obtain ⟨caller, claimed, made, claims, same, -⟩ := (known _ _).mp calling
    refine ⟨caller, entry.2, made, mem_map_of_mem mem, ?_, callsIff.mpr ⟨claimed, claims, same⟩⟩
    obtain ⟨indexed, -, pair⟩ := mem_map.mp made
    cases pair
    rfl
  · rintro ⟨caller, callee, first, second, -, calls⟩
    obtain ⟨claimed, claims, same⟩ := callsIff.mp calls
    obtain ⟨entry, mem, pair⟩ := mem_map.mp second
    cases pair
    exact ⟨entry, mem, claimed.2, (known _ _).mpr ⟨caller, claimed, first, claims, same, rfl⟩, rfl⟩

theorem sequencingIntentNotes {done : List (Segment × Intent W)} {entry : Segment × Intent W}
    {before after : Relations} (fresh : entry.1 ∉ done.map Prod.fst)
    (known : Described (CallsWithin epHash (nodesOf done)) (nodesOf done) before)
    (ok : sequencingIntent epHash before entry = .ok after) :
    Described (CallsWithin epHash (nodesOf (done ++ [entry]))) (nodesOf (done ++ [entry])) after := by
  obtain ⟨⟨⟩, -, rest⟩ := bindOk.mp ok
  obtain ⟨⟨relations, callers⟩, related, rest⟩ := bindOk.mp rest
  obtain ⟨adjacencies, contexts, rfl⟩ := pureOk.mp rest
  obtain ⟨noted, adjacent⟩ := relateNodesNotes known related
  have callers := relateNodesCallers related
  obtain ⟨-, edges⟩ := sequencingContextCheckOk contexts
  have nodes : nodesOf (done ++ [entry]) =
      nodesOf done ++ (asIndexed entry.2.calls).map (nodeOf entry.1) := by
    simp [nodesOf]
  rw [nodes]
  refine ⟨⟨noted.guaranteed, noted.fallible, noted.covered, noted.grouped⟩, fun a b => ?_⟩
  have apart {m n : CallNode} {first second : ContractCall W} (left : (m, first) ∈ nodesOf done)
      (right : (n, second) ∈ (asIndexed entry.2.calls).map (nodeOf entry.1)) :
      m.segmentId ≠ n.segmentId := by
    obtain ⟨indexed, -, pair⟩ := mem_map.mp right
    cases pair
    intro same
    refine fresh ?_
    rw [show entry.1 = m.segmentId from same.symm]
    exact nodesOfSegment left
  rw [edges, adjacent, callersWithin callers, callsWithinAppend apart, or_assoc]

theorem relatedNotes {tx : StandardTransaction W} (ok : tx.related epHash = .ok relations) :
    Described (CallsWithin epHash tx.callNodes) tx.callNodes relations := by
  refine runProcesses
    (fun done => Described (CallsWithin epHash (nodesOf done)) (nodesOf done)) ?_ ?_ ok
  · rintro done entry rest s next whole known taken
    refine sequencingIntentNotes (fun mem => ?_) known taken
    obtain ⟨earlier, inside, same⟩ := mem_map.mp mem
    have sorted := sortedIterSorted tx.intents
    rw [whole, pairwise_append] at sorted
    exact (sorted.2.2 earlier inside entry mem_cons_self).ne same
  · refine ⟨blankNoted, fun a b => ?_⟩
    simp [Relations.blank, nodesOf, CallsWithin, Consecutive]

end

theorem CallNode.beforeAsymm {a b : CallNode} (less : a.Before b) : ¬ b.Before a := by
  rcases less with sooner | ⟨same, sooner⟩ <;> rintro (later | ⟨again, later⟩)
  · exact lt_asymm sooner later
  · exact sooner.ne again.symm
  · exact later.ne same.symm
  · exact lt_asymm sooner later

theorem asIndexedOrdered (calls : List (ContractCall W)) :
    (asIndexed calls).Pairwise fun a b => a.1 < b.1 := by
  have indices : (calls.zipIdx.map Prod.snd).Pairwise (· < ·) := by
    rw [zipIdx_map_snd]
    exact pairwise_lt_range'
  rw [pairwise_map] at indices
  exact pairwise_map.mpr indices

theorem callNodesOrdered (tx : StandardTransaction W) :
    (tx.callNodes.map Prod.fst).Pairwise CallNode.Before := by
  rw [pairwise_map, StandardTransaction.callNodes, pairwise_flatMap]
  constructor
  · intro entry mem
    rw [pairwise_map]
    exact (asIndexedOrdered entry.2.calls).imp fun less => .inr ⟨rfl, less⟩
  · refine (sortedIterSorted tx.intents).imp fun less first left second right => ?_
    obtain ⟨a, -, rfl⟩ := mem_map.mp left
    obtain ⟨b, -, rfl⟩ := mem_map.mp right
    exact .inl less

theorem adjacentGenerates {tx : StandardTransaction W} {adjacencies : Map CallNode (List CallNode)}
    (adjacent : Adjacent (CallsWithin epHash tx.callNodes) tx.callNodes adjacencies) :
    Generates (fun a b => b ∈ listed adjacencies a) (Precedes epHash tx.callNodes) where
  sound {a b} edge := by
    rcases (adjacent a b).mp edge with link | calls
    · obtain ⟨first, second, same, ordered⟩ := consecutiveMem link
      exact .inr ⟨first, second, same, ordered (callNodesOrdered tx)⟩
    · exact .inl calls
  complete {a b} precedes := by
    rcases precedes with calls | ⟨first, second, same, before⟩
    · exact .single ((adjacent a b).mpr (.inr calls))
    · have path := pairwiseAt (callNodesOrdered tx) (consecutivePairwise (tx.callNodes.map Prod.fst))
        CallNode.beforeAsymm first second before same
      exact TransGen.mono (fun c d link => (adjacent c d).mpr (.inl link)) a b path

theorem causalityCheckIff :
    causalityCheck relations = .ok () ↔ ¬ ∃ a b, b ∈ listed relations.adjacencies a ∧
      a ∈ relations.fallibleCalls ∧ b ∈ relations.guaranteedCalls := by
  simp only [causalityCheck, forMOk, mem_insertionSort, mem_dedup]
  constructor
  · rintro passed ⟨a, b, edge, fallible, guaranteed⟩
    have checked := passed a fallible b edge
    rw [if_pos guaranteed] at checked
    cases checked
  · intro none a fallible b edge
    rw [if_neg fun guaranteed => none ⟨a, b, edge, fallible, guaranteed⟩]

theorem causalityExact (epHash : Bytes → HashOutput) (tx : StandardTransaction W) :
    (∀ relations, tx.related epHash = .ok relations →
      (causalityCheck relations = .ok () ↔ ¬ CausalityViolated epHash tx.callNodes)) ∧
    (tx.sequencingCheck epHash = .ok () ↔ (∃ relations, tx.related epHash = .ok relations) ∧
      ¬ CausalityViolated epHash tx.callNodes) := by
  have part (relations : Relations) (ok : tx.related epHash = .ok relations) :
      causalityCheck relations = .ok () ↔ ¬ CausalityViolated epHash tx.callNodes := by
    obtain ⟨noted, adjacent⟩ := relatedNotes ok
    have covered {a b : CallNode} (edge : b ∈ listed relations.adjacencies a) :
        b ∈ relations.fallibleCalls ∨ b ∈ relations.guaranteedCalls := by
      have inside : b ∈ tx.callNodes.map Prod.fst := by
        rcases (adjacentGenerates adjacent).sound edge with calls | ⟨-, second, -⟩
        · obtain ⟨caller, callee, -, second, -⟩ := calls
          exact mem_map_of_mem second
        · exact second
      obtain ⟨⟨n, call⟩, mem, rfl⟩ := mem_map.mp inside
      rcases noted.covered mem with guaranteed | fallible
      · exact .inr ((noted.guaranteed n).mpr ⟨call, mem, guaranteed⟩)
      · exact .inl ((noted.fallible n).mpr ⟨call, mem, fallible⟩)
    rw [causalityCheckIff, (adjacentGenerates adjacent).crosses covered]
    simp only [CausalityViolated, noted.fallible, noted.guaranteed]
  refine ⟨part, ?_⟩
  constructor
  · intro ok
    obtain ⟨relations, related, passed⟩ := bindOk.mp ok
    exact ⟨⟨relations, related⟩, (part relations related).mp passed⟩
  · rintro ⟨⟨relations, related⟩, none⟩
    exact bindOk.mpr ⟨relations, related, (part relations related).mpr none⟩

open Option ContractAction LedgerState Transaction

section

variable (epHash : Bytes → HashOutput) (calls : List (ContractCall W))

def Invokes (claimed : ClaimedContractCallsValue × Bool) (i j : Nat) : Prop :=
  ∃ caller callee, calls[i]? = some caller ∧ claimed ∈ caller.claims ∧
    calls[j]? = some callee ∧ callee.key epHash = claimed.1.key

structure Sequenced : Prop where
  present : ∀ call ∈ calls, call.guaranteedTranscript.isSome ∨ call.fallibleTranscript.isSome
  later : ∀ {claimed i j}, Invokes epHash calls claimed i j → i < j
  ordered : ∀ {claimed sibling i j k}, Invokes epHash calls claimed i j →
    Invokes epHash calls sibling i k →
    (claimed.1.seq = sibling.1.seq → j = k) ∧ (claimed.1.seq < sibling.1.seq → j < k)
  contained : ∀ {claimed i j callee}, Invokes epHash calls claimed i j →
    calls[j]? = some callee → callee.transcript (!claimed.2) = none

end

variable {physical : Segment} {guaranteed : Bool} {position i : Nat}
  {caller : ContractCall W.shielded} {intent : Intent W.shielded}
  {claimed : ClaimedContractCallsValue}

section

variable {calls : List (ContractCall W)}

theorem memAsIndexed : entry ∈ asIndexed calls ↔ calls[entry.1]? = some entry.2 := by
  obtain ⟨i, call⟩ := entry
  simp only [asIndexed, List.mem_map, Prod.exists, Prod.swap_prod_mk, Prod.mk.injEq]
  constructor
  · rintro ⟨other, j, mem, rfl, rfl⟩
    exact mk_mem_zipIdx_iff_getElem?.mp mem
  · intro found
    exact ⟨call, i, mk_mem_zipIdx_iff_getElem?.mpr found, rfl, rfl⟩

theorem memCallLookup {key : CallKey} {j : Nat} :
    j ∈ listed (callLookup epHash (asIndexed calls)) key ↔
      ∃ callee, calls[j]? = some callee ∧ callee.key epHash = key := by
  rw [callLookup, memListedPushes, listedEmpty, or_iff_right not_mem_nil]
  simp only [List.mem_map, memAsIndexed, Prod.exists, Prod.mk.injEq]
  constructor
  · rintro ⟨i, callee, found, same, rfl⟩
    exact ⟨callee, found, same⟩
  · rintro ⟨callee, found, same⟩
    exact ⟨j, callee, found, same, rfl⟩

variable {subCalls : List SubCall} {address : ContractAddress}

theorem subCallOk {callee : Nat} {before after : List SubCall}
    (ok : subCall position call claimed before callee = .ok after) :
    position < callee ∧ after = before ++ [(callee, claimed.seq, claimed.address)] := by
  rw [subCall] at ok
  obtain ⟨later, ok⟩ := elseOk.mp ok
  cases ok
  exact ⟨not_le.mp later, rfl⟩

theorem callSequencingCheckOk {callLookup : Map CallKey (List Nat)}
    (ok : callSequencingCheck position call callLookup = .ok subCalls) :
    ∀ claimed ∈ call.claims, ∀ j ∈ listed callLookup claimed.1.key,
      position < j ∧ (j, claimed.1.seq, claimed.1.address) ∈ subCalls := by
  obtain ⟨later, same⟩ := foldlMGuarded _ _ (fun taken =>
    foldlMGuarded _ _ (fun taken => subCallOk taken) taken) ok
  simp only [foldl_append_eq_append, nil_append] at same
  intro claimed mem j callee
  refine ⟨later claimed mem j callee, ?_⟩
  rw [same]
  refine mem_flatten.mpr ⟨_, mem_map_of_mem mem, ?_⟩
  exact mem_flatten.mpr ⟨_, mem_map_of_mem callee, mem_singleton_self _⟩

def SubCall.Sooner (a b : SubCall) : Prop := a.2.1 < b.2.1 ∧ a.1 < b.1

theorem correlatedChain (ok : correlated address subCalls = .ok ()) :
    subCalls.IsChain SubCall.Sooner := by
  fun_induction correlated address subCalls with
  | case1 a b rest sooner ih => exact .cons_cons sooner (ih ok)
  | case2 a b rest sooner => cases ok
  | case3 subCalls short =>
    match subCalls with
    | [] => exact .nil
    | [a] => exact .singleton a
    | a :: b :: rest => exact absurd rfl (short a b rest)

instance : Trans SubCall.Sooner SubCall.Sooner SubCall.Sooner where
  trans first second := ⟨BitVec.lt_trans first.1 second.1, first.2.trans second.2⟩

theorem sequencingCorrelationCheckOk (ok : sequencingCorrelationCheck address subCalls = .ok ())
    {a b : SubCall} (first : a ∈ subCalls) (second : b ∈ subCalls) (different : a ≠ b) :
    a.Sooner b ∨ b.Sooner a := by
  have ordered := isChain_iff_pairwise.mp (correlatedChain ok)
  have symmetric : Std.Symm fun a b : SubCall => a.Sooner b ∨ b.Sooner a :=
    ⟨fun _ _ either => either.symm⟩
  have either := ordered.imp (S := fun a b : SubCall => a.Sooner b ∨ b.Sooner a) .inl
  exact either.forall (mem_insertionSort _ |>.mpr first) (mem_insertionSort _ |>.mpr second)
    different

theorem relateNodesPresent {after : Relations × Map CallKey (List (CallNode × Bool))}
    (ok : relateNodes segmentId relations (asIndexed calls) = .ok after) :
    ∀ call ∈ calls, call.guaranteedTranscript.isSome ∨ call.fallibleTranscript.isSome := by
  intro call mem
  obtain ⟨i, found⟩ := mem_iff_getElem?.mp mem
  obtain ⟨before, related, taken⟩ := runStepped ok (i, call) (memAsIndexed.mpr found)
  exact (relateNodeOk taken).1

theorem Contained.transcripts (contained : Contained epHash callers (asIndexed calls))
    (known : Callers ((asIndexed calls).map (nodeOf segmentId)) callers)
    {claimed : ClaimedContractCallsValue × Bool} {i j : Nat} {callee : ContractCall W}
    (invokes : Invokes epHash calls claimed i j) (found : calls[j]? = some callee) :
    callee.transcript (!claimed.2) = none := by
  obtain ⟨caller, other, here, claims, there, same⟩ := invokes
  cases found.symm.trans there
  have calling : (callNode segmentId (i, caller), claimed.2) ∈ listed callers (callee.key epHash) := by
    have indexed : (i, caller) ∈ asIndexed calls := memAsIndexed.mpr here
    exact (known _ _).mpr ⟨caller, claimed, mem_map_of_mem indexed, claims, same.symm, rfl⟩
  have within := contained (j, callee) (memAsIndexed.mpr found) _ calling
  cases half : claimed.2 <;> simpa [half, transcript] using within

theorem sequencingIntentOk {entry : Segment × Intent W} {before after : Relations}
    (ok : sequencingIntent epHash before entry = .ok after) : Sequenced epHash entry.2.calls := by
  obtain ⟨⟨⟩, each, rest⟩ := bindOk.mp ok
  obtain ⟨⟨relations, callers⟩, related, rest⟩ := bindOk.mp rest
  obtain ⟨adjacencies, contexts, -⟩ := bindOk.mp rest
  have checked (i : Nat) (caller : ContractCall W) (found : entry.2.calls[i]? = some caller) :
      ∃ subCalls, callSequencingCheck i caller (callLookup epHash (asIndexed entry.2.calls)) =
          .ok subCalls ∧ sequencingCorrelationCheck caller.address subCalls = .ok () :=
    bindOk.mp (forMOk.mp each (i, caller) (memAsIndexed.mpr found))
  refine ⟨relateNodesPresent related, ?_, ?_, fun invokes found =>
    (sequencingContextCheckOk contexts).1.transcripts (relateNodesCallers related) invokes found⟩
  · rintro claimed i j ⟨caller, callee, here, claims, there, same⟩
    obtain ⟨subCalls, sequenced, -⟩ := checked i caller here
    exact (callSequencingCheckOk sequenced claimed claims j
      (memCallLookup.mpr ⟨callee, there, same⟩)).1
  · rintro claimed sibling i j k ⟨caller, callee, here, claims, there, same⟩
      ⟨again, other, here', claims', there', same'⟩
    cases here.symm.trans here'
    obtain ⟨subCalls, sequenced, correlated⟩ := checked i caller here
    have subs := callSequencingCheckOk sequenced
    have first := (subs claimed claims j (memCallLookup.mpr ⟨callee, there, same⟩)).2
    have second := (subs sibling claims' k (memCallLookup.mpr ⟨other, there', same'⟩)).2
    constructor
    · intro equal
      by_contra apart
      have sooner := sequencingCorrelationCheckOk correlated first second
        fun one => apart (Prod.mk.inj one).1
      rw [equal] at sooner
      exact sooner.elim (fun less => BitVec.lt_irrefl _ less.1) fun less => BitVec.lt_irrefl _ less.1
    · intro less
      have sooner := sequencingCorrelationCheckOk correlated first second fun one => by
        rw [(Prod.mk.inj (Prod.mk.inj one).2).1] at less
        exact BitVec.lt_irrefl _ less
      exact sooner.elim (fun both => both.2) fun both => absurd (BitVec.lt_trans less both.1)
        (BitVec.lt_irrefl _)

theorem relatedSequenced {tx : StandardTransaction W} (ok : tx.related epHash = .ok relations)
    {segment : Segment} {intent : Intent W} (found : tx.intents.lookup segment = some intent) :
    Sequenced epHash intent.calls := by
  obtain ⟨before, after, taken⟩ := runStepped ok (segment, intent) (memSortedIter.mpr found)
  exact sequencingIntentOk taken

end

variable {claim : ClaimedContractCallsValue × Bool}

theorem memClaims : claim ∈ call.claims ↔ ∃ transcript, call.transcript claim.2 = some transcript ∧
      claim.1 ∈ transcript.effects.claimedContractCalls := by
  obtain ⟨claimed, guaranteed⟩ := claim
  simp only [claims, mem_append, mem_flatMap, mem_toList, List.mem_map, Prod.mk.injEq, transcript]
  cases guaranteed <;> simp

theorem transcriptTold {tx : StandardTransaction W} {intent : Intent W} {transcript : Transcript W}
    (found : tx.intents.lookup physical = some intent) (mem : call ∈ intent.calls)
    (declared : call.transcript guaranteed = some transcript) :
    ⟨physical, sectionOf guaranteed physical, call, transcript⟩ ∈ tx.transcripts := by
  have listed : (physical, call) ∈ tx.calls :=
    mem_flatMap.mpr ⟨(physical, intent), memSortedIter.mpr found, mem_map_of_mem mem⟩
  refine mem_flatMap.mpr ⟨(physical, call), listed, ?_⟩
  cases guaranteed with
  | true =>
    exact mem_append_left _ (mem_map.mpr ⟨transcript, mem_toList.mpr declared, rfl⟩)
  | false =>
    exact mem_append_right _ (mem_map.mpr ⟨transcript, mem_toList.mpr declared, rfl⟩)

section

variable {tx : StandardTransaction W.shielded}

theorem StandardTransaction.Claimed.invoked (claimed : tx.Claimed epHash)
    (found : tx.intents.lookup physical = some intent) (here : intent.calls[i]? = some caller)
    (claims : claim ∈ caller.claims) : ∃ j, Invokes epHash intent.calls claim i j := by
  obtain ⟨transcript, declared, mem⟩ := memClaims.mp claims
  have told := transcriptTold found (mem_of_getElem? here) declared
  have entry : (physical, claim.1.address, claim.1.entryPoint, claim.1.commitment) ∈ tx.claimedCalls :=
    Multiset.mem_coe.mpr (mem_flatMap.mpr ⟨_, told, mem_map_of_mem mem⟩)
  obtain ⟨⟨segment, callee⟩, real, same⟩ :=
    mem_map.mp (Multiset.mem_coe.mp (Multiset.mem_of_le claimed.calls entry))
  obtain ⟨⟨key, other⟩, stands, among⟩ := mem_flatMap.mp real
  obtain ⟨call, inside, pair⟩ := mem_map.mp among
  cases pair
  obtain ⟨rfl, address, entryPoint, commitment⟩ := by simpa only [Prod.mk.injEq] using same
  cases (memSortedIter.mp stands).symm.trans found
  obtain ⟨j, there⟩ := mem_iff_getElem?.mp inside
  refine ⟨j, caller, callee, here, claims, there, ?_⟩
  rw [ContractCall.key, address, entryPoint, commitment, ClaimedContractCallsValue.key]

theorem causalityOk {tx : StandardTransaction W} {intent : Intent W}
    (ok : tx.sequencingCheck epHash = .ok ()) (found : tx.intents.lookup physical = some intent)
    {j : Nat} {caller callee : ContractCall W} (here : intent.calls[i]? = some caller)
    (claims : claim ∈ caller.claims) (there : intent.calls[j]? = some callee)
    (same : callee.key epHash = claim.1.key) (fallible : caller.fallibleTranscript.isSome) :
    callee.guaranteedTranscript = none := by
  obtain ⟨relations, related, passed⟩ := bindOk.mp ok
  obtain ⟨noted, adjacent⟩ := relatedNotes related
  have node {k : Nat} {call : ContractCall W} (placed : intent.calls[k]? = some call) :
      (callNode physical (k, call), call) ∈ tx.callNodes := by
    have indexed : (k, call) ∈ asIndexed intent.calls := memAsIndexed.mpr placed
    exact mem_flatMap.mpr ⟨(physical, intent), memSortedIter.mpr found, mem_map_of_mem indexed⟩
  have edge := (adjacent (callNode physical (i, caller)) (callNode physical (j, callee))).mpr
    (.inr ⟨caller, callee, node here, node there, rfl, callsIff.mpr ⟨claim, claims, same.symm⟩⟩)
  by_contra some
  refine causalityCheckIff.mp passed ⟨_, _, edge, ?_, ?_⟩
  · exact (noted.fallible _).mpr ⟨caller, node here, fallible⟩
  · exact (noted.guaranteed _).mpr ⟨callee, node there, isSome_iff_ne_none.mpr some⟩

theorem claimsOneHalf (claimed : tx.Claimed epHash) (ok : tx.sequencingCheck epHash = .ok ())
    (found : tx.intents.lookup physical = some intent) {sibling : ClaimedContractCallsValue × Bool}
    (here : intent.calls[i]? = some caller) (claims : claim ∈ caller.claims)
    (siblings : sibling ∈ caller.claims) : sibling.2 = claim.2 := by
  obtain ⟨relations, related, -⟩ := bindOk.mp ok
  have sequenced := relatedSequenced related found
  have exclusive {first second : ClaimedContractCallsValue × Bool} (one : first ∈ caller.claims)
      (other : second ∈ caller.claims) (guaranteed : first.2 = true) : second.2 = true := by
    by_contra fallible
    rw [Bool.not_eq_true] at fallible
    obtain ⟨j, invokes⟩ := claimed.invoked found here one
    obtain ⟨again, callee, stands, -, there, same⟩ := id invokes
    obtain ⟨transcript, declared, -⟩ := memClaims.mp other
    rw [fallible] at declared
    have absent := causalityOk ok found here one there same (isSome_of_eq_some declared)
    have contained := sequenced.contained invokes there
    rw [guaranteed] at contained
    rcases sequenced.present callee (mem_of_getElem? there) with some | some
    · rw [absent] at some
      cases some
    · rw [show callee.fallibleTranscript = none from contained] at some
      cases some
  rw [Bool.eq_iff_iff]
  exact ⟨fun guaranteed => exclusive siblings claims guaranteed,
    fun guaranteed => exclusive claims siblings guaranteed⟩

end

def Checks.sequenced (C : Checks W) (epHash : Bytes → HashOutput)
    (reason : SequencingCheckError → W.Rejection) : Checks W :=
  { C with sequencingCheck := fun tx => (tx.sequencingCheck epHash).mapError reason }

/- The one callee of a claim: it stands after its caller, in the order of the sequence numbers
among all callees of the caller, and has its only transcript in the half of the claim. -/
structure OnlyCallee (epHash : Bytes → HashOutput) (intent : Intent W) (guaranteed : Bool)
    (i : Nat) (caller : ContractCall W) (claimed : ClaimedContractCallsValue) (j : Nat)
    (callee : ContractCall W) (transcript : Transcript W) : Prop where
  stands : intent.calls[j]? = some callee
  matching : callee.key epHash = claimed.key
  only : ∀ k other, intent.calls[k]? = some other → other.key epHash = claimed.key → k = j
  after : i < j
  declared : callee.transcript guaranteed = some transcript
  alone : callee.transcript (!guaranteed) = none
  siblings : ∀ sibling ∈ caller.claims, sibling.2 = guaranteed ∧
    ∀ k other, intent.calls[k]? = some other → other.key epHash = sibling.1.key →
      (claimed.seq < sibling.1.seq → j < k) ∧ (sibling.1.seq < claimed.seq → k < j)

section

variable {S : Services W.shielded} {C : Checks W.shielded} {build : Build}
  {unclaimed : EffectsCheckError → W.Rejection} {unordered : SequencingCheckError → W.Rejection}
  {reference state before after : LedgerState W.shielded} {strictness : WellFormedStrictness}
  {tblock : Timestamp} {evidence : W.Evidence} {stx : StandardTransaction W.shielded}
  {context : TransactionContext W.shielded} {transcript : Transcript W.shielded}

theorem onlyCallee (effects : stx.Claimed epHash) (order : stx.sequencingCheck epHash = .ok ())
    (found : stx.intents.lookup physical = some intent) (here : intent.calls[i]? = some caller)
    (claims : (claimed, guaranteed) ∈ caller.claims) :
    ∃ j callee transcript, OnlyCallee epHash intent guaranteed i caller claimed j callee transcript := by
  obtain ⟨relations, related, -⟩ := bindOk.mp order
  have sequenced := relatedSequenced related found
  obtain ⟨j, invokes⟩ := effects.invoked found here claims
  obtain ⟨again, callee, -, -, there, same⟩ := id invokes
  have alone := sequenced.contained invokes there
  have declared : ∃ transcript, callee.transcript guaranteed = some transcript := by
    refine ne_none_iff_exists'.mp fun absent => ?_
    have some := sequenced.present callee (mem_of_getElem? there)
    cases guaranteed <;> simp_all [transcript]
  obtain ⟨transcript, declared⟩ := declared
  refine ⟨j, callee, transcript, there, same, fun k other placed matching => ?_,
    sequenced.later invokes, declared, alone, fun sibling mem => ?_⟩
  · have also : Invokes epHash intent.calls (claimed, guaranteed) i k :=
      ⟨caller, other, here, claims, placed, matching⟩
    exact (sequenced.ordered also invokes).1 rfl
  · refine ⟨claimsOneHalf effects order found here claims mem, fun k other placed matching => ?_⟩
    have also : Invokes epHash intent.calls sibling i k :=
      ⟨caller, other, here, mem, placed, matching⟩
    exact ⟨(sequenced.ordered invokes also).2, (sequenced.ordered also invokes).2⟩

/- Whatever sections fail: when the section of a claiming transcript is applied and the context
admits its contract, the transcript ran, and the one callee runs in the same section where the
context admits the callee's contract. -/
theorem calleesApplied {vt : VerifiedTransaction W.shielded}
    (accepted : (standard stx).wellFormed S
      ((C.claiming epHash unclaimed).sequenced epHash unordered) reference strictness tblock
      evidence = .ok vt)
    (applies : SectionApplied S build stx vt.fees context state
      (sectionOf guaranteed physical) before after)
    (found : stx.intents.lookup physical = some intent) (here : intent.calls[i]? = some caller)
    (declared : caller.transcript guaranteed = some transcript)
    (admitted : whitelistMatches context.whitelist caller.address)
    (claims : claimed ∈ transcript.effects.claimedContractCalls) :
    ∃ comIndices moved,
      ActsOn S build stx context before physical intent comIndices moved guaranteed ∧
      RanAt S guaranteed context intent comIndices moved i caller transcript ∧ ∃ j callee called,
        OnlyCallee epHash intent guaranteed i caller claimed j callee called ∧
        (whitelistMatches context.whitelist callee.address →
          RanAt S guaranteed context intent comIndices moved j callee called) := by
  have body := (wellFormedOk accepted).2 stx rfl
  have effects := StandardTransaction.effectsCheckIff.mp (mapErrorOk.mp body.effects)
  have order : stx.sequencingCheck epHash = .ok () := mapErrorOk.mp body.sequencing
  have own := (body.intents physical intent found).ownSegment
  obtain ⟨comIndices, moved, reached, acts, acted⟩ :=
    sectionActs own found applies.section
  have mem : (claimed, guaranteed) ∈ caller.claims := memClaims.mpr ⟨transcript, declared, claims⟩
  obtain ⟨j, callee, called, only⟩ := onlyCallee effects order found here mem
  exact ⟨comIndices, moved, acts, actionsRanAt acted here admitted declared, j, callee, called, only,
    fun listed => actionsRanAt acted only.stands listed only.declared⟩

end

def calleeChecks : Checks shieldedComponents :=
  ((Checks.lenient shieldedComponents).claiming (fun _ => 0) fun _ => ()).sequenced (fun _ => 0)
    fun _ => ()

def twoContracts : LedgerState shieldedComponents :=
  value (Simulation.run (step shieldedServices .debug) shieldedGenesis
    [.transaction ⟨.standard deployment, 0, 0⟩ shieldedContext,
      .transaction ⟨.standard (intentOf none (.deploy ⟨⟨(), ∅, ⟨[], 1, 0⟩, ∅⟩, 22⟩) 7), 0, 0⟩
        shieldedContext]) (by decide +kernel)

def claimedCall : ClaimedContractCallsValue := ⟨0, ⟨22⟩, 0, 5⟩

def claimingTranscript : Transcript shieldedComponents :=
  ⟨{ Effects.default with claimedContractCalls := [claimedCall] }, ()⟩

def claimingCall : ContractCall shieldedComponents := ⟨⟨21⟩, [], none, some claimingTranscript, 0⟩

def calledCall : ContractCall shieldedComponents :=
  ⟨⟨22⟩, [], none, some ⟨Effects.default, ()⟩, 5⟩

def callingIntent : Intent shieldedComponents :=
  ⟨none, none, [.call claimingCall, .call calledCall], none, 9, ()⟩

def callingTransaction : StandardTransaction shieldedComponents :=
  ⟨"net", AList.singleton 1 callingIntent, none, ∅⟩

def callingVerified : VerifiedTransaction shieldedComponents :=
  value ((standard callingTransaction).wellFormed shieldedServices calleeChecks
    twoContracts .default 6 ()) (by decide +kernel)

def callingContext (whitelist : Whitelist) : TransactionContext shieldedComponents :=
  ⟨twoContracts, ⟨6, 0, 0, 0⟩, whitelist⟩

def callingSection (whitelist : Whitelist)
    (state : LedgerState shieldedComponents) (segment : Segment) :
    Applied shieldedComponents (LedgerState shieldedComponents) :=
  state.applySection shieldedServices .debug callingTransaction callingVerified.fees segment
    (callingContext whitelist)

theorem callingApplied {whitelist : Whitelist} {first after : LedgerState shieldedComponents}
    (started : callingSection whitelist twoContracts guaranteedSegment = .ok first)
    (ended : callingSection whitelist first 1 = .ok after) :
    SectionApplied shieldedServices .debug callingTransaction callingVerified.fees
      (callingContext whitelist) twoContracts (sectionOf false 1) first after := by
  have order : callingTransaction.fallibleSegments = [] ++ 1 :: [] := by decide
  exact .fallible started order rfl ended

def calledOpenly : LedgerState shieldedComponents :=
  value (callingSection none twoContracts guaranteedSegment) (by decide +kernel)

def calledUnlisted : LedgerState shieldedComponents :=
  value (callingSection (some [⟨21⟩]) twoContracts guaranteedSegment) (by decide +kernel)

theorem callingAccepted : (standard callingTransaction).wellFormed shieldedServices
    calleeChecks twoContracts .default 6 () = .ok callingVerified := valueOk _

theorem calleeRan :
    (callingIntent.calls = [claimingCall, calledCall] ∧
      claimedCall ∈ claimingTranscript.effects.claimedContractCalls) ∧
    ∃ before comIndices moved called,
      ActsOn shieldedServices .debug callingTransaction (callingContext none) before 1
        callingIntent comIndices moved false ∧
      RanAt shieldedServices false (callingContext none) callingIntent comIndices moved 0 claimingCall
        claimingTranscript ∧
      RanAt shieldedServices false (callingContext none) callingIntent comIndices moved 1 calledCall
        called := by
  have claims : claimedCall ∈ claimingTranscript.effects.claimedContractCalls := by decide
  refine ⟨⟨rfl, claims⟩, ?_⟩
  have started : callingSection none twoContracts guaranteedSegment = .ok calledOpenly := valueOk _
  have ended := valueOk (x := callingSection none calledOpenly 1) (by decide +kernel)
  have here : callingIntent.calls[0]? = some claimingCall := rfl
  obtain ⟨comIndices, moved, acts, ran, j, callee, called, only, follows⟩ :=
    calleesApplied callingAccepted (callingApplied started ended) rfl here rfl rfl claims
  have place : 1 = j := only.only 1 calledCall rfl (by decide)
  subst place
  have same : some calledCall = some callee := only.stands
  cases same
  exact ⟨_, comIndices, moved, called, acts, ran, follows rfl⟩

theorem calleePassedOver :
    (standard callingTransaction).wellFormed shieldedServices calleeChecks twoContracts
        .default 6 () = .ok callingVerified ∧
      (callingIntent.calls = [claimingCall, calledCall] ∧
        claimedCall ∈ claimingTranscript.effects.claimedContractCalls ∧
        calledCall.key (fun _ => 0) = claimedCall.key) ∧ ∃ before after comIndices moved,
        SectionApplied shieldedServices .debug callingTransaction callingVerified.fees
          (callingContext (some [⟨21⟩])) twoContracts 1 before after ∧
        ActsOn shieldedServices .debug callingTransaction
          (callingContext (some [⟨21⟩])) before 1 callingIntent comIndices moved false ∧
        RanAt shieldedServices false (callingContext (some [⟨21⟩])) callingIntent comIndices moved 0
          claimingCall claimingTranscript ∧
        ∀ position called, ¬ RanAt shieldedServices false (callingContext (some [⟨21⟩])) callingIntent
          comIndices moved position calledCall called := by
  refine ⟨callingAccepted, ⟨rfl, by decide, by decide⟩, ?_⟩
  have started : callingSection (some [⟨21⟩]) twoContracts guaranteedSegment = .ok calledUnlisted :=
    valueOk _
  have ended := valueOk (x := callingSection (some [⟨21⟩]) calledUnlisted 1) (by decide +kernel)
  have applies := callingApplied started ended
  have own : (1 : Segment) ≠ guaranteedSegment := by decide
  have found : callingTransaction.intents.lookup 1 = some callingIntent := rfl
  have here : callingIntent.calls[0]? = some claimingCall := rfl
  obtain ⟨comIndices, moved, reached, acts, acted⟩ :=
    sectionActs own found applies.section
  refine ⟨_, _, comIndices, moved, applies, acts, actionsRanAt acted here (by decide) rfl, ?_⟩
  rintro position called ⟨front, back, before, cstate, data, effects, -, -, admitted, -⟩
  have left : whitelistMatches (some [⟨21⟩]) calledCall.address = false := by decide
  cases left.symm.trans admitted

end MidnightLedger.Ledger

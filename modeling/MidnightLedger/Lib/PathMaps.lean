import Mathlib.Data.List.Lex
import Mathlib.Data.List.Nodup
import Mathlib.Data.List.Perm.Basic
import Mathlib.Logic.Function.Basic
import Mathlib.Order.Lattice

/-! Maps from paths over an alphabet to values, as tries hold them: a path may lead to a value
and to longer paths. -/
namespace PathMaps
open List Function Option

variable {α : Type}

section Paths

variable [DecidableEq α]

def stripPrefix : List α → List α → Option (List α)
  | [], q => some q
  | _ :: _, [] => none
  | a :: p, b :: q => if a = b then stripPrefix p q else none

theorem stripPrefixSome {p q r : List α} : stripPrefix p q = some r ↔ q = p ++ r := by
  induction p generalizing q with
  | nil => simp [stripPrefix]
  | cons a p ih =>
    cases q with
    | nil => simp [stripPrefix]
    | cons b q =>
      by_cases same : a = b
      · simp [stripPrefix, same, ih]
      · simp [stripPrefix, same, Ne.symm same]

@[simp] theorem stripPrefixSelf (p r : List α) : stripPrefix p (p ++ r) = some r :=
  stripPrefixSome.mpr rfl

theorem stripPrefixAppend (p s q : List α) :
    stripPrefix (p ++ s) q = (stripPrefix p q).bind (stripPrefix s) := by
  induction p generalizing q with
  | nil => rfl
  | cons a p ih =>
    cases q with
    | nil => rfl
    | cons b q =>
      by_cases same : a = b
      · simp [stripPrefix, same, ih]
      · simp [stripPrefix, same]

def commonPrefix : List α → List α → ℕ
  | a :: p, b :: q => if a = b then commonPrefix p q + 1 else 0
  | _, _ => 0

structure Parts (p q shared p' q' : List α) : Prop where
  left : p = shared ++ p'
  right : q = shared ++ q'
  length : shared.length = commonPrefix p q
  apart : ∀ x y r s, p' = x :: r → q' = y :: s → x ≠ y

theorem commonPrefixParts (p q : List α) : ∃ shared p' q', Parts p q shared p' q' := by
  induction p generalizing q with
  | nil => exact ⟨[], [], q, rfl, rfl, by cases q <;> rfl, nofun⟩
  | cons a p ih =>
    cases q with
    | nil => exact ⟨[], a :: p, [], rfl, rfl, rfl, nofun⟩
    | cons b q =>
      by_cases same : a = b
      · obtain ⟨shared, left, right, parts⟩ := ih q
        refine ⟨a :: shared, left, right, by rw [parts.left]; rfl, ?_, ?_, parts.apart⟩
        · rw [parts.right, same]
          rfl
        · rw [commonPrefix, if_pos same, ← parts.length, length_cons]
      · refine ⟨[], a :: p, b :: q, rfl, rfl, ?_, fun x y r s first second => ?_⟩
        · rw [commonPrefix, if_neg same, length_nil]
        · cases first
          cases second
          exact same

end Paths

def chunks (n : ℕ) : List α → List (List α)
  | [] => []
  | x :: l => (x :: l).take (n + 1) :: chunks n ((x :: l).drop (n + 1))
termination_by l => l.length

theorem chunksCons (n : ℕ) {l : List α} (some : l ≠ []) :
    chunks n l = l.take (n + 1) :: chunks n (l.drop (n + 1)) := by
  cases l with
  | nil => exact absurd rfl some
  | cons x l => rw [chunks]

variable {V : Type}

abbrev PathMap (α V : Type) := List α → Option V

variable {m : PathMap α V} {ms : α → PathMap α V}

namespace PathMap

def blank : PathMap α V := fun _ => none

variable [DecidableEq α] {m' : PathMap α V} {p q : List α}

def put (m : PathMap α V) (p : List α) (v : Option V) : PathMap α V := Function.update m p v

def shift (p : List α) (m : PathMap α V) : PathMap α V := fun q => (stripPrefix p q).bind m

def fork (ms : α → PathMap α V) : PathMap α V
  | [] => .none
  | x :: q => ms x q

theorem putAbsent (absent : m p = .none) : put m p .none = m := by
  rw [put, ← absent, update_eq_self]

theorem putTwice (v w : Option V) : put (put m p v) p w = put m p w := update_idem ..

theorem putComm (other : p ≠ q) (v w : Option V) : put (put m p v) q w = put (put m q w) p v :=
  (update_comm other v w m : Function.update (Function.update m p v) q w = _)

@[simp] theorem shiftBlank (p : List α) : shift p (blank : PathMap α V) = blank :=
  funext fun q => by cases stripped : stripPrefix p q <;> simp [shift, stripped, blank]

theorem shiftAppend (p s : List α) (m : PathMap α V) : shift (p ++ s) m = shift p (shift s m) := by
  funext q
  rw [shift, stripPrefixAppend, bind_assoc]
  rfl

theorem shiftAt (p r : List α) (m : PathMap α V) : shift p m (p ++ r) = m r := by
  rw [shift, stripPrefixSelf, bind_some]

theorem shiftElsewhere (p : List α) (m : PathMap α V) {q : List α} (other : stripPrefix p q = .none) :
    shift p m q = .none := by
  rw [shift, other, bind_none]

theorem shiftSome {v : V} : shift p m q = some v ↔ ∃ r, q = p ++ r ∧ m r = some v := by
  simp only [shift, bind_eq_some_iff, stripPrefixSome]

theorem eqShift {n : PathMap α V} (inside : ∀ r, n (p ++ r) = m r)
    (outside : ∀ q, stripPrefix p q = .none → n q = .none) : n = shift p m := by
  funext q
  cases stripped : stripPrefix p q with
  | none => rw [outside q stripped, shiftElsewhere p m stripped]
  | some r =>
    cases stripPrefixSome.mp stripped
    rw [inside, shiftAt]

theorem putShift (p q : List α) (m : PathMap α V) (v : Option V) :
    put (shift p m) (p ++ q) v = shift p (put m q v) := by
  refine eqShift (fun r => ?_) fun other stripped => ?_
  · by_cases same : r = q
    · rw [same, put, put, update_self, update_self]
    · have apart : p ++ r ≠ p ++ q := fun equal => same (append_cancel_left equal)
      rw [put, put, update_of_ne apart, update_of_ne same, shiftAt]
  · have apart : other ≠ p ++ q := fun equal => by
      rw [equal, stripPrefixSelf] at stripped
      cases stripped
    rw [put, update_of_ne apart, shiftElsewhere p m stripped]

theorem putFork (ms : α → PathMap α V) (x : α) (q : List α) (v : Option V) :
    put (fork ms) (x :: q) v = fork (Function.update ms x (put (ms x) q v)) := by
  funext other
  cases other with
  | nil => exact update_of_ne (cons_ne_nil x q).symm ..
  | cons y r =>
    by_cases letter : y = x
    · subst letter
      rw [fork, update_self]
      by_cases same : r = q
      · rw [same, put, put, update_self, update_self]
      · have apart : y :: r ≠ y :: q := fun equal => same (cons.inj equal).2
        rw [put, put, update_of_ne apart, update_of_ne same, fork]
    · have apart : y :: r ≠ x :: q := fun equal => letter (cons.inj equal).1
      rw [put, fork, update_of_ne apart, update_of_ne letter, fork]

theorem forkOnly {x : α} (only : ∀ y, y ≠ x → ms y = blank) : fork ms = shift [x] (ms x) := by
  refine eqShift (fun r => rfl) fun q stripped => ?_
  cases q with
  | nil => rfl
  | cons y q =>
    have other : y ≠ x := fun same => by
      rw [same] at stripped
      simp [stripPrefix] at stripped
    rw [fork, only y other]
    rfl

end PathMap

section Pruning

variable [DecidableEq α] [LinearOrder α]

theorem appendLt (p r t : List α) : p ++ r < t ↔
    p < t.take p.length ∨ p = t.take p.length ∧ r < t.drop p.length := by
  induction p generalizing t with
  | nil => simp
  | cons a p ih =>
    cases t with
    | nil => simp
    | cons b t =>
      rw [cons_append, cons_lt_cons_iff, ih, length_cons, take_succ_cons,
        drop_succ_cons, cons_lt_cons_iff, cons.injEq]
      tauto

@[simp] theorem appendLtAppend (p r t : List α) : p ++ r < p ++ t ↔ r < t := by
  simp [appendLt]

theorem ltAppendCons (p : List α) (x : α) (r : List α) : p < p ++ x :: r := by
  have longer := (appendLtAppend p [] (x :: r)).mpr (nil_lt_cons x r)
  rwa [append_nil] at longer

namespace PathMap

def prune (m : PathMap α V) (t : List α) : PathMap α V := fun q => if q < t then .none else m q

theorem pruneNil (m : PathMap α V) : prune m [] = m :=
  funext fun q => if_neg (not_lt_nil q)

theorem pruneBlank (t : List α) : prune (blank : PathMap α V) t = blank :=
  funext fun _ => by simp [prune, blank]

variable {t : List α}

theorem pruneNothing (nothing : ∀ q, q < t → m q = .none) : prune m t = m := by
  funext q
  rw [prune]
  split
  · exact (nothing q ‹_›).symm
  · rfl

theorem pruneRoot (m : PathMap α V) (v : Option V) (some : t ≠ []) :
    prune (put m [] v) t = prune m t := by
  funext q
  cases q with
  | nil =>
    cases t with
    | nil => exact absurd rfl some
    | cons x t => rw [prune, prune, if_pos (nil_lt_cons x t), if_pos (nil_lt_cons x t)]
  | cons x q => rw [prune, prune, put, update_of_ne (cons_ne_nil x q)]

theorem pruneFork (ms : α → PathMap α V) (x : α) (t : List α) :
    prune (fork ms) (x :: t) = fork fun y =>
      if y < x then blank else if y = x then prune (ms y) t else ms y := by
  funext q
  cases q with
  | nil => exact if_pos (nil_lt_cons x t)
  | cons y q =>
    have order := @cons_lt_cons_iff _ _ y x q t
    rw [prune, fork, fork]
    rcases lt_trichotomy y x with less | same | more
    · rw [if_pos (order.mpr (.inl less)), if_pos less]
      rfl
    · rw [if_neg same.not_lt, if_pos same, prune, if_congr order rfl rfl]
      simp [same]
    · rw [if_neg more.not_gt, if_neg more.ne', if_neg]
      rw [order]
      simp [more.not_gt, more.ne']

theorem pruneShift (p t : List α) (m : PathMap α V) : prune (shift p m) t =
    if p < t.take p.length then blank
    else if p = t.take p.length then shift p (prune m (t.drop p.length))
    else shift p m := by
  have absent : ∀ q, stripPrefix p q = .none → prune (shift p m) t q = .none := by
    intro q stripped
    rw [prune, shiftElsewhere p m stripped, ite_self]
  split
  · rename_i less
    rw [← shiftBlank p]
    refine eqShift (fun r => ?_) absent
    rw [prune, if_pos ((appendLt p r t).mpr (.inl less))]
    rfl
  · rename_i more
    split
    · rename_i same
      refine eqShift (fun r => ?_) absent
      rw [prune, prune, shiftAt, if_congr (appendLt p r t) rfl rfl]
      simp [← same]
    · rename_i other
      refine eqShift (fun r => ?_) absent
      rw [prune, shiftAt, if_neg]
      rw [appendLt]
      tauto

end PathMap

end Pruning

open PathMap

variable {letters : List α}

section Listing

variable [LinearOrder α]

/- Paths in the order of their letters, with longer paths before their beginnings. -/
def Precedes : List α → List α → Prop
  | [], _ => False
  | _ :: _, [] => True
  | x :: p, y :: q => x < y ∨ x = y ∧ Precedes p q

theorem precedesIrrefl (p : List α) : ¬ Precedes p p := by
  induction p with
  | nil => exact id
  | cons x p ih => simp [Precedes, ih]

theorem precedesAsymm {p q : List α} (before : Precedes p q) : ¬ Precedes q p := by
  induction p generalizing q with
  | nil => cases before
  | cons x p ih =>
    cases q with
    | nil => exact id
    | cons y q =>
      rcases before with less | ⟨same, before⟩
      · rintro (more | ⟨same, -⟩)
        · exact absurd more less.not_gt
        · exact absurd same less.ne'
      · rintro (more | ⟨-, after⟩)
        · exact absurd same more.ne'
        · exact ih before after

theorem precedesAppend (s p q : List α) : Precedes (s ++ p) (s ++ q) ↔ Precedes p q := by
  induction s with
  | nil => rfl
  | cons x s ih => simp [Precedes, ih]

structure Listing (m : PathMap α V) (entries : List (List α × V)) : Prop where
  ordered : entries.Pairwise fun a b => Precedes a.1 b.1
  complete : ∀ p v, (p, v) ∈ entries ↔ m p = some v

variable {entries es : List (List α × V)}

theorem Listing.nodup (listing : Listing m entries) : entries.Nodup := by
  refine listing.ordered.imp fun {a b} before same => ?_
  rw [same] at before
  exact precedesIrrefl _ before

theorem Listing.unique {others : List (List α × V)} (first : Listing m entries)
    (second : Listing m others) : entries = others := by
  have perm : entries.Perm others := (perm_ext_iff_of_nodup first.nodup second.nodup).mpr
    fun ⟨p, v⟩ => (first.complete p v).trans (second.complete p v).symm
  exact perm.eq_of_pairwise (fun a b _ _ before after => absurd after (precedesAsymm before))
    first.ordered second.ordered

theorem listingBlank : Listing (blank : PathMap α V) [] := ⟨.nil, fun _ _ => by simp [blank]⟩

theorem listingFork (ordered : letters.Pairwise (· < ·)) (every : ∀ x, x ∈ letters)
    {es : α → List (List α × V)} (each : ∀ x, Listing (ms x) (es x)) :
    Listing (fork ms) (letters.flatMap fun x => (es x).map fun e => (x :: e.1, e.2)) := by
  refine ⟨pairwise_flatMap.mpr ⟨fun x _ => ?_, ordered.imp fun {x y} less a ha b hb => ?_⟩,
    fun p v => ?_⟩
  · refine pairwise_map.mpr ((each x).ordered.imp fun before => ?_)
    exact .inr ⟨rfl, before⟩
  · obtain ⟨e, -, rfl⟩ := mem_map.mp ha
    obtain ⟨f, -, rfl⟩ := mem_map.mp hb
    exact .inl less
  · rw [mem_flatMap]
    cases p with
    | nil => simp [fork]
    | cons y p =>
      rw [fork, ← (each y).complete]
      refine ⟨fun ⟨x, _, mem⟩ => ?_, fun mem => ⟨y, every y, mem_map_of_mem mem⟩⟩
      obtain ⟨e, inside, same⟩ := mem_map.mp mem
      cases same
      exact inside

variable [DecidableEq α]

theorem listingShift (p : List α) (listing : Listing m es) :
    Listing (shift p m) (es.map fun e => (p ++ e.1, e.2)) := by
  refine ⟨pairwise_map.mpr (listing.ordered.imp (precedesAppend p _ _).mpr), fun q v => ?_⟩
  rw [shift, bind_eq_some_iff, List.mem_map]
  constructor
  · rintro ⟨⟨r, w⟩, mem, same⟩
    cases same
    exact ⟨r, stripPrefixSelf p r, (listing.complete r w).mp mem⟩
  · rintro ⟨r, stripped, found⟩
    exact ⟨(r, v), (listing.complete r v).mpr found, by rw [stripPrefixSome.mp stripped]⟩

theorem listingRoot (listing : Listing m es) (absent : m [] = none) (v : V) :
    Listing (put m [] (some v)) (es ++ [([], v)]) := by
  refine ⟨pairwise_append.mpr ⟨listing.ordered, pairwise_singleton .., fun e mem f last => ?_⟩,
    fun p w => ?_⟩
  · rw [mem_singleton.mp last]
    obtain ⟨p, w⟩ := e
    cases p with
    | nil =>
      have found := (listing.complete [] w).mp mem
      rw [absent] at found
      cases found
    | cons x p => trivial
  · rw [mem_append, listing.complete, mem_singleton, Prod.mk.injEq, put]
    by_cases root : p = []
    · subst root
      rw [absent, update_self]
      simp [eq_comm]
    · rw [update_of_ne root]
      simp [root]

end Listing

section Greatest

theorem findSomeFirst [DecidableEq α] {x : α} {xs : List α} (apart : x ∉ xs) {f : α → Option V}
    {found : Option V} :
    found.or (xs.findSome? f) = (x :: xs).findSome? (Function.update f x found) := by
  have rest : xs.findSome? (Function.update f x found) = xs.findSome? f := by
    induction xs with
    | nil => rfl
    | cons y xs ih =>
      rw [mem_cons, not_or] at apart
      rw [findSome?_cons, findSome?_cons, ih apart.2, update_of_ne (Ne.symm apart.1)]
  rw [findSome?_cons, update_self, rest]
  cases found <;> rfl

variable [LinearOrder α]

def Greatest (P : List α → Prop) (m : PathMap α V) : Option (List α × V) → Prop
  | none => ∀ q v, P q → m q ≠ some v
  | some (q, v) => P q ∧ m q = some v ∧ ∀ r w, P r → m r = some w → r ≤ q

variable {P Q : List α → Prop} {found : Option (List α × V)}

theorem greatestCongr (same : ∀ q v, m q = some v → (P q ↔ Q q)) (best : Greatest P m found) :
    Greatest Q m found := by
  cases found with
  | none => exact fun q v inside stored => best q v ((same q v stored).mpr inside) stored
  | some found =>
    obtain ⟨inside, stored, most⟩ := best
    exact ⟨(same _ _ stored).mp inside, stored,
      fun r w inside stored => most r w ((same r w stored).mpr inside) stored⟩

variable [DecidableEq α] {e : List α}

theorem greatestBlank : Greatest P (shift e (blank : PathMap α V)) none := by
  rw [shiftBlank]
  exact fun _ _ _ => nofun

theorem greatestRoot {v : V} (inside : P e) (absent : m [] = none)
    (best : Greatest P (shift e m) found) :
    Greatest P (shift e (put m [] (some v))) (found.or (some (e, v))) := by
  have entry : ∀ q w, shift e (put m [] (some v)) q = some w ↔
      q = e ∧ v = w ∨ shift e m q = some w := by
    intro q w
    have here := shiftAt e [] m
    rw [append_nil, absent] at here
    rw [← putShift, append_nil, put]
    by_cases root : q = e
    · rw [root, update_self, here]
      simp
    · rw [update_of_ne root]
      simp [root]
  cases found with
  | none =>
    refine ⟨inside, (entry e v).mpr (.inl ⟨rfl, rfl⟩), fun r w inside stored => ?_⟩
    rcases (entry r w).mp stored with ⟨root, -⟩ | old
    · exact root.le
    · exact absurd old (best r w inside)
  | some found =>
    obtain ⟨q, w⟩ := found
    obtain ⟨inside, stored, most⟩ := best
    refine ⟨inside, (entry q w).mpr (.inr stored), fun r u inside new => ?_⟩
    rcases (entry r u).mp new with ⟨rfl, -⟩ | old
    · obtain ⟨s, rfl, -⟩ := shiftSome.mp stored
      exact not_lt.mp (by simp [appendLt])
    · exact most r u inside old

theorem greatestFork (falling : letters.Pairwise (· > ·))
    {f : α → Option (List α × V)} (each : ∀ x ∈ letters, Greatest P (shift (e ++ [x]) (ms x)) (f x))
    (others : ∀ y ∉ letters, ∀ r w, P (e ++ y :: r) → ms y r ≠ some w) :
    Greatest P (shift e (fork ms)) (letters.findSome? f) := by
  have letter : ∀ q w, shift e (fork ms) q = some w → ∃ y r, q = e ++ y :: r ∧ ms y r = some w := by
    intro q w stored
    obtain ⟨r, rfl, inner⟩ := shiftSome.mp stored
    cases r with
    | nil => cases inner
    | cons y r => exact ⟨y, r, rfl, inner⟩
  have under : ∀ y r, shift (e ++ [y]) (ms y) (e ++ y :: r) = ms y r := by
    intro y r
    have here := shiftAt (e ++ [y]) r (ms y)
    rwa [← append_cons] at here
  induction letters with
  | nil =>
    intro q w inside stored
    obtain ⟨y, r, rfl, inner⟩ := letter q w stored
    exact others y not_mem_nil r w inside inner
  | cons x letters ih =>
    have best := each x mem_cons_self
    rw [findSome?_cons]
    cases first : f x with
    | none =>
      rw [first] at best
      refine ih falling.of_cons (fun y mem => each y (mem_cons_of_mem x mem)) ?_
      intro y apart r w inside
      by_cases same : y = x
      · rw [same] at inside ⊢
        rw [← under x r]
        exact best _ w inside
      · exact others y (by simp [same, apart]) r w inside
    | some found =>
      rw [first] at best
      obtain ⟨inside, stored, most⟩ := best
      obtain ⟨s, path, inner⟩ := shiftSome.mp stored
      refine ⟨inside, shiftSome.mpr ⟨x :: s, by simp [path], inner⟩, fun r w inside stored => ?_⟩
      obtain ⟨y, r, rfl, held⟩ := letter r w stored
      by_cases mem : y ∈ x :: letters
      · rcases mem_cons.mp mem with same | later
        · rw [same] at inside held ⊢
          exact most _ w inside ((under x r).trans held)
        · have less : y < x := (pairwise_cons.mp falling).1 y later
          rw [path]
          exact le_of_lt (by simp [cons_lt_cons_iff, less])
      · exact absurd held (others y mem r w inside)

end Greatest

end PathMaps

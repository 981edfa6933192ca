import Mathlib.Data.List.Sort
import Mathlib.Data.List.Dedup

/-! Finite sets as increasing lists. -/
namespace Listings
open List

instance disjointDecidable {α : Type} [DecidableEq α] (xs ys : List α) :
    Decidable (xs.Disjoint ys) :=
  decidable_of_iff (∀ x ∈ xs, x ∉ ys) Iff.rfl

variable {α : Type} [LinearOrder α]

def sorted (xs : List α) : List α := xs.insertionSort (· ≤ ·)

def listing (xs : List α) : List α := sorted xs.dedup

variable {xs ys : List α} {x : α}

@[simp] theorem memSorted : x ∈ sorted xs ↔ x ∈ xs := mem_insertionSort _

@[simp] theorem memListing : x ∈ listing xs ↔ x ∈ xs := by
  rw [listing, memSorted, mem_dedup]

theorem disjointListing : (listing xs).Disjoint (listing ys) ↔ xs.Disjoint ys := by
  simp only [List.Disjoint, memListing]

theorem sortedPairwise (xs : List α) : (sorted xs).Pairwise (· ≤ ·) := pairwise_insertionSort _ xs

theorem sortedPerm (xs : List α) : (sorted xs).Perm xs := perm_insertionSort _ xs

theorem sortedIncreasing (nodup : xs.Nodup) : (sorted xs).Pairwise (· < ·) := by
  have distinct : (sorted xs).Nodup := (sortedPerm xs).nodup_iff.mpr nodup
  exact ((sortedPairwise xs).and distinct).imp fun both => lt_of_le_of_ne both.1 both.2

theorem pairwiseOfKeys {κ : Type} [LinearOrder κ] {key : α → κ} (mono : Monotone key)
    (ordered : xs.Pairwise (· ≤ ·)) (distinct : (xs.map key).Nodup) (same : ys.map key = xs.map key) :
    ys.Pairwise (· ≤ ·) := by
  have increasing : (ys.map key).Pairwise (· < ·) := by
    rw [same]
    have below : (xs.map key).Pairwise (· ≤ ·) := pairwise_map.mpr (ordered.imp fun le => mono le)
    exact (below.and distinct).imp fun both => lt_of_le_of_ne both.1 both.2
  exact (pairwise_map.mp increasing).imp fun less => (mono.reflect_lt less).le

theorem listingIncreasing (xs : List α) : (listing xs).Pairwise (· < ·) :=
  sortedIncreasing xs.nodup_dedup

theorem listingNodup (xs : List α) : (listing xs).Nodup :=
  (listingIncreasing xs).imp fun less => ne_of_lt less

theorem increasingUnique (left : xs.Pairwise (· < ·)) (right : ys.Pairwise (· < ·))
    (same : ∀ x, x ∈ xs ↔ x ∈ ys) : xs = ys := by
  have distinct : ∀ {zs : List α}, zs.Pairwise (· < ·) → zs.Nodup :=
    fun increasing => increasing.imp fun less => ne_of_lt less
  have perm : xs.Perm ys := (perm_ext_iff_of_nodup (distinct left) (distinct right)).mpr same
  exact perm.eq_of_pairwise (fun a b _ _ less more => absurd less (lt_asymm more)) left right

def union (xs ys : List α) : List α := sorted (listing xs ++ listing ys)

theorem memUnion : x ∈ union xs ys ↔ x ∈ xs ∨ x ∈ ys := by
  rw [union, memSorted, mem_append, memListing, memListing]

theorem unionPerm (left : xs.Nodup) (right : ys.Nodup) : (union xs ys).Perm (xs ++ ys) := by
  have listed : ∀ {zs : List α}, zs.Nodup → (listing zs).Perm zs := by
    intro zs nodup
    rw [listing, nodup.dedup]
    exact sortedPerm zs
  exact (sortedPerm _).trans ((listed left).append (listed right))

theorem unionIncreasing (disjoint : xs.Disjoint ys) : (union xs ys).Pairwise (· < ·) := by
  refine sortedIncreasing (nodup_append.mpr ⟨listingNodup xs, listingNodup ys, ?_⟩)
  intro a left b right same
  exact disjoint (memListing.mp left) (same ▸ memListing.mp right)

theorem unionComm (disjoint : xs.Disjoint ys) : union xs ys = union ys xs := by
  refine increasingUnique (unionIncreasing disjoint) (unionIncreasing disjoint.symm) fun x => ?_
  rw [memUnion, memUnion, or_comm]

theorem unionAssoc {zs : List α} (left : (union xs ys).Disjoint zs)
    (right : xs.Disjoint (union ys zs)) : union (union xs ys) zs = union xs (union ys zs) := by
  refine increasingUnique (unionIncreasing left) (unionIncreasing right) fun x => ?_
  rw [memUnion, memUnion, memUnion, memUnion, or_assoc]

end Listings

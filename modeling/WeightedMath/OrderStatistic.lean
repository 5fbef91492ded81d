/-
WeightedMath/OrderStatistic.lean

Order statistics of a list, read off a sorted copy.

The element at index `k` of a sorted copy is one that at most `k` elements are
below and at most `length - 1 - k` are above (`rank`).  The two counts say it of
the list itself, whatever sort has been used and in whatever order equal
elements came out.
-/
import Mathlib

namespace OrderStatistic

variable {α : Type*} [LinearOrder α]

section Sorted

variable {xs : List α} {k : ℕ}

/-- What stands before an element of a sorted list is no larger, what stands
after it no smaller. -/
theorem sorted_split (h : xs.Pairwise (· ≤ ·)) (hk : k < xs.length) :
    (∀ x ∈ xs.take k, x ≤ xs[k]) ∧ ∀ x ∈ xs.drop (k + 1), xs[k] ≤ x := by
  have hsplit := List.take_append_drop k xs
  rw [List.drop_eq_getElem_cons hk] at hsplit
  rw [← hsplit, List.pairwise_append] at h
  obtain ⟨-, hdrop, hcross⟩ := h
  constructor
  · intro x hx
    exact hcross x hx _ List.mem_cons_self
  · intro x hx
    exact (List.pairwise_cons.mp hdrop).1 x hx

theorem countP_lt_le (h : xs.Pairwise (· ≤ ·)) (hk : k < xs.length) :
    xs.countP (fun x => decide (x < xs[k])) ≤ k := by
  obtain ⟨-, hafter⟩ := sorted_split h hk
  have hnone : (xs.drop k).countP (fun x => decide (x < xs[k])) = 0 := by
    rw [List.countP_eq_zero, List.drop_eq_getElem_cons hk]
    intro x hx
    rcases List.mem_cons.mp hx with rfl | hx
    · simp
    · simpa using hafter x hx
  calc xs.countP (fun x => decide (x < xs[k]))
      = (xs.take k ++ xs.drop k).countP (fun x => decide (x < xs[k])) := by
        rw [List.take_append_drop]
    _ = (xs.take k).countP (fun x => decide (x < xs[k])) := by
        rw [List.countP_append, hnone, Nat.add_zero]
    _ ≤ (xs.take k).length := List.countP_le_length
    _ ≤ k := List.length_take_le k xs

theorem countP_gt_le (h : xs.Pairwise (· ≤ ·)) (hk : k < xs.length) :
    xs.countP (fun x => decide (xs[k] < x)) ≤ xs.length - 1 - k := by
  obtain ⟨hbefore, -⟩ := sorted_split h hk
  have hnone : (xs.take (k + 1)).countP (fun x => decide (xs[k] < x)) = 0 := by
    rw [List.countP_eq_zero, List.take_succ_eq_append_getElem hk]
    intro x hx
    rcases List.mem_append.mp hx with hx | hx
    · simpa using hbefore x hx
    · obtain rfl := List.mem_singleton.mp hx
      simp
  calc xs.countP (fun x => decide (xs[k] < x))
      = (xs.take (k + 1) ++ xs.drop (k + 1)).countP (fun x => decide (xs[k] < x)) := by
        rw [List.take_append_drop]
    _ = (xs.drop (k + 1)).countP (fun x => decide (xs[k] < x)) := by
        rw [List.countP_append, hnone, Nat.zero_add]
    _ ≤ (xs.drop (k + 1)).length := List.countP_le_length
    _ = xs.length - 1 - k := by
        rw [List.length_drop]
        omega

end Sorted

/-- `v` is the element of rank `k`. -/
structure IsRank (xs : List α) (k : ℕ) (v : α) : Prop where
  mem : v ∈ xs
  below : xs.countP (fun x => decide (x < v)) ≤ k
  above : xs.countP (fun x => decide (v < x)) ≤ xs.length - 1 - k

/-- **A sorted copy holds the elements by rank.** -/
theorem rank {xs sorted : List α} {k : ℕ} (hperm : sorted.Perm xs)
    (hsorted : sorted.Pairwise (· ≤ ·)) (hk : k < sorted.length) : IsRank xs k sorted[k] where
  mem := hperm.mem_iff.mp (List.getElem_mem hk)
  below := by
    rw [← hperm.countP_eq]
    exact countP_lt_le hsorted hk
  above := by
    rw [← hperm.countP_eq, ← hperm.length_eq]
    exact countP_gt_le hsorted hk

section Rank

variable {xs : List α} {v : α}

/-- Nothing is below the first. -/
theorem IsRank.le (h : IsRank xs 0 v) {x : α} (hx : x ∈ xs) : v ≤ x := by
  by_contra hlt
  have hnone := List.countP_eq_zero.mp (Nat.le_zero.mp h.below) x hx
  exact hnone (decide_eq_true (not_le.mp hlt))

/-- Nothing is above the last. -/
theorem IsRank.ge (h : IsRank xs (xs.length - 1) v) {x : α} (hx : x ∈ xs) : x ≤ v := by
  by_contra hlt
  have habove := h.above
  rw [Nat.sub_self] at habove
  have hnone := List.countP_eq_zero.mp (Nat.le_zero.mp habove) x hx
  exact hnone (decide_eq_true (not_le.mp hlt))

end Rank

end OrderStatistic

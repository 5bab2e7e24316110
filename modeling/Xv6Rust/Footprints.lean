import Mathlib

/-!
# Footprints

How many elements a list has that are new. A program that records what it touches in a list adds
to it a few elements of its own, and otherwise elements of a set that is known beforehand; the
few add up, whatever is touched again.
-/

namespace Xv6Rust.Footprints

variable {α : Type*} [DecidableEq α] {S T : Finset α} {m n : ℕ} {a : α} {p q r : List α}

/-- `q` has at most `n` elements that are neither in `p` nor in `S`. -/
def Adds (S : Finset α) (n : ℕ) (p q : List α) : Prop :=
  (q.toFinset\(p.toFinset ∪ S)).card ≤ n

theorem Adds.refl (S : Finset α) (p : List α) : Adds S 0 p p := by
  have hempty : p.toFinset\(p.toFinset ∪ S)=∅ := Finset.sdiff_eq_empty_iff_subset.mpr
    Finset.subset_union_left
  rw [Adds,hempty,Finset.card_empty]

/-- What is added twice counts once. -/
theorem Adds.trans (h : Adds S m p q) (h' : Adds S n q r) : Adds S (m+n) p r := by
  have hsub : r.toFinset\(p.toFinset ∪ S) ⊆
      q.toFinset\(p.toFinset ∪ S) ∪ r.toFinset\(q.toFinset ∪ S) := by
    intro x hx
    simp only [Finset.mem_sdiff,Finset.mem_union] at hx ⊢
    tauto
  exact (Finset.card_le_card hsub).trans ((Finset.card_union_le ..).trans (Nat.add_le_add h h'))

theorem Adds.mono (h : Adds S m p q) (hS : S ⊆ T) (hn : m ≤ n) : Adds T n p q :=
  (Finset.card_le_card (Finset.sdiff_subset_sdiff (le_refl _)
    (Finset.union_subset_union_right hS))).trans (le_trans h hn)

/-- An element that is known beforehand does not count. -/
theorem Adds.known (h : Adds S n p q) (ha : a∈S) : Adds S n p (a::q) := by
  have hsame : (a::q).toFinset\(p.toFinset ∪ S)=q.toFinset\(p.toFinset ∪ S) := by
    rw [List.toFinset_cons,Finset.insert_sdiff_of_mem _ (Finset.mem_union_right _ ha)]
  rw [Adds,hsame]
  exact h

theorem Adds.cons (h : Adds S n p q) (a : α) : Adds S (n+1) p (a::q) := by
  have hsub : (a::q).toFinset\(p.toFinset ∪ S) ⊆ insert a (q.toFinset\(p.toFinset ∪ S)) := by
    intro x hx
    simp only [List.toFinset_cons,Finset.mem_sdiff,Finset.mem_insert] at hx ⊢
    tauto
  exact (Finset.card_le_card hsub).trans ((Finset.card_insert_le ..).trans (Nat.succ_le_succ h))

/-- An element of the set may as well be counted. -/
theorem Adds.count (h : Adds (insert a S) n p q) : Adds S (n+1) p q := by
  have hsub : q.toFinset\(p.toFinset ∪ S) ⊆ insert a (q.toFinset\(p.toFinset ∪ insert a S)) := by
    intro x hx
    simp only [Finset.mem_sdiff,Finset.mem_insert,Finset.mem_union] at hx ⊢
    tauto
  exact (Finset.card_le_card hsub).trans ((Finset.card_insert_le ..).trans (Nat.succ_le_succ h))

/-- From nothing, the elements of the set and the few others are all there is. -/
theorem Adds.card_le (h : Adds S n [] q) : q.toFinset.card ≤ S.card+n := by
  have hsub : q.toFinset ⊆ S ∪ q.toFinset\(([] : List α).toFinset ∪ S) := by
    intro x hx
    by_cases hS : x∈S
    · exact Finset.mem_union_left _ hS
    · refine Finset.mem_union_right _ (Finset.mem_sdiff.mpr ⟨hx,?_⟩)
      simpa using hS
  exact (Finset.card_le_card hsub).trans ((Finset.card_union_le ..).trans (Nat.add_le_add_left h _))

end Xv6Rust.Footprints

import Mathlib.Algebra.Order.BigOperators.Group.Finset
import Mathlib.Tactic.Linarith

/-! # Counting the members of a finite family

Each member of a finite family is in some state, and a state has a weight. The census is the sum
of the weights; a member that changes its state changes it by the difference. -/
namespace CustomKernel.Lib.Census
open Function

variable {ι β : Type} [Fintype ι] [DecidableEq ι]

def census (f : β → Int) (p : ι → β) : Int := ∑ i, f (p i)

section
variable {f : β → Int} {p : ι → β}

theorem census_update (f : β → Int) (p : ι → β) (i : ι) (b : β) :
    census f (update p i b) = census f p - f (p i) + f b := by
  have hout : ∀ j ∈ Finset.univ.erase i, f (update p i b j) = f (p j) := by
    intro j hj
    rw [update_of_ne (Finset.ne_of_mem_erase hj)]
  unfold census
  rw [← Finset.add_sum_erase _ _ (Finset.mem_univ i), update_self,
    Finset.sum_congr rfl hout, ← Finset.add_sum_erase Finset.univ _ (Finset.mem_univ i)]
  omega

omit [DecidableEq ι] in
theorem census_nonneg (hf : ∀ b, 0 ≤ f b) : 0 ≤ census f p :=
  Finset.sum_nonneg fun i _ => hf (p i)

omit [DecidableEq ι] in
theorem le_census (hf : ∀ b, 0 ≤ f b) (i : ι) : f (p i) ≤ census f p :=
  Finset.single_le_sum (f := fun i => f (p i)) (fun i _ => hf (p i)) (Finset.mem_univ i)

omit [DecidableEq ι] in
theorem census_le_card (hf : ∀ b, f b ≤ 1) : census f p ≤ Fintype.card ι := by
  have h := Finset.sum_le_card_nsmul Finset.univ (fun i => f (p i)) 1 fun i _ => hf (p i)
  rw [Finset.card_univ, nsmul_eq_mul, mul_one] at h
  exact h

/-- Members that are all different and weigh something. -/
theorem length_le_census (hf : ∀ b, 0 ≤ f b) {l : List ι} (hl : l.Nodup)
    (h : ∀ i ∈ l, 1 ≤ f (p i)) : (l.length : Int) ≤ census f p := by
  have hcard : l.toFinset.card = l.length := List.toFinset_card_of_nodup hl
  have hsub := Finset.sum_le_sum_of_subset_of_nonneg (Finset.subset_univ l.toFinset)
    (f := fun i => f (p i)) fun i _ _ => hf (p i)
  have hones := Finset.card_nsmul_le_sum l.toFinset (fun i => f (p i)) 1 fun i hi =>
    h i (List.mem_toFinset.mp hi)
  rw [hcard, nsmul_eq_mul, mul_one] at hones
  exact hones.trans hsub

omit [DecidableEq ι] in
theorem exists_of_census_pos (h : 0 < census f p) : ∃ i, 0 < f (p i) := by
  by_contra hnone
  rw [not_exists] at hnone
  exact absurd h (not_lt.mpr (Finset.sum_nonpos fun i _ => not_lt.mp (hnone i)))

end

end CustomKernel.Lib.Census

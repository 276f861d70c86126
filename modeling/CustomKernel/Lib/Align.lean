import Mathlib.Algebra.Order.Ring.Nat
import Mathlib.Data.Nat.Bitwise

/-! # Rounding up to a power of two

The next multiple of a number, and the masks by which words compute it. -/
namespace CustomKernel.Lib.Align

/-- The least multiple of `a` that is not below `x`. -/
def roundUp (a x : Nat) : Nat := (x + (a - 1)) / a * a

section
variable {a x y : Nat}

theorem dvd_roundUp : a ∣ roundUp a x := Nat.dvd_mul_left _ _

theorem le_roundUp (ha : 0 < a) : x ≤ roundUp a x := by
  have hmod := Nat.mod_lt (x + (a - 1)) ha
  have hdiv := Nat.div_add_mod' (x + (a - 1)) a
  unfold roundUp
  omega

theorem roundUp_le (ha : 0 < a) (hdvd : a ∣ y) (hle : x ≤ y) : roundUp a x ≤ y := by
  obtain ⟨c, rfl⟩ := hdvd
  rw [roundUp, Nat.mul_comm a c]
  refine Nat.mul_le_mul_right a (Nat.lt_succ_iff.mp ((Nat.div_lt_iff_lt_mul ha).mpr ?_))
  rw [Nat.succ_mul, Nat.mul_comm c a]
  omega

theorem roundUp_mono (ha : 0 < a) (hle : x ≤ y) : roundUp a x ≤ roundUp a y :=
  roundUp_le ha dvd_roundUp (hle.trans (le_roundUp ha))

theorem roundUp_of_dvd (ha : 0 < a) (hdvd : a ∣ x) : roundUp a x = x :=
  Nat.le_antisymm (roundUp_le ha hdvd (Nat.le_refl x)) (le_roundUp ha)

theorem roundUp_of_mod_ne_zero (ha : 0 < a) (hmod : x % a ≠ 0) :
    roundUp a x = x + (a - x % a) := by
  have hdiv := Nat.div_add_mod' x a
  have hlt := Nat.mod_lt x ha
  have hquot : (x + (a - 1)) / a = x / a + 1 := by
    refine Nat.div_eq_of_lt_le ?_ ?_
    · rw [Nat.succ_mul]
      omega
    · rw [Nat.succ_mul, Nat.succ_mul]
      omega
  rw [roundUp, hquot, Nat.succ_mul]
  omega

theorem dvd_add_iff (ha : 0 < a) : a ∣ x + y ↔ ∃ t, x + y = roundUp a x + t * a := by
  constructor
  · intro hdvd
    obtain ⟨c, hc⟩ := (Nat.dvd_sub hdvd (dvd_roundUp (x := x)))
    have hle := roundUp_le ha hdvd (Nat.le_add_right x y)
    exact ⟨c, by rw [Nat.mul_comm c]; omega⟩
  · rintro ⟨t, ht⟩
    rw [ht]
    exact Nat.dvd_add dvd_roundUp (Nat.dvd_mul_left _ _)

end

/-- Dividing by a power of two takes it off the exponent. -/
theorem two_pow_dvd_mul_iff {k c x : Nat} : 2 ^ k ∣ x * 2 ^ c ↔ 2 ^ (k - c) ∣ x := by
  rcases Nat.le_total k c with hle | hle
  · rw [Nat.sub_eq_zero_of_le hle]
    exact iff_of_true ((Nat.pow_dvd_pow 2 hle).mul_left x) (Nat.one_dvd x)
  · conv_lhs => rw [← Nat.sub_add_cancel hle, Nat.pow_add]
    exact Nat.mul_dvd_mul_iff_right (Nat.two_pow_pos c)

theorem two_pow_dvd_div {k c x : Nat} (hdvd : 2 ^ k ∣ x) : 2 ^ (k - c) ∣ x / 2 ^ c := by
  rcases Nat.le_total k c with hle | hle
  · rw [Nat.sub_eq_zero_of_le hle]
    exact Nat.one_dvd _
  · refine Nat.dvd_div_of_mul_dvd ?_
    rwa [← Nat.pow_add, Nat.add_sub_cancel' hle]

/-! ## Words -/

theorem toNat_sub_one {w : Nat} {x : BitVec w} (hpos : 0 < x.toNat) :
    (x - 1).toNat = x.toNat - 1 := by
  have hwidth : 0 < w := Nat.pos_of_ne_zero fun hzero => by
    subst hzero
    exact hpos.ne' (BitVec.toNat_of_zero_length rfl x)
  have hone : (1 : BitVec w).toNat = 1 := BitVec.toNat_one hwidth
  rw [BitVec.toNat_sub_of_le (BitVec.le_def.mpr (by omega)), hone]

theorem exists_two_pow {w : Nat} {align : BitVec w} (hne : align ≠ 0)
    (hand : align &&& (align - 1) = 0) : ∃ k, align.toNat = 2 ^ k := by
  have hpos : align.toNat ≠ 0 := fun hzero => hne (BitVec.eq_of_toNat_eq (by simpa using hzero))
  have hand' := congrArg BitVec.toNat hand
  rw [BitVec.toNat_and, toNat_sub_one (Nat.pos_of_ne_zero hpos)] at hand'
  exact (Nat.and_sub_one_eq_zero_iff_isPowerOfTwo hpos).mp (hand'.trans BitVec.toNat_zero)

section
variable {w k : Nat} {x align : BitVec w} (halign : align.toNat = 2 ^ k)
include halign

theorem lt_width : k < w := by
  have hlt := align.isLt
  rw [halign] at hlt
  exact (Nat.pow_lt_pow_iff_right (by decide)).mp hlt

theorem toNat_pred : (align - 1).toNat = 2 ^ k - 1 := by
  rw [toNat_sub_one (halign ▸ Nat.two_pow_pos k), halign]

theorem toNat_and_pred : (x &&& (align - 1)).toNat = x.toNat % 2 ^ k := by
  rw [BitVec.toNat_and, toNat_pred halign, Nat.and_two_pow_sub_one_eq_mod]

theorem toNat_and_not_pred : (x &&& ~~~(align - 1)).toNat = x.toNat - x.toNat % 2 ^ k := by
  -- the two masks part the word
  have hdisjoint : (x &&& ~~~(align - 1)) &&& (x &&& (align - 1)) = 0#w := by
    ext i
    simp only [BitVec.getElem_and, BitVec.getElem_not, BitVec.getElem_zero]
    cases (align - 1)[i] <;> simp
  have hjoin : (x &&& ~~~(align - 1)) ||| (x &&& (align - 1)) = x := by
    ext i
    simp only [BitVec.getElem_or, BitVec.getElem_and, BitVec.getElem_not]
    cases (align - 1)[i] <;> simp
  have hsum := BitVec.toNat_add_of_and_eq_zero hdisjoint
  rw [BitVec.add_eq_or_of_and_eq_zero _ _ hdisjoint, hjoin, toNat_and_pred halign] at hsum
  omega

/-- Rounding up, which gives 0 when it goes beyond the last word. -/
theorem toNat_roundUp : ((x + align - 1) &&& ~~~(align - 1)).toNat =
    if roundUp (2 ^ k) x.toNat < 2 ^ w then roundUp (2 ^ k) x.toNat else 0 := by
  have hpos := Nat.two_pow_pos k
  have hsum : (x + align - 1).toNat = (x.toNat + (2 ^ k - 1)) % 2 ^ w := by
    rw [BitVec.sub_eq_add_neg, BitVec.add_assoc, ← BitVec.sub_eq_add_neg, BitVec.toNat_add,
      toNat_pred halign]
  have hpow : 2 ^ w = 2 ^ (w - k) * 2 ^ k := by
    rw [← Nat.pow_add, Nat.sub_add_cancel (lt_width halign).le]
  rw [toNat_and_not_pred halign, hsum]
  rcases Nat.lt_or_ge (x.toNat + (2 ^ k - 1)) (2 ^ w) with hlt | hge
  · have hle := Nat.div_mul_le_self (x.toNat + (2 ^ k - 1)) (2 ^ k)
    rw [Nat.mod_eq_of_lt hlt, roundUp, if_pos (hle.trans_lt hlt)]
    have hdiv := Nat.div_add_mod' (x.toNat + (2 ^ k - 1)) (2 ^ k)
    omega
  · have hlarge : 2 ^ w ≤ roundUp (2 ^ k) x.toNat := by
      rw [roundUp, hpow]
      refine Nat.mul_le_mul_right _ ((Nat.le_div_iff_mul_le hpos).mpr ?_)
      rwa [← hpow]
    rw [if_neg (Nat.not_lt.mpr hlarge), Nat.mod_eq_sub_mod hge, Nat.mod_eq_of_lt (by omega),
      Nat.mod_eq_of_lt (by omega), Nat.sub_self]

end
end CustomKernel.Lib.Align

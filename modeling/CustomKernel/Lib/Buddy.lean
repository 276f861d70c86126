import Mathlib.Data.Nat.Bitwise
import Mathlib.Algebra.Order.Ring.Nat

/-! # Blocks of buddies

A range of pages is cut into blocks whose sizes are powers of two and which are aligned to
their size. Such a cut is given by the order of the block of each page: two pages whose
numbers agree above the order of the one are in one block. Halving a block and joining a
block with its buddy are both a change of the orders in one aligned block. -/
namespace CustomKernel.Lib.Buddy

/-- The pages of one block agree on its order, and it does not stick out of the range. -/
def Tiling (size : Nat) (ord : Nat → Nat) : Prop :=
  ∀ i < size, ∀ j, j / 2 ^ ord i = i / 2 ^ ord i → j < size ∧ ord j = ord i

/-- The block of order `k` and number `q` is cut into blocks of order `m`. -/
def recut (ord : Nat → Nat) (k q m : Nat) : Nat → Nat :=
  fun j => if j / 2 ^ k = q then m else ord j

variable {size : Nat} {ord : Nat → Nat} {i j k q m p : Nat}

theorem tiling_pages (size : Nat) : Tiling size fun _ => 0 := by
  intro i hi j hj
  rw [pow_zero, Nat.div_one, Nat.div_one] at hj
  exact ⟨hj ▸ hi, rfl⟩

/-- What agrees above an order agrees above a higher one. -/
theorem div_pow_mono (hmk : m ≤ k) (h : j / 2 ^ m = i / 2 ^ m) : j / 2 ^ k = i / 2 ^ k := by
  obtain ⟨d, rfl⟩ := Nat.exists_eq_add_of_le hmk
  rw [pow_add, ← Nat.div_div_eq_div_mul, ← Nat.div_div_eq_div_mul, h]

theorem recut_in (h : j / 2 ^ k = q) : recut ord k q m j = m := if_pos h

theorem recut_out (h : j / 2 ^ k ≠ q) : recut ord k q m j = ord j := if_neg h

/-- A block may be cut anew when it is made of whole blocks. -/
theorem Tiling.recut (h : Tiling size ord) (hmk : m ≤ k) (hin : ∀ j, j / 2 ^ k = q → j < size)
    (hord : ∀ j, j / 2 ^ k = q → ord j ≤ k) : Tiling size (recut ord k q m) := by
  intro i hi j hj
  by_cases hq : i / 2 ^ k = q
  · rw [recut_in hq] at hj ⊢
    have hjq : j / 2 ^ k = q := (div_pow_mono hmk hj).trans hq
    exact ⟨hin j hjq, recut_in hjq⟩
  · rw [recut_out hq] at hj ⊢
    obtain ⟨hjs, hjo⟩ := h i hi j hj
    have hjq : j / 2 ^ k ≠ q := by
      intro hjq
      -- the block of `i` would be a part of the one that is cut
      have hle : ord i ≤ k := hjo ▸ hord j hjq
      exact hq ((div_pow_mono hle hj).symm.trans hjq)
    exact ⟨hjs, (recut_out hjq).trans hjo⟩

/-! ## First pages -/

theorem div_mul_of_dvd (h : 2 ^ k ∣ p) : p / 2 ^ k * 2 ^ k = p := Nat.div_mul_cancel h

theorem mem_block_iff (h : 2 ^ k ∣ p) : j / 2 ^ k = p / 2 ^ k ↔ p ≤ j ∧ j < p + 2 ^ k := by
  obtain ⟨x, rfl⟩ := h
  have hpos : 0 < 2 ^ k := Nat.two_pow_pos k
  rw [Nat.mul_div_cancel_left x hpos, Nat.div_eq_iff hpos]
  constructor
  · rintro ⟨h1, h2⟩
    exact ⟨by rwa [mul_comm], by rw [mul_comm]; omega⟩
  · rintro ⟨h1, h2⟩
    exact ⟨by rwa [mul_comm], by rw [mul_comm] at h2; omega⟩

theorem Tiling.block_le (h : Tiling size ord) (hp : p < size) (hdvd : 2 ^ ord p ∣ p) :
    p + 2 ^ ord p ≤ size := by
  have hlast := (h p hp (p + 2 ^ ord p - 1) ((mem_block_iff hdvd).mpr ⟨by omega, by omega⟩)).1
  omega

/-- Two first pages of blocks that have a page in common are one. -/
theorem Tiling.head_unique {p' : Nat} (h : Tiling size ord) (hp : p < size) (hp' : p' < size)
    (hd : 2 ^ ord p ∣ p) (hd' : 2 ^ ord p' ∣ p') (hj : j / 2 ^ ord p = p / 2 ^ ord p)
    (hj' : j / 2 ^ ord p' = p' / 2 ^ ord p') : p = p' := by
  have ho := (h p hp j hj).2
  have ho' := (h p' hp' j hj').2
  rw [ho] at ho'
  rw [← ho'] at hj' hd'
  rw [← div_mul_of_dvd hd, ← div_mul_of_dvd hd', ← hj, ← hj']

/-! ## Buddies -/

theorem xor_two_pow (x k : Nat) : (x * 2 ^ k) ^^^ 2 ^ k = (x ^^^ 1) * 2 ^ k := by
  refine Nat.eq_of_testBit_eq fun i => ?_
  have hone : (2 ^ k).testBit i = (decide (k ≤ i) && Nat.testBit 1 (i - k)) := by
    rw [← Nat.testBit_mul_two_pow, one_mul]
  rw [Nat.testBit_xor, hone, Nat.testBit_mul_two_pow, Nat.testBit_mul_two_pow, Nat.testBit_xor]
  by_cases hi : k ≤ i
  · simp [hi]
  · simp [hi]

theorem xor_one_cases (x : Nat) :
    x % 2 = 0 ∧ x ^^^ 1 = x + 1 ∨ x % 2 = 1 ∧ x ^^^ 1 = x - 1 := by
  rcases Nat.even_or_odd x with h | h
  · exact .inl ⟨Nat.even_iff.mp h, Nat.xor_one_of_even h⟩
  · exact .inr ⟨Nat.odd_iff.mp h, Nat.xor_one_of_odd h⟩

theorem xor_one_div_two (x : Nat) : (x ^^^ 1) / 2 = x / 2 := by
  rcases xor_one_cases x with ⟨h1, h2⟩ | ⟨h1, h2⟩ <;> omega

theorem div_two_pow_succ (p k : Nat) : p / 2 ^ (k + 1) = p / 2 ^ k / 2 := by
  rw [pow_succ, Nat.div_div_eq_div_mul]

theorem buddy_base (hd : 2 ^ k ∣ p) :
    (p / 2 ^ (k + 1) * 2 ^ (k + 1) = p ∨ p / 2 ^ (k + 1) * 2 ^ (k + 1) = p ^^^ 2 ^ k) ∧
      p ^^^ 2 ^ k ≠ p ∧ (p ^^^ 2 ^ k) / 2 ^ (k + 1) = p / 2 ^ (k + 1) := by
  obtain ⟨x, rfl⟩ := hd
  have hpos := Nat.two_pow_pos k
  rw [mul_comm (2 ^ k) x, xor_two_pow, div_two_pow_succ, div_two_pow_succ,
    Nat.mul_div_cancel _ hpos, Nat.mul_div_cancel _ hpos, xor_one_div_two, pow_succ, mul_comm (2 ^ k) 2, ← mul_assoc]
  have hinj : ∀ a b : Nat, a * 2 ^ k = b * 2 ^ k ↔ a = b := fun a b => Nat.mul_left_inj hpos.ne'
  simp only [ne_eq, hinj, and_true]
  rcases xor_one_cases x with ⟨h1, h2⟩ | ⟨h1, h2⟩ <;> rw [h2] <;> omega

theorem first_half (hd : 2 ^ (k + 1) ∣ p) : p ^^^ 2 ^ k = p + 2 ^ k := by
  obtain ⟨x, rfl⟩ := hd
  rw [pow_succ, mul_assoc, mul_comm (2 ^ k), xor_two_pow, Nat.xor_one_of_even (even_two_mul x),
    Nat.add_one_mul]

theorem dvd_buddy (hd : 2 ^ k ∣ p) : 2 ^ k ∣ p ^^^ 2 ^ k := by
  obtain ⟨x, rfl⟩ := hd
  rw [mul_comm, xor_two_pow]
  exact Nat.dvd_mul_left ..

/-- The bits above an order, as the mask of a word picks them. -/
theorem and_mask {x w : Nat} (hx : x < 2 ^ w) (hk : k ≤ w) :
    x &&& (2 ^ w - 2 ^ k) = x / 2 ^ k * 2 ^ k := by
  have hmask : 2 ^ w - 2 ^ k = (2 ^ (w - k) - 1) * 2 ^ k := by
    rw [Nat.sub_mul, one_mul, ← pow_add, Nat.sub_add_cancel hk]
  rw [hmask]
  refine Nat.eq_of_testBit_eq fun i => ?_
  rw [Nat.testBit_and, Nat.testBit_mul_two_pow, Nat.testBit_mul_two_pow, Nat.testBit_div_two_pow,
    Nat.testBit_two_pow_sub_one]
  by_cases hi : k ≤ i
  · rw [Nat.sub_add_cancel hi]
    by_cases hw : i < w
    · simp [hi, show i - k < w - k by omega]
    · have hzero : x.testBit i = false :=
        Nat.testBit_lt_two_pow (Nat.lt_of_lt_of_le hx (Nat.pow_le_pow_right (by decide) (by omega)))
      simp [hzero]
  · simp [hi]

/-! ## Blocks that are joined as far as they can be -/

/-- Blocks below a top order that have no page in common, with no two buddies among them unless they
are of the highest order. -/
structure Merged (top : Nat) (F : Nat → Nat → Prop) : Prop where
  aligned : ∀ p k, F p k → k < top ∧ 2 ^ k ∣ p
  disjoint : ∀ p k p' k' j, F p k → F p' k' → j / 2 ^ k = p / 2 ^ k → j / 2 ^ k' = p' / 2 ^ k' →
    p = p' ∧ k = k'
  joined : ∀ p k, F p k → k + 1 < top → ¬ F (p ^^^ 2 ^ k) k

/-- The page is in one of the blocks. -/
def Covers (F : Nat → Nat → Prop) (j : Nat) : Prop := ∃ p k, F p k ∧ j / 2 ^ k = p / 2 ^ k

section
variable {top : Nat} {F F' : Nat → Nat → Prop}

/-- Where all of an aligned block is covered, no smaller block covers a part of it. -/
theorem Merged.le_of_covered (h : Merged top F) (hm : m < top)
    (hall : ∀ i, i / 2 ^ m = j / 2 ^ m → Covers F i) (hp : F p k) (hj : j / 2 ^ k = p / 2 ^ k) :
    m ≤ k := by
  induction m generalizing p k j with
  | zero => exact Nat.zero_le k
  | succ m ih =>
    have hhalf {i p' k' : Nat} (hi : i / 2 ^ (m + 1) = j / 2 ^ (m + 1)) (hp' : F p' k')
        (hin : i / 2 ^ k' = p' / 2 ^ k') : m ≤ k' :=
      ih (by omega) (fun l hl => hall l ((div_pow_mono (Nat.le_succ m) hl).trans hi)) hp' hin
    have hle : m ≤ k := hhalf rfl hp hj
    by_contra hlt
    obtain rfl : k = m := by omega
    have hd := (h.aligned p k hp).2
    have hup := div_pow_mono (Nat.le_succ k) hj
    obtain ⟨-, -, hbuddy⟩ := buddy_base hd
    -- a block of the same order covers the other half, or one that covers both
    obtain ⟨p', k', hp', hin⟩ := hall _ (hbuddy.trans hup.symm)
    have hle' : k ≤ k' := hhalf (hbuddy.trans hup.symm) hp' hin
    rcases Nat.lt_or_eq_of_le hle' with hlt' | rfl
    · have hboth : j / 2 ^ k' = p' / 2 ^ k' := by
        rw [← hin]
        exact div_pow_mono hlt' (hup.trans hbuddy.symm)
      exact hlt'.ne (h.disjoint p k p' k' j hp hp' hj hboth).2
    · have heq : p ^^^ 2 ^ k = p' := by
        rw [← div_mul_of_dvd (h.aligned p' k hp').2, ← hin]
        exact (div_mul_of_dvd (dvd_buddy hd)).symm
      exact h.joined p k hp hm (heq ▸ hp')

theorem Merged.sub (h : Merged top F) (h' : Merged top F') (hcover : ∀ j, Covers F j ↔ Covers F' j)
    (hp : F p k) : F' p k := by
  obtain ⟨p', k', hp', hin⟩ := (hcover p).mp ⟨p, k, hp, rfl⟩
  have hle : k ≤ k' :=
    h'.le_of_covered (h.aligned p k hp).1 (fun i hi => (hcover i).mp ⟨p, k, hp, hi⟩) hp' hin
  have hle' : k' ≤ k := by
    refine h.le_of_covered (h'.aligned p' k' hp').1 (fun i hi => ?_) hp rfl
    exact (hcover i).mpr ⟨p', k', hp', hi.trans hin⟩
  obtain rfl := Nat.le_antisymm hle hle'
  have heq : p = p' := by
    rw [← div_mul_of_dvd (h.aligned p k hp).2, hin, div_mul_of_dvd (h'.aligned p' k hp').2]
  exact heq ▸ hp'

/-- Blocks that are joined as far as they can be are given by the pages they cover. -/
theorem Merged.unique (h : Merged top F) (h' : Merged top F')
    (hcover : ∀ j, Covers F j ↔ Covers F' j) (p k : Nat) : F p k ↔ F' p k :=
  ⟨h.sub h' hcover, h'.sub h fun j => (hcover j).symm⟩

end
end CustomKernel.Lib.Buddy

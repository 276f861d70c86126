import Mathlib.Data.Nat.Basic

/-! # Bitmaps over machine words

Bit `n` of a bitmap is bit `n % w` of its word `n / w`. The first bit that is
set is found word by word. -/
namespace CustomKernel.Lib.Bitmap

variable {w : Nat}

def setBit (b : Nat → BitVec w) (n : Nat) : Nat → BitVec w := fun i =>
  if i = n / w then b i ||| 1#w <<< (n % w) else b i

def clearBit (b : Nat → BitVec w) (n : Nat) : Nat → BitVec w := fun i =>
  if i = n / w then b i &&& ~~~ (1#w <<< (n % w)) else b i

def testBit (b : Nat → BitVec w) (n : Nat) : Bool := (b (n / w)).getLsbD (n % w)

/-- The position of the lowest bit of a word, which must not be zero. -/
def ffs (x : BitVec w) : Nat := ((List.range w).find? fun i => x.getLsbD i).getD 0

/-- Bit `n` is the lowest of the bitmap. -/
def IsFirst (b : Nat → BitVec w) (n : Nat) : Prop :=
  testBit b n = true ∧ ∀ m < n, testBit b m = false

section
variable {b : Nat → BitVec w} {m n : Nat}

theorem getLsbD_mask (hw : 0 < w) (i : Nat) (hi : i < w) :
    (1#w <<< (n % w)).getLsbD i = decide (i = n % w) := by
  have hn := Nat.mod_lt n hw
  by_cases h : i = n % w
  · simp [h, hn]
  · by_cases hlt : i < n % w
    · simp [hlt, h]
    · have hpos : i - n % w ≠ 0 := by omega
      simp [h, hi, hlt, hpos]

theorem mod_eq_iff (hm : m / w = n / w) : m % w = n % w ↔ m = n := by
  constructor
  · intro h
    rw [← Nat.div_add_mod m w, ← Nat.div_add_mod n w, hm, h]
  · intro h
    rw [h]

theorem testBit_setBit (hw : 0 < w) :
    testBit (setBit b n) m = (decide (m = n) || testBit b m) := by
  unfold testBit setBit
  by_cases hword : m / w = n / w
  · rw [if_pos hword, BitVec.getLsbD_or, getLsbD_mask hw _ (Nat.mod_lt m hw),
      Bool.or_comm, decide_eq_decide.mpr (mod_eq_iff hword)]
  · have hne : m ≠ n := by rintro rfl; exact hword rfl
    rw [if_neg hword]
    simp [hne]

theorem testBit_clearBit (hw : 0 < w) :
    testBit (clearBit b n) m = (!decide (m = n) && testBit b m) := by
  unfold testBit clearBit
  by_cases hword : m / w = n / w
  · have hlt := Nat.mod_lt m hw
    rw [if_pos hword, BitVec.getLsbD_and, BitVec.getLsbD_not,
      getLsbD_mask hw _ hlt, decide_eq_true hlt, Bool.true_and, Bool.and_comm,
      decide_eq_decide.mpr (mod_eq_iff hword)]
  · have hne : m ≠ n := by rintro rfl; exact hword rfl
    rw [if_neg hword]
    simp [hne]

theorem testBit_foldl_clearBit (hw : 0 < w) (ns : List Nat) :
    testBit (ns.foldl clearBit b) m = (!decide (m ∈ ns) && testBit b m) := by
  induction ns generalizing b with
  | nil => simp
  | cons n ns ih =>
    rw [List.foldl_cons, ih, testBit_clearBit hw]
    by_cases h : m = n <;> simp [h]

theorem ffs_spec {x : BitVec w} (hx : x ≠ 0) :
    ffs x < w ∧ x.getLsbD (ffs x) = true ∧ ∀ i < ffs x, x.getLsbD i = false := by
  unfold ffs
  cases hf : (List.range w).find? fun i => x.getLsbD i with
  | none =>
    -- no bit at all
    refine absurd (BitVec.eq_of_getLsbD_eq fun i hi => ?_) hx
    have := List.find?_eq_none.mp hf i (List.mem_range.mpr hi)
    simpa using this
  | some i =>
    obtain ⟨hi, hlt, hmin⟩ := List.find?_range_eq_some.mp hf
    refine ⟨List.mem_range.mp hlt, hi, ?_⟩
    intro j hj
    simpa using hmin j hj

/-- The words before word `j` are zero and word `j` is not. -/
theorem isFirst_of_word {j : Nat} (hlow : ∀ i < j, b i = 0) (hj : b j ≠ 0) :
    IsFirst b (ffs (b j) + j * w) := by
  obtain ⟨hlt, hset, hmin⟩ := ffs_spec hj
  have hw : 0 < w := Nat.zero_lt_of_lt hlt
  have hdiv : (ffs (b j) + j * w) / w = j := by
    rw [Nat.add_mul_div_right _ _ hw, Nat.div_eq_of_lt hlt, Nat.zero_add]
  have hmod : (ffs (b j) + j * w) % w = ffs (b j) := by
    rw [Nat.add_mul_mod_self_right, Nat.mod_eq_of_lt hlt]
  refine ⟨by rw [testBit, hdiv, hmod]; exact hset, ?_⟩
  intro m hm
  unfold testBit
  have hmj : m / w ≤ j := by
    rw [← hdiv]
    exact Nat.div_le_div_right (Nat.le_of_lt hm)
  rcases Nat.lt_or_eq_of_le hmj with h | h
  · rw [hlow _ h]
    exact BitVec.getLsbD_zero
  · rw [h]
    apply hmin
    have := Nat.div_add_mod m w
    rw [h, Nat.mul_comm] at this
    omega

theorem word_ne_zero (h : testBit b n = true) : b (n / w) ≠ 0 := by
  intro h0
  rw [testBit, h0] at h
  simp at h

end

/-! ## The next bit that is clear -/

/-- How far the first clear bit is from the beginning of word `p`, if one of `count` words has
one. -/
def firstZero (b : Nat → BitVec w) (p : Nat) : Nat → Nat
  | 0 => 0
  | count + 1 => if b p = BitVec.allOnes w then w + firstZero b (p + 1) count else ffs (~~~ b p)

/-- The number of words of `size` bits. -/
def words (w size : Nat) : Nat := (size + (w - 1)) / w

/-- The first clear bit from `offset` on, of `size` bits: the rest of the word that `offset` is in,
and then whole words. -/
def nextZero (b : Nat → BitVec w) (size offset : Nat) : Nat :=
  let p := offset / w
  let bit := offset % w
  if bit = 0 then offset + firstZero b p (words w (size - w * p))
  else
    let set := ffs (~~~ (b p >>> bit))
    if set < w - bit then set + offset
    else offset + (w - bit) + firstZero b (p + 1) (words w (size - w * (p + 1)))

section
variable {b : Nat → BitVec w} {p size offset : Nat}

theorem testBit_word {j : Nat} (hj : j < w) : testBit b (w * p + j) = (b p).getLsbD j := by
  have hw : 0 < w := Nat.zero_lt_of_lt hj
  rw [testBit, Nat.mul_add_div hw, Nat.div_eq_of_lt hj, Nat.add_zero, Nat.mul_add_mod,
    Nat.mod_eq_of_lt hj]

theorem firstZero_spec (count : Nat) : firstZero b p count ≤ w * count ∧
    (∀ j < firstZero b p count, testBit b (w * p + j) = true) ∧
    (firstZero b p count < w * count → testBit b (w * p + firstZero b p count) = false) := by
  induction count generalizing p with
  | zero => exact ⟨Nat.le_refl _, fun j hj => absurd hj (Nat.not_lt_zero j), fun h => absurd h (Nat.not_lt_zero _)⟩
  | succ count ih =>
    rw [firstZero]
    split
    case isTrue hall =>
      obtain ⟨hle, hset, hclear⟩ := ih (p := p + 1)
      have hshift : ∀ j, w * p + (w + j) = w * (p + 1) + j := by
        intro j
        rw [Nat.mul_add, Nat.mul_one]
        omega
      rw [Nat.mul_add, Nat.mul_one]
      refine ⟨by omega, fun j hj => ?_, fun hlt => ?_⟩
      · by_cases hjw : j < w
        · rw [testBit_word hjw, hall, BitVec.getLsbD_allOnes]
          exact decide_eq_true hjw
        · obtain ⟨i, rfl⟩ := Nat.exists_eq_add_of_le (Nat.le_of_not_lt hjw)
          rw [hshift]
          exact hset i (by omega)
      · rw [hshift]
        exact hclear (by omega)
    case isFalse hnot =>
      have hne : ~~~ b p ≠ 0 := by
        intro h0
        have hflip := congrArg (fun x => ~~~ x) h0
        exact hnot (by simpa using hflip)
      obtain ⟨hlt, hbit, hmin⟩ := ffs_spec hne
      have hle : w ≤ w * (count + 1) := Nat.le_mul_of_pos_right w (Nat.succ_pos count)
      refine ⟨by omega, fun j hj => ?_, fun _ => ?_⟩
      · have hjw : j < w := by omega
        have := hmin j hj
        rw [BitVec.getLsbD_not, decide_eq_true hjw, Bool.true_and] at this
        rw [testBit_word hjw]
        simpa using this
      · rw [BitVec.getLsbD_not, decide_eq_true hlt, Bool.true_and] at hbit
        rw [testBit_word hlt]
        simpa using hbit

theorem mul_words (hw : 0 < w) (h : w ∣ size) : w * words w size = size := by
  obtain ⟨k, rfl⟩ := h
  unfold words
  rw [Nat.mul_add_div hw, Nat.div_eq_of_lt (by omega), Nat.add_zero]

theorem nextZero_word (hw : 0 < w) (hsize : w ∣ size) (hp : w * p ≤ size) :
    w * p + firstZero b p (words w (size - w * p)) ≤ size ∧
      (∀ j, w * p ≤ j → j < w * p + firstZero b p (words w (size - w * p)) → testBit b j = true) ∧
      (w * p + firstZero b p (words w (size - w * p)) < size →
        testBit b (w * p + firstZero b p (words w (size - w * p))) = false) := by
  have hwords := mul_words hw (Nat.dvd_sub hsize (Nat.dvd_mul_right w p))
  obtain ⟨hle, hset, hclear⟩ := firstZero_spec (words w (size - w * p))
  refine ⟨by omega, fun j hj hlt => ?_, fun hlt => hclear (by omega)⟩
  obtain ⟨i, rfl⟩ := Nat.exists_eq_add_of_le hj
  exact hset i (by omega)

theorem nextZero_spec (hw : 0 < w) (hsize : w ∣ size) (hoffset : offset ≤ size) :
    offset ≤ nextZero b size offset ∧ nextZero b size offset ≤ size ∧
      (∀ j, offset ≤ j → j < nextZero b size offset → testBit b j = true) ∧
      (nextZero b size offset < size → testBit b (nextZero b size offset) = false) := by
  have hsplit := Nat.div_add_mod offset w
  have hbit := Nat.mod_lt offset hw
  unfold nextZero
  dsimp only
  split
  case isTrue hzero =>
    rw [hzero, Nat.add_zero] at hsplit
    have hword := nextZero_word (b := b) (p := offset / w) hw hsize (by omega)
    rw [hsplit] at hword ⊢
    exact ⟨Nat.le_add_right _ _, hword⟩
  case isFalse hnz =>
    -- the word of `offset`, shifted so that bit 0 is that of `offset`
    have hshifted : ∀ i < w, (~~~ (b (offset / w) >>> (offset % w))).getLsbD i =
        !(b (offset / w)).getLsbD (offset % w + i) := by
      intro i hi
      rw [BitVec.getLsbD_not, decide_eq_true hi, Bool.true_and, BitVec.getLsbD_ushiftRight]
    have hne : ~~~ (b (offset / w) >>> (offset % w)) ≠ 0 := by
      intro h0
      have htop := hshifted (w - offset % w) (by omega)
      rw [h0, BitVec.getLsbD_of_ge (b (offset / w)) _ (by omega)] at htop
      simp at htop
    obtain ⟨hlt, hfound, hmin⟩ := ffs_spec hne
    have hin : ∀ i, offset % w + i < w →
        testBit b (offset + i) = (b (offset / w)).getLsbD (offset % w + i) := by
      intro i hi
      rw [← testBit_word hi, ← Nat.add_assoc, hsplit]
    rw [hshifted _ hlt] at hfound
    generalize ffs (~~~ (b (offset / w) >>> (offset % w))) = set at *
    have hset : ∀ i < set, offset % w + i < w → testBit b (offset + i) = true := by
      intro i hi hiw
      have := hmin i hi
      rw [hshifted i (by omega)] at this
      rw [hin i hiw]
      simpa using this
    split
    case isTrue hclear =>
      have hnext : w * (offset / w) + w ≤ size := by
        obtain ⟨k, rfl⟩ := hsize
        have hdiv : offset / w < k := by
          by_contra hge
          have := Nat.mul_le_mul_left w (Nat.le_of_not_lt hge)
          omega
        calc w * (offset / w) + w = w * (offset / w + 1) := by rw [Nat.mul_add, Nat.mul_one]
          _ ≤ w * k := Nat.mul_le_mul_left w hdiv
      refine ⟨by omega, by omega, fun j hj hjlt => ?_, fun _ => ?_⟩
      · obtain ⟨i, rfl⟩ := Nat.exists_eq_add_of_le hj
        exact hset i (by omega) (by omega)
      · rw [Nat.add_comm, hin set (by omega)]
        simpa using hfound
    case isFalse hout =>
      have hnext : offset + (w - offset % w) = w * (offset / w + 1) := by
        rw [Nat.mul_add, Nat.mul_one]
        omega
      have hle : w * (offset / w + 1) ≤ size := by
        obtain ⟨k, rfl⟩ := hsize
        apply Nat.mul_le_mul_left w
        by_contra hge
        have := Nat.mul_le_mul_left w (Nat.le_of_not_lt hge)
        omega
      obtain ⟨hword, hall, hclear⟩ := nextZero_word hw hsize hle
      rw [hnext]
      refine ⟨by omega, hword, fun j hj hjlt => ?_, hclear⟩
      by_cases hjw : j < w * (offset / w + 1)
      · obtain ⟨i, rfl⟩ := Nat.exists_eq_add_of_le hj
        exact hset i (by omega) (by omega)
      · exact hall j (Nat.le_of_not_lt hjw) hjlt

end

end CustomKernel.Lib.Bitmap

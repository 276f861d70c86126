import Mathlib.Algebra.BigOperators.Group.Finset.Piecewise
import CustomKernel.Lib.Buddy
import CustomKernel.Mm.PageAlloc

/-! # The blocks of a zone

The pages of a zone are cut into aligned blocks, and each block hangs on a list or is held.
A block that is being freed or taken apart is held too, so that what holds between two
calls holds at every turn of their loops. A bit of the bitmaps is the exclusive or of what
is free of two buddies: it changes whenever one of the two is hung up or taken off. -/
namespace CustomKernel.Mm.Zone
open Lib Lib.Filing Lib.Buddy Function
open Mm.PageAlloc

/-! ## Blocks -/

def headOrder : Head → Nat
  | .area k => k
  | .cpu _ => 0

/-- The first page of a block hangs on a list for its order, or is held. -/
structure Blocks (size : Nat) (held : Nat → Option Nat) (ord : Nat → Nat)
    (loc : Nat → Option Head) : Prop where
  tiling : Tiling size ord
  small : ∀ i < size, ord i < maxOrder
  filed : ∀ p h, loc p = some h → p < size ∧ ord p = headOrder h ∧ 2 ^ ord p ∣ p
  taken : ∀ p k, held p = some k → p < size ∧ ord p = k ∧ 2 ^ ord p ∣ p ∧ loc p = none
  cover : ∀ p < size, 2 ^ ord p ∣ p → loc p = none → held p = some (ord p)

section
variable {size : Nat} {held held' H : Nat → Option Nat} {ord : Nat → Nat}
  {loc loc' : Nat → Option Head} {p j k q m : Nat}

/-- The pages of a block other than the first are neither held nor on a list. -/
theorem Blocks.quiet (hb : Blocks size held ord loc) (hp : p < size) (hd : 2 ^ ord p ∣ p)
    (hj : j / 2 ^ ord p = p / 2 ^ ord p) (hne : j ≠ p) : held j = none ∧ loc j = none := by
  have hhead : 2 ^ ord j ∣ j → False := fun hdj =>
    hne (hb.tiling.head_unique (hb.tiling p hp j hj).1 hp hdj hd rfl hj)
  constructor
  · cases hh : held j with
    | none => rfl
    | some k => exact (hhead (hb.taken j k hh).2.2.1).elim
  · cases hh : loc j with
    | none => rfl
    | some h => exact (hhead (hb.filed j h hh).2.2).elim

/-- The blocks in an aligned block are cut anew. -/
theorem Blocks.recut (hb : Blocks size held ord loc) (hk : k < maxOrder) (hmk : m ≤ k)
    (hin : ∀ j, j / 2 ^ k = q → j < size ∧ ord j ≤ k)
    (hout : ∀ j, j / 2 ^ k ≠ q → held' j = held j ∧ loc' j = loc j)
    (hhead : ∀ j, j / 2 ^ k = q → 2 ^ m ∣ j →
      held' j = some m ∧ loc' j = none ∨
        held' j = none ∧ ∃ h, loc' j = some h ∧ headOrder h = m)
    (hrest : ∀ j, j / 2 ^ k = q → ¬ 2 ^ m ∣ j → held' j = none ∧ loc' j = none) :
    Blocks size held' (Buddy.recut ord k q m) loc' := by
  refine ⟨hb.tiling.recut hmk (fun j hj => (hin j hj).1) fun j hj => (hin j hj).2, ?_, ?_, ?_, ?_⟩
  · intro i hi
    by_cases hq : i / 2 ^ k = q
    · rw [recut_in hq]
      exact Nat.lt_of_le_of_lt hmk hk
    · rw [recut_out hq]
      exact hb.small i hi
  · intro p h hp
    by_cases hq : p / 2 ^ k = q
    · rw [recut_in hq]
      by_cases hd : 2 ^ m ∣ p
      · rcases hhead p hq hd with ⟨-, hnone⟩ | ⟨-, h', hsome, horder⟩
        · rw [hnone] at hp
          cases hp
        · rw [hsome] at hp
          cases hp
          exact ⟨(hin p hq).1, horder.symm, hd⟩
      · rw [(hrest p hq hd).2] at hp
        cases hp
    · rw [recut_out hq]
      exact hb.filed p h ((hout p hq).2 ▸ hp)
  · intro p k' hp
    by_cases hq : p / 2 ^ k = q
    · rw [recut_in hq]
      by_cases hd : 2 ^ m ∣ p
      · rcases hhead p hq hd with ⟨hsome, hnone⟩ | ⟨hnone, -⟩
        · rw [hsome] at hp
          cases hp
          exact ⟨(hin p hq).1, rfl, hd, hnone⟩
        · rw [hnone] at hp
          cases hp
      · rw [(hrest p hq hd).1] at hp
        cases hp
    · rw [recut_out hq, (hout p hq).2]
      exact hb.taken p k' ((hout p hq).1 ▸ hp)
  · intro p hp hd hnone
    by_cases hq : p / 2 ^ k = q
    · rw [recut_in hq] at hd ⊢
      rcases hhead p hq hd with ⟨hsome, -⟩ | ⟨-, h, hsome, -⟩
      · exact hsome
      · rw [hsome] at hnone
        cases hnone
    · rw [recut_out hq] at hd ⊢
      rw [(hout p hq).1]
      exact hb.cover p hp hd ((hout p hq).2 ▸ hnone)

theorem ne_of_div_ne (h : j / 2 ^ k ≠ p / 2 ^ k) : j ≠ p := fun heq => h (heq ▸ rfl)

/-- A block is held, or hung on a list. -/
theorem Blocks.rehang {x : Option Nat} {v : Option Head} (hb : Blocks size held ord loc)
    (hp : p < size) (hd : 2 ^ ord p ∣ p)
    (hnew : x = some (ord p) ∧ v = none ∨ x = none ∧ ∃ h, v = some h ∧ headOrder h = ord p) :
    Blocks size (update held p x) ord (update loc p v) := by
  refine ⟨hb.tiling, hb.small, ?_, ?_, ?_⟩
  all_goals
    intro q
    rcases eq_or_ne q p with rfl | hne
  · rcases hnew with ⟨-, rfl⟩ | ⟨-, h, rfl, horder⟩
    · simp
    · simpa using ⟨hp, horder.symm, hd⟩
  · rw [update_of_ne hne]
    exact hb.filed q
  · rcases hnew with ⟨rfl, rfl⟩ | ⟨rfl, -⟩
    · simpa using ⟨hp, hd⟩
    · simp
  · rw [update_of_ne hne, update_of_ne hne]
    exact hb.taken q
  · rcases hnew with ⟨rfl, -⟩ | ⟨-, h, rfl, -⟩
    · simp
    · simp
  · rw [update_of_ne hne, update_of_ne hne]
    exact hb.cover q

/-- The page that is held by itself goes to a list. -/
theorem Blocks.release (hb : Blocks size (update H p (some k)) ord loc) (hH : H p = none)
    {h : Head} (horder : headOrder h = k) : Blocks size H ord (update loc p (some h)) := by
  obtain ⟨hp, hk, hd, -⟩ := hb.taken p k (update_self ..)
  have hnew := hb.rehang hp hd (.inr ⟨rfl, h, rfl, horder.trans hk.symm⟩)
  rwa [update_idem, ← hH, update_eq_self] at hnew

/-- A block is taken from its list. -/
theorem Blocks.claim (hb : Blocks size H ord loc) {h : Head} (hloc : loc p = some h) :
    H p = none ∧ Blocks size (update H p (some (headOrder h))) ord (update loc p none) := by
  obtain ⟨hp, hk, hd⟩ := hb.filed p h hloc
  have hH : H p = none := by
    cases hh : H p with
    | none => rfl
    | some k =>
      have hnone := (hb.taken p k hh).2.2.2
      rw [hloc] at hnone
      cases hnone
  exact ⟨hH, hb.rehang hp hd (.inl ⟨congrArg some hk.symm, rfl⟩)⟩

theorem half_eq (hp : 2 ^ (k + 1) ∣ p) (hj : 2 ^ k ∣ j) (h : j / 2 ^ (k + 1) = p / 2 ^ (k + 1)) :
    j = p ∨ j = p + 2 ^ k := by
  obtain ⟨x, rfl⟩ := hj
  obtain ⟨y, rfl⟩ := hp
  have hpos : 0 < 2 ^ k := Nat.two_pow_pos k
  rw [div_two_pow_succ, Nat.mul_div_cancel_left x hpos,
    Nat.mul_div_cancel_left y (Nat.two_pow_pos _)] at h
  rcases Nat.mod_two_eq_zero_or_one x with hx | hx
  · left
    rw [pow_succ, mul_assoc, show x = 2 * y by omega]
  · right
    rw [pow_succ, mul_assoc, ← Nat.mul_succ, show x = 2 * y + 1 by omega]

/-- A held block is halved, and its first half goes to the list for it. -/
theorem Blocks.halve (hb : Blocks size (update H p (some (k + 1))) ord loc)
    (hH : H p = none) :
    H (p + 2 ^ k) = none ∧ loc (p + 2 ^ k) = none ∧
      Blocks size (update H (p + 2 ^ k) (some k))
        (Buddy.recut ord (k + 1) (p / 2 ^ (k + 1)) k)
        (update loc p (some (.area k))) := by
  obtain ⟨hp, hk, hd, hloc⟩ := hb.taken p (k + 1) (update_self ..)
  have hsmall := hb.small p hp
  have hquiet := fun j hj hne => hb.quiet (j := j) hp hd hj hne
  rw [hk] at hd hsmall hquiet
  have hne : p + 2 ^ k ≠ p := by
    omega
  have hsecond : (p + 2 ^ k) / 2 ^ (k + 1) = p / 2 ^ (k + 1) :=
    (mem_block_iff hd).mpr ⟨by omega, by rw [pow_succ]; have := Nat.two_pow_pos k; omega⟩
  have hq := hquiet _ hsecond hne
  rw [update_of_ne hne] at hq
  refine ⟨hq.1, hq.2, hb.recut hsmall (Nat.le_succ k) ?_ ?_ ?_ ?_⟩
  · intro j hj
    have hjp := hb.tiling p hp j (by rwa [hk])
    exact ⟨hjp.1, by rw [hjp.2, hk]⟩
  · intro j hj
    have hjne := ne_of_div_ne hj
    have hjne' : j ≠ p + 2 ^ k := fun heq => hj (heq ▸ hsecond)
    rw [update_of_ne hjne, update_of_ne hjne, update_of_ne hjne']
    exact ⟨rfl, rfl⟩
  · intro j hj hdj
    rcases half_eq hd hdj hj with rfl | rfl
    · exact .inr ⟨by rwa [update_of_ne (Ne.symm hne)], _, update_self .., rfl⟩
    · exact .inl ⟨update_self .., by rw [update_of_ne hne]; exact hq.2⟩
  · intro j hj hdj
    have hjne : j ≠ p := fun heq => hdj (heq ▸ Nat.dvd_trans (pow_dvd_pow 2 (Nat.le_succ k)) hd)
    have hjne' : j ≠ p + 2 ^ k := fun heq => hdj (heq ▸
      Nat.dvd_add (Nat.dvd_trans (pow_dvd_pow 2 (Nat.le_succ k)) hd) (Nat.dvd_refl _))
    have hqj := hquiet j hj hjne
    rw [update_of_ne hjne] at hqj ⊢
    rw [update_of_ne hjne']
    exact hqj

/-- A block is one of the halves of the block above it, and its buddy is the other. -/
theorem buddies (hd : 2 ^ k ∣ p) (hj : j / 2 ^ (k + 1) = p / 2 ^ (k + 1)) :
    j / 2 ^ k = p / 2 ^ k ∨ j / 2 ^ k = (p ^^^ 2 ^ k) / 2 ^ k := by
  obtain ⟨x, rfl⟩ := hd
  rw [div_two_pow_succ, div_two_pow_succ, mul_comm, Nat.mul_div_cancel _ (Nat.two_pow_pos k)] at hj
  rw [mul_comm, xor_two_pow, Nat.mul_div_cancel _ (Nat.two_pow_pos k),
    Nat.mul_div_cancel _ (Nat.two_pow_pos k)]
  rcases xor_one_cases x with ⟨h1, h2⟩ | ⟨h1, h2⟩ <;> rw [h2] <;> omega

/-- A held block is joined with its buddy, which was on the list for its order. -/
theorem Blocks.merge (hb : Blocks size (update H p (some k)) ord loc) (hH : H p = none)
    (hk : k + 1 < maxOrder) (hbuddy : loc (p ^^^ 2 ^ k) = some (.area k)) :
    H (p / 2 ^ (k + 1) * 2 ^ (k + 1)) = none ∧
      Blocks size (update H (p / 2 ^ (k + 1) * 2 ^ (k + 1)) (some (k + 1)))
        (Buddy.recut ord (k + 1) (p / 2 ^ (k + 1)) (k + 1))
        (update loc (p ^^^ 2 ^ k) none) := by
  obtain ⟨hp, hkp, hd, hloc⟩ := hb.taken p k (update_self ..)
  obtain ⟨hbs, hkb, hdb⟩ := hb.filed _ _ hbuddy
  obtain ⟨hHb, -⟩ := hb.claim hbuddy
  have hquiet := fun j hj hne => hb.quiet (j := j) hp hd hj hne
  have hquietb := fun j hj hne => hb.quiet (j := j) hbs hdb hj hne
  rw [hkp] at hd hquiet
  rw [hkb] at hquietb
  obtain ⟨hbase, hbne, hbdiv⟩ := buddy_base hd
  rw [update_of_ne hbne] at hHb
  have hHc : H (p / 2 ^ (k + 1) * 2 ^ (k + 1)) = none := by
    rcases hbase with heq | heq <;> rw [heq]
    · exact hH
    · exact hHb
  -- whoever is in the joined block is the one, the other, or no first page
  have hall : ∀ j, j / 2 ^ (k + 1) = p / 2 ^ (k + 1) →
      H j = none ∧ update loc (p ^^^ 2 ^ k) none j = none := by
    intro j hj
    rcases eq_or_ne j (p ^^^ 2 ^ k) with rfl | hjb
    · exact ⟨hHb, update_self ..⟩
    rw [update_of_ne hjb]
    rcases eq_or_ne j p with rfl | hjp
    · exact ⟨hH, hloc⟩
    have hq : update H p (some k) j = none ∧ loc j = none := by
      rcases buddies hd hj with hj' | hj'
      · exact hquiet j hj' hjp
      · exact hquietb j hj' hjb
    rwa [update_of_ne hjp] at hq
  refine ⟨hHc, hb.recut hk (Nat.le_refl _) ?_ ?_ ?_ ?_⟩
  · intro j hj
    rcases buddies hd hj with hj' | hj'
    · have ht := hb.tiling p hp j (by rwa [hkp])
      exact ⟨ht.1, by rw [ht.2, hkp]; exact Nat.le_succ k⟩
    · have ht := hb.tiling _ hbs j (by rw [hkb]; exact hj')
      exact ⟨ht.1, by rw [ht.2, hkb]; exact Nat.le_succ k⟩
  · intro j hj
    have hjp := ne_of_div_ne hj
    have hjb : j ≠ p ^^^ 2 ^ k := fun heq => hj (heq ▸ hbdiv)
    have hjc : j ≠ p / 2 ^ (k + 1) * 2 ^ (k + 1) := by
      rcases hbase with heq | heq <;> rw [heq]
      · exact hjp
      · exact hjb
    rw [update_of_ne hjp, update_of_ne hjb, update_of_ne hjc]
    exact ⟨rfl, rfl⟩
  · intro j hj hdj
    have hjc : j = p / 2 ^ (k + 1) * 2 ^ (k + 1) := by rw [← hj, div_mul_of_dvd hdj]
    refine .inl ⟨?_, (hall j hj).2⟩
    rw [hjc]
    exact update_self ..
  · intro j hj hdj
    have hjc : j ≠ p / 2 ^ (k + 1) * 2 ^ (k + 1) := fun heq => hdj (heq ▸ Nat.dvd_mul_left ..)
    rw [update_of_ne hjc]
    exact hall j hj

end

/-! ## Bits -/

/-- Whether the block of order `k` and number `x` is free. -/
def freeAt (loc : Nat → Option Head) (k x : Nat) : Bool :=
  decide (loc (x * 2 ^ k) = some (.area k))

def Bits (map : Nat → Nat → Bool) (loc : Nat → Option Head) : Prop :=
  ∀ k, k < maxOrder - 1 → ∀ q, map k q = (freeAt loc k (2 * q) ^^ freeAt loc k (2 * q + 1))

def toggle (map : Nat → Nat → Bool) (k i : Nat) : Nat → Nat → Bool :=
  update map k (update (map k) i (!map k i))

section
variable {map : Nat → Nat → Bool} {loc : Nat → Option Head} {p k k' : Nat} {v : Option Head}

theorem freeAt_update {x : Nat} (hne : x * 2 ^ k' ≠ p) :
    freeAt (update loc p v) k' x = freeAt loc k' x := by
  rw [freeAt, freeAt, update_of_ne hne]

/-- A page that is on no list for an order, before or after. -/
theorem freeAt_other (h : loc p ≠ some (.area k')) (h' : v ≠ some (.area k')) (x : Nat) :
    freeAt (update loc p v) k' x = freeAt loc k' x := by
  rcases eq_or_ne (x * 2 ^ k') p with heq | hne
  · rw [freeAt, freeAt, heq, update_self, decide_eq_false h, decide_eq_false h']
  · exact freeAt_update hne

/-- The top order has no bitmap, and the pools have none. -/
theorem Bits.same (hbits : Bits map loc) (h : ∀ k, k < maxOrder - 1 → loc p ≠ some (.area k))
    (h' : ∀ k, k < maxOrder - 1 → v ≠ some (.area k)) : Bits map (update loc p v) := by
  intro k hk q
  rw [hbits k hk, freeAt_other (h k hk) (h' k hk), freeAt_other (h k hk) (h' k hk)]

/-- A block that comes on its list, or goes from it, changes the bit of its pair. -/
theorem Bits.flip (hbits : Bits map loc) (hd : 2 ^ k ∣ p)
    (hv : loc p = none ∧ v = some (.area k) ∨ loc p = some (.area k) ∧ v = none) :
    Bits (toggle map k (p / 2 ^ (1 + k))) (update loc p v) := by
  obtain ⟨x, rfl⟩ := hd
  have hpos := Nat.two_pow_pos k
  have hindex : 2 ^ k * x / 2 ^ (1 + k) = x / 2 := by
    rw [Nat.add_comm, div_two_pow_succ, Nat.mul_div_cancel_left x hpos]
  have hself : freeAt (update loc (2 ^ k * x) v) k x = !freeAt loc k x := by
    rw [freeAt, freeAt, mul_comm x, update_self]
    rcases hv with ⟨h1, h2⟩ | ⟨h1, h2⟩ <;> rw [h1, h2] <;> simp
  have hother : ∀ y, y ≠ x → freeAt (update loc (2 ^ k * x) v) k y = freeAt loc k y := by
    intro y hy
    refine freeAt_update fun heq => hy ?_
    rw [mul_comm] at heq
    exact Nat.eq_of_mul_eq_mul_left hpos heq
  intro k' hk' q
  rw [hindex]
  rcases eq_or_ne k' k with rfl | hk
  · rw [toggle, update_self]
    rcases eq_or_ne q (x / 2) with rfl | hq
    · rw [update_self, hbits _ hk']
      rcases Nat.mod_two_eq_zero_or_one x with hx | hx
      · have hx2 : 2 * (x / 2) = x := by omega
        rw [hx2, hself, hother (x + 1) (by omega), Bool.not_xor]
      · have hx2 : 2 * (x / 2) + 1 = x := by omega
        rw [hx2, hself, hother (2 * (x / 2)) (by omega), Bool.xor_not]
    · rw [update_of_ne hq, hbits _ hk', hother _ (by omega), hother _ (by omega)]
  · rw [toggle, update_of_ne hk, hbits k' hk']
    have h1 : loc (2 ^ k * x) ≠ some (.area k') := by
      rcases hv with ⟨h1, -⟩ | ⟨h1, -⟩ <;> rw [h1] <;> simp [Ne.symm hk]
    have h2 : v ≠ some (.area k') := by
      rcases hv with ⟨-, h2⟩ | ⟨-, h2⟩ <;> rw [h2] <;> simp [Ne.symm hk]
    rw [freeAt_other h1 h2, freeAt_other h1 h2]

end

/-- The bit of every page of the zone is in the bitmap. -/
theorem index_inside (z : PageAlloc.Zone) {p k : Nat} (hp : p < z.size) (hk : k < maxOrder - 1) :
    p / 2 ^ (1 + k) < 8 * z.bitmapSize k := by
  have hle : p / 2 ^ (1 + k) ≤ (z.size - 1) / 2 ^ (1 + k) := Nat.div_le_div_right (by omega)
  have hbyte : (z.size - 1) / 2 ^ (k + 4) = (z.size - 1) / 2 ^ (1 + k) / 8 := by
    rw [Nat.div_div_eq_div_mul, show (8 : Nat) = 2 ^ 3 by rfl, ← pow_add, show 1 + k + 3 = k + 4 by omega]
  rw [PageAlloc.Zone.bitmapSize, if_neg (by omega)]
  simp only [hbyte]
  omega

theorem testAndChangeBit_eq (z : PageAlloc.Zone) (s : State) {p k : Nat} (hp : p < z.size)
    (hk : k < maxOrder - 1) :
    testAndChangeBit z k (p / 2 ^ (1 + k)) s =
      .ok (s.map k (p / 2 ^ (1 + k)), { s with map := toggle s.map k (p / 2 ^ (1 + k)) }) :=
  if_pos (index_inside z hp hk)

theorem badRange_eq (z : PageAlloc.Zone) {p : Nat} (hp : p < z.size) : z.badRange p = false := by
  rw [PageAlloc.Zone.badRange, decide_eq_false (by omega), decide_eq_false (by omega)]
  rfl

/-! ## Free pages -/

def total (lists : Head → List Nat) : Nat :=
  ∑ k ∈ Finset.range maxOrder, 2 ^ k * (lists (.area k)).length

theorem sum_at {k : Nat} (hk : k < maxOrder) :
    ∑ k' ∈ Finset.range maxOrder, 2 ^ k' * (if Head.area k' = .area k then 1 else 0) = 2 ^ k := by
  simp [Finset.sum_ite_eq', hk]

theorem total_push (lists : Head → List Nat) {k : Nat} (hk : k < maxOrder) (p : Nat) :
    total (Filing.push lists (.area k) p) = total lists + 2 ^ k := by
  simp only [total, length_push, Nat.mul_add, Finset.sum_add_distrib, sum_at hk]

theorem total_push_cpu (lists : Head → List Nat) (c p : Nat) :
    total (Filing.push lists (.cpu c) p) = total lists := by
  simp [total, length_push]

theorem total_remove {lists : Head → List Nat} {loc : Nat → Option Head} (hf : Filed lists loc)
    {p k : Nat} (hk : k < maxOrder) (hloc : loc p = some (.area k)) :
    total lists = total (Filing.remove lists p) + 2 ^ k := by
  simp only [total, hf.length_remove hloc, Nat.mul_add, Finset.sum_add_distrib, sum_at hk]

theorem total_remove_cpu {lists : Head → List Nat} {loc : Nat → Option Head} (hf : Filed lists loc)
    {p c : Nat} (hloc : loc p = some (.cpu c)) : total (Filing.remove lists p) = total lists := by
  simp [total, hf.length_remove hloc]

/-! ## Buddies that are free -/

/-- Below the top order, no two buddies hang on the list for their order. -/
def Coalesced (lists : Head → List Nat) : Prop :=
  ∀ k < maxOrder - 1, ∀ p ∈ lists (.area k), p ^^^ 2 ^ k ∉ lists (.area k)

theorem Coalesced.remove {lists : Head → List Nat} (h : Coalesced lists) (p : Nat) :
    Coalesced (Filing.remove lists p) :=
  fun k hk q hq hbuddy => h k hk q (List.mem_of_mem_erase hq) (List.mem_of_mem_erase hbuddy)

/-- The pools and the top order may take any page. -/
theorem Coalesced.push_other {lists : Head → List Nat} (h : Coalesced lists) {b : Head}
    (hb : ∀ k < maxOrder - 1, Head.area k ≠ b) (p : Nat) : Coalesced (Filing.push lists b p) := by
  intro k hk q hq
  rw [Filing.push, update_of_ne (hb k hk)] at hq ⊢
  exact h k hk q hq

/-- A block whose buddy is not free may come to its list. -/
theorem Coalesced.push {lists : Head → List Nat} (h : Coalesced lists) {k p : Nat}
    (hbuddy : p ^^^ 2 ^ k ∉ lists (.area k)) : Coalesced (Filing.push lists (.area k) p) := by
  intro k' hk' q hq
  rcases eq_or_ne k' k with rfl | hne
  · have hback (x : Nat) : x ^^^ 2 ^ k' ^^^ 2 ^ k' = x := by rw [Nat.xor_assoc, Nat.xor_self, Nat.xor_zero]
    rw [Filing.push, update_self] at hq ⊢
    rcases List.mem_cons.mp hq with rfl | hq
    · refine mt List.mem_cons.mp (not_or.mpr ⟨fun heq => ?_, hbuddy⟩)
      have hzero : 2 ^ k' = 0 := by
        rw [← Nat.zero_xor (2 ^ k'), ← Nat.xor_self q, Nat.xor_assoc, heq]
      exact (Nat.two_pow_pos k').ne' hzero
    · refine mt List.mem_cons.mp (not_or.mpr ⟨fun heq => hbuddy ?_, h k' hk' q hq⟩)
      rwa [← heq, hback]
  · have hother : Head.area k' ≠ .area k := by simpa using hne
    rw [Filing.push, update_of_ne hother] at hq ⊢
    exact h k' hk' q hq

/-! ## The loops -/

/-- Between two turns of a loop: a block of order `k` is in hand, beside those of `H`. -/
structure InHand (z : PageAlloc.Zone) (s : State) (H : Nat → Option Nat) (ord : Nat → Nat)
    (loc : Nat → Option Head) (p k : Nat) : Prop where
  blocks : Blocks z.size (update H p (some k)) ord loc
  other : H p = none
  filed : Filed s.lists loc
  bits : Bits s.map loc

/-- The loops change the lists of the orders and the bitmaps. -/
structure Frame (s s' : State) : Prop where
  page : s'.page = s.page
  nrPages : s'.nrPages = s.nrPages
  freePages : s'.freePages = s.freePages
  pools : ∀ c, s'.lists (.cpu c) = s.lists (.cpu c)

theorem Frame.refl (s : State) : Frame s s := ⟨rfl, rfl, rfl, fun _ => rfl⟩

theorem Frame.trans {s s' s'' : State} (h : Frame s s') (h' : Frame s' s'') : Frame s s'' :=
  ⟨h'.page.trans h.page, h'.nrPages.trans h.nrPages, h'.freePages.trans h.freePages,
    fun c => (h'.pools c).trans (h.pools c)⟩

theorem frame_push (s : State) (map : Nat → Nat → Bool) (k p : Nat) :
    Frame s { s.addHead (.area k) p with map := map } :=
  ⟨rfl, rfl, rfl, fun c => by
    show update s.lists (.area k) (p :: s.lists (.area k)) (.cpu c) = s.lists (.cpu c)
    exact update_of_ne (by simp) _ _⟩

theorem frame_remove {s : State} {loc : Nat → Option Head} (hf : Filed s.lists loc) {p k : Nat}
    (hloc : loc p = some (.area k)) (map : Nat → Nat → Bool) :
    Frame s (State.del { s with map := map } p) := by
  refine ⟨rfl, rfl, rfl, fun c => List.erase_of_not_mem ?_⟩
  rw [hf.mem, hloc]
  simp

section
variable {z : PageAlloc.Zone} {s s' : State} {H : Nat → Option Nat} {ord : Nat → Nat}
  {loc : Nat → Option Head} {p k left low mask index T : Nat}

theorem InHand.facts (h : InHand z s H ord loc p k) :
    p < z.size ∧ k < maxOrder ∧ 2 ^ k ∣ p ∧ loc p = none := by
  obtain ⟨hp, hk, hd, hloc⟩ := h.blocks.taken p k (update_self ..)
  have hsmall := h.blocks.small p hp
  rw [hk] at hd hsmall
  exact ⟨hp, hsmall, hd, hloc⟩

/-- The bit of the block in hand is that of its buddy. -/
theorem InHand.bit (h : InHand z s H ord loc p k) (hk : k < maxOrder - 1) :
    s.map k (p / 2 ^ (1 + k)) = decide (loc (p ^^^ 2 ^ k) = some (.area k)) := by
  obtain ⟨-, -, ⟨x, rfl⟩, hloc⟩ := h.facts
  have hpos := Nat.two_pow_pos k
  have hindex : 2 ^ k * x / 2 ^ (1 + k) = x / 2 := by
    rw [Nat.add_comm, div_two_pow_succ, Nat.mul_div_cancel_left x hpos]
  have hself : freeAt loc k x = false := by
    rw [freeAt, mul_comm, hloc]
    rfl
  rw [hindex, h.bits k hk, mul_comm (2 ^ k) x, xor_two_pow]
  rcases xor_one_cases x with ⟨h1, h2⟩ | ⟨h1, h2⟩ <;> rw [h2]
  · have hx2 : 2 * (x / 2) = x := by omega
    rw [hx2, hself, Bool.false_xor, freeAt]
  · have hx2 : 2 * (x / 2) + 1 = x := by omega
    rw [hx2, hself, Bool.xor_false, freeAt, show 2 * (x / 2) = x - 1 by omega]

/-- The block in hand and its buddy become one, and the bit of the two is that of none. -/
theorem InHand.merge (h : InHand z s H ord loc p k) (hk : k < maxOrder - 1)
    (hbuddy : loc (p ^^^ 2 ^ k) = some (.area k)) :
    InHand z (State.del { s with map := toggle s.map k (p / 2 ^ (1 + k)) } (p ^^^ 2 ^ k)) H
      (Buddy.recut ord (k + 1) (p / 2 ^ (k + 1)) (k + 1)) (update loc (p ^^^ 2 ^ k) none)
      (p / 2 ^ (k + 1) * 2 ^ (k + 1)) (k + 1) := by
  obtain ⟨-, -, hd, -⟩ := h.facts
  obtain ⟨-, hkb, hdb⟩ := h.blocks.filed _ _ hbuddy
  obtain ⟨-, -, hdiv⟩ := buddy_base hd
  obtain ⟨hH, hblocks⟩ := h.blocks.merge h.other (by omega) hbuddy
  refine ⟨hblocks, hH, h.filed.remove _, ?_⟩
  rw [hkb] at hdb
  have hflip : Bits (toggle s.map k ((p ^^^ 2 ^ k) / 2 ^ (1 + k))) _ :=
    h.bits.flip hdb (.inr ⟨hbuddy, rfl⟩)
  rwa [Nat.add_comm 1 k, hdiv, Nat.add_comm k 1] at hflip

theorem two_pow_lt (hk : k < maxOrder - 1) : 2 ^ k < 2 ^ 9 := Nat.pow_lt_pow_right (by decide) hk

theorem mask_next (hk : k < maxOrder - 1) :
    (2 ^ 32 - 2 ^ k) * 2 % 2 ^ 32 = 2 ^ 32 - 2 ^ (k + 1) := by
  have hlt := two_pow_lt hk
  have hpos := Nat.two_pow_pos k
  omega

/-- The loop of `__free_pages_ok` goes up to the order at which the buddy is in use. What
it returns can go to the list for its order. -/
theorem mergeUp_ok (h : InHand z s H ord loc p k) (hleft : k + left = maxOrder)
    (hT : total s.lists + 2 ^ k = T) :
    ∃ k' p' s' ord' loc', mergeUp z left (2 ^ 32 - 2 ^ k) (p / 2 ^ (1 + k)) p s = .ok (k', p', s') ∧
      Blocks z.size (update H p' (some k')) ord' loc' ∧ H p' = none ∧
      Filed s'.lists loc' ∧ Bits s'.map (update loc' p' (some (.area k'))) ∧
      total s'.lists + 2 ^ k' = T ∧ Frame s s' ∧
      (Coalesced s.lists → Coalesced (Filing.push s'.lists (.area k') p')) := by
  induction left generalizing s ord loc p k with
  | zero =>
    have := h.facts.2.1
    omega
  | succ left ih =>
    obtain ⟨hp, hk, hd, hloc⟩ := h.facts
    have horder : maxOrder - (left + 1) = k := by omega
    by_cases htop : k = maxOrder - 1
    · -- the top order has no bitmap
      refine ⟨k, p, s, ord, loc, ?_, h.blocks, h.other, h.filed, ?_, hT, .refl s, fun hc =>
        hc.push_other (fun k' hk' => ?_) p⟩
      · rw [mergeUp, horder, if_pos]
        rw [htop]
        rfl
      · refine h.bits.same (by simp [hloc]) fun k' hk' => ?_
        simp only [ne_eq, Option.some.injEq, Head.area.injEq]
        omega
      · simp only [ne_eq, Head.area.injEq]
        omega
    have hlow : k < maxOrder - 1 := by omega
    have hlt := two_pow_lt hlow
    have hmask : (2 ^ 32 - 2 ^ k + 2 ^ (maxOrder - 1)) % 2 ^ 32 ≠ 0 := by
      rw [show 2 ^ (maxOrder - 1) = 512 from rfl]
      omega
    have hbit := testAndChangeBit_eq z s hp hlow
    rw [h.bit hlow] at hbit
    by_cases hbuddy : loc (p ^^^ 2 ^ k) = some (.area k)
    · rw [decide_eq_true hbuddy] at hbit
      have hnext := h.merge hlow hbuddy
      have htotal := total_remove h.filed hk hbuddy
      have hindex : p / 2 ^ (1 + k) / 2 =
          p / 2 ^ (k + 1) * 2 ^ (k + 1) / 2 ^ (1 + (k + 1)) := by
        rw [Nat.add_comm 1 (k + 1), div_two_pow_succ, Nat.mul_div_cancel _ (Nat.two_pow_pos _),
          Nat.add_comm 1 k]
      obtain ⟨k', p', s', ord', loc', heq, hblocks, hH, hfiled, hbits, hT', hframe, hcoalesced⟩ :=
        ih hnext (by omega) (by
          simp only [State.del]
          omega)
      refine ⟨k', p', s', ord', loc', ?_, hblocks, hH, hfiled, hbits, hT',
        (frame_remove h.filed hbuddy _).trans hframe, fun hc => hcoalesced (hc.remove _)⟩
      have hxor : (2 ^ 32 - (2 ^ 32 - 2 ^ k)) % 2 ^ 32 = 2 ^ k := by omega
      rw [mergeUp]
      simp only [if_neg hmask, horder, hbit, hxor, badRange_eq z (h.blocks.filed _ _ hbuddy).1,
        badRange_eq z hp]
      rw [mask_next hlow, hindex, and_mask (Nat.lt_trans hp z.word) (Nat.le_trans hk (by decide))]
      exact heq
    · rw [decide_eq_false hbuddy] at hbit
      rw [mergeUp]
      simp only [if_neg hmask, horder, hbit]
      exact ⟨k, p, _, ord, loc, rfl, h.blocks, h.other, h.filed, h.bits.flip hd (.inl ⟨hloc, rfl⟩), hT, ⟨rfl, rfl, rfl, fun _ => rfl⟩,
        fun hc => hc.push fun hmem => hbuddy ((h.filed.mem _ _).mp hmem)⟩

/-- The second half of a halved block stays in hand. -/
theorem InHand.halve (h : InHand z s H ord loc p (k + 1)) :
    InHand z { s.addHead (.area k) p with map := toggle s.map k (p / 2 ^ (1 + k)) } H
      (Buddy.recut ord (k + 1) (p / 2 ^ (k + 1)) k) (update loc p (some (.area k)))
      (p + 2 ^ k) k := by
  obtain ⟨-, -, hd, hloc⟩ := h.facts
  obtain ⟨hH, -, hblocks⟩ := h.blocks.halve h.other
  exact ⟨hblocks, hH, h.filed.push hloc _,
    h.bits.flip (Nat.dvd_trans (pow_dvd_pow 2 (Nat.le_succ k)) hd) (.inl ⟨hloc, rfl⟩)⟩

theorem markUsed_eq (hp : p < z.size) (hk : k < maxOrder - 1) (s : State) :
    markUsed z p k s = .ok { s with map := toggle s.map k (p / 2 ^ (1 + k)) } := by
  rw [markUsed, testAndChangeBit_eq z s hp hk]
  rfl

theorem expand_done (hp : p < z.size) (s : State) : expand z low low p s = .ok (p, s) := by
  cases low with
  | zero => rw [expand, badRange_eq z hp]; rfl
  | succ low => rw [expand, badRange_eq z hp, if_pos (Nat.le_refl _)]; rfl

theorem expand_next (hlt : low < k + 1) (hp : p < z.size)
    (hmark : markUsed z p k (s.addHead (.area k) p) = .ok s') :
    expand z low (k + 1) p s = expand z low k (p + 2 ^ k) s' := by
  rw [expand, if_neg (Nat.not_le.mpr hlt)]
  simp only [badRange_eq z hp, hmark]
  rfl

/-- `expand` leaves a block of the order that is asked for in hand. -/
theorem expand_ok (h : InHand z s H ord loc p k) (hle : low ≤ k)
    (hT : total s.lists + 2 ^ k = T) :
    ∃ p' s' ord' loc', expand z low k p s = .ok (p', s') ∧ InHand z s' H ord' loc' p' low ∧
      p ≤ p' ∧ p' < p + 2 ^ k ∧ total s'.lists + 2 ^ low = T ∧ Frame s s' ∧
      (Coalesced s.lists → Coalesced s'.lists) := by
  induction k generalizing s ord loc p with
  | zero =>
    obtain rfl : low = 0 := by omega
    exact ⟨p, s, ord, loc, expand_done h.facts.1 s, h, Nat.le_refl p,
      Nat.lt_add_of_pos_right (Nat.two_pow_pos 0), hT, .refl s, id⟩
  | succ k ih =>
    rcases Nat.lt_or_eq_of_le hle with hlt | rfl
    · obtain ⟨hp, hk, hd, -⟩ := h.facts
      have hmark := markUsed_eq hp (show k < maxOrder - 1 by omega) (s.addHead (.area k) p)
      have htotal := total_push s.lists (show k < maxOrder by omega) p
      obtain ⟨p', s', ord', loc', heq, hhand, hge, hp', hT', hframe, hcoalesced⟩ :=
        ih h.halve (by omega) (by
          simp only [State.addHead]
          omega)
      -- the other half is in hand
      have hother : p ^^^ 2 ^ k ∉ s.lists (.area k) := by
        rw [first_half hd, h.filed.mem, (h.blocks.halve h.other).2.1]
        exact Option.some_ne_none _ ∘ Eq.symm
      refine ⟨p', s', ord', loc', ?_, hhand, by omega, by rw [pow_succ]; omega, hT',
        (frame_push s _ k p).trans hframe, fun hc => hcoalesced (hc.push hother)⟩
      rw [expand_next hlt hp hmark]
      exact heq
    · exact ⟨p, s, ord, loc, expand_done h.facts.1 s, h, Nat.le_refl p,
        Nat.lt_add_of_pos_right (Nat.two_pow_pos _), hT, .refl s, id⟩

end

/-! ## All free pages -/

/-- The pages of the free blocks, one after the other. -/
def freePageList (lists : Head → List Nat) : List Nat :=
  (List.range maxOrder).flatMap fun k => (lists (.area k)).flatMap fun p => List.range' p (2 ^ k)

theorem length_freePageList (lists : Head → List Nat) :
    (freePageList lists).length = total lists := by
  have hinner : ∀ k, ((lists (.area k)).flatMap fun p => List.range' p (2 ^ k)).length =
      2 ^ k * (lists (.area k)).length := by
    intro k
    simp [List.length_flatMap, mul_comm]
  rw [freePageList, List.length_flatMap]
  simp only [hinner]
  rfl

section
variable {size : Nat} {held : Nat → Option Nat} {ord : Nat → Nat} {loc : Nat → Option Head}
  {lists : Head → List Nat}

/-- Free blocks that have a page in common are one. -/
theorem Blocks.free_unique (hb : Blocks size held ord loc) (hf : Filed lists loc)
    {p k p' k' j : Nat} (hp : p ∈ lists (.area k)) (hp' : p' ∈ lists (.area k'))
    (hj : p ≤ j ∧ j < p + 2 ^ k) (hj' : p' ≤ j ∧ j < p' + 2 ^ k') : p = p' ∧ k = k' := by
  obtain ⟨hs, ho, hd⟩ := hb.filed p _ ((hf.mem p _).mp hp)
  obtain ⟨hs', ho', hd'⟩ := hb.filed p' _ ((hf.mem p' _).mp hp')
  obtain rfl : ord p = k := ho
  obtain rfl : ord p' = k' := ho'
  have heq := hb.tiling.head_unique hs hs' hd hd' ((mem_block_iff hd).mpr hj)
    ((mem_block_iff hd').mpr hj')
  exact ⟨heq, by rw [heq]⟩

theorem Blocks.nodup_freePageList (hb : Blocks size held ord loc) (hf : Filed lists loc) :
    (freePageList lists).Nodup := by
  have hrange : ∀ {p n j : Nat}, j ∈ List.range' p n ↔ p ≤ j ∧ j < p + n := by
    intro p n j
    rw [List.mem_range'_1]
  refine List.nodup_flatMap.mpr ⟨?_, ?_⟩
  · intro k _
    refine List.nodup_flatMap.mpr ⟨fun p _ => List.nodup_range', ?_⟩
    refine (hf.nodup (.area k)).imp_of_mem ?_
    intro p p' hp hp' hne j hj hj'
    exact hne (hb.free_unique hf hp hp' (hrange.mp hj) (hrange.mp hj')).1
  · refine List.nodup_range.imp ?_
    intro k k' hne j hj hj'
    obtain ⟨p, hp, hjp⟩ := List.mem_flatMap.mp hj
    obtain ⟨p', hp', hjp'⟩ := List.mem_flatMap.mp hj'
    exact hne (hb.free_unique hf hp hp' (hrange.mp hjp) (hrange.mp hjp')).2

theorem total_le (hb : Blocks size held ord loc) (hf : Filed lists loc) : total lists ≤ size := by
  have hsub : freePageList lists ⊆ List.range size := by
    intro j hj
    obtain ⟨k, -, hj⟩ := List.mem_flatMap.mp hj
    obtain ⟨p, hp, hj⟩ := List.mem_flatMap.mp hj
    obtain ⟨hs, ho, hd⟩ := hb.filed p _ ((hf.mem p _).mp hp)
    have hle := hb.tiling.block_le hs hd
    rw [ho] at hle
    rw [List.mem_range'_1] at hj
    exact List.mem_range.mpr (Nat.lt_of_lt_of_le hj.2 hle)
  have hlen := ((hb.nodup_freePageList hf).subperm hsub).length_le
  rwa [length_freePageList, List.length_range] at hlen

end

end CustomKernel.Mm.Zone

import CustomKernel.Mm.Bootmem
import CustomKernel.Lib.Transition

/-! # Blocks of the boot allocator

Which bytes are in use is not written down anywhere: a bit stands for a page, and `last_pos` with
`last_offset` for the place up to which the last page is in use. The place is trusted when the page
behind it is found, although the rest of the page may have been reserved by then. -/
namespace CustomKernel.Mm.BootmemRuns
open Lib.Align Lib.Transition Mm.Bootmem Function

/-! ## Calls -/

inductive Op where
  | reserve (addr size : BitVec 32)
  | free (addr size : BitVec 32)
  | alloc (q : Request)
deriving DecidableEq, Repr

/-- The data with their history: the bytes that are allocated or reserved, and the end of the last
block. -/
structure State where
  data : Data
  live : Nat → Prop
  ended : Nat

def Range (addr size : BitVec 32) (b : Nat) : Prop :=
  addr.toNat ≤ b ∧ b < addr.toNat + size.toNat

/-- All the memory of a node is reserved at first. -/
def boot (n : Node) : State where
  data := initBootmemCore
  live b := n.first * 4096 ≤ b ∧ b < n.stop * 4096
  ended := 0

inductive Step (n : Node) (s : State) : Op → State → Prop where
  | reserve {addr size : BitVec 32} {d : Data} (hcall : reserveBootmemCore n addr size s.data = .ok d) :
      Step n s (.reserve addr size)
        { s with data := d, live := fun b => s.live b ∨ Range addr size b }
  | free {addr size : BitVec 32} {d : Data} (hlive : ∀ b, Range addr size b → s.live b)
      (hcall : freeBootmemCore n addr size s.data = .ok d) :
      Step n s (.free addr size)
        { s with data := d, live := fun b => s.live b ∧ ¬ Range addr size b }
  | alloc {fuel : Nat} {q : Request} {ret : BitVec 32} {d : Data}
      (hcall : allocBootmemCore fuel n q s.data = some (.ok (some ret, d))) :
      Step n s (.alloc q)
        { data := d, live := fun b => s.live b ∨ Range ret q.size b,
          ended := ret.toNat + q.size.toNat }
  | null {fuel : Nat} {q : Request} {d : Data}
      (hcall : allocBootmemCore fuel n q s.data = some (.ok (none, d))) :
      Step n s (.alloc q) { s with data := d }

/-- The rest of the page in which the last block ended. -/
def Tail (s : State) (b : Nat) : Prop := s.ended ≤ b ∧ b < roundUp 4096 s.ended

/-- The block that a call returns is aligned, lies in free pages or behind the last block, and holds
nothing that is in use. -/
structure Sound (n : Node) (s : State) (q : Request) (ret : BitVec 32) : Prop where
  aligned : q.align ≠ 0 → q.align.toNat ∣ ret.toNat
  unused : ∀ b, Range ret q.size b →
    (∃ i < n.pages, s.data.map i = false ∧ b / 4096 = n.first + i) ∨ Tail s b
  disjoint : ∀ b, Range ret q.size b → ¬ s.live b

/-- A reservation stays in the node and out of the rest of the page in which the last block ended.
What is freed does not start in the last page of all. A block has a size whose pages can be
counted and, if the last one ended inside a page, an alignment. -/
def Spared (n : Node) (s : State) : Op → Prop
  | .reserve addr size => n.first * 4096 ≤ addr.toNat ∧ addr.toNat + size.toNat ≤ n.stop * 4096 ∧
      ∀ b, Range addr size b → ¬ Tail s b
  | .free addr _ => addr.toNat + 4095 < 2 ^ 32
  | .alloc q => q.size.toNat ≤ 2 ^ 32 - 4096 ∧ (q.align ≠ 0 ∨ s.ended % 4096 = 0)

/-! ## Bits -/

theorem reserveBits_apply (count i : Nat) (map : Nat → Bool) (j : Nat) :
    reserveBits count i map j = if i ≤ j ∧ j < i + count then true else map j := by
  induction count generalizing i map with
  | zero => rw [reserveBits, if_neg (by omega)]
  | succ count ih =>
    rw [reserveBits, ih]
    rcases eq_or_ne j i with rfl | hne
    · rw [if_neg (by omega), if_pos (by omega), update_self]
    · rw [update_of_ne hne]
      exact if_congr (by omega) rfl rfl

theorem testAndChangeBits_ok {bit : Bool} {count i : Nat} {map map' : Nat → Bool}
    (h : testAndChangeBits bit count i map = .ok map') (j : Nat) :
    map' j = if i ≤ j ∧ j < i + count then bit else map j := by
  induction count generalizing i map with
  | zero =>
    cases h
    rw [if_neg (by omega)]
  | succ count ih =>
    rw [testAndChangeBits] at h
    split at h
    · cases h
    · rw [ih h]
      rcases eq_or_ne j i with rfl | hne
      · rw [if_neg (by omega), if_pos (by omega), update_self]
      · rw [update_of_ne hne]
        exact if_congr (by omega) rfl rfl

/-! ## Invariant -/

theorem tail_iff {s : State} (hended : s.ended % 4096 ≠ 0) (b : Nat) :
    Tail s b ↔ s.ended ≤ b ∧ b / 4096 = s.ended / 4096 := by
  rw [Tail, roundUp_of_mod_ne_zero (by decide) hended]
  omega

theorem not_tail {s : State} (hended : s.ended % 4096 = 0) (b : Nat) : ¬ Tail s b := by
  rintro ⟨hlo, hhi⟩
  rw [roundUp_of_dvd (by decide) (Nat.dvd_of_mod_eq_zero hended)] at hhi
  omega

/-- What is in use has its bit, and the place of the last block is where it ended. -/
structure Good (n : Node) (s : State) : Prop where
  clear : ∀ i, s.data.map i = false → ∀ b, b / 4096 = n.first + i → ¬ s.live b
  inside : ∀ b, s.live b → n.first * 4096 ≤ b ∧ b < n.stop * 4096
  offset : s.data.lastOffset.toNat = s.ended % 4096
  pos : s.ended % 4096 ≠ 0 → s.ended / 4096 = n.first + s.data.lastPos.toNat ∧
    s.data.lastPos.toNat < n.pages ∧ s.data.map s.data.lastPos.toNat = true
  tail : ∀ b, Tail s b → ¬ s.live b

variable {n : Node} {s s' : State}

theorem boot_good (n : Node) : Good n (boot n) where
  clear i h := by cases h
  inside b h := h
  offset := rfl
  pos h := absurd rfl h
  tail b h := absurd h.2 (by simp [boot, roundUp])

section
variable {addr size : BitVec 32} {d d₀ : Data}

theorem toNat_end (hfirst : n.first * 4096 ≤ addr.toNat) :
    (addr + size - n.bootStart).toNat =
      (addr.toNat + size.toNat - n.first * 4096) % 2 ^ 32 := by
  have hbound := n.bootStart.isLt
  rw [BitVec.toNat_sub, BitVec.toNat_add, toNat_bootStart]
  omega

theorem reserve_cases (hcall : reserveBootmemCore n addr size d₀ = .ok d) :
    ∃ sidx eidx : BitVec 32, sidx = (addr - n.bootStart) / pageSize ∧
      eidx = pagesFor (addr + size - n.bootStart) ∧ sidx < eidx ∧
      d = { d₀ with map := reserveBits (eidx.toNat - sidx.toNat) sidx.toNat d₀.map } := by
  rw [reserveBootmemCore] at hcall
  split at hcall
  · cases hcall
  split at hcall
  · cases hcall
  rename_i hlt
  split at hcall
  · cases hcall
  split at hcall
  · cases hcall
  cases hcall
  exact ⟨_, _, rfl, rfl, BitVec.not_le.mp hlt, rfl⟩

theorem reserve_map (hcall : reserveBootmemCore n addr size s.data = .ok d)
    (hfirst : n.first * 4096 ≤ addr.toNat) (hstop : addr.toNat + size.toNat ≤ n.stop * 4096)
    {i : Nat} (hi : d.map i = false) :
    s.data.map i = false ∧ ∀ b, Range addr size b → b / 4096 ≠ n.first + i := by
  have hfits := n.fits
  obtain ⟨sidx, eidx, hsidx, heidx, hlt, rfl⟩ := reserve_cases hcall
  have hlo : sidx.toNat = (addr.toNat - n.first * 4096) / 4096 := by
    rw [hsidx, toNat_div_pageSize, BitVec.toNat_sub_of_le, toNat_bootStart]
    rwa [BitVec.le_def, toNat_bootStart]
  have hhi := toNat_pagesFor (addr + size - n.bootStart)
  rw [toNat_end hfirst, ← heidx] at hhi
  rw [BitVec.lt_def] at hlt
  have hbit := (reserveBits_apply (eidx.toNat - sidx.toNat) sidx.toNat s.data.map i).symm.trans hi
  split at hbit
  · cases hbit
  · rename_i hout
    refine ⟨hbit, fun b hb hpage => hout ?_⟩
    have hbefore := hb.1
    have hbehind := hb.2
    omega

theorem reserve_good (hgood : Good n s) (hspared : Spared n s (.reserve addr size))
    (hcall : reserveBootmemCore n addr size s.data = .ok d) :
    Good n { s with data := d, live := fun b => s.live b ∨ Range addr size b } := by
  obtain ⟨hfirst, hstop, htail⟩ := hspared
  have hmap {i : Nat} (hi : d.map i = false) := reserve_map hcall hfirst hstop hi
  have hlast : d.lastPos = s.data.lastPos ∧ d.lastOffset = s.data.lastOffset := by
    obtain ⟨_, _, -, -, -, rfl⟩ := reserve_cases hcall
    exact ⟨rfl, rfl⟩
  refine ⟨?_, ?_, by rw [hlast.2]; exact hgood.offset, ?_, ?_⟩
  · rintro i hi b hpage (hlive | hrange)
    · exact hgood.clear i (hmap hi).1 b hpage hlive
    · exact (hmap hi).2 b hrange hpage
  · rintro b (hlive | ⟨hlo, hhi⟩)
    · exact hgood.inside b hlive
    · omega
  · intro hended
    obtain ⟨hpage, hlt, hset⟩ := hgood.pos hended
    rw [hlast.1]
    refine ⟨hpage, hlt, ?_⟩
    cases hi : d.map s.data.lastPos.toNat with
    | true => rfl
    | false => exact absurd ((hmap hi).1.symm.trans hset) Bool.false_ne_true
  · rintro b hb (hlive | hrange)
    · exact hgood.tail b hb hlive
    · exact htail b hrange hb

theorem map_eq_ok {x : Except Fault (Nat → Bool)} {f : (Nat → Bool) → Data}
    (h : x.map f = .ok d) : ∃ map, x = .ok map ∧ d = f map := by
  cases x with
  | error e => cases h
  | ok map =>
    cases h
    exact ⟨map, rfl, rfl⟩

theorem free_cases (hcall : freeBootmemCore n addr size d₀ = .ok d) :
    size ≠ 0 ∧ ∃ (sidx eidx : BitVec 32) (map : Nat → Bool),
      sidx = pagesFor addr - n.bootStart / pageSize ∧
      eidx = (addr + size - n.bootStart) / pageSize ∧
      testAndChangeBits false (eidx.toNat - sidx.toNat) sidx.toNat d₀.map = .ok map ∧
      d = { d₀ with map := map } := by
  rw [freeBootmemCore] at hcall
  split at hcall
  · cases hcall
  rename_i hsize
  split at hcall
  · cases hcall
  obtain ⟨map, hbits, rfl⟩ := map_eq_ok hcall
  exact ⟨hsize, _, _, map, rfl, rfl, hbits, rfl⟩

/-- Only pages that are in the range as a whole lose their bit. -/
theorem free_map (hcall : freeBootmemCore n addr size s.data = .ok d)
    (hfirst : n.first * 4096 ≤ addr.toNat) (haddr : addr.toNat + 4095 < 2 ^ 32) {i : Nat} (hi : d.map i = false) :
    s.data.map i = false ∨ (addr.toNat ≤ (n.first + i) * 4096 ∧
      (n.first + i) * 4096 + 4096 ≤ addr.toNat + size.toNat) := by
  obtain ⟨hsize, sidx, eidx, map, hsidx, heidx, hbits, rfl⟩ := free_cases hcall
  have hbase : (n.bootStart / pageSize).toNat = n.first := by
    rw [toNat_div_pageSize, toNat_bootStart, Nat.mul_div_cancel _ (by decide)]
  have hup := toNat_pagesFor addr
  rw [Nat.mod_eq_of_lt haddr] at hup
  have hlo : sidx.toNat = (addr.toNat + 4095) / 4096 - n.first := by
    rw [hsidx, BitVec.toNat_sub_of_le, hbase, hup]
    rw [BitVec.le_def, hbase, hup]
    omega
  have hhi : eidx.toNat = (addr.toNat + size.toNat - n.first * 4096) % 2 ^ 32 / 4096 := by
    rw [heidx, toNat_div_pageSize, toNat_end hfirst]
  have hbit := (testAndChangeBits_ok hbits i).symm.trans hi
  split at hbit
  · right
    omega
  · exact .inl hbit

theorem free_good (hgood : Good n s) (haddr : Spared n s (.free addr size))
    (hlive : ∀ b, Range addr size b → s.live b)
    (hcall : freeBootmemCore n addr size s.data = .ok d) :
    Good n { s with data := d, live := fun b => s.live b ∧ ¬ Range addr size b } := by
  have hlast : d.lastPos = s.data.lastPos ∧ d.lastOffset = s.data.lastOffset := by
    obtain ⟨-, _, _, _, -, -, -, rfl⟩ := free_cases hcall
    exact ⟨rfl, rfl⟩
  have hsize : size.toNat ≠ 0 := mt (fun h => BitVec.eq_of_toNat_eq h) (free_cases hcall).1
  have hfirst := (hgood.inside _ (hlive addr.toNat ⟨Nat.le_refl _, by omega⟩)).1
  have hmap {i : Nat} (hi : d.map i = false) := free_map hcall hfirst haddr hi
  refine ⟨?_, fun b hb => hgood.inside b hb.1, by rw [hlast.2]; exact hgood.offset, ?_,
    fun b hb hlive' => hgood.tail b hb hlive'.1⟩
  · rintro i hi b hpage ⟨hlive', hout⟩
    rcases hmap hi with hclear | hwhole
    · exact hgood.clear i hclear b hpage hlive'
    · refine hout ⟨?_, ?_⟩ <;> omega
  · intro hended
    obtain ⟨hpage, hlt, hset⟩ := hgood.pos hended
    rw [hlast.1]
    refine ⟨hpage, hlt, ?_⟩
    cases hi : d.map s.data.lastPos.toNat with
    | true => rfl
    | false =>
      rcases hmap hi with hclear | hwhole
      · exact absurd (hclear.symm.trans hset) Bool.false_ne_true
      · -- the rest of this page is not in use
        refine absurd (hlive s.ended ⟨by omega, by omega⟩) (hgood.tail s.ended ?_)
        exact (tail_iff hended s.ended).mpr ⟨Nat.le_refl _, rfl⟩

end

/-! ## Blocks -/

/-- Where a block is put: in the tail of the last page as far as it goes, and then in pages from
`start` on. -/
structure Placed (n : Node) (s : State) (q : Request) (start : Nat) (c : Chunk) : Prop where
  aligned : q.align ≠ 0 → q.align.toNat ∣ c.ret.toNat
  head : ∀ b, Range c.ret q.size b → b / 4096 < n.first + start → Tail s b
  pages : c.ret.toNat + q.size.toNat ≤ (n.first + start + c.areasize.toNat) * 4096
  count : c.areasize.toNat ≤ (pagesFor q.size).toNat
  offset : c.lastOffset.toNat = (c.ret.toNat + q.size.toNat) % 4096
  pos : (c.ret.toNat + q.size.toNat) % 4096 ≠ 0 →
    (c.ret.toNat + q.size.toNat) / 4096 = n.first + c.lastPos.toNat ∧
    ((start ≤ c.lastPos.toNat ∧ c.lastPos.toNat < start + c.areasize.toNat) ∨
      (c.lastPos = s.data.lastPos ∧ s.ended % 4096 ≠ 0 ∧ s.ended ≤ c.ret.toNat + q.size.toNat))

section
variable {q : Request} {start fuel : Nat} {c : Chunk} {ret : BitVec 32} {d : Data}

theorem toNat_lastPage {x : BitVec 32} {a : Nat} (hpos : 0 < a + x.toNat)
    (hlt : a + x.toNat < 2 ^ 32) : (BitVec.ofNat 32 a + x - 1).toNat = a + x.toNat - 1 := by
  have hsum : (BitVec.ofNat 32 a + x).toNat = a + x.toNat := by
    rw [BitVec.toNat_add, BitVec.toNat_ofNat]
    omega
  rw [toNat_sub_one (by omega), hsum]

theorem placed_alone (hsize : q.size ≠ 0) (hlarge : q.size.toNat ≤ 2 ^ 32 - 4096)
    (hstart : start + (pagesFor q.size).toNat ≤ n.pages)
    (haligned : q.align ≠ 0 → q.align.toNat ∣ n.bootStart.toNat + start * 4096) :
    Placed n s q start ⟨BitVec.ofNat 32 start * pageSize + n.bootStart, pagesFor q.size,
      BitVec.ofNat 32 start + pagesFor q.size - 1, q.size &&& ~~~pageMask⟩ := by
  have hfits := n.fits
  have hpos : q.size.toNat ≠ 0 := mt (fun h => BitVec.eq_of_toNat_eq h) hsize
  have hcount := toNat_pagesFor q.size
  rw [Node.pages] at hstart
  have hret : (BitVec.ofNat 32 start * pageSize + n.bootStart).toNat = (n.first + start) * 4096 := by
    rw [BitVec.toNat_add, BitVec.toNat_mul, toNat_bootStart, BitVec.toNat_ofNat, toNat_pageSize]
    omega
  have hlast := toNat_lastPage (x := pagesFor q.size) (a := start) (by omega) (by omega)
  refine ⟨?_, ?_, ?_, Nat.le_refl _, ?_, ?_⟩
  · intro hne
    rw [hret, Nat.add_mul, ← toNat_bootStart]
    exact haligned hne
  · rintro b ⟨hlo, -⟩ hb
    simp only [hret] at hlo
    omega
  · simp only [hret]
    omega
  · simp only [hret, toNat_and_pageMask]
    omega
  · intro hrest
    simp only [hret, hlast] at hrest ⊢
    omega

/-- A block that starts in the page in which the last one ended. -/
theorem placed_joined {o : BitVec 32} (hgood : Good n s) (hended : s.ended % 4096 ≠ 0)
    (hnext : s.data.lastPos.toNat + 1 = start) (hlarge : q.size.toNat ≤ 2 ^ 32 - 4096)
    (hlt : start < n.pages) (hlo : s.data.lastOffset.toNat ≤ o.toNat)
    (hhi : o.toNat ≤ 4096)
    (hdvd : q.align ≠ 0 → q.align.toNat ∣ (n.first + s.data.lastPos.toNat) * 4096 + o.toNat) :
    Placed n s q start (join n q s.data (BitVec.ofNat 32 start) o) := by
  have hfits := n.fits
  obtain ⟨hpage, -, -⟩ := hgood.pos hended
  have hoffset := hgood.offset
  have hcount := toNat_pagesFor q.size
  rw [Node.pages] at hlt
  have hret : (s.data.lastPos * pageSize + o + n.bootStart).toNat =
      (n.first + s.data.lastPos.toNat) * 4096 + o.toNat := by
    rw [BitVec.toNat_add, BitVec.toNat_add, BitVec.toNat_mul, toNat_bootStart, toNat_pageSize]
    omega
  have hrest : (pageSize - o).toNat = 4096 - o.toNat := by
    rw [BitVec.toNat_sub_of_le (BitVec.le_def.mpr hhi), toNat_pageSize]
    rfl
  have hhead (b : Nat) (hb : Range (s.data.lastPos * pageSize + o + n.bootStart) q.size b)
      (hbefore : b / 4096 < n.first + start) : Tail s b := by
    have hlo := hb.1
    rw [tail_iff hended]
    omega
  rw [← hret] at hdvd
  by_cases hfit : q.size < pageSize - o
  · rw [join, if_pos hfit]
    rw [BitVec.lt_def, hrest] at hfit
    have hend : ((o + q.size) &&& ~~~pageMask).toNat = o.toNat + q.size.toNat := by
      rw [toNat_and_pageMask, BitVec.toNat_add]
      omega
    refine ⟨hdvd, hhead, ?_, Nat.zero_le _, ?_, ?_⟩
    · simp only [hret]
      omega
    · simp only [hret, hend]
      omega
    · intro _
      simp only [hret]
      exact ⟨by omega, .inr ⟨trivial, hended, by omega⟩⟩
  · rw [join, if_neg hfit]
    rw [BitVec.lt_def, hrest] at hfit
    have hleft : (q.size - (pageSize - o)).toNat = q.size.toNat - (4096 - o.toNat) := by
      rw [BitVec.toNat_sub_of_le, hrest]
      rw [BitVec.le_def, hrest]
      omega
    have hpages := toNat_pagesFor (q.size - (pageSize - o))
    have hlast := toNat_lastPage (x := pagesFor (q.size - (pageSize - o))) (a := start)
      (by omega) (by omega)
    refine ⟨hdvd, hhead, ?_, ?_, ?_, ?_⟩
    · simp only [hret]
      omega
    · simp only [hpages, hcount]
      omega
    · simp only [hret, toNat_and_pageMask, hleft]
      omega
    · intro hpart
      simp only [hret, hlast] at hpart ⊢
      omega

theorem found_placed (hgood : Good n s) (hsize : q.size ≠ 0)
    (hlarge : q.size.toNat ≤ 2 ^ 32 - 4096) (hand : q.align &&& (q.align - 1) = 0)
    (halign : q.align ≠ 0 ∨ s.ended % 4096 = 0)
    (hstart : start + (pagesFor q.size).toNat ≤ n.pages) (hlt : start < n.pages)
    (haligned : q.align ≠ 0 → q.align.toNat ∣ n.bootStart.toNat + start * 4096)
    (hfound : found n q s.data (BitVec.ofNat 32 start) = .ok c) : Placed n s q start c := by
  have hoffset := hgood.offset
  rw [found] at hfound
  split at hfound
  · cases hfound
  split at hfound
  · rename_i hmerge
    obtain ⟨hsmall, hpart, hnext⟩ := hmerge
    have hended : s.ended % 4096 ≠ 0 := by
      rw [← hoffset]
      exact mt (fun h => BitVec.eq_of_toNat_eq h) hpart
    obtain ⟨k, hk⟩ := exists_two_pow (halign.resolve_right hended) hand
    have hle : 2 ^ k ≤ 2 ^ 12 := by
      rw [BitVec.le_def, hk] at hsmall
      exact hsmall
    have hdvd : 2 ^ k ∣ 4096 := Nat.pow_dvd_pow 2 ((Nat.pow_le_pow_iff_right (by decide)).mp hle)
    have hround : roundUp (2 ^ k) s.data.lastOffset.toNat ≤ 4096 :=
      roundUp_le (Nat.two_pow_pos k) hdvd (by omega)
    have ho := toNat_roundUp (x := s.data.lastOffset) hk
    rw [if_pos (by omega)] at ho
    have hbug : ¬ pageSize < (s.data.lastOffset + q.align - 1) &&& ~~~(q.align - 1) := by
      rw [BitVec.lt_def, ho]
      exact Nat.not_lt.mpr hround
    have hjoin := Except.ok.inj ((if_neg hbug).symm.trans hfound)
    rw [← hjoin]
    refine placed_joined hgood hended ?_ hlarge hlt (ho ▸ le_roundUp (Nat.two_pow_pos k))
      (ho ▸ hround) ?_
    · have hpos := (hgood.pos hended).2.1
      have hfits := n.fits
      have hwords := congrArg BitVec.toNat hnext
      have hone : (1 : BitVec 32).toNat = 1 := rfl
      rw [BitVec.toNat_add, hone, BitVec.toNat_ofNat] at hwords
      rw [Node.pages] at hpos hlt
      omega
    · intro _
      rw [hk, ho]
      exact Nat.dvd_add (hdvd.mul_left _) dvd_roundUp
  · cases hfound
    exact placed_alone hsize hlarge hstart haligned

theorem Placed.page (h : Placed n s q start c)
    (hrun : FreeRun n.pages s.data.map (max 1 (pagesFor q.size).toNat) start) {b : Nat}
    (hb : Range c.ret q.size b) :
    (∃ i, start ≤ i ∧ i < start + c.areasize.toNat ∧ i < n.pages ∧ s.data.map i = false ∧
      b / 4096 = n.first + i) ∨ Tail s b := by
  rcases Nat.lt_or_ge (b / 4096) (n.first + start) with hlt | hge
  · exact .inr (h.head b hb hlt)
  · have hpages := h.pages
    have hcount := h.count
    have hend := hb.2
    have hstart := hrun.1
    refine .inl ⟨b / 4096 - n.first, by omega, by omega, by omega, ?_, by omega⟩
    exact hrun.2 _ (by omega) (by omega)

section
variable (hgood : Good n s) (hspared : Spared n s (.alloc q))
  (hcall : allocBootmemCore fuel n q s.data = some (.ok (some ret, d)))
include hgood hspared hcall

/-- The block of a call, and what the call makes of the data. -/
theorem alloc_placed : ∃ start c, FreeRun n.pages s.data.map (max 1 (pagesFor q.size).toNat) start ∧
      Placed n s q start c ∧ ret = c.ret ∧ d.lastPos = c.lastPos ∧ d.lastOffset = c.lastOffset ∧
      ∀ j, d.map j = if start ≤ j ∧ j < start + c.areasize.toNat then true else s.data.map j := by
  obtain ⟨hsize, hand, ⟨-, hnone, -⟩ | ⟨start, c, map, hsearch, hfound, hbits, hret, rfl⟩⟩ :=
    allocBootmemCore_cases hcall
  · cases hnone
  · cases hret
    obtain ⟨hrun, haligned⟩ := search_found hand hsearch
    have hstart := hrun.1
    refine ⟨start, c, hrun, ?_, rfl, rfl, rfl, testAndChangeBits_ok hbits⟩
    exact found_placed hgood hsize hspared.1 hand hspared.2 (by omega) (by omega) haligned hfound

theorem alloc_sound : Sound n s q ret := by
  obtain ⟨start, c, hrun, hplaced, rfl, -⟩ := alloc_placed hgood hspared hcall
  refine ⟨hplaced.aligned, ?_, ?_⟩
  · intro b hb
    rcases hplaced.page hrun hb with ⟨i, -, -, hi, hclear, hpage⟩ | htail
    · exact .inl ⟨i, hi, hclear, hpage⟩
    · exact .inr htail
  · intro b hb
    rcases hplaced.page hrun hb with ⟨i, -, -, -, hclear, hpage⟩ | htail
    · exact hgood.clear i hclear b hpage
    · exact hgood.tail b htail

theorem alloc_good :
    Good n { data := d, live := fun b => s.live b ∨ Range ret q.size b,
             ended := ret.toNat + q.size.toNat } := by
  obtain ⟨start, c, hrun, hplaced, rfl, hlastPos, hlastOffset, hmap⟩ :=
    alloc_placed hgood hspared hcall
  -- the tail is on a page that has its bit
  have htail {b : Nat} (hb : Tail s b) : s.ended % 4096 ≠ 0 ∧ s.ended ≤ b ∧
      b / 4096 = n.first + s.data.lastPos.toNat := by
    have hended : s.ended % 4096 ≠ 0 := fun hzero => not_tail hzero b hb
    obtain ⟨hle, hpage⟩ := (tail_iff hended b).mp hb
    exact ⟨hended, hle, hpage.trans (hgood.pos hended).1⟩
  refine ⟨?_, ?_, ?_, ?_, ?_⟩
  · intro i hi b hpage
    rw [hmap] at hi
    split at hi
    · cases hi
    next hout =>
      rintro (hlive | hrange)
      · exact hgood.clear i hi b hpage hlive
      · rcases hplaced.page hrun hrange with ⟨j, hlo, hhi, -, -, hj⟩ | hb
        · obtain rfl : i = j := by omega
          exact hout ⟨hlo, hhi⟩
        · obtain ⟨hended, -, hb⟩ := htail hb
          obtain rfl : i = s.data.lastPos.toNat := by omega
          exact absurd (hi.symm.trans (hgood.pos hended).2.2) Bool.false_ne_true
  · rintro b (hlive | hrange)
    · exact hgood.inside b hlive
    · rcases hplaced.page hrun hrange with ⟨j, -, -, hj, -, hpage⟩ | hb
      · rw [Node.pages] at hj
        omega
      · obtain ⟨hended, -, hb⟩ := htail hb
        have hlt := (hgood.pos hended).2.1
        rw [Node.pages] at hlt
        omega
  · rw [hlastOffset]
    exact hplaced.offset
  · intro hended
    obtain ⟨hpage, hnew | ⟨hold, hpart, -⟩⟩ := hplaced.pos hended
    · have hcount := hplaced.count
      have hstart := hrun.1
      rw [hlastPos, hmap, if_pos hnew]
      exact ⟨hpage, by omega, rfl⟩
    · obtain ⟨-, hlt, hset⟩ := hgood.pos hpart
      rw [hold] at hlastPos hpage
      rw [hlastPos, hmap, hset, ite_self]
      exact ⟨hpage, hlt, rfl⟩
  · intro b hb
    have hended : (c.ret.toNat + q.size.toNat) % 4096 ≠ 0 := fun hzero => not_tail hzero b hb
    obtain ⟨hle, hsame⟩ := (tail_iff hended b).mp hb
    obtain ⟨hpage, hcase⟩ := hplaced.pos hended
    have hold : ¬ s.live b := by
      rcases hcase with ⟨hlo, hhi⟩ | ⟨hlast, hpart, hbefore⟩
      · have hcount := hplaced.count
        refine hgood.clear c.lastPos.toNat (hrun.2 _ hlo ?_) b (hsame.trans hpage)
        omega
      · refine hgood.tail b ((tail_iff hpart b).mpr ⟨hbefore.trans hle, ?_⟩)
        rw [hsame.trans hpage, hlast, (hgood.pos hpart).1]
    rintro (hlive | hrange)
    · exact hold hlive
    · exact Nat.not_lt.mpr hle hrange.2

end
end

/-! ## Runs -/

theorem step_good {o : Op} (hgood : Good n s) (h : Meeting (Spared n) (Step n) s o s') :
    Good n s' := by
  obtain ⟨hspared, hstep⟩ := h
  cases hstep with
  | reserve hcall => exact reserve_good hgood hspared hcall
  | free hlive hcall => exact free_good hgood hspared hlive hcall
  | alloc hcall => exact alloc_good hgood hspared hcall
  | null hcall =>
    obtain ⟨-, -, ⟨-, -, rfl⟩ | ⟨_, _, _, -, -, -, hsome, -⟩⟩ := allocBootmemCore_cases hcall
    · exact hgood
    · cases hsome

/-- After calls that all meet the condition, the block of one more such call is aligned, unused and
disjoint from everything that is in use. -/
theorem boot_blocks_disjoint {ops : List Op} {q : Request} {fuel : Nat} {ret : BitVec 32} {d : Data}
    (h : Run (Meeting (Spared n) (Step n)) (boot n) ops s) (hspared : Spared n s (.alloc q))
    (hcall : allocBootmemCore fuel n q s.data = some (.ok (some ret, d))) : Sound n s q ret :=
  alloc_sound (h.invariant (I := Good n) (fun _ _ _ => step_good) (boot_good n)) hspared hcall

/-! In a node of four pages, all pages are freed before the first block. -/

def smallNode : Node := ⟨1, 5, by decide, by decide⟩

/-- The data after a call. -/
def dataOf (x : Except Fault Data) : Data :=
  match x with
  | .ok d => d
  | .error _ => initBootmemCore

theorem eq_dataOf {x : Except Fault Data} (h : x.isOk = true) : x = .ok (dataOf x) := by
  cases x with
  | ok d => rfl
  | error e => cases h

/-- The address and the data after a call. -/
def blockOf (x : Option (Except Fault (Option (BitVec 32) × Data))) : Option (BitVec 32) × Data :=
  match x with
  | some (.ok r) => r
  | _ => (none, initBootmemCore)

theorem eq_blockOf {x : Option (Except Fault (Option (BitVec 32) × Data))} {ret : BitVec 32}
    (h : (blockOf x).1 = some ret) : x = some (.ok (some ret, (blockOf x).2)) := by
  match x with
  | some (.ok (r, d)) =>
    cases h
    rfl
  | some (.error e) => cases h
  | none => cases h

def allFree : State :=
  { boot smallNode with
    data := dataOf (freeBootmemCore smallNode 4096 16384 initBootmemCore)
    live := fun b => (boot smallNode).live b ∧ ¬ Range 4096 16384 b }

/-- A block of 100 bytes at the start. -/
def oneBlock : State where
  data := (blockOf (allocBootmemCore 9 smallNode ⟨100, 16, 0⟩ allFree.data)).2
  live b := allFree.live b ∨ Range 4096 100 b
  ended := 4196

theorem step_allFree : Step smallNode (boot smallNode) (.free 4096 16384) allFree :=
  .free (fun _ hb => hb) (eq_dataOf (by decide +kernel))

theorem step_oneBlock : Step smallNode allFree (.alloc ⟨100, 16, 0⟩) oneBlock :=
  .alloc (eq_blockOf (by decide +kernel))

/-- The next block joins the first one in its page. -/
theorem boot_blocks_disjoint_small :
    ∃ d, allocBootmemCore 9 smallNode ⟨200, 64, 0⟩ oneBlock.data = some (.ok (some 4224, d)) ∧
      Sound smallNode oneBlock ⟨200, 64, 0⟩ 4224 := by
  have hcall : allocBootmemCore 9 smallNode ⟨200, 64, 0⟩ oneBlock.data = some (.ok (some 4224, _)) :=
    eq_blockOf (by decide +kernel)
  have hfree : (4096 : BitVec 32).toNat + 4095 < 2 ^ 32 := by decide
  have hrun : Run (Meeting (Spared smallNode) (Step smallNode)) (boot smallNode)
      [.free 4096 16384, .alloc ⟨100, 16, 0⟩] oneBlock :=
    .cons ⟨hfree, step_allFree⟩ (.cons ⟨⟨by decide, .inl (by decide)⟩, step_oneBlock⟩ (.nil _))
  exact ⟨_, hcall, boot_blocks_disjoint hrun ⟨by decide, .inl (by decide)⟩ hcall⟩

/-- A block without alignment gets the place of the first one. A block gets bytes that were reserved
in the page of the first one. -/
theorem boot_blocks_overlap :
    (∃ s d, Run (Step smallNode) (boot smallNode) [.free 4096 16384, .alloc ⟨100, 16, 0⟩] s ∧
      allocBootmemCore 9 smallNode ⟨100, 0, 0⟩ s.data = some (.ok (some 4096, d)) ∧ s.live 4096) ∧
    ∃ s d, Run (Step smallNode) (boot smallNode)
      [.free 4096 16384, .alloc ⟨100, 16, 0⟩, .reserve 6144 1024] s ∧
      allocBootmemCore 9 smallNode ⟨3000, 16, 0⟩ s.data = some (.ok (some 4208, d)) ∧
      Range 4208 3000 6144 ∧ s.live 6144 := by
  have hreserve : Step smallNode oneBlock (.reserve 6144 1024)
      { oneBlock with
        data := dataOf (reserveBootmemCore smallNode 6144 1024 oneBlock.data)
        live := fun b => oneBlock.live b ∨ Range 6144 1024 b } :=
    .reserve (eq_dataOf (by decide +kernel))
  refine ⟨⟨oneBlock, _, .cons step_allFree (.cons step_oneBlock (.nil _)),
    eq_blockOf (by decide +kernel), .inr ⟨by decide, by decide⟩⟩, _, _,
    .cons step_allFree (.cons step_oneBlock (.cons hreserve (.nil _))),
    eq_blockOf (by decide +kernel), ⟨by decide, by decide⟩, .inr ⟨by decide, by decide⟩⟩

end CustomKernel.Mm.BootmemRuns

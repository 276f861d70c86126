import CustomKernel.Lib.Align

/-! # The allocator of the boot

Before there are zones, memory is given out from a bitmap with a bit for each page of a node. A small
block can share a page with the block before it. A search that fails is made once more from the first
aligned page: when this is not page 0, it is made again and again.

A function ends with `bug` when it comes to a `BUG()`. `unsigned long` has 32 bits; the loops count
pages, of which there are no more than 2^20, and so their variables are numbers. -/
namespace CustomKernel.Mm.Bootmem
open Lib.Align

/-! ## Data -/

def pageShift : Nat := 12

def pageSize : BitVec 32 := 1 <<< pageShift

def pageMask : BitVec 32 := ~~~(pageSize - 1)

/-- A node from its first page to the page behind the last one. Its pages have addresses. -/
structure Node where
  first : Nat
  stop : Nat
  nonempty : first < stop
  fits : stop ≤ 2 ^ 20

def Node.bootStart (n : Node) : BitVec 32 := BitVec.ofNat 32 n.first <<< pageShift

def Node.lowPfn (n : Node) : BitVec 32 := BitVec.ofNat 32 n.stop

/-- The rest of `bootmem_data_t`. -/
structure Data where
  /-- `node_bootmem_map` -/
  map : Nat → Bool
  lastPos : BitVec 32
  lastOffset : BitVec 32

inductive Fault where
  | bug
deriving DecidableEq, Repr

def initBootmemCore : Data where
  map _ := true
  lastPos := 0
  lastOffset := 0

/-! ## Reserving and freeing -/

/-- `(size + PAGE_SIZE - 1) / PAGE_SIZE` -/
def pagesFor (size : BitVec 32) : BitVec 32 := (size + pageSize - 1) / pageSize

/-- Set some bits, whatever they were. -/
def reserveBits : (count i : Nat) → (Nat → Bool) → Nat → Bool
  | 0, _, map => map
  | count + 1, i, map => reserveBits count (i + 1) (Function.update map i true)

/-- `test_and_set_bit` or `test_and_clear_bit` on some bits, with a `BUG()` where that changes
nothing. -/
def testAndChangeBits (bit : Bool) : (count i : Nat) → (Nat → Bool) → Except Fault (Nat → Bool)
  | 0, _, map => .ok map
  | count + 1, i, map =>
    if map i = bit then .error .bug
    else testAndChangeBits bit count (i + 1) (Function.update map i bit)

def reserveBootmemCore (n : Node) (addr size : BitVec 32) (d : Data) : Except Fault Data :=
  let sidx := (addr - n.bootStart) / pageSize
  let eidx := pagesFor (addr + size - n.bootStart)
  if size = 0 then .error .bug
  else if eidx ≤ sidx then .error .bug
  else if n.lowPfn ≤ addr >>> pageShift then .error .bug
  else if n.lowPfn < pagesFor (addr + size) then .error .bug
  else .ok { d with map := reserveBits (eidx.toNat - sidx.toNat) sidx.toNat d.map }

def freeBootmemCore (n : Node) (addr size : BitVec 32) (d : Data) : Except Fault Data :=
  let eidx := (addr + size - n.bootStart) / pageSize
  if size = 0 then .error .bug
  else if n.lowPfn < (addr + size) / pageSize then .error .bug
  else
    let sidx := pagesFor addr - n.bootStart / pageSize
    (testAndChangeBits false (eidx.toNat - sidx.toNat) sidx.toNat d.map).map fun map =>
      { d with map := map }

/-! ## Allocating -/

structure Request where
  size : BitVec 32
  align : BitVec 32
  goal : BitVec 32
deriving DecidableEq, Repr

/-- The pages of the node. -/
def Node.eidx (n : Node) : BitVec 32 := n.lowPfn - (n.bootStart >>> pageShift)

/-- The first aligned page. -/
def Request.offset (q : Request) (n : Node) : BitVec 32 :=
  (if q.align ≠ 0 ∧ n.bootStart &&& (q.align - 1) ≠ 0
    then q.align - (n.bootStart &&& (q.align - 1)) else 0) >>> pageShift

def Request.preferred (q : Request) (n : Node) : BitVec 32 :=
  let preferred := if q.goal ≠ 0 ∧ n.bootStart ≤ q.goal ∧ q.goal >>> pageShift < n.lowPfn
    then q.goal - n.bootStart else 0
  (((preferred + q.align - 1) &&& ~~~(q.align - 1)) >>> pageShift) + q.offset n

def Request.incr (q : Request) : BitVec 32 :=
  if q.align >>> pageShift ≠ 0 then q.align >>> pageShift else 1

section
variable (map : Nat → Bool) (eidx areasize incr offset : Nat)

/-- The loop over the pages behind the first one. -/
def areaFree : (count j : Nat) → Bool
  | 0, _ => true
  | count + 1, j => if eidx ≤ j then false else if map j then false else areaFree count (j + 1)

/-- The loop over the pages where an area can start. `none` says that it has not ended yet. -/
def scan : (fuel i : Nat) → Option (Option Nat)
  | 0, _ => none
  | fuel + 1, i =>
    if i < eidx then
      if map i then scan fuel (i + incr)
      else if areaFree map eidx (areasize - 1) (i + 1) then some (some i)
      else scan fuel (i + incr)
    else some none

/-- The jumps back to `restart_scan`. -/
def restartScan : (fuel preferred : Nat) → Option (Option Nat)
  | 0, _ => none
  | fuel + 1, preferred =>
    match scan map eidx areasize incr fuel preferred with
    | none => none
    | some (some start) => some (some start)
    | some none => if preferred ≠ 0 then restartScan fuel offset else some none

end

/-- The search of a call. -/
def Request.search (q : Request) (n : Node) (d : Data) (fuel : Nat) : Option (Option Nat) :=
  restartScan d.map n.eidx.toNat (pagesFor q.size).toNat q.incr.toNat (q.offset n).toNat fuel
    (q.preferred n).toNat

/-- What is settled at `found`: the address, the pages to reserve, and where the block ends. -/
structure Chunk where
  ret : BitVec 32
  areasize : BitVec 32
  lastPos : BitVec 32
  lastOffset : BitVec 32
deriving DecidableEq, Repr

/-- The block starts at an offset in the last page. -/
def join (n : Node) (q : Request) (d : Data) (start offset : BitVec 32) : Chunk :=
  let ret := d.lastPos * pageSize + offset + n.bootStart
  let remaining := pageSize - offset
  if q.size < remaining then
    ⟨ret, 0, d.lastPos, (offset + q.size) &&& ~~~pageMask⟩
  else
    let remaining := q.size - remaining
    ⟨ret, pagesFor remaining, start + pagesFor remaining - 1, remaining &&& ~~~pageMask⟩

def found (n : Node) (q : Request) (d : Data) (start : BitVec 32) : Except Fault Chunk :=
  if n.eidx ≤ start then .error .bug
  else if q.align ≤ pageSize ∧ d.lastOffset ≠ 0 ∧ d.lastPos + 1 = start then
    let offset := (d.lastOffset + q.align - 1) &&& ~~~(q.align - 1)
    if pageSize < offset then .error .bug else .ok (join n q d start offset)
  else
    .ok ⟨start * pageSize + n.bootStart, pagesFor q.size, start + pagesFor q.size - 1,
      q.size &&& ~~~pageMask⟩

/-- `__alloc_bootmem_core`: the address and the data, or `none` as long as it has not ended. The
address is the one that is handed to `phys_to_virt`. -/
def allocBootmemCore (fuel : Nat) (n : Node) (q : Request) (d : Data) :
    Option (Except Fault (Option (BitVec 32) × Data)) :=
  if q.size = 0 then some (.error .bug)
  else if q.align &&& (q.align - 1) ≠ 0 then some (.error .bug)
  else
    match q.search n d fuel with
    | none => none
    | some none => some (.ok (none, d))
    | some (some start) => some do
      let chunk ← found n q d (BitVec.ofNat 32 start)
      let map ← testAndChangeBits true chunk.areasize.toNat start d.map
      return (some chunk.ret, ⟨map, chunk.lastPos, chunk.lastOffset⟩)

/-! ## Words -/

theorem toNat_pageSize : pageSize.toNat = 2 ^ 12 := rfl

theorem toNat_div_pageSize (x : BitVec 32) : (x / pageSize).toNat = x.toNat / 4096 :=
  BitVec.toNat_udiv

theorem toNat_shift (x : BitVec 32) : (x >>> pageShift).toNat = x.toNat / 4096 := by
  rw [BitVec.toNat_ushiftRight, Nat.shiftRight_eq_div_pow]
  rfl

theorem toNat_pagesFor (size : BitVec 32) :
    (pagesFor size).toNat = (size.toNat + 4095) % 2 ^ 32 / 4096 := by
  have hsum : size + pageSize - 1 = size + 4095 := by
    rw [BitVec.sub_eq_add_neg, BitVec.add_assoc]
    rfl
  rw [pagesFor, toNat_div_pageSize, hsum, BitVec.toNat_add]
  rfl

theorem toNat_and_pageMask (x : BitVec 32) : (x &&& ~~~pageMask).toNat = x.toNat % 4096 :=
  toNat_and_pred toNat_pageSize

section
variable (n : Node)

theorem toNat_bootStart : n.bootStart.toNat = n.first * 4096 := by
  have hnonempty := n.nonempty
  have hfits := n.fits
  rw [Node.bootStart, BitVec.toNat_shiftLeft, BitVec.toNat_ofNat, Nat.shiftLeft_eq, pageShift]
  omega

theorem toNat_lowPfn : n.lowPfn.toNat = n.stop := by
  have hfits := n.fits
  rw [Node.lowPfn, BitVec.toNat_ofNat]
  omega

theorem toNat_eidx : n.eidx.toNat = n.stop - n.first := by
  have hnonempty := n.nonempty
  have hfirst : (n.bootStart >>> pageShift).toNat = n.first := by
    rw [toNat_shift, toNat_bootStart, Nat.mul_div_cancel _ (by decide)]
  rw [Node.eidx, BitVec.toNat_sub_of_le, toNat_lowPfn, hfirst]
  rw [BitVec.le_def, toNat_lowPfn, hfirst]
  exact hnonempty.le

end

/-! ## The search -/

/-- A number of pages that are free and follow each other. -/
def FreeRun (pages : Nat) (map : Nat → Bool) (count i : Nat) : Prop :=
  i + count ≤ pages ∧ ∀ j, i ≤ j → j < i + count → map j = false

section
variable {map : Nat → Bool} {eidx areasize incr offset : Nat} {fuel count i j start preferred : Nat}

theorem FreeRun.mono {count' : Nat} (h : FreeRun eidx map count i) (hle : count' ≤ count) :
    FreeRun eidx map count' i :=
  ⟨by have := h.1; omega, fun j hij hj => h.2 j hij (by omega)⟩

theorem freeRun_succ : FreeRun eidx map (count + 1) i ↔
    i < eidx ∧ map i = false ∧ (count = 0 ∨ FreeRun eidx map count (i + 1)) := by
  constructor
  · intro ⟨hle, hfree⟩
    refine ⟨by omega, hfree i (Nat.le_refl i) (by omega), .inr ⟨by omega, ?_⟩⟩
    exact fun j hij hj => hfree j (by omega) (by omega)
  · rintro ⟨hlt, hi, rfl | ⟨hle, hfree⟩⟩
    · refine ⟨hlt, fun j hij hj => ?_⟩
      obtain rfl : i = j := by omega
      exact hi
    · refine ⟨by omega, fun j hij hj => ?_⟩
      rcases Nat.eq_or_lt_of_le hij with rfl | hlt
      · exact hi
      · exact hfree j hlt (by omega)

theorem areaFree_iff :
    areaFree map eidx count j = true ↔ count = 0 ∨ FreeRun eidx map count j := by
  induction count generalizing j with
  | zero => simp [areaFree]
  | succ count ih =>
    rw [freeRun_succ, areaFree, ← ih]
    by_cases hj : j < eidx
    · simp [hj]
    · simp [hj]

/-- The two tests of a turn. At least the first page is looked at. -/
theorem area_iff : i < eidx ∧ map i = false ∧ areaFree map eidx (areasize - 1) (i + 1) = true ↔
    FreeRun eidx map (max 1 areasize) i := by
  have hcount : max 1 areasize = areasize - 1 + 1 := by omega
  rw [hcount, freeRun_succ, areaFree_iff]

theorem scan_found (h : scan map eidx areasize incr fuel i = some (some start)) :
    (∃ t, start = i + t * incr) ∧ FreeRun eidx map (max 1 areasize) start := by
  induction fuel generalizing i with
  | zero => cases h
  | succ fuel ih =>
    have hnext (h : scan map eidx areasize incr fuel (i + incr) = some (some start)) :
        (∃ t, start = i + t * incr) ∧ FreeRun eidx map (max 1 areasize) start := by
      obtain ⟨⟨t, rfl⟩, hrun⟩ := ih h
      exact ⟨⟨t + 1, by rw [Nat.succ_mul]; omega⟩, hrun⟩
    rw [scan] at h
    split at h
    · rename_i hlt
      split at h
      · exact hnext h
      · rename_i hfree
        split at h
        · rename_i harea
          cases h
          exact ⟨⟨0, by omega⟩, area_iff.mp ⟨hlt, Bool.not_eq_true _ ▸ hfree, harea⟩⟩
        · exact hnext h
    · cases h

theorem scan_failed (h : scan map eidx areasize incr fuel i = some none) (t : Nat) :
    ¬ FreeRun eidx map (max 1 areasize) (i + t * incr) := by
  induction fuel generalizing i t with
  | zero => cases h
  | succ fuel ih =>
    intro hrun
    have hlt : i + t * incr < eidx := by have := hrun.1; omega
    have hnext (h : scan map eidx areasize incr fuel (i + incr) = some none)
        (hi : ¬ FreeRun eidx map (max 1 areasize) i) : False := by
      cases t with
      | zero => exact hi (by simpa using hrun)
      | succ t =>
        refine ih h t ?_
        rwa [Nat.add_assoc, Nat.add_comm incr, ← Nat.succ_mul]
    rw [scan, if_pos (by omega)] at h
    split at h
    · rename_i hset
      refine hnext h fun hi => ?_
      rw [(area_iff.mpr hi).2.1] at hset
      cases hset
    · split at h
      · cases h
      · rename_i harea
        exact hnext h fun hi => harea (area_iff.mpr hi).2.2

theorem scan_ends (hincr : 0 < incr) (hfuel : eidx - i < fuel) :
    ∃ r, scan map eidx areasize incr fuel i = some r := by
  induction fuel generalizing i with
  | zero => omega
  | succ fuel ih =>
    rw [scan]
    split
    · obtain ⟨r, hr⟩ := ih (i := i + incr) (by omega)
      rw [hr]
      split
      · exact ⟨r, rfl⟩
      · split
        · exact ⟨_, rfl⟩
        · exact ⟨r, rfl⟩
    · exact ⟨_, rfl⟩

/-! The search starts some steps above the first aligned page. -/

theorem restartScan_found
    (h : restartScan map eidx areasize incr offset fuel preferred = some (some start))
    (hpreferred : ∃ t, preferred = offset + t * incr) :
    (∃ t, start = offset + t * incr) ∧ FreeRun eidx map (max 1 areasize) start := by
  induction fuel generalizing preferred with
  | zero => cases h
  | succ fuel ih =>
    rw [restartScan] at h
    split at h
    · cases h
    · rename_i start' hscan
      cases h
      obtain ⟨⟨t, rfl⟩, hrun⟩ := scan_found hscan
      obtain ⟨c, rfl⟩ := hpreferred
      exact ⟨⟨c + t, by rw [Nat.add_mul, Nat.add_assoc]⟩, hrun⟩
    · split at h
      · exact ih h ⟨0, by omega⟩
      · cases h

/-- Only a search from page 0 ends without a result. -/
theorem restartScan_failed
    (h : restartScan map eidx areasize incr offset fuel preferred = some none)
    (hpreferred : ∃ t, preferred = offset + t * incr) (t : Nat) :
    ¬ FreeRun eidx map (max 1 areasize) (offset + t * incr) := by
  induction fuel generalizing preferred with
  | zero => cases h
  | succ fuel ih =>
    rw [restartScan] at h
    split at h
    · cases h
    · cases h
    · rename_i hscan
      split at h
      · exact ih h ⟨0, by omega⟩
      · obtain rfl : offset = 0 := by omega
        have hstart : preferred = 0 := by omega
        rw [← hstart]
        exact scan_failed hscan t

theorem restartScan_ends (hincr : 0 < incr)
    (h : offset = 0 ∨ ∃ t, FreeRun eidx map (max 1 areasize) (offset + t * incr)) :
    ∃ fuel r, restartScan map eidx areasize incr offset fuel preferred = some r := by
  have hends (fuel i : Nat) (hfuel : eidx < fuel) :
      ∃ r, scan map eidx areasize incr fuel i = some r := scan_ends hincr (by omega)
  have hagain : ∃ r, restartScan map eidx areasize incr offset (eidx + 2) offset = some r := by
    obtain ⟨r, hr⟩ := hends (eidx + 1) offset (by omega)
    rw [restartScan, hr]
    cases r with
    | some start => exact ⟨_, rfl⟩
    | none =>
      rcases h with rfl | ⟨t, hrun⟩
      · exact ⟨_, rfl⟩
      · exact absurd hrun (scan_failed hr t)
  obtain ⟨r, hr⟩ := hends (eidx + 2) preferred (by omega)
  refine ⟨eidx + 3, ?_⟩
  rw [restartScan, hr]
  cases r with
  | some start => exact ⟨_, rfl⟩
  | none =>
    by_cases hzero : preferred ≠ 0
    · simpa only [if_pos hzero] using hagain
    · exact ⟨_, if_neg hzero⟩

theorem restartScan_never_ends (hoffset : offset ≠ 0)
    (h : ∀ t, ¬ FreeRun eidx map (max 1 areasize) (offset + t * incr))
    (hpreferred : ∃ t, preferred = offset + t * incr) :
    restartScan map eidx areasize incr offset fuel preferred = none := by
  induction fuel generalizing preferred with
  | zero => rfl
  | succ fuel ih =>
    obtain ⟨c, rfl⟩ := hpreferred
    rw [restartScan]
    split
    · rfl
    · rename_i start hscan
      obtain ⟨⟨t, rfl⟩, hrun⟩ := scan_found hscan
      refine absurd hrun ?_
      rw [Nat.add_assoc, ← Nat.add_mul]
      exact h (c + t)
    · rw [if_pos (by omega)]
      exact ih ⟨0, by omega⟩

end

/-! ## Aligned pages -/

section
variable {n : Node} {q : Request} {k i : Nat} (halign : q.align.toNat = 2 ^ k)
include halign

theorem toNat_incr : q.incr.toNat = 2 ^ (k - 12) := by
  have hshift : (q.align >>> pageShift).toNat = 2 ^ k / 2 ^ 12 := by
    rw [← halign]
    exact toNat_shift q.align
  rcases Nat.lt_or_ge k 12 with hlt | hge
  · have hzero : q.align >>> pageShift = 0 := by
      apply BitVec.eq_of_toNat_eq
      rw [hshift, Nat.div_eq_of_lt (Nat.pow_lt_pow_right (by decide) hlt)]
      rfl
    rw [Request.incr, hzero, if_neg (not_not_intro rfl), Nat.sub_eq_zero_of_le hlt.le]
    rfl
  · rw [Nat.pow_div hge (by decide)] at hshift
    have hne : q.align >>> pageShift ≠ 0 := by
      intro hzero
      rw [hzero] at hshift
      exact (Nat.two_pow_pos (k - 12)).ne hshift
    rw [Request.incr, if_pos hne, hshift]

theorem toNat_offset : n.first + (q.offset n).toNat = roundUp (2 ^ (k - 12)) n.first := by
  have hpos := Nat.two_pow_pos (k - 12)
  have hne : q.align ≠ 0 := by
    intro hzero
    rw [hzero] at halign
    exact (Nat.two_pow_pos k).ne halign
  have hmod := toNat_and_pred (x := n.bootStart) halign
  rw [toNat_bootStart] at hmod
  have hdvd : n.bootStart &&& (q.align - 1) = 0 ↔ 2 ^ (k - 12) ∣ n.first := by
    rw [← two_pow_dvd_mul_iff, Nat.dvd_iff_mod_eq_zero]
    exact ⟨fun hzero => hmod.symm.trans (congrArg BitVec.toNat hzero),
      fun hzero => BitVec.eq_of_toNat_eq (hmod.trans hzero)⟩
  by_cases hzero : n.bootStart &&& (q.align - 1) = 0
  · rw [Request.offset, if_neg (fun h => h.2 hzero), roundUp_of_dvd hpos (hdvd.mp hzero)]
    rfl
  · have hrest : n.first % 2 ^ (k - 12) ≠ 0 := mt Nat.dvd_of_mod_eq_zero (mt hdvd.mpr hzero)
    -- only alignments beyond a page leave a rest
    have hk : 12 ≤ k := by
      by_contra hlt
      rw [Nat.sub_eq_zero_of_le (by omega), Nat.pow_zero, Nat.mod_one] at hrest
      exact hrest rfl
    have hpow : 2 ^ k = 2 ^ (k - 12) * 4096 := by
      rw [← Nat.sub_add_cancel hk, Nat.pow_add, Nat.add_sub_cancel]
    rw [hpow, Nat.mul_mod_mul_right] at hmod
    have hle : n.bootStart &&& (q.align - 1) ≤ q.align := by
      rw [BitVec.le_def, hmod, halign, hpow]
      exact Nat.mul_le_mul_right _ (Nat.mod_lt _ hpos).le
    rw [Request.offset, if_pos ⟨hne, hzero⟩, toNat_shift, BitVec.toNat_sub_of_le hle, hmod, halign,
      hpow, ← Nat.sub_mul, Nat.mul_div_cancel _ (by decide), roundUp_of_mod_ne_zero hpos hrest]

theorem aligned_iff : 2 ^ k ∣ n.bootStart.toNat + i * 4096 ↔
    ∃ t, i = (q.offset n).toNat + t * q.incr.toNat := by
  have hoffset := toNat_offset (n := n) halign
  rw [toNat_bootStart, ← Nat.add_mul, show 4096 = 2 ^ 12 from rfl, two_pow_dvd_mul_iff,
    dvd_add_iff (Nat.two_pow_pos _), toNat_incr halign, ← hoffset]
  exact exists_congr fun t => by omega

theorem preferred_aligned : ∃ t, (q.preferred n).toNat = (q.offset n).toNat + t * q.incr.toNat := by
  obtain ⟨goal, hgoal⟩ : ∃ goal : BitVec 32, q.preferred n =
      (((goal + q.align - 1) &&& ~~~(q.align - 1)) >>> pageShift) + q.offset n := ⟨_, rfl⟩
  have hdvd : 2 ^ k ∣ ((goal + q.align - 1) &&& ~~~(q.align - 1)).toNat := by
    rw [toNat_roundUp halign]
    split
    · exact dvd_roundUp
    · exact Nat.dvd_zero _
  obtain ⟨t, ht⟩ := two_pow_dvd_div hdvd
  refine ⟨t, ?_⟩
  have hshift (x : BitVec 32) : (x >>> pageShift).toNat < 2 ^ 20 := by
    rw [toNat_shift]
    omega
  have hoffset : (q.offset n).toNat < 2 ^ 20 := hshift _
  have hsum := Nat.add_lt_add (hshift ((goal + q.align - 1) &&& ~~~(q.align - 1))) hoffset
  rw [hgoal, BitVec.toNat_add, Nat.mod_eq_of_lt (hsum.trans (by decide)), toNat_shift,
    toNat_incr halign, Nat.mul_comm t, ← ht, Nat.add_comm]
  rfl

end

/-! ## Ending and completeness -/

/-- The pages that are needed. -/
def Request.needed (q : Request) : Nat := (q.size.toNat + 4095) / 4096

/-- The pages that are looked for: the sum in 32 bits leaves none of them in the last sizes. -/
def Request.sought (q : Request) : Nat := if q.size.toNat ≤ 2 ^ 32 - 4096 then q.needed else 1

def Node.pages (n : Node) : Nat := n.stop - n.first

section
variable {n : Node} {q : Request} {d d' : Data} {k fuel i : Nat}

theorem max_pagesFor (hsize : q.size ≠ 0) : max 1 (pagesFor q.size).toNat = q.sought := by
  have hpos : q.size.toNat ≠ 0 := mt (fun h => BitVec.eq_of_toNat_eq h) hsize
  rw [toNat_pagesFor, Request.sought, Request.needed]
  split <;> omega

theorem sought_le_needed : q.sought ≤ q.needed := by
  rw [Request.sought, Request.needed]
  split <;> omega

theorem allocBootmemCore_isSome (hsize : q.size ≠ 0) (halign : q.align &&& (q.align - 1) = 0) :
    (allocBootmemCore fuel n q d).isSome = (q.search n d fuel).isSome := by
  rw [allocBootmemCore, if_neg hsize, if_neg (not_not_intro halign)]
  cases q.search n d fuel with
  | none => rfl
  | some r => cases r <;> rfl

theorem allocBootmemCore_cases {r : Option (BitVec 32)}
    (h : allocBootmemCore fuel n q d = some (.ok (r, d'))) :
    q.size ≠ 0 ∧ q.align &&& (q.align - 1) = 0 ∧
      ((q.search n d fuel = some none ∧ r = none ∧ d' = d) ∨
        ∃ start chunk map, q.search n d fuel = some (some start) ∧
          found n q d (BitVec.ofNat 32 start) = .ok chunk ∧
          testAndChangeBits true chunk.areasize.toNat start d.map = .ok map ∧
          r = some chunk.ret ∧ d' = ⟨map, chunk.lastPos, chunk.lastOffset⟩) := by
  rw [allocBootmemCore] at h
  split at h
  · cases h
  · rename_i hsize
    split at h
    · cases h
    · rename_i halign
      refine ⟨hsize, not_not.mp halign, ?_⟩
      split at h
      · cases h
      · rename_i hsearch
        cases h
        exact .inl ⟨hsearch, rfl, rfl⟩
      · rename_i start hsearch
        right
        cases hfound : found n q d (BitVec.ofNat 32 start) with
        | error e =>
          rw [hfound] at h
          cases h
        | ok chunk =>
          cases hmap : testAndChangeBits true chunk.areasize.toNat start d.map with
          | error e =>
            rw [hfound] at h
            simp only [bind, Except.bind, hmap] at h
            cases h
          | ok map =>
            rw [hfound] at h
            simp only [bind, Except.bind, hmap] at h
            cases h
            exact ⟨start, chunk, map, hsearch, hfound, hmap, rfl, rfl⟩

/-- The search goes over the aligned pages. -/
theorem search_ends_iff (hsize : q.size ≠ 0) (halign : q.align.toNat = 2 ^ k) :
    (∃ fuel, (q.search n d fuel).isSome) ↔ q.align.toNat ∣ n.bootStart.toNat ∨
      ∃ i, q.align.toNat ∣ n.bootStart.toNat + i * 4096 ∧ FreeRun n.pages d.map q.sought i := by
  have hincr : 0 < q.incr.toNat := by
    rw [toNat_incr halign]
    exact Nat.two_pow_pos _
  have hstart : q.align.toNat ∣ n.bootStart.toNat ↔ (q.offset n).toNat = 0 := by
    have hzero := aligned_iff (n := n) (i := 0) halign
    rw [Nat.zero_mul, Nat.add_zero, ← halign] at hzero
    rw [hzero]
    constructor
    · rintro ⟨t, ht⟩
      omega
    · intro h
      exact ⟨0, by omega⟩
  have hruns : (∃ i, q.align.toNat ∣ n.bootStart.toNat + i * 4096 ∧
      FreeRun n.pages d.map q.sought i) ↔
      ∃ t, FreeRun n.eidx.toNat d.map (max 1 (pagesFor q.size).toNat)
        ((q.offset n).toNat + t * q.incr.toNat) := by
    rw [halign, max_pagesFor hsize, toNat_eidx]
    constructor
    · rintro ⟨i, hdvd, hrun⟩
      obtain ⟨t, rfl⟩ := (aligned_iff halign).mp hdvd
      exact ⟨t, hrun⟩
    · rintro ⟨t, hrun⟩
      exact ⟨_, (aligned_iff halign).mpr ⟨t, rfl⟩, hrun⟩
  rw [hstart, hruns]
  constructor
  · rintro ⟨fuel, hends⟩
    by_contra hnot
    obtain ⟨hoffset, hnone⟩ := not_or.mp hnot
    have hforever : q.search n d fuel = none :=
      restartScan_never_ends hoffset (not_exists.mp hnone) (preferred_aligned halign)
    rw [hforever] at hends
    cases hends
  · intro h
    obtain ⟨fuel, r, hr⟩ : ∃ fuel r, q.search n d fuel = some r := restartScan_ends hincr h
    exact ⟨fuel, by rw [hr]; rfl⟩

theorem search_found {start : Nat} (hand : q.align &&& (q.align - 1) = 0)
    (h : q.search n d fuel = some (some start)) :
    FreeRun n.pages d.map (max 1 (pagesFor q.size).toNat) start ∧
      (q.align ≠ 0 → q.align.toNat ∣ n.bootStart.toNat + start * 4096) := by
  by_cases hzero : q.align = 0
  · have hoffset : (q.offset n).toNat = 0 := by
      rw [Request.offset, if_neg (fun hne => hne.1 hzero)]
      rfl
    have hincr : q.incr.toNat = 1 := by
      rw [Request.incr, hzero]
      rfl
    have hpreferred : (q.preferred n).toNat =
        (q.offset n).toNat + (q.preferred n).toNat * q.incr.toNat := by
      rw [hoffset, hincr]
      omega
    obtain ⟨-, hrun⟩ := restartScan_found h ⟨_, hpreferred⟩
    rw [toNat_eidx] at hrun
    exact ⟨hrun, fun hne => absurd hzero hne⟩
  · obtain ⟨k, halign⟩ := exists_two_pow hzero hand
    obtain ⟨haligned, hrun⟩ := restartScan_found h (preferred_aligned halign)
    rw [toNat_eidx] at hrun
    refine ⟨hrun, fun _ => ?_⟩
    rw [halign]
    exact (aligned_iff halign).mpr haligned

theorem search_failed (hsize : q.size ≠ 0) (halign : q.align.toNat = 2 ^ k)
    (h : q.search n d fuel = some none) (hdvd : q.align.toNat ∣ n.bootStart.toNat + i * 4096) :
    ¬ FreeRun n.pages d.map q.sought i := by
  rw [halign] at hdvd
  obtain ⟨t, rfl⟩ := (aligned_iff halign).mp hdvd
  have hnone := restartScan_failed h (preferred_aligned halign) t
  rwa [max_pagesFor hsize, toNat_eidx] at hnone

end

/-- The call ends, and it returns `NULL` only when there is no room. -/
def Complete (n : Node) (q : Request) (d : Data) : Prop :=
  (∃ fuel, (allocBootmemCore fuel n q d).isSome) ∧
    ∀ fuel d', allocBootmemCore fuel n q d = some (.ok (none, d')) →
      ∀ i, q.align.toNat ∣ n.bootStart.toNat + i * 4096 → ¬ FreeRun n.pages d.map q.needed i

/-- A call ends if and only if the node is aligned or there is room. -/
theorem alloc_bootmem_complete_iff (n : Node) (q : Request) (d : Data) (k : Nat)
    (hsize : q.size ≠ 0) (halign : q.align.toNat = 2 ^ k) :
    Complete n q d ↔ q.align.toNat ∣ n.bootStart.toNat ∨
      ∃ i, q.align.toNat ∣ n.bootStart.toNat + i * 4096 ∧ FreeRun n.pages d.map q.sought i := by
  have hcheck : q.align &&& (q.align - 1) = 0 := by
    apply BitVec.eq_of_toNat_eq
    rw [toNat_and_pred halign, halign, Nat.mod_self]
    rfl
  rw [← search_ends_iff hsize halign, Complete]
  simp only [allocBootmemCore_isSome hsize hcheck]
  refine and_iff_left fun fuel d' h i hdvd hrun => ?_
  obtain ⟨-, -, ⟨hsearch, -⟩ | ⟨_, _, _, -, -, -, hsome, -⟩⟩ := allocBootmemCore_cases h
  · exact search_failed hsize halign hsearch hdvd (hrun.mono sought_le_needed)
  · cases hsome

/-- A node that starts at page 1, with two pages. -/
def oddNode : Node := ⟨1, 3, by decide, by decide⟩

/-- One page with an even number. -/
def evenPage : Request := ⟨4096, 8192, 0⟩

theorem alloc_bootmem_complete_odd :
    evenPage.size ≠ 0 ∧ evenPage.align.toNat = 2 ^ 13 ∧
      Complete oddNode evenPage ⟨fun _ => false, 0, 0⟩ := by
  refine ⟨by decide, by decide, ?_⟩
  refine (alloc_bootmem_complete_iff oddNode evenPage _ 13 (by decide) (by decide)).mpr (.inr ?_)
  exact ⟨1, by decide, by decide, fun _ _ _ => rfl⟩

/-- Page 2 is the only aligned one. When it is taken, the search goes on for ever. -/
theorem alloc_bootmem_endless :
    ¬ ∃ fuel, (allocBootmemCore fuel oddNode evenPage ⟨fun i => i == 1, 0, 0⟩).isSome := by
  rintro ⟨fuel, h⟩
  rw [allocBootmemCore_isSome (by decide) (by decide)] at h
  obtain h | ⟨i, hdvd, hrun⟩ := (search_ends_iff (k := 13) (by decide) (by decide)).mp ⟨fuel, h⟩
  · revert h
    decide
  · have hlt : i + 1 ≤ 2 := hrun.1
    have hfree : (i == 1) = false := hrun.2 i (Nat.le_refl i) (Nat.lt_succ_self i)
    obtain rfl : i = 0 := by
      have := beq_eq_false_iff_ne.mp hfree
      omega
    revert hdvd
    decide

end CustomKernel.Mm.Bootmem

import CustomKernel.Ioport.Regions
import CustomKernel.Lib.Align
import Mathlib.Order.Bounds.Basic

/-! # Allocation of a free range

`allocate_resource` goes through the gaps between the children of a resource and requests the first
one that seems large enough. It takes the start of the next child as the end of a gap, wants the end
of a range to be after its start, and computes in 32 bits. Without a callback for the alignment, the
result is the lowest free range exactly when none of this gets in the way. -/
namespace CustomKernel.Ioport.Allocate
open Lib.Nested Lib.Align
open Ioport.Tree Ioport.Regions

structure Request where
  size : BitVec 32
  min : BitVec 32
  max : BitVec 32
  align : BitVec 32
deriving DecidableEq, Repr

/-- What a turn of the loop makes of the start and the end of a gap. -/
def Request.clip (q : Request) (start last : BitVec 32) : BitVec 32 × BitVec 32 :=
  let start := if start < q.min then q.min else start
  let last := if q.max < last then q.max else last
  ((start + q.align - 1) &&& ~~~(q.align - 1), last)

/-- The test of the loop. -/
def Request.Fits (q : Request) (start last : BitVec 32) : Prop :=
  start < last ∧ q.size ≤ last - start + 1

instance (q : Request) (start last : BitVec 32) : Decidable (q.Fits start last) :=
  inferInstanceAs (Decidable (_ ∧ _))

/-- Whether the search succeeds, with the start and the end that `new` is left with. -/
def findResource (root : Info) (q : Request) : BitVec 32 → Resources → Bool × BitVec 32 × BitVec 32
  | start, .nil =>
    let gap := q.clip start root.last
    if q.Fits gap.1 gap.2 then (true, gap.1, gap.1 + q.size - 1) else (false, gap)
  | start, .node this _ sibling =>
    let gap := q.clip start this.start
    if q.Fits gap.1 gap.2 then (true, gap.1, gap.1 + q.size - 1)
    else findResource root q (this.last + 1) sibling

/-- The resource with another range. -/
def setRange (new : Resource) (start last : BitVec 32) : Resource :=
  { new with info := { new.info with start := start, last := last } }

/-- `allocate_resource`: the error, `new` and the tree -/
def allocateResource (root : Nat) (new : Resource) (q : Request) (s : Resources) :
    Int × Resource × Resources :=
  match find root s with
  | none => (ebusy, new, s)
  | some (info, child) =>
    match findResource info q info.start child with
    | (false, start, last) => (ebusy, setRange new start last, s)
    | (true, start, last) =>
      match requestBelow info (setRange new start last) child with
      | .error _ => (ebusy, setRange new start last, s)
      | .ok child' => (0, setRange new start last, s.update Info.id root child')

/-! ## What it is for -/

/-- Nothing is in the way of a range below the root. -/
def Free (root : Info) (child : Resources) (q : Request) (x : Nat) : Prop :=
  root.start.toNat ≤ x ∧ x + q.size.toNat ≤ root.last.toNat + 1 ∧
    ∀ c ∈ child.level, c.last.toNat < x ∨ x + q.size.toNat ≤ c.start.toNat

instance (root : Info) (child : Resources) (q : Request) (x : Nat) :
    Decidable (Free root child q x) := inferInstanceAs (Decidable (_ ∧ _ ∧ _))

/-- A range that could be allocated. -/
def Slot (root : Info) (child : Resources) (q : Request) (x : Nat) : Prop :=
  q.align.toNat ∣ x ∧ q.min.toNat ≤ x ∧ x + q.size.toNat ≤ q.max.toNat + 1 ∧ Free root child q x

instance (root : Info) (child : Resources) (q : Request) (x : Nat) :
    Decidable (Slot root child q x) := inferInstanceAs (Decidable (_ ∧ _ ∧ _ ∧ _))

/-- The call succeeds exactly when there is a slot, takes the lowest one and puts it in. -/
def Lowest (root : Nat) (info : Info) (child : Resources) (new : Resource) (q : Request)
    (s : Resources) : Prop :=
  ((allocateResource root new q s).1 = 0 ↔ ∃ x, Slot info child q x) ∧
  ((allocateResource root new q s).1 = 0 →
    IsLeast {x | Slot info child q x} (allocateResource root new q s).2.1.info.start.toNat ∧
    (allocateResource root new q s).2.1.info.last.toNat + 1 =
      (allocateResource root new q s).2.1.info.start.toNat + q.size.toNat ∧
    requestResource root (allocateResource root new q s).2.1 s =
      (0, (allocateResource root new q s).2.2)) ∧
  ((allocateResource root new q s).1 ≠ 0 → (allocateResource root new q s).2.2 = s)

/-! ## When it does that -/

/-- The first place of a gap, without a limit to numbers. -/
def Request.first (q : Request) (lo : Nat) : Nat :=
  roundUp q.align.toNat (Max.max lo q.min.toNat)

/-- A gap to which the rounding came round to 0 seems large enough. -/
def Request.Wraps (q : Request) (last : Nat) : Prop :=
  0 < last ∧ q.size.toNat ≤ last + 1 ∧ last ≠ 2 ^ 32 - 1

/-- From gap to gap up to the first with room: no gap before it is short by just one place, it is not
only the last place of all or the whole range of numbers, and where rounding up leaves the 32
bits, nothing at 0 is free. -/
def Clear (root : Info) (child : Resources) (q : Request) : Nat → Resources → Prop
  | lo, .nil =>
    let last := min root.last.toNat q.max.toNat
    if 2 ^ 32 ≤ q.first (lo % 2 ^ 32) then q.Wraps last → ¬ Free root child q 0
    else
      lo < 2 ^ 32 → q.first lo + q.size.toNat ≤ last + 1 →
        q.first lo ≠ last ∧ ¬ (q.first lo = 0 ∧ last = 2 ^ 32 - 1)
  | lo, .node this _ sibling =>
    let last := min this.start.toNat q.max.toNat
    if 2 ^ 32 ≤ q.first lo then
      (q.Wraps last → ¬ Free root child q 0) ∧
        (¬ q.Wraps last → Clear root child q (this.last.toNat + 1) sibling)
    else if q.first lo + q.size.toNat ≤ min this.start.toNat (q.max.toNat + 1) then
      q.first lo ≠ q.max.toNat ∧ ¬ (q.first lo = 0 ∧ last = 2 ^ 32 - 1)
    else if this.start.toNat ≤ q.max.toNat ∧ q.first lo < this.start.toNat ∧
        q.first lo + q.size.toNat = this.start.toNat + 1 then
      ∀ x, ¬ Slot root child q x
    else Clear root child q (this.last.toNat + 1) sibling

section
variable {root : Info} {child : Resources} {q : Request} {start last : BitVec 32} {k : Nat}

/-! ## One turn -/

theorem clip_start (halign : q.align.toNat = 2 ^ k) :
    (q.clip start last).1.toNat =
      if 2 ^ 32 ≤ q.first start.toNat then 0 else q.first start.toNat := by
  have hmax : (if start < q.min then q.min else start).toNat =
      max start.toNat q.min.toNat := by
    split
    · rename_i hlt
      exact (Nat.max_eq_right (Nat.le_of_lt hlt)).symm
    · rename_i hge
      exact (Nat.max_eq_left (BitVec.not_lt.mp hge)).symm
  have hround := toNat_roundUp halign (x := if start < q.min then q.min else start)
  rw [hmax, ← halign] at hround
  refine hround.trans ?_
  rw [Request.first]
  split <;> split <;> first | rfl | omega

theorem clip_last : (q.clip start last).2.toNat = min last.toNat q.max.toNat := by
  simp only [Request.clip]
  split
  · rename_i hlt
    exact (Nat.min_eq_right (Nat.le_of_lt hlt)).symm
  · rename_i hge
    exact (Nat.min_eq_left (BitVec.not_lt.mp hge)).symm

/-- The length of the whole range of numbers is 0. -/
theorem fits_iff : q.Fits start last ↔ start.toNat < last.toNat ∧
    start.toNat + q.size.toNat ≤ last.toNat + 1 ∧
    (start.toNat = 0 ∧ last.toNat = 2 ^ 32 - 1 → q.size.toNat = 0) := by
  rw [Request.Fits, BitVec.lt_def, BitVec.le_def, BitVec.toNat_add]
  refine and_congr_right fun hlt => ?_
  rw [BitVec.toNat_sub_of_le (BitVec.le_def.mpr hlt.le)]
  simp only [BitVec.ofNat_eq_ofNat, BitVec.toNat_ofNat]
  omega

end

/-! ## From gap to gap -/

/-- What the search comes to is granted. -/
def Granted (root : Info) (child : Resources) (q : Request) (found : Bool × BitVec 32 × BitVec 32) :
    Prop :=
  found.1 = true ∧ Free root child q found.2.1.toNat

/-- What is granted is the lowest slot, and if there is one, it is granted. -/
def Right (root : Info) (child : Resources) (q : Request) (found : Bool × BitVec 32 × BitVec 32) :
    Prop :=
  (Granted root child q found → IsLeast {x | Slot root child q x} found.2.1.toNat) ∧
    ((∃ x, Slot root child q x) → Granted root child q found)

/-- The search has come to an address: the children before it are below it, and so is no slot. -/
structure Scan (root : Info) (child : Resources) (q : Request) (lo : Nat) (rest : Resources) :
    Prop where
  within : Within lo root.last.toNat rest
  seen : ∀ c ∈ child.level, c.last.toNat < lo ∨ c ∈ rest.level
  mem : ∀ c ∈ rest.level, c ∈ child.level
  low : ∀ x, Slot root child q x → lo ≤ x
  base : root.start.toNat ≤ lo

section
variable {root this : Info} {child below rest : Resources} {q : Request}
variable {found : Bool × BitVec 32 × BitVec 32} {lo x k : Nat}

theorem right_iff_of_none (hnone : ∀ x, ¬ Slot root child q x) :
    Right root child q found ↔ ¬ Granted root child q found := by
  constructor
  · intro h hgranted
    exact hnone _ (h.1 hgranted).1
  · intro h
    exact ⟨fun hgranted => absurd hgranted h, fun ⟨x, hx⟩ => absurd hx (hnone x)⟩

theorem right_iff_of_least (hleast : IsLeast {x | Slot root child q x} x) :
    Right root child q found ↔ found.1 = true ∧ found.2.1.toNat = x := by
  constructor
  · intro h
    have hgranted := h.2 ⟨x, hleast.1⟩
    exact ⟨hgranted.1, (h.1 hgranted).unique hleast⟩
  · rintro ⟨hfound, rfl⟩
    exact ⟨fun _ => hleast, fun _ => ⟨hfound, hleast.1.2.2.2⟩⟩

variable (halign : q.align.toNat = 2 ^ k) (hsize : 0 < q.size.toNat)

/-- What is found is the place of a turn at which the request fits. -/
theorem found_turn {P : BitVec 32 × BitVec 32 → Prop} {start : BitVec 32}
    (hturn : ∀ {start last}, q.Fits (q.clip start last).1 (q.clip start last).2 →
      P ((q.clip start last).1, (q.clip start last).1 + q.size - 1))
    (h : (findResource root q start rest).1 = true) : P (findResource root q start rest).2 := by
  induction rest generalizing start with
  | nil =>
    rw [findResource] at h ⊢
    split at h
    · rename_i hfits
      rw [if_pos hfits]
      exact hturn hfits
    · cases h
  | node this below sibling _ ih =>
    rw [findResource] at h ⊢
    split at h
    · rename_i hfits
      rw [if_pos hfits]
      exact hturn hfits
    · rename_i hfits
      rw [if_neg hfits]
      exact ih h

/-- Nothing is found at the last place that is allowed. -/
theorem found_lt_max {start : BitVec 32} (h : (findResource root q start rest).1 = true) :
    (findResource root q start rest).2.1.toNat < q.max.toNat := by
  refine found_turn (P := fun r => r.1.toNat < q.max.toNat) (fun {start last} hfits => ?_) h
  have hlt := (fits_iff.mp hfits).1
  rw [clip_last] at hlt
  exact hlt.trans_le (Nat.min_le_right _ _)

section
include halign

theorem le_first (lo : Nat) : lo ≤ q.first lo ∧ q.min.toNat ≤ q.first lo := by
  have hle := le_roundUp (x := max lo q.min.toNat)
    (halign ▸ Nat.two_pow_pos k)
  exact ⟨(Nat.le_max_left _ _).trans hle, (Nat.le_max_right _ _).trans hle⟩

theorem Scan.first_le (h : Scan root child q lo rest) (hx : Slot root child q x) :
    q.first lo ≤ x :=
  roundUp_le (halign ▸ Nat.two_pow_pos k) hx.1 (Nat.max_le.mpr ⟨h.low x hx, hx.2.1⟩)

/-- The first place of a gap with room is the lowest slot. -/
theorem Scan.least (h : Scan root child q lo rest) (hmax : q.first lo + q.size.toNat ≤ q.max.toNat + 1)
    (hroot : q.first lo + q.size.toNat ≤ root.last.toNat + 1)
    (hfree : ∀ c ∈ rest.level, q.first lo + q.size.toNat ≤ c.start.toNat) :
    IsLeast {x | Slot root child q x} (q.first lo) := by
  obtain ⟨hlo, hmin⟩ := le_first halign lo
  refine ⟨⟨dvd_roundUp, hmin, hmax, h.base.trans hlo, hroot, ?_⟩, fun x hx => h.first_le halign hx⟩
  intro c hc
  rcases h.seen c hc with hbelow | hrest
  · exact .inl (hbelow.trans_le hlo)
  · exact .inr (hfree c hrest)

theorem Scan.next (h : Scan root child q lo (.node this below rest))
    (hroom : ¬ (q.first lo + q.size.toNat ≤ this.start.toNat ∧
      q.first lo + q.size.toNat ≤ q.max.toNat + 1)) :
    Scan root child q (this.last.toNat + 1) rest := by
  obtain ⟨hthis, -, -, hrest⟩ := h.within
  have hle : this.start.toNat ≤ this.last.toNat := hthis.2.1
  refine ⟨hrest, ?_, fun c hc => h.mem c (List.mem_cons_of_mem _ hc), ?_, ?_⟩
  · intro c hc
    rcases h.seen c hc with hbelow | hmem
    · exact .inl (by omega)
    · rcases List.mem_cons.mp hmem with rfl | hmem
      · exact .inl (Nat.lt_succ_self _)
      · exact .inr hmem
  · intro x hx
    have hfirst := h.first_le halign hx
    have hmax := hx.2.2.1
    rcases hx.2.2.2.2.2 this (h.mem this List.mem_cons_self) with hbehind | hbefore
    · exact hbehind
    · exact absurd ⟨(Nat.add_le_add_right hfirst _).trans hbefore,
        (Nat.add_le_add_right hfirst _).trans hmax⟩ hroom
  · have hbase := h.base
    omega

include hsize

theorem fits_clip_of_large {start last : BitVec 32} (hlarge : 2 ^ 32 ≤ q.first start.toNat) :
    q.Fits (q.clip start last).1 (q.clip start last).2 ↔
      q.Wraps (min last.toNat q.max.toNat) := by
  rw [fits_iff, clip_start halign, clip_last, if_pos hlarge, Request.Wraps]
  omega

theorem fits_clip {start : BitVec 32} (hsmall : ¬ 2 ^ 32 ≤ q.first start.toNat)
    (last : BitVec 32) :
    q.Fits (q.clip start last).1 (q.clip start last).2 ↔
      q.first start.toNat < min last.toNat q.max.toNat ∧
      q.first start.toNat + q.size.toNat ≤ min last.toNat q.max.toNat + 1 ∧
      ¬ (q.first start.toNat = 0 ∧ min last.toNat q.max.toNat = 2 ^ 32 - 1) := by
  rw [fits_iff, clip_start halign, clip_last, if_neg hsmall]
  omega

theorem Scan.none_of_large (h : Scan root child q lo rest) (hlarge : 2 ^ 32 ≤ q.first lo) :
    ∀ x, ¬ Slot root child q x := by
  intro x hx
  have hfirst := h.first_le halign hx
  have hmax := hx.2.2.1
  omega

theorem right_iff_of_large (hnone : ∀ x, ¬ Slot root child q x) {start last : BitVec 32}
    (hlarge : 2 ^ 32 ≤ q.first start.toNat) :
    Right root child q (if q.Fits (q.clip start last).1 (q.clip start last).2 then
        (true, (q.clip start last).1, (q.clip start last).1 + q.size - 1) else found) ↔
      (q.Wraps (min last.toNat q.max.toNat) → ¬ Free root child q 0) ∧
        (¬ q.Wraps (min last.toNat q.max.toNat) → Right root child q found) := by
  by_cases hwraps : q.Wraps (min last.toNat q.max.toNat)
  · rw [if_pos ((fits_clip_of_large halign hsize hlarge).mpr hwraps), right_iff_of_none hnone,
      Granted, clip_start halign, if_pos hlarge]
    simp [hwraps]
  · rw [if_neg fun hfits => hwraps ((fits_clip_of_large halign hsize hlarge).mp hfits)]
    simp [hwraps]

theorem right_iff_of_room {start last : BitVec 32} (hstart : start.toNat = lo)
    (hsmall : ¬ 2 ^ 32 ≤ q.first lo) (hleast : IsLeast {x | Slot root child q x} (q.first lo))
    (hroom : q.first lo + q.size.toNat ≤ min last.toNat q.max.toNat + 1)
    (hmiss : q.first lo = min last.toNat q.max.toNat ∨
      q.first lo = 0 ∧ min last.toNat q.max.toNat = 2 ^ 32 - 1 → ¬ Right root child q found) :
    Right root child q (if q.Fits (q.clip start last).1 (q.clip start last).2 then
        (true, (q.clip start last).1, (q.clip start last).1 + q.size - 1) else found) ↔
      q.first lo ≠ min last.toNat q.max.toNat ∧
        ¬ (q.first lo = 0 ∧ min last.toNat q.max.toNat = 2 ^ 32 - 1) := by
  subst hstart
  have hfits := fits_clip halign hsize hsmall last
  by_cases hfine : q.first start.toNat ≠ min last.toNat q.max.toNat ∧
      ¬ (q.first start.toNat = 0 ∧ min last.toNat q.max.toNat = 2 ^ 32 - 1)
  · rw [if_pos (hfits.mpr ⟨by omega, hroom, hfine.2⟩), right_iff_of_least hleast]
    refine iff_of_true ⟨rfl, ?_⟩ hfine
    rw [clip_start halign, if_neg hsmall]
  · rw [if_neg fun h => hfine ⟨(hfits.mp h).1.ne, (hfits.mp h).2.2⟩]
    refine iff_of_false (hmiss ?_) hfine
    tauto

theorem right_iff_clear_nil (h : Scan root child q lo .nil) {start : BitVec 32}
    (hstart : start.toNat = lo % 2 ^ 32) (hlo : lo ≤ 2 ^ 32) :
    Right root child q (findResource root q start .nil) ↔ Clear root child q lo .nil := by
  have hfail (gap : BitVec 32 × BitVec 32) : ¬ Granted root child q (false, gap) := by
    rintro ⟨hfound, -⟩
    cases hfound
  -- the last child may end where the numbers end, and the search starts from 0 again
  have hend (hge : 2 ^ 32 ≤ lo) : ∀ x, ¬ Slot root child q x := by
    intro x hx
    have hlow := h.low x hx
    have hbelow := hx.2.2.1
    omega
  rw [findResource, Clear, ← hstart]
  by_cases hlarge : 2 ^ 32 ≤ q.first start.toNat
  · have hnone : ∀ x, ¬ Slot root child q x := by
      rcases Nat.lt_or_ge lo (2 ^ 32) with hlt | hge
      · rw [hstart, Nat.mod_eq_of_lt hlt] at hlarge
        exact h.none_of_large halign hsize hlarge
      · exact hend hge
    rw [if_pos hlarge, right_iff_of_large halign hsize hnone hlarge, right_iff_of_none hnone]
    simp [hfail]
  rw [if_neg hlarge]
  rcases Nat.lt_or_ge lo (2 ^ 32) with hlt | hge
  · rw [Nat.mod_eq_of_lt hlt] at hstart
    have hsmall := hlarge
    rw [hstart] at hsmall
    by_cases hroom : q.first lo + q.size.toNat ≤ min root.last.toNat q.max.toNat + 1
    · have hleast : IsLeast {x | Slot root child q x} (q.first lo) :=
        h.least halign (by omega) (by omega) fun c hc => by cases hc
      rw [right_iff_of_room halign hsize hstart hsmall hleast hroom]
      · exact ⟨fun hfine _ _ => hfine, fun hfine => hfine hlt hroom⟩
      · intro _ hright
        exact hfail _ (hright.2 ⟨_, hleast.1⟩)
    · have hnone : ∀ x, ¬ Slot root child q x := by
        intro x hx
        have hfirst := h.first_le halign hx
        have hbelow := hx.2.2.1
        have hroot := hx.2.2.2.2.1
        omega
      rw [if_neg, right_iff_of_none hnone]
      · simp [hfail, hroom]
      · rw [← hstart] at hroom
        exact fun hfits => hroom ((fits_clip halign hsize hlarge _).mp hfits).2.1
  · rw [right_iff_of_none (hend hge)]
    refine iff_of_true ?_ fun hlt => absurd hlt (Nat.not_lt.mpr hge)
    rintro ⟨hfound, hfree⟩
    by_cases hfits : q.Fits (q.clip start root.last).1 (q.clip start root.last).2
    · -- it would be a slot, which is below the address the search has come to
      rw [if_pos hfits, clip_start halign, if_neg hlarge] at hfree
      obtain ⟨-, hmin⟩ := le_first halign start.toNat
      have hbelow := ((fits_clip halign hsize hlarge _).mp hfits).2.1
      have hroom : q.first start.toNat + q.size.toNat ≤ q.max.toNat + 1 := by omega
      exact hend hge _ ⟨dvd_roundUp, hmin, hroom, hfree⟩
    · rw [if_neg hfits] at hfound
      cases hfound

/-- A gap with room that does not pass the test is not made up for later. -/
theorem not_right_of_missed (h : Scan root child q lo (.node this below rest))
    (hleast : IsLeast {x | Slot root child q x} (q.first lo))
    (hroom : q.first lo + q.size.toNat ≤ this.start.toNat)
    (hcase : q.first lo = min this.start.toNat q.max.toNat ∨
      q.first lo = 0 ∧ min this.start.toNat q.max.toNat = 2 ^ 32 - 1) :
    ¬ Right root child q (findResource root q (this.last + 1) rest) := by
  rw [right_iff_of_least hleast]
  rintro ⟨hfound, heq⟩
  have hbefore := found_lt_max hfound
  obtain ⟨⟨-, hle, htop⟩, -, -, hrest⟩ := h.within
  have hle' : this.start.toNat ≤ this.last.toNat := hle
  rcases hcase with hmax | ⟨hzero, hwhole⟩
  · omega
  · -- the next child takes the last number, so there is only the gap after it
    have hend : this.last.toNat = 2 ^ 32 - 1 := by omega
    have hnil : rest = .nil := by
      cases rest with
      | nil => rfl
      | node c _ _ =>
        have hc := hrest.1.1
        omega
    have hstart : (this.last + 1).toNat = 0 := by
      rw [BitVec.toNat_add, hend]
      rfl
    have hfirst : q.first (this.last + 1).toNat = 0 := by
      have hmono := roundUp_mono (halign ▸ Nat.two_pow_pos k)
        (max_le_max_right q.min.toNat (Nat.zero_le lo))
      rw [hstart]
      exact Nat.le_zero.mp (hzero ▸ hmono)
    have hsmall : ¬ 2 ^ 32 ≤ q.first (this.last + 1).toNat := by
      rw [hfirst]
      decide
    rw [hnil, findResource, if_neg] at hfound
    · cases hfound
    · intro hfits
      exact ((fits_clip halign hsize hsmall _).mp hfits).2.2 ⟨hfirst, by omega⟩

theorem right_iff_clear (h : Scan root child q lo rest) {start : BitVec 32}
    (hstart : start.toNat = lo % 2 ^ 32) (hlo : lo ≤ 2 ^ 32) :
    Right root child q (findResource root q start rest) ↔ Clear root child q lo rest := by
  induction rest generalizing lo start with
  | nil => exact right_iff_clear_nil halign hsize h hstart hlo
  | node this below sibling _ ih =>
    obtain ⟨hthis, -, -, hrest⟩ := h.within
    have hle : this.start.toNat ≤ this.last.toNat := hthis.2.1
    have hnext : (this.last + 1).toNat = (this.last.toNat + 1) % 2 ^ 32 := by
      rfl
    rw [Nat.mod_eq_of_lt (by omega)] at hstart
    rw [findResource, Clear]
    by_cases hlarge : 2 ^ 32 ≤ q.first lo
    · have hscan := h.next halign (by omega)
      have hnone := h.none_of_large halign hsize hlarge
      rw [if_pos hlarge, right_iff_of_large halign hsize hnone (hstart ▸ hlarge),
        ih hscan hnext (by omega)]
    rw [if_neg hlarge]
    by_cases hroom : q.first lo + q.size.toNat ≤ min this.start.toNat (q.max.toNat + 1)
    · have hleast : IsLeast {x | Slot root child q x} (q.first lo) := by
        refine h.least halign (by omega) (by omega) fun c hc => ?_
        rcases List.mem_cons.mp hc with rfl | hc
        · omega
        · have hbehind := (hrest.level hc).1
          omega
      rw [if_pos hroom, right_iff_of_room halign hsize hstart hlarge hleast (by omega)]
      · refine and_congr_left fun _ => not_congr ?_
        omega
      · exact not_right_of_missed halign hsize h hleast (by omega)
    have hscan := h.next halign (by omega)
    rw [if_neg hroom]
    subst hstart
    by_cases hshort : this.start.toNat ≤ q.max.toNat ∧ q.first start.toNat < this.start.toNat ∧
        q.first start.toNat + q.size.toNat = this.start.toNat + 1
    · -- the range that is requested holds the first place of the next child
      have hfits := (fits_clip halign hsize hlarge this.start).mpr ⟨by omega, by omega, by omega⟩
      rw [if_pos hshort, if_pos hfits]
      have hrefused : ¬ Granted root child q (true, (q.clip start this.start).1,
          (q.clip start this.start).1 + q.size - 1) := by
        rintro ⟨-, -, -, hfree⟩
        have hthis := hfree this (h.mem this List.mem_cons_self)
        rw [clip_start halign, if_neg hlarge] at hthis
        omega
      constructor
      · intro hright x hx
        exact hrefused (hright.2 ⟨x, hx⟩)
      · exact fun hnone => (right_iff_of_none hnone).mpr hrefused
    · rw [if_neg hshort, if_neg, ih hscan hnext (by omega)]
      intro hfits
      obtain ⟨h1, h2, -⟩ := (fits_clip halign hsize hlarge _).mp hfits
      omega

end

/-! ## The call -/

theorem found_range {start : BitVec 32} (hsize : 0 < q.size.toNat)
    (h : (findResource root q start rest).1 = true) :
    (findResource root q start rest).2.2.toNat + 1 =
      (findResource root q start rest).2.1.toNat + q.size.toNat := by
  refine found_turn (P := fun r => r.2.toNat + 1 = r.1.toNat + q.size.toNat)
    (fun {start last} hfits => ?_) h
  obtain ⟨-, hle, -⟩ := fits_iff.mp hfits
  rw [BitVec.toNat_sub, BitVec.toNat_add]
  simp only [BitVec.ofNat_eq_ofNat, BitVec.toNat_ofNat]
  omega

variable {s : Resources} {name : Nat}

/-- What is found and free is put in, and nothing else. -/
theorem allocateResource_cases (hs : WellFormed s) (hfind : find name s = some (root, child))
    (hsize : 0 < q.size.toNat) (new : Resource) :
    (Granted root child q (findResource root q root.start child) ∧
      ∃ s', requestResource name (setRange new (findResource root q root.start child).2.1
          (findResource root q root.start child).2.2) s = (0, s') ∧
        allocateResource name new q s = (0, setRange new
          (findResource root q root.start child).2.1 (findResource root q root.start child).2.2, s')) ∨
    ¬ Granted root child q (findResource root q root.start child) ∧
      ∃ new', allocateResource name new q s = (ebusy, new', s) := by
  have hrange : (findResource root q root.start child).1 = true →
      (findResource root q root.start child).2.2.toNat + 1 =
        (findResource root q root.start child).2.1.toNat + q.size.toNat := found_range hsize
  simp only [allocateResource, hfind]
  generalize findResource root q root.start child = found at *
  obtain ⟨ok, start, last⟩ := found
  cases ok with
  | false =>
    refine .inr ⟨?_, _, rfl⟩
    rintro ⟨hfound, -⟩
    cases hfound
  | true =>
    have hlast : last.toNat + 1 = start.toNat + q.size.toNat := hrange rfl
    -- a request is granted when the range is free
    have hiff := requestResource_iff hs hfind (setRange new start last)
    have hfree : (requestResource name (setRange new start last) s).1 = 0 ↔
        Free root child q start.toNat := by
      rw [hiff]
      simp only [setRange, Free, BitVec.le_def, BitVec.lt_def]
      constructor
      · rintro ⟨-, hlow, hhigh, hchildren⟩
        exact ⟨hlow, by omega, fun c hc => (hchildren c hc).imp_right (by omega)⟩
      · rintro ⟨hlow, hhigh, hchildren⟩
        exact ⟨by omega, hlow, by omega, fun c hc => (hchildren c hc).imp_right (by omega)⟩
    simp only [requestResource, hfind] at hfree ⊢
    cases hrequest : requestBelow root (setRange new start last) child with
    | error conflict =>
      rw [hrequest] at hfree
      refine .inr ⟨fun hgranted => ?_, _, rfl⟩
      cases hfree.mpr hgranted.2
    | ok child' =>
      rw [hrequest] at hfree
      exact .inl ⟨⟨rfl, hfree.mp rfl⟩, _, rfl, rfl⟩

theorem lowest_iff_right (hs : WellFormed s) (hfind : find name s = some (root, child))
    (hsize : 0 < q.size.toNat) (new : Resource) :
    Lowest name root child new q s ↔
      Right root child q (findResource root q root.start child) := by
  rw [Lowest, Right]
  rcases allocateResource_cases hs hfind hsize new with ⟨hgranted, s', hrequest, heq⟩ | ⟨hnot, new', heq⟩
  · rw [heq]
    have hlast := found_range hsize hgranted.1
    constructor
    · rintro ⟨-, hleast, -⟩
      exact ⟨fun _ => (hleast rfl).1, fun _ => hgranted⟩
    · rintro ⟨hleast, -⟩
      exact ⟨iff_of_true rfl ⟨_, (hleast hgranted).1⟩,
        fun _ => ⟨hleast hgranted, hlast, hrequest⟩, fun hne => absurd rfl hne⟩
  · rw [heq]
    have hbusy : ¬ ebusy = 0 := by decide
    constructor
    · rintro ⟨hiff, -⟩
      exact ⟨fun h => absurd h hnot, fun hslot => absurd (hiff.mpr hslot) hbusy⟩
    · rintro ⟨-, hslot⟩
      exact ⟨iff_of_false hbusy fun h => hnot (hslot h), fun h => absurd h hbusy, fun _ => rfl⟩

/-- The call finds a slot when there is one, takes the lowest and puts it in, exactly when the gaps
are clear. -/
theorem allocate_lowest_iff (hs : WellFormed s) (hfind : find name s = some (root, child))
    (new : Resource) (hsize : 1 ≤ q.size) (halign : q.align.toNat = 2 ^ k) :
    Lowest name root child new q s ↔ Clear root child q root.start.toNat child := by
  have hsize' : 0 < q.size.toNat := hsize
  rw [lowest_iff_right hs hfind hsize']
  have hlt := root.start.isLt
  refine right_iff_clear halign hsize' ?_ (Nat.mod_eq_of_lt hlt).symm hlt.le
  refine ⟨((wellFormed_iff.mp hs).1.nodes (Forest.find?_mem hfind).1).2, fun c hc => .inr hc,
    fun c hc => hc, fun x hx => hx.2.2.2.1, Nat.le_refl _⟩

end

/-- The ports with a bus in them. -/
def machine : Resources := .node ⟨0, 0, 0xffff, 0x100⟩ (.node bus .nil .nil) .nil

/-- A resource that wants a range. -/
def card : Resource := ⟨⟨2, 0, 0, 0x100⟩, .nil⟩

theorem machine_wellFormed : WellFormed machine :=
  wellFormed_iff.mpr ⟨⟨fun _ => by contradiction, by decide, fun _ => rfl, trivial, trivial⟩, by decide⟩

theorem allocate_lowest_card :
    (Lowest 0 ⟨0, 0, 0xffff, 0x100⟩ (.node bus .nil .nil) card ⟨0x180, 0, 0xffff, 0x80⟩ machine ↔
      Clear ⟨0, 0, 0xffff, 0x100⟩ (.node bus .nil .nil) ⟨0x180, 0, 0xffff, 0x80⟩ 0
        (.node bus .nil .nil)) ∧
    (allocateResource 0 card ⟨0x180, 0, 0xffff, 0x80⟩ machine).2.1.info = ⟨2, 0x200, 0x37f, 0x100⟩ :=
  ⟨allocate_lowest_iff (k := 7) machine_wellFormed rfl card (by decide) rfl, by decide⟩

/-- A gap that is short by one place hides the ones after it, the only place that is allowed is not
found, and rounding up goes below the minimum. -/
theorem slot_not_allocated :
    (allocateResource 0 card ⟨0x101, 0, 0xffff, 1⟩ machine).1 = ebusy ∧
    Slot ⟨0, 0, 0xffff, 0x100⟩ (.node bus .nil .nil) ⟨0x101, 0, 0xffff, 1⟩ 0x200 ∧
    (allocateResource 0 card ⟨1, 0x300, 0x300, 1⟩ machine).1 = ebusy ∧
    Slot ⟨0, 0, 0xffff, 0x100⟩ (.node bus .nil .nil) ⟨1, 0x300, 0x300, 1⟩ 0x300 ∧
    (allocateResource 0 card ⟨8, 0xfffffff1, 0xfffffffe, 0x10⟩ machine).1 = 0 ∧
    (allocateResource 0 card ⟨8, 0xfffffff1, 0xfffffffe, 0x10⟩ machine).2.1.info =
      ⟨2, 0, 7, 0x100⟩ := by
  decide

end CustomKernel.Ioport.Allocate

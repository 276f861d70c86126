import CustomKernel.Lib.Transition
import Mathlib.Algebra.Order.Ring.Nat

/-! # Areas of kernel virtual memory

`get_vm_area` takes the first gap between the areas of the list that holds the size asked for and a
guard page behind it. The end of the window is looked at behind each area of the list, and so not at
all while the list is empty. -/
namespace CustomKernel.Mm.Vmalloc
open Lib.Transition

def pageSize : Nat := 4096

/-- `VMALLOC_START` and `VMALLOC_END`, behind the memory that is mapped from `PAGE_OFFSET` on. -/
structure Window where
  start : Nat
  stop : Nat
  high : 0xc0000000 ≤ start
  le : start ≤ stop
  fits : stop < 2 ^ 32

structure Area where
  addr : Nat
  size : Nat
deriving DecidableEq, Repr

/-- The loop of `get_vm_area`, with `size` and the sums and differences modulo `2 ^ 32`. -/
def insertArea (w : Window) (size : Nat) : Nat → List Area → Option (List Area)
  | addr, [] => some [⟨addr, size⟩]
  | addr, tmp :: rest =>
    if (size + addr) % 2 ^ 32 < addr then none
    else if (size + addr) % 2 ^ 32 ≤ tmp.addr then some (⟨addr, size⟩ :: tmp :: rest)
    else
      let addr := (tmp.size + tmp.addr) % 2 ^ 32
      if (w.stop + 2 ^ 32 - size) % 2 ^ 32 < addr then none
      else (insertArea w size addr rest).map (tmp :: ·)

/-- The list with the new area, where there is memory for its descriptor. -/
def getVmArea (w : Window) (size : BitVec 32) (vmlist : List Area) : Option (List Area) :=
  insertArea w ((size.toNat + pageSize) % 2 ^ 32) w.start vmlist

def vfree (addr : Nat) (vmlist : List Area) : List Area :=
  if addr = 0 ∨ addr % pageSize ≠ 0 then vmlist else vmlist.eraseP (·.addr = addr)

inductive Op
  | getVmArea (size : BitVec 32)
  | vfree (addr : Nat)

inductive Step (w : Window) (l : List Area) : Op → List Area → Prop
  | get {size : BitVec 32} {l' : List Area} (h : getVmArea w size l = some l') :
      Step w l (.getVmArea size) l'
  | null {size : BitVec 32} : Step w l (.getVmArea size) l
  | free {addr : Nat} : Step w l (.vfree addr) (vfree addr l)

/-- The areas, each with its guard page, are in order, apart and between `lo` and `hi`. -/
structure Sound (lo hi : Nat) (l : List Area) : Prop where
  apart : l.Pairwise fun a b => a.addr < b.addr ∧ a.addr + a.size ≤ b.addr
  inside : ∀ a ∈ l, lo ≤ a.addr ∧ pageSize ≤ a.size ∧ a.addr + a.size ≤ hi

/-- Where `size` bytes would fit. -/
def Gap (lo hi : Nat) (l : List Area) (size x : Nat) : Prop :=
  lo ≤ x ∧ x + size ≤ hi ∧ ∀ a ∈ l, a.addr + a.size ≤ x ∨ x + size ≤ a.addr

/-- The size and its guard page make a word, and fit in the window if nothing else is there. -/
def Measured (w : Window) (l : List Area) : Op → Prop
  | .getVmArea size => size.toNat + pageSize < 2 ^ 32 ∧
      (l = [] → w.start + (size.toNat + pageSize) ≤ w.stop)
  | .vfree _ => True

variable {w : Window} {lo hi size addr : Nat} {a : Area} {l l' : List Area}

theorem sound_nil : Sound lo hi [] := ⟨.nil, by simp⟩

theorem sound_cons : Sound lo hi (a :: l) ↔
    (lo ≤ a.addr ∧ pageSize ≤ a.size ∧ a.addr + a.size ≤ hi) ∧ Sound (a.addr + a.size) hi l := by
  constructor
  · rintro ⟨hapart, hinside⟩
    obtain ⟨hfirst, hapart⟩ := List.pairwise_cons.mp hapart
    obtain ⟨ha, hinside⟩ := List.forall_mem_cons.mp hinside
    exact ⟨ha, hapart, fun b hb => ⟨(hfirst b hb).2, (hinside b hb).2⟩⟩
  · rintro ⟨ha, h⟩
    refine ⟨List.pairwise_cons.mpr ⟨fun b hb => ?_, h.apart⟩, List.forall_mem_cons.mpr ⟨ha, ?_⟩⟩
    · have hafter := (h.inside b hb).1
      unfold pageSize at ha
      omega
    · intro b hb
      have hafter := h.inside b hb
      omega

theorem vfree_sound (h : Sound lo hi l) (addr : Nat) : Sound lo hi (vfree addr l) := by
  unfold vfree
  split
  · exact h
  · have hsub : (l.eraseP (·.addr = addr)).Sublist l := List.eraseP_sublist
    exact ⟨h.apart.sublist hsub, fun a ha => h.inside a (hsub.mem ha)⟩

theorem insertArea_none (h : Sound addr w.stop l) (hstart : w.start ≤ addr)
    (hsize : size < 2 ^ 32) (hnone : insertArea w size addr l = none) (x : Nat) :
    ¬ Gap addr w.stop l size x := by
  have hhigh := w.high
  have hfits := w.fits
  induction l generalizing addr with
  | nil => cases hnone
  | cons tmp rest ih =>
    rintro ⟨hlo, hhi, hgap⟩
    obtain ⟨⟨hbefore, -, htmp⟩, hrest⟩ := sound_cons.mp h
    obtain ⟨hfirst, hgap⟩ := List.forall_mem_cons.mp hgap
    rw [insertArea] at hnone
    split at hnone
    · omega
    split at hnone
    · cases hnone
    dsimp only at hnone
    rw [Nat.mod_eq_of_lt (by omega : tmp.size + tmp.addr < 2 ^ 32)] at hnone
    split at hnone
    · omega
    · rw [Option.map_eq_none_iff, Nat.add_comm] at hnone
      exact ih hrest (by omega) hnone ⟨by omega, hhi, hgap⟩

theorem insertArea_sound_iff (h : Sound addr w.stop l) (hstart : w.start ≤ addr)
    (hsize : size < 2 ^ 32) (hsome : insertArea w size addr l = some l') :
    Sound addr w.stop l' ↔ pageSize ≤ size ∧ (l = [] → addr + size ≤ w.stop) := by
  have hhigh := w.high
  have hfits := w.fits
  induction l generalizing addr l' with
  | nil =>
    cases hsome
    simp [sound_cons, sound_nil]
  | cons tmp rest ih =>
    have hrest := sound_cons.mp h
    rw [insertArea] at hsome
    split at hsome
    · cases hsome
    split at hsome
    · cases hsome
      have hbefore : addr + size ≤ tmp.addr := by omega
      have hend : addr + size ≤ w.stop := by omega
      simp [sound_cons, hbefore, hend, hrest]
    dsimp only at hsome
    rw [Nat.mod_eq_of_lt (by omega : tmp.size + tmp.addr < 2 ^ 32)] at hsome
    split at hsome
    · cases hsome
    · obtain ⟨l'', hrec, rfl⟩ := Option.map_eq_some_iff.mp hsome
      rw [Nat.add_comm] at hrec
      have hend : tmp.addr + tmp.size + size ≤ w.stop := by omega
      have hiff := ih hrest.2 (by omega) hrec
      simp [sound_cons, hiff, hrest.1, hend]

theorem getVmArea_sound_iff {size : BitVec 32} (h : Sound w.start w.stop l)
    (hsome : getVmArea w size l = some l') :
    Sound w.start w.stop l' ↔ Measured w l (.getVmArea size) := by
  have hlt := size.isLt
  have hword : pageSize ≤ (size.toNat + pageSize) % 2 ^ 32 ↔ size.toNat + pageSize < 2 ^ 32 := by
    unfold pageSize
    omega
  rw [insertArea_sound_iff h (Nat.le_refl _) (Nat.mod_lt _ (by decide)) hsome, hword]
  refine and_congr_right fun hlt => ?_
  rw [Nat.mod_eq_of_lt hlt]

theorem getVmArea_none {size : BitVec 32} (h : Sound w.start w.stop l)
    (hnone : getVmArea w size l = none) (x : Nat) :
    ¬ Gap w.start w.stop l (size.toNat + pageSize) x := by
  intro hgap
  have hend := hgap.2.1
  have hfits := w.fits
  rw [getVmArea, Nat.mod_eq_of_lt (by omega)] at hnone
  exact insertArea_none h (Nat.le_refl _) (by omega) hnone x hgap

/-- As long as the sizes are measured, the areas are in order, apart and inside the window. Then a
call returns no area only when none would fit, and a further area is right exactly when its size is
measured too. -/
theorem vm_areas_apart_iff {ops : List Op} (hrun : Run (Meeting (Measured w) (Step w)) [] ops l) :
    Sound w.start w.stop l ∧ ∀ size : BitVec 32,
      (getVmArea w size l = none → ∀ x, ¬ Gap w.start w.stop l (size.toNat + pageSize) x) ∧
      ∀ l', getVmArea w size l = some l' →
        (Sound w.start w.stop l' ↔ Measured w l (.getVmArea size)) := by
  have h : Sound w.start w.stop l := by
    refine hrun.invariant (I := Sound w.start w.stop) ?_ sound_nil
    rintro l o l' h ⟨hmeasured, hstep⟩
    cases hstep with
    | get hsome => exact (getVmArea_sound_iff h hsome).mpr hmeasured
    | null => exact h
    | free => exact vfree_sound h _
  exact ⟨h, fun size => ⟨getVmArea_none h, fun l' => getVmArea_sound_iff h⟩⟩

/-- The window of a machine with 128 megabytes. -/
def window : Window := ⟨0xc8800000, 0xffffa000, by decide, by decide, by decide⟩

/-- Two areas of one page each. -/
def twoAreas : List Area := [⟨0xc8800000, 8192⟩, ⟨0xc8802000, 8192⟩]

theorem vm_areas_apart_iff_twoAreas : Sound window.start window.stop twoAreas ∧
    ∀ size : BitVec 32,
      (getVmArea window size twoAreas = none →
        ∀ x, ¬ Gap window.start window.stop twoAreas (size.toNat + pageSize) x) ∧
      ∀ l', getVmArea window size twoAreas = some l' →
        (Sound window.start window.stop l' ↔ Measured window twoAreas (.getVmArea size)) := by
  have hfirst : getVmArea window 4096 [] = some [⟨0xc8800000, 8192⟩] := by decide
  have hrun : Run (Meeting (Measured window) (Step window)) []
      [.getVmArea 4096, .getVmArea 4096] twoAreas :=
    .cons ⟨⟨by decide, fun _ => by decide⟩, .get hfirst⟩
      (.cons ⟨⟨by decide, fun h => by cases h⟩, .get (by decide)⟩ (.nil _))
  exact vm_areas_apart_iff hrun

/-- The first area may end behind the window. -/
theorem first_area_outside :
    Run (Step window) [] [.getVmArea 0x38000000] [⟨0xc8800000, 0x38001000⟩] ∧
      ¬ Sound window.start window.stop [⟨0xc8800000, 0x38001000⟩] :=
  ⟨.cons (.get (by decide)) (.nil _), fun h =>
    absurd (h.inside _ (List.mem_singleton.mpr rfl)).2.2 (by decide)⟩

end CustomKernel.Mm.Vmalloc

import Mathlib.Algebra.BigOperators.Group.List.Basic
import Mathlib.Tactic.Linarith

/-! # Segments of a sequence

A segment is a piece of a sequence that knows where it begins. A list of segments that lie one
after the other inside a range, and whose lengths add up to that of the range, tiles it, and what
they hold one after the other is the whole sequence. -/
namespace CustomKernel.Lib.Segments

structure Segment (α : Type) where
  start : Nat
  data : List α
deriving DecidableEq, Repr

variable {α : Type} {f : Segment α} {fs A B : List (Segment α)} {lo hi i : Nat} {b : α}

def Segment.fin (f : Segment α) : Nat := f.start + f.data.length

/-- The sequence has `b` at `i`, as this segment says. -/
def Segment.Holds (f : Segment α) (i : Nat) (b : α) : Prop :=
  f.start ≤ i ∧ f.data[i - f.start]? = some b

def Segment.drop (f : Segment α) (n : Nat) : Segment α := ⟨f.start + n, f.data.drop n⟩

def Segment.take (f : Segment α) (n : Nat) : Segment α := ⟨f.start, f.data.take n⟩

theorem Segment.Holds.of_drop {n : Nat} (h : (f.drop n).Holds i b) : f.Holds i b := by
  obtain ⟨hle, hget⟩ := h
  have hle : f.start + n ≤ i := hle
  refine ⟨by omega, ?_⟩
  rw [Segment.drop, List.getElem?_drop] at hget
  rwa [show n + (i - (f.start + n)) = i - f.start by omega] at hget

theorem Segment.Holds.of_take {n : Nat} (h : (f.take n).Holds i b) : f.Holds i b := by
  obtain ⟨hle, hget⟩ := h
  rw [Segment.take, List.getElem?_take] at hget
  split at hget
  · exact ⟨hle, hget⟩
  · cases hget

/-- The segments are not empty and lie one after the other in `[lo, hi)`. -/
def Ordered : Nat → List (Segment α) → Nat → Prop
  | lo, [], hi => lo ≤ hi
  | lo, f :: fs, hi => lo ≤ f.start ∧ f.data ≠ [] ∧ Ordered f.fin fs hi

/-- They follow each other without a gap, from `lo` to `hi`. -/
def Tiles : Nat → List (Segment α) → Nat → Prop
  | lo, [], hi => lo = hi
  | lo, f :: fs, hi => f.start = lo ∧ Tiles f.fin fs hi

def total (fs : List (Segment α)) : Nat := (fs.map fun f => f.data.length).sum

def content (fs : List (Segment α)) : List α := fs.flatMap Segment.data

/-- Where a list of segments that begins at `lo` ends. -/
def reach : Nat → List (Segment α) → Nat
  | lo, [] => lo
  | _, f :: fs => reach f.fin fs

@[simp] theorem total_cons : total (f :: fs) = f.data.length + total fs := rfl

@[simp] theorem total_append : total (A ++ B) = total A + total B := by
  simp [total]

theorem reach_eq (lo : Nat) (fs : List (Segment α)) :
    reach lo fs = (fs.getLast?.map Segment.fin).getD lo := by
  induction fs generalizing lo with
  | nil => rfl
  | cons f fs ih =>
    rw [reach, ih, List.getLast?_cons]
    cases fs.getLast? <;> rfl

theorem ordered_append :
    Ordered lo (A ++ B) hi ↔ Ordered lo A (reach lo A) ∧ Ordered (reach lo A) B hi := by
  induction A generalizing lo with
  | nil => exact (and_iff_right (le_refl lo)).symm
  | cons f A ih =>
    simp [Ordered, reach, ih, and_assoc]

theorem Ordered.mono_right {hi' : Nat} (h : Ordered lo fs hi) (hhi : hi ≤ hi') :
    Ordered lo fs hi' := by
  induction fs generalizing lo with
  | nil => exact le_trans h hhi
  | cons f fs ih => exact ⟨h.1, h.2.1, ih h.2.2⟩

theorem Ordered.add_total_le (h : Ordered lo fs hi) : lo + total fs ≤ hi := by
  induction fs generalizing lo with
  | nil => exact h
  | cons f fs ih =>
    have hfin : f.fin = f.start + f.data.length := rfl
    have := h.1
    have := ih h.2.2
    rw [total_cons]
    omega

/-- Segments that are as long together as the range they lie in leave no gap. -/
theorem Ordered.tiles (h : Ordered lo fs hi) (htotal : lo + total fs = hi) : Tiles lo fs hi := by
  induction fs generalizing lo with
  | nil => exact htotal
  | cons f fs ih =>
    have hfin : f.fin = f.start + f.data.length := rfl
    have hle := h.1
    have hrest := h.2.2.add_total_le
    rw [total_cons] at htotal
    exact ⟨by omega, ih h.2.2 (by omega)⟩

theorem Tiles.length_content (h : Tiles lo fs hi) : lo + (content fs).length = hi := by
  induction fs generalizing lo with
  | nil => exact h
  | cons f fs ih =>
    have hfin : f.fin = f.start + f.data.length := rfl
    have hstart := h.1
    have := ih h.2
    rw [content, List.flatMap_cons, List.length_append]
    rw [content] at this
    omega

/-- Each item of the content comes from a segment that holds it there. -/
theorem Tiles.content_holds (h : Tiles lo fs hi) {j : Nat} (hj : (content fs)[j]? = some b) :
    ∃ f ∈ fs, f.Holds (lo + j) b := by
  induction fs generalizing lo j with
  | nil => cases hj
  | cons f fs ih =>
    have hstart : f.start = lo := h.1
    rw [content, List.flatMap_cons] at hj
    by_cases hin : j < f.data.length
    · rw [List.getElem?_append_left hin] at hj
      refine ⟨f, List.mem_cons_self, by omega, ?_⟩
      rwa [show lo + j - f.start = j by omega]
    · rw [List.getElem?_append_right (by omega)] at hj
      obtain ⟨g, hg, hholds⟩ := ih h.2 hj
      refine ⟨g, List.mem_cons_of_mem f hg, ?_⟩
      have hfin : f.fin = f.start + f.data.length := rfl
      rwa [show f.fin + (j - f.data.length) = lo + j by omega] at hholds

end CustomKernel.Lib.Segments

import Mathlib.Data.Nat.ModEq

/-! # An endless tape laid on a ring of cells

A log that wraps round is easier to reason about on an endless tape: entry `k`
of the tape lies in cell `first + k % size`, and any `size` consecutive entries
lie in different cells. Programs keep the cell numbers, which they step or wrap
at the end of the area. -/
namespace CustomKernel.Lib.Tape
open Function

/-- The cells from `first` up to, not including, `last`. -/
structure Area where
  first : Nat
  last : Nat
  room : first < last
  deriving DecidableEq

variable {α : Type} {xs : List α}

namespace Area
variable (a : Area)

def size : Nat := a.last - a.first

/-- The cell of an entry of the tape. -/
def cell (k : Nat) : Nat := a.first + k % a.size

/-- `++p; if (p == last) p = first;` -/
def next (p : Nat) : Nat := if p + 1 = a.last then a.first else p + 1

/-- `if (p >= last) p -= last - first;` -/
def wrap (p : Nat) : Nat := if a.last ≤ p then p - a.size else p

theorem size_pos : 0 < a.size := Nat.sub_pos_of_lt a.room

theorem cell_bounds (k : Nat) : a.first ≤ a.cell k ∧ a.cell k < a.last := by
  have hmod := Nat.mod_lt k a.size_pos
  unfold cell size at *
  omega

theorem cell_add_size (k : Nat) : a.cell (k + a.size) = a.cell k := by
  simp [cell]

theorem last_eq : a.last = a.first + a.size := by
  have hroom := a.room
  unfold size
  omega

theorem wrap_cell (k : Nat) {c : Nat} (hc : c ≤ a.size) :
    a.wrap (a.cell k + c) = a.cell (k + c) := by
  have hmod := Nat.mod_lt k a.size_pos
  have hlast := a.last_eq
  have hadd : (k + c) % a.size = (k % a.size + c) % a.size := (Nat.mod_add_mod k a.size c).symm
  unfold wrap cell
  rw [hadd]
  generalize k % a.size = r at hmod
  by_cases hover : a.size ≤ r + c
  · rw [if_pos (by omega), Nat.mod_eq_sub_mod hover, Nat.mod_eq_of_lt (by omega)]
    omega
  · rw [if_neg (by omega), Nat.mod_eq_of_lt (by omega)]
    omega

theorem next_cell (k : Nat) : a.next (a.cell k) = a.cell (k + 1) := by
  have hb := a.cell_bounds k
  rw [← a.wrap_cell k a.size_pos]
  unfold next wrap size
  split <;> split <;> omega

/-- How far one cell is behind another, less than a turn. -/
theorem cell_dist (k : Nat) {d : Nat} (hd : d < a.size) :
    (if a.cell (k + d) < a.cell k then a.cell (k + d) + a.size - a.cell k
      else a.cell (k + d) - a.cell k) = d := by
  have hb := a.cell_bounds k
  have hlast := a.last_eq
  rw [← a.wrap_cell k (Nat.le_of_lt hd)]
  unfold wrap
  split <;> split <;> omega

/-- Entries less than a turn apart lie in different cells. -/
theorem cell_inj {k i j : Nat} (hi : i < a.size) (hj : j < a.size)
    (h : a.cell (k + i) = a.cell (k + j)) : i = j := by
  have hmod : (k + i) % a.size = (k + j) % a.size := Nat.add_left_cancel h
  have hcancel : i % a.size = j % a.size := Nat.ModEq.add_left_cancel' k hmod
  rwa [Nat.mod_eq_of_lt hi, Nat.mod_eq_of_lt hj] at hcancel

end Area

variable (a : Area)

/-- The cells hold `xs` from entry `k` of the tape on. -/
def Holds (m : Nat → α) (k : Nat) (xs : List α) : Prop :=
  ∀ i x, xs[i]? = some x → m (a.cell (k + i)) = x

/-- Write a row of entries from cell `p` on; a `none` is passed over, and its
cell keeps what it holds. Returned with the cell after the last. -/
def lay : List (Option α) → (Nat → α) → Nat → (Nat → α) × Nat
  | [], m, p => (m, p)
  | x :: xs, m, p => lay xs (x.elim m (update m p)) (a.next p)

variable {a} {m : Nat → α} {k : Nat}

theorem Holds.nil : Holds a m k [] := by
  intro i x hx
  simp at hx

theorem Holds.cons {x : α} :
    Holds a m k (x :: xs) ↔ m (a.cell k) = x ∧ Holds a m (k + 1) xs := by
  constructor
  · intro h
    refine ⟨h 0 x rfl, ?_⟩
    intro i y hy
    rw [Nat.add_right_comm, Nat.add_assoc]
    exact h (i + 1) y (by simpa using hy)
  · rintro ⟨hx, hxs⟩ i y hy
    cases i with
    | zero =>
      rw [List.getElem?_cons_zero, Option.some.injEq] at hy
      exact hy ▸ hx
    | succ i =>
      rw [← Nat.add_assoc, Nat.add_right_comm]
      exact hxs i y (by simpa using hy)

theorem Holds.append {ys : List α} :
    Holds a m k (xs ++ ys) ↔ Holds a m k xs ∧ Holds a m (k + xs.length) ys := by
  induction xs generalizing k with
  | nil => simp [Holds.nil]
  | cons x xs ih =>
    rw [List.cons_append, Holds.cons, Holds.cons, ih, and_assoc, List.length_cons,
      Nat.add_assoc k, Nat.add_comm 1]

theorem Holds.congr {m' : Nat → α} (h : Holds a m k xs)
    (heq : ∀ i < xs.length, m' (a.cell (k + i)) = m (a.cell (k + i))) : Holds a m' k xs := by
  intro i x hx
  rw [heq i (List.getElem?_eq_some_iff.mp hx).1]
  exact h i x hx

theorem lay_pos (xs : List (Option α)) : (lay a xs m (a.cell k)).2 = a.cell (k + xs.length) := by
  induction xs generalizing m k with
  | nil => rfl
  | cons x xs ih =>
    rw [lay, a.next_cell, ih, List.length_cons, Nat.add_assoc k, Nat.add_comm 1]

/-- What is laid in less than a turn, and the rest of the ring is left alone. -/
theorem lay_apply {xs : List (Option α)} (hlen : xs.length ≤ a.size) {d : Nat} (hd : d < a.size) :
    (lay a xs m (a.cell k)).1 (a.cell (k + d)) = xs[d]?.join.getD (m (a.cell (k + d))) := by
  induction xs generalizing m k d with
  | nil => rfl
  | cons x xs ih =>
    rw [List.length_cons] at hlen
    rw [lay, a.next_cell]
    cases d with
    | zero =>
      -- a whole turn later the cell would come round again
      have hturn : a.cell (k + 1 + (a.size - 1)) = a.cell k := by
        rw [← a.cell_add_size k]
        congr 1
        omega
      have hend : xs[a.size - 1]? = none := List.getElem?_eq_none (by omega)
      have hoff := ih (m := x.elim m (update m (a.cell k))) (k := k + 1) (by omega)
        (d := a.size - 1) (by omega)
      rw [hturn, hend] at hoff
      refine hoff.trans ?_
      cases x <;> simp
    | succ d =>
      have hk : k + (d + 1) = k + 1 + d := by omega
      rw [hk, ih (by omega) (by omega), ← hk, List.getElem?_cons_succ]
      congr 1
      cases x with
      | none => rfl
      | some x =>
        refine update_of_ne ?_ _ _
        intro hcell
        have hzero := a.cell_inj hd a.size_pos hcell
        omega

theorem lay_off {xs : List (Option α)} {d : Nat} (hd : xs.length ≤ d) (hsize : d < a.size) :
    (lay a xs m (a.cell k)).1 (a.cell (k + d)) = m (a.cell (k + d)) := by
  rw [lay_apply (hd.trans hsize.le) hsize, List.getElem?_eq_none hd]
  rfl

theorem lay_at {xs : List (Option α)} (hlen : xs.length ≤ a.size) {i : Nat} {x : Option α}
    (hx : xs[i]? = some x) :
    (lay a xs m (a.cell k)).1 (a.cell (k + i)) = x.getD (m (a.cell (k + i))) := by
  rw [lay_apply hlen ((List.getElem?_eq_some_iff.mp hx).1.trans_le hlen), hx]
  rfl

theorem lay_holds (hlen : xs.length ≤ a.size) :
    Holds a (lay a (xs.map some) m (a.cell k)).1 k xs := by
  intro i x hx
  rw [lay_at (by simpa using hlen) (x := some x) (by simp [hx])]
  rfl

end CustomKernel.Lib.Tape

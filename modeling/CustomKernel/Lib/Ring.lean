import Mathlib.Logic.Function.Iterate

/-! # Windows of a circular array

A circular array of `n` cells, read from `start`: the `i`-th cell of the window
is `slot n start i`, with one wrap at most. Indices are integers, as in the C
programs that keep them; the cell contents are a function of the index. -/
namespace CustomKernel.Lib.Ring
open Function

variable {α : Type}

/-- The index `i` cells after `start`. -/
def slot (n start : Int) (i : Nat) : Int :=
  if start + i < n then start + i else start + i - n

/-- The index after `i`, as `++i; if (i == n) i = 0;` computes it. -/
def next (n i : Int) : Int := if i + 1 = n then 0 else i + 1

/-- The `c` cells from `start` on. -/
def window (n start : Int) (cell : Int → α) (c : Nat) : List α :=
  (List.range c).map fun i => cell (slot n start i)

section Slot
variable {n start : Int} {i j : Nat}

theorem slot_zero (h : start < n) : slot n start 0 = start := by
  simp [slot, h]

theorem slot_bounds (h0 : 0 ≤ start) (h : start < n) (hi : (i : Int) ≤ n) :
    0 ≤ slot n start i ∧ slot n start i < n := by
  unfold slot; split <;> omega

theorem slot_inj (hi : (i : Int) < n)
    (hj : (j : Int) < n) (he : slot n start i = slot n start j) : i = j := by
  unfold slot at he
  split at he <;> split at he <;> omega

theorem slot_turn (h0 : 0 ≤ start) (hi : (i : Int) = n) :
    slot n start i = start := by
  unfold slot; split <;> omega

theorem slot_slot (h : start < n) (hij : (i + j : Int) ≤ n) :
    slot n (slot n start i) j = slot n start (i + j) := by
  unfold slot
  push_cast
  split <;> split <;> split <;> omega

theorem next_bounds {i : Int} (h0 : 0 ≤ i) (h : i < n) : 0 ≤ next n i ∧ next n i < n := by
  unfold next; split <;> omega

theorem next_slot (h0 : 0 ≤ start) (h : start < n) (hi : (i : Int) < n) :
    next n (slot n start i) = slot n start (i + 1) := by
  unfold next slot
  split <;> split <;> split <;> omega

theorem iterate_next_bounds (h0 : 0 ≤ start) (h : start < n) (i : Nat) :
    0 ≤ (next n)^[i] start ∧ (next n)^[i] start < n := by
  induction i with
  | zero => exact ⟨h0, h⟩
  | succ i ih =>
    rw [Function.iterate_succ_apply']
    exact next_bounds ih.1 ih.2

theorem iterate_next (h0 : 0 ≤ start) (h : start < n) (hi : (i : Int) ≤ n) :
    (next n)^[i] start = slot n start i := by
  induction i with
  | zero => exact (slot_zero h).symm
  | succ i ih =>
    rw [Function.iterate_succ_apply', ih (by omega), next_slot h0 h (by omega)]

end Slot

section Window
variable {n start : Int} {cell : Int → α} {c k : Nat}

@[simp] theorem window_zero : window n start cell 0 = [] := rfl

@[simp] theorem length_window : (window n start cell c).length = c := by
  simp [window]

theorem window_succ : window n start cell (c + 1) =
    window n start cell c ++ [cell (slot n start c)] := by
  simp [window, List.range_succ]

theorem window_congr {cell' : Int → α}
    (h : ∀ i : Nat, i < c → cell' (slot n start i) = cell (slot n start i)) :
    window n start cell' c = window n start cell c := by
  apply List.map_congr_left
  intro i hi
  exact h i (List.mem_range.mp hi)

theorem window_push (hc : (c : Int) < n) (r : α) :
    window n start (update cell (slot n start c) r) (c + 1) =
      window n start cell c ++ [r] := by
  rw [window_succ, update_self]
  congr 1
  apply window_congr
  intro i hi
  apply update_of_ne
  intro he
  have := slot_inj (by omega) hc he
  omega

theorem window_take (hk : k ≤ c) : (window n start cell c).take k = window n start cell k := by
  simp [window, ← List.map_take, Nat.min_eq_left hk]

theorem window_drop (h : start < n) (hk : k ≤ c) (hc : (c : Int) ≤ n) :
    (window n start cell c).drop k = window n (slot n start k) cell (c - k) := by
  apply List.ext_getElem
  · simp [window]
  · intro i h1 h2
    simp only [length_window] at h2
    simp only [window, List.getElem_drop, List.getElem_map, List.getElem_range]
    rw [slot_slot h (by omega)]

/-- Reading `k` cells on from `e`, without going around. -/
def readFrom (cell : Int → α) (e : Int) (k : Nat) : List α :=
  (List.range k).map fun (i : Nat) => cell (e + i)

/-- Writing a list on from `e`, without going around. -/
def writeFrom (cell : Int → α) (e : Int) : List α → Int → α
  | [] => cell
  | x :: xs => writeFrom (update cell e x) (e + 1) xs

theorem readFrom_eq_window (h : start + k ≤ n) :
    readFrom cell start k = window n start cell k := by
  apply List.map_congr_left
  intro i hi
  have := List.mem_range.mp hi
  rw [slot, if_pos (by omega)]

/-- Writing a list just past the window extends it by the list. -/
theorem window_writeFrom (h0 : 0 ≤ start) (h : start < n) {xs : List α}
    (hc : (c : Int) + xs.length ≤ n) (he : slot n start c + xs.length ≤ n) :
    window n start (writeFrom cell (slot n start c) xs) (c + xs.length) =
      window n start cell c ++ xs := by
  induction xs generalizing cell c with
  | nil => simp [writeFrom]
  | cons x xs ih =>
    rw [List.length_cons] at hc he ⊢
    have hpush : window n start (update cell (slot n start c) x) (c + 1) =
        window n start cell c ++ [x] := window_push (by omega) x
    rw [writeFrom]
    cases xs with
    | nil => exact hpush
    | cons y ys =>
      rw [List.length_cons] at hc he
      have hnext : slot n start c + 1 = slot n start (c + 1) := by
        rw [← next_slot h0 h (by omega), next, if_neg (by omega)]
      have hin : ((c + 1 : Nat) : Int) + (y :: ys).length ≤ n := by
        rw [List.length_cons]
        omega
      have hend : slot n start (c + 1) + (y :: ys).length ≤ n := by
        rw [← hnext, List.length_cons]
        omega
      rw [hnext, show c + ((y :: ys).length + 1) = c + 1 + (y :: ys).length by omega, ih hin hend,
        hpush]
      simp

end Window

end CustomKernel.Lib.Ring

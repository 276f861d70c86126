import CustomKernel.Lib.Ring
import CustomKernel.Policy.Syscalls

/-! # The log as a ring of records

What the writer, the reader and the commit of a read do to a `log_array`, and
the records that are unread in it: those the checks of `sys_get_process_log`
would hand out, from `indexRead` on. -/
namespace CustomKernel.Policy.Log
open Lib.Ring
open Policy.Heap Policy.Syscalls

/-- The log after the gate has stored a record at `indexWrite`. -/
def afterWrite (l : LogArray) : LogArray :=
  { l with
    indexWrite := next l.size l.indexWrite
    full := if next l.size l.indexWrite = l.indexRead then 1 else l.full }

/-- The log after the copy loop has gone round `n` times. -/
def afterReads (l : LogArray) (n : Nat) : LogArray :=
  { l with indexRead := (next l.size)^[n] l.indexRead }

/-- The log after a read of `size` records that reached the user. -/
def afterCommit (l : LogArray) (size : Int) : LogArray :=
  if size = l.size then { l with full := 0, indexWrite := 0, indexRead := 0 }
  else { l with full := 0 }

/-- A log as `sys_enable_policy` leaves it. -/
def freshLog (size : Int) (array : Addr) : LogArray := ⟨0, 0, size, 0, array⟩

@[simp] theorem afterWrite_size (l : LogArray) : (afterWrite l).size = l.size := rfl
@[simp] theorem afterWrite_array (l : LogArray) : (afterWrite l).array = l.array := rfl

@[simp] theorem afterReads_size (l : LogArray) (n : Nat) : (afterReads l n).size = l.size := rfl
@[simp] theorem afterReads_array (l : LogArray) (n : Nat) :
    (afterReads l n).array = l.array := rfl

@[simp] theorem afterCommit_size (l : LogArray) (n : Int) : (afterCommit l n).size = l.size := by
  unfold afterCommit; split <;> rfl
@[simp] theorem afterCommit_array (l : LogArray) (n : Int) :
    (afterCommit l n).array = l.array := by
  unfold afterCommit; split <;> rfl

/-! ## Indices -/

/-- Both indices point into the array. -/
structure InRange (l : LogArray) : Prop where
  read_nonneg : 0 ≤ l.indexRead
  read_lt : l.indexRead < l.size
  write_nonneg : 0 ≤ l.indexWrite
  write_lt : l.indexWrite < l.size

theorem InRange.afterWrite {l : LogArray} (h : InRange l) : InRange (afterWrite l) :=
  have hb := next_bounds h.write_nonneg h.write_lt
  ⟨h.read_nonneg, h.read_lt, hb.1, hb.2⟩

theorem InRange.afterReads {l : LogArray} (h : InRange l) (n : Nat) :
    InRange (afterReads l n) :=
  have hb := iterate_next_bounds h.read_nonneg h.read_lt n
  ⟨hb.1, hb.2, h.write_nonneg, h.write_lt⟩

theorem InRange.afterCommit {l : LogArray} (h : InRange l) (n : Int) :
    InRange (afterCommit l n) := by
  have hpos : 0 < l.size := by have := h.read_nonneg; have := h.read_lt; omega
  unfold Log.afterCommit
  split
  · exact ⟨Int.le_refl 0, hpos, Int.le_refl 0, hpos⟩
  · exact ⟨h.read_nonneg, h.read_lt, h.write_nonneg, h.write_lt⟩

/-! ## Unread records -/

/-- How many records the checks of `sys_get_process_log` count. -/
def unreadCount (l : LogArray) : Int :=
  if l.full = 1 then l.size
  else if l.indexWrite ≥ l.indexRead then l.indexWrite - l.indexRead
  else l.size - l.indexRead + l.indexWrite

/-- The records a reader would be handed, oldest first. -/
def unread (l : LogArray) (elem : Int → ForbiddenActivityInfo) : List ForbiddenActivityInfo :=
  window l.size l.indexRead elem (unreadCount l).toNat

/-- The flag and the indices agree: `full` is raised only while they meet. -/
structure Consistent (l : LogArray) : Prop extends InRange l where
  flag : l.full = 0 ∨ l.full = 1
  meet : l.full = 1 → l.indexWrite = l.indexRead

section Count
variable {l : LogArray}

theorem unreadCount_bounds (h : InRange l) : 0 ≤ unreadCount l ∧ unreadCount l ≤ l.size := by
  obtain ⟨_, _, _, _⟩ := h
  unfold unreadCount
  split
  · omega
  · split <;> omega

theorem length_unread (h : InRange l) (elem : Int → ForbiddenActivityInfo) :
    ((unread l elem).length : Int) = unreadCount l := by
  have := (unreadCount_bounds h).1
  simp only [unread, length_window]
  omega

/-- With the flag down and the indices together the log reads as empty. -/
theorem unread_of_meet {elem : Int → ForbiddenActivityInfo} (hf : l.full ≠ 1)
    (hm : l.indexWrite = l.indexRead) : unread l elem = [] := by
  have hc : unreadCount l = 0 := by
    unfold unreadCount
    omega
  rw [unread, hc]
  rfl

/-- The write index is as far from the read index as there are records. -/
theorem indexWrite_eq_slot (h : Consistent l) :
    l.indexWrite = slot l.size l.indexRead (unreadCount l).toNat := by
  obtain ⟨⟨h1, h2, h3, h4⟩, _, hm⟩ := h
  have hb := unreadCount_bounds ⟨h1, h2, h3, h4⟩
  unfold unreadCount at hb ⊢
  unfold slot
  split at hb
  · rename_i hf
    split <;> omega
  · split at hb
    · rename_i hge
      split <;> omega
    · split <;> omega

/-- With the flag down, the distance of the indices is the count, as long as
it is less than a full turn. -/
theorem unreadCount_of_slot (hf : l.full ≠ 1) {d : Nat} (hd : (d : Int) < l.size)
    (hw : l.indexWrite = slot l.size l.indexRead d) : unreadCount l = d := by
  unfold unreadCount
  rw [if_neg hf]
  unfold slot at hw
  split at hw
  · rw [if_pos (by omega)]; omega
  · rw [if_neg (by omega)]; omega

theorem full_iff (h : Consistent l) : l.full = 1 ↔ unreadCount l = l.size := by
  obtain ⟨⟨_, _, _, _⟩, _, _⟩ := h
  unfold unreadCount
  constructor
  · intro hf; rw [if_pos hf]
  · intro hc
    by_contra hf
    split at hc <;> omega

/-- The checks let a read through exactly when there are that many records. -/
theorem checks_iff (h : Consistent l) (size : Int) :
    (¬ (size > l.size ∨ size < 0) ∧ tooFewRecords l size = false) ↔
      0 ≤ size ∧ size ≤ unreadCount l := by
  obtain ⟨⟨_, _, _, _⟩, _, _⟩ := h
  unfold tooFewRecords unreadCount
  by_cases hf : l.full = 1
  · simp [hf, and_comm]
  · simp only [ne_eq, hf, not_false_eq_true, if_true, if_false]
    split
    · split <;> simp <;> omega
    · split <;> simp <;> omega

end Count

/-! ## Writing -/

section Write
variable {l : LogArray} {e : Int → ForbiddenActivityInfo}

/-- A record written while there is room is appended to the unread ones. -/
theorem write_room (h : Consistent l) (hroom : unreadCount l < l.size) (r : ForbiddenActivityInfo) :
    Consistent (afterWrite l) ∧
      unread (afterWrite l) (Function.update e l.indexWrite r) = unread l e ++ [r] := by
  have hb := unreadCount_bounds h.toInRange
  have hw := indexWrite_eq_slot h
  have hnext : next l.size l.indexWrite = slot l.size l.indexRead ((unreadCount l).toNat + 1) := by
    rw [hw, next_slot h.read_nonneg h.read_lt (by omega)]
  have hf : l.full = 0 := by
    have := (full_iff h).not.mpr (by omega)
    rcases h.flag with hf | hf
    · exact hf
    · exact absurd hf this
  have hcount : unreadCount (afterWrite l) = unreadCount l + 1 := by
    by_cases hlast : unreadCount l + 1 = l.size
    · -- the last free cell: the indices meet and the flag goes up
      have hmeet : next l.size l.indexWrite = l.indexRead := by
        rw [hnext, slot_turn h.read_nonneg (by omega)]
      unfold unreadCount
      rw [if_pos (by simp [afterWrite, hmeet])]
      exact hlast.symm
    · have hne : next l.size l.indexWrite ≠ l.indexRead := by
        rw [hnext]
        intro he
        rw [← slot_zero h.read_lt] at he
        have hs := slot_zero h.read_lt
        have := slot_inj (n := l.size) (i := (unreadCount l).toNat + 1) (j := 0)
          (by push_cast; omega) (by omega) (by rw [hs] at he ⊢; exact he)
        omega
      have := unreadCount_of_slot (l := afterWrite l)
        (by simp [afterWrite, hne, hf]) (d := (unreadCount l).toNat + 1)
        (by simp only [afterWrite_size]; push_cast; omega) (by simpa [afterWrite] using hnext)
      rw [this]; push_cast; omega
  refine ⟨⟨h.toInRange.afterWrite, ?_, ?_⟩, ?_⟩
  · simp only [afterWrite]; split
    · exact .inr rfl
    · exact h.flag
  · intro hfull
    simp only [afterWrite] at hfull ⊢
    split at hfull
    · assumption
    · rw [hf] at hfull; cases hfull
  · unfold unread
    rw [hcount, show (unreadCount l + 1).toNat = (unreadCount l).toNat + 1 by omega]
    show window l.size l.indexRead _ _ = _
    rw [hw]
    exact window_push (by omega) r

/-- A log of one cell holds its newest record, full or not. -/
theorem write_single (h : Consistent l) (h1 : l.size = 1) (r : ForbiddenActivityInfo) :
    Consistent (afterWrite l) ∧
      unread (afterWrite l) (Function.update e l.indexWrite r) = [r] := by
  have hr : l.indexRead = 0 := by have := h.read_nonneg; have := h.read_lt; omega
  have hw : l.indexWrite = 0 := by have := h.write_nonneg; have := h.write_lt; omega
  have hn : afterWrite l = { l with indexWrite := 0, full := 1 } := by
    simp [afterWrite, next, h1, hw, hr]
  rw [hn]
  refine ⟨⟨⟨h.read_nonneg, h.read_lt, Int.le_refl 0, ?_⟩, .inr rfl, ?_⟩, ?_⟩
  · simp only [h1]; decide
  · intro _; exact hr.symm
  · simp [unread, unreadCount, h1, window, slot, hr, hw]

end Write

/-! ## Reading -/

section Read
variable {l : LogArray} {e : Int → ForbiddenActivityInfo} {n : Nat}

theorem copied_eq_take (hn : (n : Int) ≤ unreadCount l) :
    window l.size l.indexRead e n = (unread l e).take n := by
  rw [unread, window_take (by omega)]

/-- A read that reaches the user takes its records off the front, unless it
asks for nothing while the log is full. -/
theorem commit_read (h : Consistent l) (hn : (n : Int) ≤ unreadCount l)
    (hne : 1 ≤ n ∨ unreadCount l < l.size) :
    Consistent (afterCommit (afterReads l n) n) ∧
      unread (afterCommit (afterReads l n) n) e = (unread l e).drop n := by
  have hb := unreadCount_bounds h.toInRange
  have hpos : 0 < l.size := by have := h.read_nonneg; have := h.read_lt; omega
  have hread : (next l.size)^[n] l.indexRead = slot l.size l.indexRead n :=
    iterate_next h.read_nonneg h.read_lt (by omega)
  unfold afterCommit
  by_cases hall : (n : Int) = l.size
  · -- the whole log was taken, and both indices start again from 0
    rw [afterReads_size, if_pos hall]
    refine ⟨⟨⟨Int.le_refl 0, hpos, Int.le_refl 0, hpos⟩, .inl rfl, fun _ => rfl⟩, ?_⟩
    rw [List.drop_eq_nil_of_le]
    · simp [unread, unreadCount]
    · have := length_unread h.toInRange e; omega
  · rw [afterReads_size, if_neg hall]
    have hin : InRange { l with indexRead := (next l.size)^[n] l.indexRead, full := 0 } := by
      have := h.toInRange.afterReads n
      exact ⟨this.read_nonneg, this.read_lt, this.write_nonneg, this.write_lt⟩
    have hcount : unreadCount { l with indexRead := (next l.size)^[n] l.indexRead, full := 0 } =
        ((unreadCount l).toNat - n : Nat) := by
      apply unreadCount_of_slot (by simp)
      · simp only; omega
      · simp only [hread]
        rw [slot_slot h.read_lt (by omega), indexWrite_eq_slot h]
        congr 1; omega
    refine ⟨⟨hin, .inl rfl, fun hf => by cases hf⟩, ?_⟩
    show window l.size ((next l.size)^[n] l.indexRead) e (unreadCount _).toNat = _
    rw [show afterReads l n = { l with indexRead := (next l.size)^[n] l.indexRead } from rfl, hcount,
      hread, Int.toNat_natCast, unread, window_drop h.read_lt (by omega) (by omega)]

end Read

theorem freshLog_consistent {size : Int} (h : 0 < size) (array : Addr) :
    Consistent (freshLog size array) :=
  ⟨⟨Int.le_refl 0, h, Int.le_refl 0, h⟩, .inl rfl, fun _ => rfl⟩

theorem unread_freshLog (size : Int) (array : Addr) (elem : Int → ForbiddenActivityInfo) :
    unread (freshLog size array) elem = [] := by
  simp [unread, unreadCount, freshLog]

end CustomKernel.Policy.Log

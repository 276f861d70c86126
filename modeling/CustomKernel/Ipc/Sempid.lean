import CustomKernel.Ipc.Semop
import Mathlib.Algebra.Order.Ring.Nat

/-! # The process that last changed a semaphore

`sempid` keeps the identifier that `GETPID` reports in its lower half. An operation shifts the
one before into the upper half, and taking an operation back shifts it down again. This brings
the old identifier back when the semaphore has been stamped once. A second stamp pushes it out
of the word, and a set that stops to wait for zero takes back a stamp that was never made. -/
namespace CustomKernel.Ipc.Semop

def pidMax : Nat := 0x8000

/-- What `GETPID` reports. -/
def State.getpid (s : State) (n : Nat) : BitVec 32 := s.sempid n &&& 0xffff

/-! ## One word -/

def pop (w : BitVec 32) : BitVec 32 := w.sshiftRight 16

/-- Both halves hold process identifiers. -/
def Stamps (w : BitVec 32) : Prop := w.toNat % 65536 < pidMax ∧ w.toNat / 65536 < pidMax

instance (w : BitVec 32) : Decidable (Stamps w) := inferInstanceAs (Decidable (_ ∧ _))

section
variable {pid w : BitVec 32}

theorem push_toNat (hpid : pid.toNat < pidMax) :
    (push pid w).toNat = w.toNat % 65536 * 65536 + pid.toNat := by
  have hlow : pid.toNat < 2 ^ 16 := by
    unfold pidMax at hpid
    omega
  have hshift : (w <<< 16).toNat = (w.toNat % 65536) <<< 16 := by
    rw [BitVec.toNat_shiftLeft, Nat.shiftLeft_eq, Nat.shiftLeft_eq]
    omega
  rw [push, BitVec.toNat_or, hshift, ← Nat.shiftLeft_add_eq_or_of_lt hlow, Nat.shiftLeft_eq]

theorem pop_toNat (hw : Stamps w) : (pop w).toNat = w.toNat / 65536 := by
  unfold Stamps pidMax at hw
  have hmsb : w.msb = false := by
    rw [BitVec.msb_eq_false_iff_two_mul_lt]
    omega
  rw [pop, BitVec.sshiftRight_eq_of_msb_false hmsb, BitVec.toNat_ushiftRight,
    Nat.shiftRight_eq_div_pow]

theorem low_eq_iff {w' : BitVec 32} :
    w &&& 0xffff = w' &&& 0xffff ↔ w.toNat % 65536 = w'.toNat % 65536 := by
  have hlow : ∀ u : BitVec 32, (u &&& 0xffff).toNat = u.toNat % 65536 := fun u => by
    exact Nat.and_two_pow_sub_one_eq_mod u.toNat 16
  rw [BitVec.toNat_eq, hlow, hlow]

theorem push_stamps (hw : Stamps w) (hpid : pid.toNat < pidMax) : Stamps (push pid w) := by
  rw [Stamps, push_toNat hpid]
  unfold Stamps pidMax at *
  omega

theorem pop_stamps (hw : Stamps w) : Stamps (pop w) := by
  rw [Stamps, pop_toNat hw]
  unfold Stamps pidMax at *
  omega

theorem iterate_push_stamps (hw : Stamps w) (hpid : pid.toNat < pidMax) (k : Nat) :
    Stamps ((push pid)^[k] w) := by
  induction k with
  | zero => exact hw
  | succ k ih =>
    rw [Function.iterate_succ_apply']
    exact push_stamps ih hpid

theorem iterate_pop_stamps (hw : Stamps w) (k : Nat) : Stamps (pop^[k] w) := by
  induction k with
  | zero => exact hw
  | succ k ih =>
    rw [Function.iterate_succ_apply']
    exact pop_stamps ih

/-- Two stamps are all that a word holds. -/
theorem iterate_pop_eq_zero (hw : Stamps w) (k : Nat) : (pop^[k + 2] w).toNat = 0 := by
  have hk := iterate_pop_stamps hw k
  rw [Function.iterate_succ_apply', Function.iterate_succ_apply', pop_toNat (pop_stamps hk),
    pop_toNat hk]
  omega

/-- The lower half after `k` stamps and `j` steps back is the old one just when the stamp was
made once and taken back once, or was never there. -/
theorem restored_iff (hw : Stamps w) (hpid : pid.toNat < pidMax) (k : Nat) (extra : Bool) :
    pop^[k + extra.toNat] ((push pid)^[k] w) &&& 0xffff = w &&& 0xffff ↔
      extra = false ∧ k ≤ 1 ∨ w &&& 0xffff = 0 ∧ 0 < k ∨
        extra = true ∧ k = 0 ∧ pop w &&& 0xffff = w &&& 0xffff := by
  have hzero : w &&& 0xffff = 0 ↔ w.toNat % 65536 = 0 :=
    show w &&& 0xffff = 0 &&& 0xffff ↔ _ from low_eq_iff
  have hstamped := iterate_push_stamps hw hpid k
  -- from two steps back on nothing is left
  have hlost : ∀ j, pop^[j + 2] ((push pid)^[k] w) &&& 0xffff = w &&& 0xffff ↔
      w &&& 0xffff = 0 := fun j => by
    rw [low_eq_iff, iterate_pop_eq_zero hstamped j, hzero]
    exact eq_comm
  match k, extra with
  | 0, false => simp
  | 0, true => simp
  | 1, false =>
    have honce : (pop (push pid w)).toNat % 65536 = w.toNat % 65536 := by
      rw [pop_toNat (push_stamps hw hpid), push_toNat hpid]
      unfold pidMax at hpid
      omega
    simpa using low_eq_iff.mpr honce
  | 1, true => simpa using hlost 0
  | k + 2, false => simpa using hlost k
  | k + 2, true => simpa [Nat.add_right_comm k 2 1] using hlost (k + 1)

theorem iterate_push_low (hpid : pid.toNat < pidMax) (k : Nat) :
    (push pid)^[k + 1] w &&& 0xffff = pid := by
  have hlow : pid &&& 0xffff = pid := by
    rw [BitVec.toNat_eq, BitVec.toNat_and]
    refine (Nat.and_two_pow_sub_one_eq_mod pid.toNat 16).trans ?_
    unfold pidMax at hpid
    omega
  rw [← hlow, low_eq_iff, Function.iterate_succ_apply', hlow, push_toNat hpid]
  omega

end

/-! ## A set of operations -/

def State.Stamps (s : State) : Prop := ∀ n, Semop.Stamps (s.sempid n)

section
variable {s : State} {sop : Sembuf} {n : Nat} {pid : BitVec 32}

theorem takeBack_sempid (s : State) (sop : Sembuf) (n : Nat) :
    (s.takeBack sop).sempid n = pop^[[sop.semNum].count n] (s.sempid n) := by
  have hpop : (s.takeBack sop).sempid = (s.popPid sop.semNum).sempid := by
    unfold State.takeBack
    split <;> rfl
  rw [hpop]
  rcases eq_or_ne sop.semNum n with rfl | hne
  · simp [State.popPid, pop]
  · rw [List.count_singleton, beq_false_of_ne hne]
    exact Function.update_of_ne hne.symm _ _

theorem takeBackAll_sempid (done : List Sembuf) (s : State) (n : Nat) :
    (takeBackAll done s).sempid n = pop^[(done.map (·.semNum)).count n] (s.sempid n) := by
  induction done generalizing s with
  | nil => rfl
  | cons sop done ih =>
    have hcount : ((sop :: done).map (·.semNum)).count n =
        (done.map (·.semNum)).count n + [sop.semNum].count n := by
      rw [List.map_cons, ← List.singleton_append, List.count_append, Nat.add_comm]
    rw [takeBackAll, List.foldl_cons, hcount, Function.iterate_add_apply, ← takeBack_sempid]
    exact ih _

/-- The stamps that a set has made and then takes back are the only ones of their semaphores,
and it does not stop to wait for zero; or no process was recorded there, or the same one in
both halves. -/
def Restorable (s : State) (sops : List Sembuf) : Prop :=
  ∀ n, awaited sops s.toValues ≠ some n ∧ (changed sops s.toValues).count n ≤ 1 ∨
    s.getpid n = 0 ∧ n ∈ changed sops s.toValues ∨
    awaited sops s.toValues = some n ∧ n ∉ changed sops s.toValues ∧
      pop (s.sempid n) &&& 0xffff = s.getpid n

/-- What is taken back. -/
theorem restored_iff_restorable (hstamps : s.Stamps) (hpid : pid.toNat < pidMax)
    (sops : List Sembuf) :
    (∀ n, pop^[(changed sops s.toValues).count n + (awaited sops s.toValues == some n).toNat]
      ((push pid)^[(changed sops s.toValues).count n] (s.sempid n)) &&& 0xffff = s.getpid n) ↔
    Restorable s sops := by
  refine forall_congr' fun n => ?_
  rw [State.getpid, restored_iff (hstamps n) hpid, List.count_pos_iff, List.count_eq_zero,
    beq_eq_false_iff_ne, beq_iff_eq]

/-- A set that fails, sleeps or is only tried leaves what `GETPID` reports just when it is
restorable. A set that succeeds records its process with the semaphores it names and with no
others. -/
theorem sempid_names_last_iff (hs : s.toValues.InRange) (hstamps : s.Stamps)
    (hpid : pid.toNat < pidMax) (sops : List Sembuf) (hops : ∀ sop ∈ sops, sop.InRange)
    (doUndo : Bool) :
    ((tryAtomicSemop sops pid doUndo s).1 = 0 → doUndo = false → ∀ n,
      (tryAtomicSemop sops pid doUndo s).2.getpid n =
        if n ∈ sops.map (·.semNum) then pid else s.getpid n) ∧
    ((tryAtomicSemop sops pid doUndo s).1 ≠ 0 ∨ doUndo = true →
      ((∀ n, (tryAtomicSemop sops pid doUndo s).2.getpid n = s.getpid n) ↔ Restorable s sops)) ∧
    (tryAtomicSemop sops pid doUndo s).2.Stamps := by
  have hback : ∀ done s', (∀ n, (List.map (·.semNum) done).count n =
        (changed sops s.toValues).count n + (awaited sops s.toValues == some n).toNat ∧
        s'.sempid n = (push pid)^[(changed sops s.toValues).count n] (s.sempid n)) →
      ((∀ n, (takeBackAll done s').getpid n = s.getpid n) ↔ Restorable s sops) ∧
        (takeBackAll done s').Stamps := by
    intro done s' hwords
    have hword : ∀ n, (takeBackAll done s').sempid n =
        pop^[(changed sops s.toValues).count n + (awaited sops s.toValues == some n).toNat]
          ((push pid)^[(changed sops s.toValues).count n] (s.sempid n)) := fun n => by
      rw [takeBackAll_sempid, (hwords n).1, (hwords n).2]
    refine ⟨?_, fun n => ?_⟩
    · rw [← restored_iff_restorable hstamps hpid]
      exact forall_congr' fun n => by rw [State.getpid, hword]
    · rw [hword]
      exact iterate_pop_stamps (iterate_push_stamps (hstamps n) hpid _) _
  unfold tryAtomicSemop
  rcases scan_spec pid sops hops hs [] with
    ⟨result, done, s', heq, -, hresult, -, hwords⟩ | ⟨done, s', heq, -, -, hmap, -, hwords⟩
  all_goals
    simp only [Stamped, List.map_nil, List.count_nil, Nat.zero_add] at hwords
    obtain ⟨hrestored, hkept⟩ := hback done s' hwords
    rw [heq]
  · exact ⟨fun h => absurd h hresult, fun _ => hrestored, hkept⟩
  cases doUndo with
  | true => exact ⟨by simp, fun _ => hrestored, hkept⟩
  | false =>
    refine ⟨fun _ _ n => ?_, by simp, fun n => ?_⟩
    · show s'.sempid n &&& 0xffff = _
      rw [(hwords n).2, hmap]
      split
      · next hmem =>
        obtain ⟨k, hk⟩ := Nat.exists_eq_add_one.mpr (List.count_pos_iff.mpr hmem)
        rw [hk, iterate_push_low hpid]
      · next hmem =>
        rw [List.count_eq_zero.mpr hmem]
        rfl
    · show Semop.Stamps (s'.sempid n)
      rw [(hwords n).2]
      exact iterate_push_stamps (hstamps n) hpid _

end

/-- Process 7 has raised the first semaphore. -/
def raised : State := ⟨⟨fun n => if n = 0 then 1 else 0, fun _ => 0⟩, fun n => if n = 0 then 7 else 0⟩

theorem raised_inRange : raised.toValues.InRange := oneUp_inRange

theorem raised_stamps : raised.Stamps := by
  intro n
  unfold raised
  dsimp only
  split <;> decide

/-- The second semaphore is raised and the first one lowered by more than it has. -/
def raiseAndTake : List Sembuf := [⟨1, 1, false, false⟩, ⟨0, -2, false, false⟩]

theorem sempid_names_last_sleeper :
    (tryAtomicSemop raiseAndTake 8 false raised).1 = 1 ∧
      ∀ n, (tryAtomicSemop raiseAndTake 8 false raised).2.getpid n = raised.getpid n := by
  have hnone : awaited raiseAndTake raised.toValues = none := by decide
  have hnodup : (changed raiseAndTake raised.toValues).Nodup := by decide
  refine ⟨by decide, ((sempid_names_last_iff raised_inRange raised_stamps (by decide) _ (by decide)
    false).2.1 (.inl (by decide))).mpr fun n => .inl ⟨by simp [hnone], ?_⟩⟩
  exact List.nodup_iff_count.mp hnodup n

/-- Process 8 waits for the first semaphore to become zero, and `GETPID` no longer reports
process 7. -/
theorem sempid_lost_waiting :
    (tryAtomicSemop [⟨0, 1, false, false⟩] 7 false ⟨⟨fun _ => 0, fun _ => 0⟩, fun _ => 0⟩).2.getpid 0
        = 7 ∧
      (tryAtomicSemop [⟨0, 0, false, false⟩] 8 false raised).1 = 1 ∧
      raised.getpid 0 = 7 ∧
      (tryAtomicSemop [⟨0, 0, false, false⟩] 8 false raised).2.getpid 0 = 0 := by
  decide

end CustomKernel.Ipc.Semop

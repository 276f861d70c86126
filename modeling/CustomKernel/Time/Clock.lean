import CustomKernel.Time.Wheel

/-! # The clock and the wheels

The clock counts every interrupt of the timer, and beside it stands the number of ticks that
`run_timer_list` has been through. The words `jiffies` and `timer_jiffies` show them, and no tick is
processed before its time. -/
namespace CustomKernel.Time.Clock
open Time.Timer Time.Calendar Time.Wheel

/-- The words show the clock and the ticks that have been processed. -/
structure Clocked (timers : Timer.State) (clock passed : Nat) (c : Calendar.State) : Prop where
  tracks : Tracks timers c
  timely : Timely c
  jiffies : timers.jiffies = clock % 2 ^ 32
  now : c.now = passed
  behind : passed ≤ clock + 1
  running : c.running = true → passed ≤ clock

theorem init_clocked : Clocked Timer.init 0 0 blank where
  tracks := init_tracks
  timely := fun _ _ h => by cases h
  jiffies := rfl
  now := rfl
  behind := Nat.zero_le _
  running := fun _ => Nat.le_refl _

/-- The next tick that is processed from its start, out of all of them. -/
def nextTick (timers : Timer.State) (passed : Nat) : Nat :=
  if timers.running then passed + 1 else passed

section
variable {timers timers' : Timer.State} {clock passed deadline : Nat} {c c' : Calendar.State}
  {o : Op}

theorem cascades_jiffies (ns : List Nat) (s : Timer.State) :
    (cascades ns s).jiffies = s.jiffies := by
  induction ns generalizing s with
  | nil => rfl
  | cons n ns ih =>
    have hone : (cascadeTimers n s).jiffies = s.jiffies := by
      obtain ⟨vec, pending, heq⟩ := rehash_frame s (.tv n (s.index n))
      rw [cascadeTimers, heq]
    unfold cascades
    dsimp only
    split
    · rw [ih, hone]
    · exact hone

theorem detachTimer_jiffies (t : TimerId) (s : Timer.State) :
    (detachTimer t s).2.jiffies = s.jiffies := by
  unfold detachTimer
  split <;> rfl

theorem exec_jiffies {s : Timer.State} (ho : o ≠ .interrupt) : (o.exec s).jiffies = s.jiffies := by
  cases o with
  | interrupt => exact absurd rfl ho
  | add t e =>
    simp only [Op.exec, addTimer]
    split <;> rfl
  | mod t e ret => exact detachTimer_jiffies t (s.setExpires t e)
  | del t ret => exact detachTimer_jiffies t s
  | start =>
    simp only [Op.exec, startTick]
    split
    · exact cascades_jiffies _ _
    · rfl
  | run t => exact detachTimer_jiffies t s
  | finish =>
    obtain ⟨vec, pending, heq⟩ := rehash_frame { s with
      running := false
      timerJiffies := (s.timerJiffies + 1) % 2 ^ 32
      index := Function.update s.index 0 ((s.index 0 + 1) % 2 ^ 8) } .queued
    rw [Op.exec, endTick, heq]

/-- A tick is processed from its start to its end. -/
theorem calendar_running (h : Calendar.Step c o c') (hrun : c'.running = true) :
    o = .start ∨ o ≠ .finish ∧ c.running = true := by
  cases o with
  | interrupt => cases h; exact .inr ⟨nofun, hrun⟩
  | add t e =>
    cases h
    refine .inr ⟨nofun, ?_⟩
    split at hrun <;> exact hrun
  | mod t e ret => cases h.2; exact .inr ⟨nofun, hrun⟩
  | del t ret => cases h.2; exact .inr ⟨nofun, hrun⟩
  | start => exact .inl rfl
  | run t => exact .inr ⟨nofun, h.1⟩
  | finish => cases h.2.2; cases hrun

/-- A tick starts only when the clock has come to it. -/
theorem Clocked.start_due (h : Clocked timers clock passed c) (hallowed : Op.start.Allowed timers) :
    passed ≤ clock := by
  have hnear := hallowed.2
  rw [h.jiffies, h.tracks.jiffies, h.now, sub32_mod, sub32] at hnear
  have hle := h.behind
  omega

/-- Whatever is done with the timers, clock and wheels stay together. -/
theorem Clocked.move (h : Clocked timers clock passed c) (hstep : Timer.Step timers o timers') :
    ∃ c', Calendar.Step c o c' ∧
      Clocked timers' (clock + [o].count .interrupt) (passed + ticks [o]) c' := by
  obtain ⟨c', hcal, htracks⟩ := step_tracks h.tracks hstep
  have hnow : c'.now = passed + ticks [o] := by rw [hcal.now, h.now]
  obtain ⟨hallowed, hexec⟩ := hstep
  refine ⟨c', hcal, htracks, hcal.timely h.timely, ?_, hnow, ?_, ?_⟩
  · rcases eq_or_ne o .interrupt with rfl | ho
    · rw [hexec, Op.exec, h.jiffies, Nat.mod_add_mod]
      rfl
    · rw [hexec, exec_jiffies ho, h.jiffies, List.count_singleton, if_neg (by simpa using ho),
        Nat.add_zero]
  · rcases eq_or_ne o .finish with rfl | ho
    · exact Nat.add_le_add (h.running hcal.1) (Nat.le_refl 1)
    · have hle := h.behind
      have hnone : ticks [o] = 0 := by rw [ticks, List.count_singleton, if_neg (by simpa using ho)]
      omega
  · intro hrun
    have hle : passed ≤ clock := by
      rcases calendar_running hcal hrun with rfl | ⟨-, hbefore⟩
      · exact h.start_due hallowed
      · exact h.running hbefore
    have ho : o ≠ .finish := by
      rcases calendar_running hcal hrun with rfl | ⟨ho, -⟩
      · intro heq
        cases heq
      · exact ho
    have hnone : ticks [o] = 0 := by rw [ticks, List.count_singleton, if_neg (by simpa using ho)]
    omega

theorem Clocked.base_eq (h : Clocked timers clock passed c) : c.base = nextTick timers passed := by
  rw [Calendar.State.base, nextTick, h.tracks.running, h.now]

/-- A timer that is near enough is not due before the time is over. -/
theorem deadline_le_due {base : Nat} (hnear : deadline < base + 2 ^ 31) :
    deadline ≤ base + ahead base (deadline % 2 ^ 32) := by
  rcases Nat.lt_or_ge deadline base with hpast | hle
  · exact Nat.le_add_right_of_le hpast.le
  · exact (ahead_of_near hle hnear).ge

/-- A timer that is set for a near time is not due before it. -/
theorem Clocked.add_due (h : Clocked timers clock passed c) {t : TimerId}
    (hunset : c.due t = none) (hcal : Calendar.Step c (.add t (deadline % 2 ^ 32)) c')
    (hnear : deadline < nextTick timers passed + 2 ^ 31) {d : Nat} (hd : c'.due t = some d) :
    deadline ≤ d := by
  rw [Calendar.Step, hunset] at hcal
  have hset : c'.due t = some (c.base + ahead c.base (deadline % 2 ^ 32)) := by
    rw [hcal]
    exact Function.update_self ..
  rw [← Option.some.inj (hset.symm.trans hd)]
  exact deadline_le_due (h.base_eq ▸ hnear)

end
end CustomKernel.Time.Clock

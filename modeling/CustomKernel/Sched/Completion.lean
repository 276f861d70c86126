import CustomKernel.Sched.WaitQueue

/-! # Completions

`complete` counts, and wakes up one of those who wait; `wait_for_completion`
takes one off the count, and sleeps as long as there is none. A waiter that has
been woken up stays in the queue until it has taken the lock again, and another
task may have taken the count by then, so that the number of waiters that can run
is only at least what the count asks for. -/
namespace CustomKernel.Sched.Completion
open Lib.Transition
open Function (update_of_ne)
open Sched.Functions Sched.Invariant
open Sched.Reachable Sched.Records
open Sched.WaitQueue (Waiter Runnable wakeUpCommon hit)

/-! ## What the scheduler does to a waiter -/

/-- A waiter sleeps, or is about to, until it is woken up. -/
def Settled (t : Task) : Prop := t.state = .uninterruptible ∨ Runnable t

instance (t : Task) : Decidable (Runnable t) := inferInstanceAs (Decidable (_ ∧ _))

/-- A task that can run still can, and one that sleeps has not come to nothing. -/
structure Rests (t t' : Task) : Prop where
  runnable : Runnable t → Runnable t'
  settled : Settled t → Settled t'

section Rests
variable {t t' t'' : Task} {s s' : RunQueue} {p q : TaskId} {f : Task → Task} {jiffies : UInt32}

theorem Rests.refl (t : Task) : Rests t t := ⟨id, id⟩

theorem Rests.trans (h : Rests t t') (h' : Rests t' t'') : Rests t t'' :=
  ⟨fun hr => h'.runnable (h.runnable hr), fun hs => h'.settled (h.settled hs)⟩

/-- A task leaves its queue only if it is not to run. -/
theorem Rests.of (hstate : t'.state = t.state)
    (harray : t.state = .running → t.array ≠ none → t'.array ≠ none) : Rests t t' := by
  have hrun : Runnable t → Runnable t' := fun hr => ⟨hstate.trans hr.1, harray hr.1 hr.2⟩
  exact ⟨hrun, fun hs => hs.imp hstate.trans hrun⟩

theorem Rests.ite {c : Prop} [Decidable c] (h : Rests t (s.tasks q)) (h' : Rests t (s'.tasks q)) :
    Rests t ((if c then s else s').tasks q) := by
  split
  · exact h
  · exact h'

theorem Kept.rests (h : Kept t t') : Rests t t' := by
  have hrun (hr : Runnable t) : Runnable t' := by
    refine ⟨?_, h.array hr.1 hr.2⟩
    rcases h.state with heq | ⟨_, hrun⟩
    · exact heq.trans hr.1
    · exact hrun
  refine ⟨hrun, fun hs => hs.imp (fun hs => ?_) hrun⟩
  rcases h.state with heq | ⟨hint, _⟩
  · exact heq.trans hs
  · rw [hs] at hint
    cases hint

theorem ticked_still (t : Task) : (ticked t).state = t.state ∧ (ticked t).array = t.array := by
  unfold ticked newSlice
  dsimp only
  split_ifs <;> exact ⟨rfl, rfl⟩

/-- But for wake-ups and forks, an edit leaves alone where a task is. -/
theorem Edit.still {o : Op} (h : Edit s jiffies o q t) (hwake : o ≠ .tryToWakeUp q)
    (hfork : ∀ vfork, o ≠ .doFork q vfork) :
    t.state = (s.tasks q).state ∧ t.array = (s.tasks q).array := by
  cases h with
  | same | yield => exact ⟨rfl, rfl⟩
  | woken => exact absurd rfl hwake
  | child _ vfork => exact absurd rfl (hfork vfork)
  | @parent _ _ u hu penalty =>
    have hstill : u.state = (s.tasks s.curr).state ∧ u.array = (s.tasks s.curr).array := by
      rcases hu with rfl | ⟨_, _, rfl⟩
      · exact ⟨rfl, rfl⟩
      · exact ticked_still _
    cases penalty <;> exact hstill
  | reaper =>
    unfold averaged repaid
    split_ifs <;> exact ⟨rfl, rfl⟩
  | tick => exact ticked_still _
  | renice =>
    unfold reniced
    split <;> exact ⟨rfl, rfl⟩
  | reschedule _ _ _ credit =>
    cases credit with
    | false => exact ⟨rfl, rfl⟩
    | true => exact ⟨WaitQueue.creditSleep_state _, array_creditSleep _⟩

theorem Edited.rests {o : Op} (h : Edited Kept s jiffies o q s') (hwake : o ≠ .tryToWakeUp q)
    (hfork : ∀ vfork, o ≠ .doFork q vfork) : Rests (s.tasks q) (s'.tasks q) := by
  obtain ⟨t, hedit, hkept⟩ := h
  obtain ⟨hstate, harray⟩ := Edit.still hedit hwake hfork
  exact (Rests.of hstate fun _ h => harray ▸ h).trans (Kept.rests hkept)

theorem tryToWakeUp_rests : Rests (s.tasks q) ((tryToWakeUp p jiffies s).2.tasks q) := by
  obtain ⟨hin, hout⟩ := WaitQueue.tryToWakeUp_roused s p jiffies q
  by_cases hq : q = p
  · exact ⟨fun _ => hin hq, fun _ => .inr (hin hq)⟩
  · obtain ⟨hstate, harray⟩ := hout hq
    exact .of hstate fun _ h => harray ▸ h

theorem sysSchedYield_rests : Rests (s.tasks q) ((sysSchedYield jiffies s).2.tasks q) := by
  have hkept : ((requeueYielding s).tasks q).state = (s.tasks q).state ∧
      ((requeueYielding s).tasks q).array = (s.tasks q).array := by
    unfold requeueYielding
    dsimp only
    split
    · exact ⟨rfl, rfl⟩
    · by_cases hq : q = s.curr
      · subst hq
        split_ifs <;> simp [RunQueue.need, RunQueue.setLinks, RunQueue.setArray, RunQueue.setTask]
      · split_ifs <;> simp [RunQueue.need, RunQueue.setLinks, RunQueue.setArray, setTask_of_ne hq]
  unfold sysSchedYield
  dsimp only
  split
  · exact .refl _
  · exact (Rests.of hkept.1 fun _ h => hkept.2 ▸ h).trans (Kept.rests (schedule_kept _ _ q))

/-- No operation harms a task that waits, if its state is its own to set. -/
theorem op_rests {o : Op} (hstate : ∀ st, o ≠ .setState q st) (hfork : ∀ vfork, o ≠ .doFork q vfork)
    (hp : ∀ p vfork, o = .doFork p vfork → p ≠ s.curr) :
    Rests (s.tasks q) ((o.exec jiffies s).tasks q) := by
  cases o with
  | tryToWakeUp p => exact tryToWakeUp_rests
  | doFork p vfork => exact Edited.rests (doFork_edited (hp p vfork rfl) vfork) (by simp) hfork
  | schedExit p =>
    have hedited : Edited Kept s jiffies (.schedExit p) q (schedExit p s) := schedExit_edited
    exact Edited.rests hedited (by simp) hfork
  | schedulerTick => exact Edited.rests schedulerTick_edited (by simp) hfork
  | schedule => exact Kept.rests (schedule_kept _ _ q)
  | setUserNice p nice =>
    have hedited : Edited Kept s jiffies (.setUserNice p nice) q (setUserNice p nice s) :=
      setUserNice_edited
    exact Edited.rests hedited (by simp) hfork
  | setscheduler r => exact Edited.rests setscheduler_edited (by simp) hfork
  | sysSchedYield => exact sysSchedYield_rests
  | setState p state =>
    have hq : q ≠ p := by
      rintro rfl
      exact hstate state rfl
    have hsame : ((Op.setState p state).exec jiffies s).tasks q = s.tasks q :=
      update_of_ne hq ..
    rw [hsame]
    exact .refl _
  | setPending p pending =>
    exact Kept.rests (setTask_kept (f := fun t => { t with sigpending := pending }) p q)
  | setPolicy p on level =>
    exact Kept.rests (setTask_kept (f := fun t => { t with policyOn := on, policyLevel := level }) p q)

end Rests

/-! ## A completion -/

/-- `struct completion` with the run queue, and how many calls of `complete` have
ended and how many waits have taken one off the count. -/
structure State where
  rq : RunQueue
  done : UInt32
  wait : List Waiter
  completes : Nat
  consumed : Nat

def start (rq : RunQueue) : State := ⟨rq, 0, [], 0, 0⟩

/-- What happens under the lock of the wait queue is one event. -/
inductive Event where
  | complete
  /-- the running task calls `wait_for_completion`, up to its first `schedule` -/
  | waitForCompletion
  /-- `schedule` has returned in the running task -/
  | resume
  | op (o : Op)

/-- `TASK_UNINTERRUPTIBLE | TASK_INTERRUPTIBLE` -/
def anySleep : BitVec 32 := 3

/-- `__set_current_state(TASK_UNINTERRUPTIBLE)` -/
def setCurrentState (rq : RunQueue) : RunQueue :=
  rq.setTask rq.curr fun t => { t with state := .uninterruptible }

def Event.exec (jiffies : UInt32) (s : State) : Event → State
  | .complete =>
    { s with
      done := s.done + 1
      rq := wakeUpCommon anySleep jiffies s.wait 1 s.rq
      completes := s.completes + 1 }
  | .waitForCompletion =>
    if s.done = 0 then
      { s with
        wait := s.wait ++ [⟨s.rq.curr, s.rq.curr, true⟩]
        rq := setCurrentState s.rq }
    else { s with done := s.done - 1, consumed := s.consumed + 1 }
  | .resume =>
    if s.done = 0 then { s with rq := setCurrentState s.rq }
    else
      { s with
        wait := s.wait.filter fun w => w.entry ≠ s.rq.curr
        done := s.done - 1
        consumed := s.consumed + 1 }
  | .op o => { s with rq := o.exec jiffies s.rq }

/-- A task is in one wait at a time, and nobody else sets its state meanwhile,
except to wake it up. -/
def Event.Allowed (s : State) : Event → Prop
  | .complete => True
  | .waitForCompletion => s.rq.curr ≠ s.rq.idle ∧ ∀ w ∈ s.wait, w.task ≠ s.rq.curr
  | .resume => ∃ w ∈ s.wait, w.task = s.rq.curr
  | .op o => o.Allowed s.rq ∧ match o with
    | .setState p _ => ∀ w ∈ s.wait, w.task ≠ p
    | .doFork p _ => p ≠ s.rq.curr ∧ ∀ w ∈ s.wait, w.task ≠ p
    | _ => True

def Step (s : State) (e : Event × UInt32) (s' : State) : Prop :=
  e.1.Allowed s ∧ s' = e.1.exec e.2 s

/-- The count does not wrap around. -/
def Unsaturated (s : State) (e : Event × UInt32) : Prop :=
  match e.1 with
  | .complete => s.done ≠ UInt32.ofNat (2 ^ 32 - 1)
  | _ => True

/-- How many waiters can run. -/
def awake (rq : RunQueue) (ws : List Waiter) : Nat :=
  ws.countP fun w => Runnable (rq.tasks w.task)

/-! ## Waking up one waiter -/

section Wake
variable {rq rq' : RunQueue} {ws : List Waiter} {nr : Int} {jiffies : UInt32} {p : TaskId}

theorem wakeUpCommon_rests (mode : BitVec 32) (rq : RunQueue) :
    Rests (rq.tasks p) ((wakeUpCommon mode jiffies ws nr rq).tasks p) := by
  induction ws generalizing nr rq with
  | nil => exact .refl _
  | cons w ws ih =>
    refine Rests.ite ?_ (ih rq)
    refine Rests.ite (Rests.ite tryToWakeUp_rests ?_) ?_
    · exact tryToWakeUp_rests.trans (ih _)
    · exact tryToWakeUp_rests.trans (ih _)

/-- If one of the waiters sleeps, one that could not run can run now. -/
theorem wakeUpCommon_wakes (hs : ∀ w ∈ ws, Settled (rq.tasks w.task))
    (hsleep : ∃ w ∈ ws, ¬Runnable (rq.tasks w.task)) :
    ∃ w ∈ ws, ¬Runnable (rq.tasks w.task) ∧
      Runnable ((wakeUpCommon anySleep jiffies ws nr rq).tasks w.task) := by
  induction ws with
  | nil =>
    obtain ⟨w, hw, _⟩ := hsleep
    cases hw
  | cons w ws ih =>
    by_cases hrun : Runnable (rq.tasks w.task)
    · -- it is passed over
      have hmiss : hit anySleep (rq.tasks w.task) = false := WaitQueue.hit_running hrun.1
      rw [wakeUpCommon, hmiss]
      obtain ⟨w', hw', hasleep⟩ := hsleep
      have hin : w' ∈ ws := (List.mem_cons.mp hw').resolve_left (by rintro rfl; exact hasleep hrun)
      obtain ⟨w'', hw'', h⟩ := ih (fun v hv => hs v (List.mem_cons_of_mem _ hv)) ⟨w', hin, hasleep⟩
      exact ⟨w'', List.mem_cons_of_mem _ hw'', h⟩
    · have hstate := (hs w List.mem_cons_self).resolve_right hrun
      have hhit : hit anySleep (rq.tasks w.task) = true := by
        simp [hit, hstate, WaitQueue.stateBits, anySleep]
      have hwoken := (WaitQueue.tryToWakeUp_roused rq w.task jiffies w.task).1 rfl
      refine ⟨w, List.mem_cons_self, hrun, ?_⟩
      rw [wakeUpCommon, hhit]
      simp only [if_true]
      split
      · split
        · exact hwoken
        · exact (wakeUpCommon_rests _ _).runnable hwoken
      · exact (wakeUpCommon_rests _ _).runnable hwoken

theorem awake_mono (h : ∀ w ∈ ws, Rests (rq.tasks w.task) (rq'.tasks w.task)) :
    awake rq ws ≤ awake rq' ws := by
  refine List.countP_mono_left fun w hw hr => ?_
  exact decide_eq_true ((h w hw).runnable (of_decide_eq_true hr))

theorem awake_lt (h : ∀ w ∈ ws, Rests (rq.tasks w.task) (rq'.tasks w.task))
    (hone : ∃ w ∈ ws, ¬Runnable (rq.tasks w.task) ∧ Runnable (rq'.tasks w.task)) :
    awake rq ws < awake rq' ws := by
  obtain ⟨w, hw, hbefore, hafter⟩ := hone
  obtain ⟨l, r, rfl⟩ := List.append_of_mem hw
  have hl : awake rq l ≤ awake rq' l := awake_mono fun v hv => h v (by simp [hv])
  have hr : awake rq r ≤ awake rq' r := awake_mono fun v hv => h v (by simp [hv])
  simp only [awake, List.countP_append, List.countP_cons, hbefore, hafter, decide_true,
    decide_false, if_true, Bool.false_eq_true, if_false] at hl hr ⊢
  omega

end Wake

/-! ## Every state -/

/-- The books of a completion. What wraps around is lost. -/
structure Counted (s : State) : Prop where
  books : ∃ lost, s.completes = s.consumed + s.done.toNat + 2 ^ 32 * lost
  own : ∀ w ∈ s.wait, w.entry = w.task
  once : (s.wait.map (·.entry)).Nodup
  settled : ∀ w ∈ s.wait, Settled (s.rq.tasks w.task)
  enough : min s.done.toNat s.wait.length ≤ awake s.rq s.wait

section States
variable {s s' : State} {rq : RunQueue} {now : UInt32} {es : List (Event × UInt32)}

theorem start_counted (rq : RunQueue) : Counted (start rq) :=
  ⟨⟨0, rfl⟩, by simp [start], by simp [start], by simp [start], Nat.zero_le _⟩

theorem Counted.rests (h : Counted s)
    (hr : ∀ w ∈ s.wait, Rests (s.rq.tasks w.task) (rq.tasks w.task)) :
    Counted { s with rq := rq } :=
  ⟨h.books, h.own, h.once, fun w hw => (hr w hw).settled (h.settled w hw),
    Nat.le_trans h.enough (awake_mono hr)⟩

theorem complete_counted (h : Counted s) : Counted (Event.exec now s .complete) := by
  have hrests : ∀ w ∈ s.wait, Rests (s.rq.tasks w.task)
      ((wakeUpCommon anySleep now s.wait 1 s.rq).tasks w.task) := fun w _ => wakeUpCommon_rests _ _
  have hdone : (s.done + 1).toNat = (s.done.toNat + 1) % 2 ^ 32 := UInt32.toNat_add ..
  refine ⟨?_, h.own, h.once, fun w hw => (hrests w hw).settled (h.settled w hw), ?_⟩
  · obtain ⟨lost, hbooks⟩ := h.books
    have hlt := s.done.toNat_lt
    change ∃ lost, s.completes + 1 = s.consumed + (s.done + 1).toNat + 2 ^ 32 * lost
    rw [hdone]
    by_cases hwrap : s.done.toNat + 1 = 2 ^ 32
    · exact ⟨lost + 1, by rw [hwrap]; omega⟩
    · exact ⟨lost, by rw [Nat.mod_eq_of_lt (by omega)]; omega⟩
  · change min (s.done + 1).toNat s.wait.length ≤
      awake (wakeUpCommon anySleep now s.wait 1 s.rq) s.wait
    have henough := h.enough
    by_cases hall : ∃ w ∈ s.wait, ¬Runnable (s.rq.tasks w.task)
    · have hmore := awake_lt hrests (wakeUpCommon_wakes h.settled hall)
      omega
    · -- all of them can run already
      have hcount : awake s.rq s.wait = s.wait.length := by
        refine List.countP_eq_length.mpr fun w hw => decide_eq_true ?_
        by_contra hr
        exact hall ⟨w, hw, hr⟩
      have hmono := awake_mono hrests
      omega

theorem setCurrentState_curr (rq : RunQueue) :
    ((setCurrentState rq).tasks rq.curr).state = .uninterruptible := by
  unfold setCurrentState
  rw [setTask_self]

/-- The running task goes to sleep, while there is nothing to wait for. -/
theorem setCurrentState_settled (p : TaskId) (h : Settled (rq.tasks p)) :
    Settled ((setCurrentState rq).tasks p) := by
  by_cases hp : p = rq.curr
  · subst hp
    exact .inl (setCurrentState_curr rq)
  · rw [setCurrentState, setTask_of_ne hp]
    exact h

theorem sub_one_toNat {x : UInt32} (h : x ≠ 0) : (x - 1).toNat + 1 = x.toNat := by
  have hpos : x.toNat ≠ 0 := fun h0 => h (UInt32.toNat_inj.mp h0)
  rw [UInt32.toNat_sub_of_le _ _ (UInt32.le_iff_toNat_le.mpr (by
    rw [UInt32.toNat_one]; omega)), UInt32.toNat_one]
  omega

theorem Counted.books_sub (h : Counted s) (h0 : s.done ≠ 0) : ∃ lost,
    s.completes = s.consumed + 1 + (s.done - 1).toNat + 2 ^ 32 * lost := by
  obtain ⟨lost, hbooks⟩ := h.books
  have hsub := sub_one_toNat h0
  exact ⟨lost, by omega⟩

theorem consume_counted (h : Counted s) (h0 : s.done ≠ 0) :
    Counted { s with done := s.done - 1, consumed := s.consumed + 1 } := by
  have hsub := sub_one_toNat h0
  have henough := h.enough
  refine ⟨h.books_sub h0, h.own, h.once, h.settled, ?_⟩
  dsimp only
  omega

theorem waitForCompletion_counted (h : Counted s) (hnew : ∀ w ∈ s.wait, w.task ≠ s.rq.curr) :
    Counted (Event.exec now s .waitForCompletion) := by
  unfold Event.exec
  dsimp only
  split
  next h0 =>
    refine ⟨h.books, ?_, ?_, ?_, ?_⟩
    · intro w hw
      rcases List.mem_append.mp hw with hw | hw
      · exact h.own w hw
      · rw [List.mem_singleton.mp hw]
    · rw [List.map_append, List.map_singleton, List.nodup_append]
      refine ⟨h.once, List.nodup_singleton _, ?_⟩
      intro a ha b hb
      obtain ⟨w, hw, rfl⟩ := List.mem_map.mp ha
      rw [List.mem_singleton.mp hb, h.own w hw]
      exact hnew w hw
    · intro w hw
      rcases List.mem_append.mp hw with hw | hw
      · exact setCurrentState_settled _ (h.settled w hw)
      · rw [List.mem_singleton.mp hw]
        exact .inl (setCurrentState_curr s.rq)
    · rw [h0]
      exact Nat.zero_le _
  next h0 => exact consume_counted h h0

theorem filter_entry {l r : List Waiter} {w : Waiter}
    (h : ((l ++ w :: r).map (·.entry)).Nodup) :
    (l ++ w :: r).filter (fun v => v.entry ≠ w.entry) = l ++ r := by
  rw [List.map_append, List.map_cons, List.nodup_append, List.nodup_cons] at h
  obtain ⟨_, ⟨hr, _⟩, hl⟩ := h
  have hkeep (v : Waiter) (hv : v.entry ≠ w.entry) : decide (v.entry ≠ w.entry) = true :=
    decide_eq_true hv
  have hleft : l.filter (fun v => v.entry ≠ w.entry) = l :=
    List.filter_eq_self.mpr fun v hv => hkeep v
      (hl _ (List.mem_map_of_mem hv) _ List.mem_cons_self)
  have hright : r.filter (fun v => v.entry ≠ w.entry) = r :=
    List.filter_eq_self.mpr fun v hv => hkeep v fun he => hr (he ▸ List.mem_map_of_mem hv)
  rw [List.filter_append, List.filter_cons_of_neg (by simp), hleft, hright]

theorem resume_counted (h : Counted s) (hin : ∃ w ∈ s.wait, w.task = s.rq.curr) :
    Counted (Event.exec now s .resume) := by
  unfold Event.exec
  dsimp only
  split
  next h0 =>
    refine ⟨h.books, h.own, h.once, fun w hw => setCurrentState_settled _ (h.settled w hw), ?_⟩
    rw [h0]
    exact Nat.zero_le _
  next h0 =>
    obtain ⟨w, hw, hcurr⟩ := hin
    have hentry : s.rq.curr = w.entry := hcurr.symm.trans (h.own w hw).symm
    have hsub := sub_one_toNat h0
    have henough := h.enough
    have hkept {v : Waiter} (hv : v ∈ s.wait.filter fun v => v.entry ≠ s.rq.curr) : v ∈ s.wait :=
      List.mem_of_mem_filter hv
    refine ⟨h.books_sub h0, fun v hv => h.own v (hkept hv), ?_, fun v hv => h.settled v (hkept hv),
      ?_⟩
    · exact h.once.sublist (List.Sublist.map _ List.filter_sublist)
    · obtain ⟨l, r, heq⟩ := List.append_of_mem hw
      have honce := h.once
      rw [heq] at honce henough ⊢
      rw [hentry, filter_entry honce]
      have hone : awake s.rq (l ++ w :: r) ≤ awake s.rq (l ++ r) + 1 := by
        simp only [awake, List.countP_append, List.countP_cons]
        split <;> omega
      simp only [List.length_append, List.length_cons] at henough ⊢
      omega

theorem step_counted {e : Event × UInt32} (h : Counted s) (hstep : Step s e s') : Counted s' := by
  obtain ⟨e, now⟩ := e
  obtain ⟨hok, rfl⟩ := hstep
  cases e with
  | complete => exact complete_counted h
  | waitForCompletion => exact waitForCompletion_counted h hok.2
  | resume => exact resume_counted h hok
  | op o =>
    refine h.rests fun w hw => op_rests ?_ ?_ ?_
    · rintro st rfl
      exact hok.2 w hw rfl
    · rintro vfork rfl
      exact hok.2.2 w hw rfl
    · rintro p vfork rfl
      exact hok.2.1

theorem run_counted (h : Run Step (start rq) es s) : Counted s :=
  h.invariant (fun _ _ _ hc hstep => step_counted hc hstep) (start_counted rq)

/-- While the count does not wrap around, nothing is lost. -/
theorem step_exact {e : Event × UInt32} (h : s.done.toNat + s.consumed = s.completes)
    (he : Unsaturated s e) (hstep : Step s e s') : s'.done.toNat + s'.consumed = s'.completes := by
  obtain ⟨e, now⟩ := e
  obtain ⟨_, rfl⟩ := hstep
  cases e with
  | complete =>
    have hne : s.done.toNat ≠ 2 ^ 32 - 1 := by
      intro heq
      exact he (UInt32.toNat_inj.mp (heq.trans rfl))
    have hlt := s.done.toNat_lt
    have hdone : (s.done + 1).toNat = s.done.toNat + 1 :=
      (UInt32.toNat_add ..).trans (Nat.mod_eq_of_lt (by rw [UInt32.toNat_one]; omega))
    change (s.done + 1).toNat + s.consumed = s.completes + 1
    omega
  | waitForCompletion =>
    dsimp only [Event.exec]
    split
    · exact h
    next h0 =>
      have := sub_one_toNat h0
      dsimp only
      omega
  | resume =>
    dsimp only [Event.exec]
    split
    · exact h
    next h0 =>
      have := sub_one_toNat h0
      dsimp only
      omega
  | op o => exact h

/-- In every interleaving there are at least as many calls of `complete` as waits
that have taken one off the count, and at least as many waiters can run as the
count asks for. As long as the count does not wrap around, it is exactly the
number of calls that have not been taken. -/
theorem completion_counts (h : Run Step (start rq) es s) :
    s.consumed ≤ s.completes ∧ min s.done.toNat s.wait.length ≤ awake s.rq s.wait ∧
      (Run (Meeting Unsaturated Step) (start rq) es s →
        s.done.toNat + s.consumed = s.completes) := by
  have hc := run_counted h
  obtain ⟨lost, hbooks⟩ := hc.books
  refine ⟨by omega, hc.enough, fun h' => ?_⟩
  refine h'.invariant (I := fun s => s.done.toNat + s.consumed = s.completes) ?_ rfl
  rintro s e s' hs ⟨he, hstep⟩
  exact step_exact hs he hstep

/-- Task 1 waits for a completion and sleeps. -/
def waiting : State :=
  Event.exec 1 (Event.exec 1 (Event.exec 0 (Event.exec 0 (start (initialised 0 0))
    (.op (.doFork 1 false))) (.op .schedule)) .waitForCompletion) (.op .schedule)

theorem run_waiting : Run Step (start (initialised 0 0)) [(.op (.doFork 1 false), 0),
    (.op .schedule, 0), (.waitForCompletion, 1), (.op .schedule, 1)] waiting :=
  .cons ⟨⟨by decide +kernel, by decide +kernel, by simp [start]⟩, rfl⟩
    (.cons ⟨⟨trivial, trivial⟩, rfl⟩
      (.cons ⟨⟨by decide +kernel, by simp [Event.exec, start]⟩, rfl⟩
        (.cons ⟨⟨trivial, trivial⟩, rfl⟩ (.nil _))))

/-- Once there is something to take, it can run. -/
theorem completion_counts_waiting :
    awake waiting.rq waiting.wait = 0 ∧
      1 ≤ awake (Event.exec 2 waiting .complete).rq (Event.exec 2 waiting .complete).wait := by
  have hlast : Step waiting (.complete, 2) (Event.exec 2 waiting .complete) := ⟨trivial, rfl⟩
  have hcounts := (completion_counts (run_waiting.append (.cons hlast (.nil _)))).2.1
  have hmin : min (Event.exec 2 waiting .complete).done.toNat
      (Event.exec 2 waiting .complete).wait.length = 1 := by decide +kernel
  exact ⟨by decide +kernel, hcounts⟩

theorem run_completes (rq : RunQueue) (n : Nat) :
    Run Step (start rq) (List.replicate n (.complete, 0)) ⟨rq, UInt32.ofNat n, [], n, 0⟩ := by
  induction n with
  | zero => exact .nil _
  | succ n ih =>
    rw [List.replicate_succ']
    refine ih.append (.cons ⟨trivial, ?_⟩ (.nil _))
    simp [Event.exec, wakeUpCommon, UInt32.ofNat_add]

/-- After as many calls as the count has values, it is zero again. -/
theorem completion_count_wraps :
    Run Step (start (initialised 0 0)) (List.replicate (2 ^ 32) (.complete, 0))
      ⟨initialised 0 0, 0, [], 2 ^ 32, 0⟩ := by
  have hzero : UInt32.ofNat (2 ^ 32) = 0 := by decide
  have hrun := run_completes (initialised 0 0) (2 ^ 32)
  rwa [hzero] at hrun

end States

end CustomKernel.Sched.Completion

import CustomKernel.Sched.Reachable

/-! # What an operation does to one task

Of all the fields of a task, priorities, sleep average, policy and time slice
are changed by few functions. `Edit` lists every way in which an operation of
the scheduler can change them, so that a property of tasks is an invariant of
all runs when each of these edits keeps it. -/
namespace CustomKernel.Sched.Records
open Lib.Bitmap
open Function (update update_idem update_of_ne update_self)
open Sched.Functions Sched.Queues Sched.Invariant
open Sched.Pick Sched.Steps Sched.Reachable

/-- The fields of interest are the same, and the task has not been queued. -/
structure Same (t t' : Task) : Prop where
  prio : t'.prio = t.prio
  staticPrio : t'.staticPrio = t.staticPrio
  sleepAvg : t'.sleepAvg = t.sleepAvg
  policy : t'.policy = t.policy
  timeSlice : t'.timeSlice = t.timeSlice
  queued : t'.array ≠ none → t.array ≠ none

@[refl] theorem Same.refl (t : Task) : Same t t := ⟨rfl, rfl, rfl, rfl, rfl, id⟩

theorem Same.trans {t t' t'' : Task} (h : Same t t') (h' : Same t' t'') : Same t t'' :=
  ⟨h'.prio.trans h.prio, h'.staticPrio.trans h.staticPrio, h'.sleepAvg.trans h.sleepAvg,
    h'.policy.trans h.policy, h'.timeSlice.trans h.timeSlice, fun ha => h.queued (h'.queued ha)⟩

/-- Nor has it been taken from its queue while it was to run, or put to sleep. -/
structure Kept (t t' : Task) : Prop extends Same t t' where
  state : t'.state = t.state ∨ t.state = .interruptible ∧ t'.state = .running
  array : t.state = .running → t.array ≠ none → t'.array ≠ none

@[refl] theorem Kept.refl (t : Task) : Kept t t := ⟨.refl t, .inl rfl, fun _ => id⟩

theorem Kept.trans {t t' t'' : Task} (h : Kept t t') (h' : Kept t' t'') : Kept t t'' := by
  refine ⟨h.toSame.trans h'.toSame, ?_, fun hrun hin => ?_⟩
  · rcases h.state with heq | ⟨hint, hrun⟩
    · exact heq ▸ h'.state
    · refine .inr ⟨hint, ?_⟩
      rcases h'.state with heq | ⟨_, hrun'⟩
      · exact heq.trans hrun
      · exact hrun'
  · refine h'.array ?_ (h.array hrun hin)
    rcases h.state with heq | ⟨_, hrun'⟩
    · exact heq.trans hrun
    · exact hrun'

instance : IsTrans Task Same := ⟨fun _ _ _ => Same.trans⟩
instance : IsTrans Task Kept := ⟨fun _ _ _ => Kept.trans⟩

theorem Kept.ite {c : Prop} [Decidable c] {s s' : RunQueue} {t : Task} {q : TaskId}
    (h : Kept t (s.tasks q)) (h' : Kept t (s'.tasks q)) :
    Kept t ((if c then s else s').tasks q) := by
  split
  · exact h
  · exact h'

/-! ## The edits -/

/-- One tick of the running task, which is in the active array. -/
def ticked (t : Task) : Task :=
  if rtTask t then
    if t.policy = .rr then
      let t := { t with timeSlice := t.timeSlice - 1 }
      if t.timeSlice = 0 then newSlice t else t
    else t
  else
    let t :=
      { t with
        sleepAvg := if t.sleepAvg ≠ 0 then t.sleepAvg - 1 else t.sleepAvg
        timeSlice := t.timeSlice - 1 }
    if t.timeSlice = 0 then newSlice { t with prio := effectivePrio t } else t

/-- The penalty of a child that is not real-time, in `wake_up_forked_process`. -/
def grown (t : Task) : Task :=
  if rtTask t then t
  else
    let t := { t with sleepAvg := t.sleepAvg * childPenalty / 100 }
    { t with prio := effectivePrio t }

/-- What a fork leaves of the time slice, if it is not the last tick of it. -/
def halved (t : Task) : Task :=
  { t with timeSlice := if t.timeSlice >>> 1 = 0 then 1 else t.timeSlice >>> 1 }

/-- The parent pays for the child that it has made. -/
def penalised (t : Task) : Task := { t with sleepAvg := t.sleepAvg * parentPenalty / 100 }

/-- The reaper of `child` gets the rest of its first time slice. -/
def repaid (child t : Task) : Task :=
  if child.firstTimeSlice then
    let slice := t.timeSlice + child.timeSlice
    { t with
      timeSlice := if slice > UInt32.ofInt maxTimeslice then UInt32.ofInt maxTimeslice else slice }
  else t

/-- The reaper of a child that has slept less sleeps less too. -/
def averaged (child t : Task) : Task :=
  if child.sleepAvg < t.sleepAvg then
    { t with sleepAvg := (t.sleepAvg * exitWeight + child.sleepAvg) / (exitWeight + 1) }
  else t

def reniced (nice : Int) (t : Task) : Task :=
  if rtTask t then { t with staticPrio := niceToPrio nice }
  else { t with staticPrio := niceToPrio nice, prio := niceToPrio nice }

/-- The record that `setscheduler` writes. -/
def assigned (policy : SchedPolicy) (priority : Int) (t : Task) : Task :=
  { t with
    policy := policy
    rtPriority := priority
    prio := if policy ≠ .other then maxUserRtPrio - 1 - priority else t.staticPrio }

/-- All that an operation can make of the record of a task. -/
inductive Edit (s : RunQueue) (jiffies : UInt32) : Op → TaskId → Task → Prop
  | same {o : Op} {q : TaskId} (hnew : ∀ p vfork, o = .doFork p vfork → q ≠ p) :
      Edit s jiffies o q (s.tasks q)
  | woken (p : TaskId) : Edit s jiffies (.tryToWakeUp p) p
      { creditSleep jiffies (s.tasks p) with array := some s.active }
  | child (p : TaskId) (vfork b : Bool) : Edit s jiffies (.doFork p vfork) p
      { creditSleep jiffies (grown { newborn jiffies (s.tasks s.curr) with state := .running }) with
        array := some b }
  /-- the last tick of a time slice is used up by the fork, unless the task is
  the idle one, or has used up its slice before -/
  | parent (p : TaskId) (vfork : Bool) {t : Task}
      (ht : t = halved (s.tasks s.curr) ∨ s.curr ≠ s.idle ∧
        (s.tasks s.curr).timeSlice >>> 1 = 0 ∧ t = ticked (halved (s.tasks s.curr)))
      (penalty : Bool) : Edit s jiffies (.doFork p vfork) s.curr
        (if penalty then penalised t else t)
  | reaper (p : TaskId) : Edit s jiffies (.schedExit p) s.curr
      (averaged (s.tasks p) (repaid (s.tasks p) (s.tasks s.curr)))
  | tick (hc : s.curr ≠ s.idle) : Edit s jiffies .schedulerTick s.curr (ticked (s.tasks s.curr))
  | renice (p : TaskId) {nice : Int} (h : -20 ≤ nice ∧ nice ≤ 19) :
      Edit s jiffies (.setUserNice p nice) p (reniced nice (s.tasks p))
  | reschedule {r : SetSched} {p : TaskId} (hr : r.target = some p) {policy : SchedPolicy}
      {priority : Int} (hrange : 0 ≤ priority ∧ priority ≤ 99)
      (hpolicy : policy = .other ↔ priority = 0) (credit : Bool) :
      Edit s jiffies (.setscheduler r) p
        (if credit then creditSleep jiffies (assigned policy priority (s.tasks p))
          else assigned policy priority (s.tasks p))
  /-- a task that is alone at its priority goes down to the next task of its
  array -/
  | yield {b : Bool} {q : TaskId}
      (hgate : ¬((s.tasks s.curr).policyOn = 1 ∧ (s.tasks s.curr).policyLevel < 1))
      (hrt : rtTask (s.tasks s.curr) = false)
      (hb : (s.tasks s.curr).array = some b) (hq : q ≠ s.curr) (hqb : (s.tasks q).array = some b)
      (hlt : (s.tasks s.curr).prio < (s.tasks q).prio)
      (hfirst : ∀ r, r ≠ s.curr → (s.tasks r).array = some b → (s.tasks q).prio ≤ (s.tasks r).prio) :
      Edit s jiffies .sysSchedYield s.curr { s.tasks s.curr with prio := (s.tasks q).prio }

/-- The record of `q` after an operation is, up to `R`, one that `Edit` allows. -/
def Edited (R : Task → Task → Prop) (s : RunQueue) (jiffies : UInt32) (o : Op) (q : TaskId)
    (s' : RunQueue) : Prop :=
  ∃ t, Edit s jiffies o q t ∧ R t (s'.tasks q)

section
variable {R : Task → Task → Prop} {s s' : RunQueue} {jiffies : UInt32} {o : Op} {q : TaskId}

theorem edited_same (hnew : ∀ p vfork, o = .doFork p vfork → q ≠ p)
    (h : R (s.tasks q) (s'.tasks q)) : Edited R s jiffies o q s' :=
  ⟨_, .same hnew, h⟩

theorem edited_of_eq {t : Task} (h : Edit s jiffies o q t) (he : s'.tasks q = t) :
    Edited Kept s jiffies o q s' :=
  ⟨t, h, he ▸ Kept.refl _⟩

theorem Edited.then [IsTrans Task R] {s'' : RunQueue} (h : Edited R s jiffies o q s')
    (h' : R (s'.tasks q) (s''.tasks q)) : Edited R s jiffies o q s'' := by
  obtain ⟨t, he, ht⟩ := h
  exact ⟨t, he, IsTrans.trans _ _ _ ht h'⟩

theorem Edited.toSame (h : Edited Kept s jiffies o q s') : Edited Same s jiffies o q s' := by
  obtain ⟨t, he, ht⟩ := h
  exact ⟨t, he, ht.toSame⟩

end

/-! ## What the operations do to the records of the tasks -/

section Tasks
variable {s : RunQueue} {p q : TaskId} {b : Bool} {jiffies : UInt32}

@[simp] theorem enqueueTask_tasks :
    (enqueueTask p b s).tasks = update s.tasks p { s.tasks p with array := some b } :=
  rfl

@[simp] theorem activateTask_tasks : (activateTask p jiffies s).tasks =
    update s.tasks p { creditSleep jiffies (s.tasks p) with array := some s.active } := by
  simp [activateTask, RunQueue.setTask]

@[simp] theorem activateTask_curr : (activateTask p jiffies s).curr = s.curr := rfl

@[simp] theorem activateTask_active : (activateTask p jiffies s).active = s.active := rfl

@[simp] theorem deactivateTask_tasks : (deactivateTask p s).tasks =
    update s.tasks p { s.tasks p with array := none } := by
  unfold deactivateTask
  cases h : (s.tasks p).array <;> simp [h, RunQueue.setTask, RunQueue.need]

@[simp] theorem dequeueTask_active : (dequeueTask p b s).active = s.active := by
  unfold dequeueTask
  dsimp only
  split <;> rfl

@[simp] theorem deactivateTask_active : (deactivateTask p s).active = s.active := by
  unfold deactivateTask
  cases h : (s.tasks p).array <;> simp [h, RunQueue.setTask, RunQueue.need]

@[simp] theorem deactivateTask_curr : (deactivateTask p s).curr = s.curr := by
  unfold deactivateTask
  cases h : (s.tasks p).array <;> simp [h, RunQueue.setTask, RunQueue.need]

@[simp] theorem creditSleep_array (jiffies : UInt32) (t : Task) (a : Option Bool) :
    creditSleep jiffies { t with array := a } = { creditSleep jiffies t with array := a } := by
  have hrt : rtTask { t with array := a } = rtTask t := rfl
  unfold creditSleep
  simp only [hrt]
  split <;> rfl

/-- The checks of `setscheduler`: the task, the policy and the priority that it
goes on with. -/
def granted (r : SetSched) (s : RunQueue) : Option (TaskId × SchedPolicy × Int) :=
  match r.param, r.target with
  | some (some priority), some p =>
    match if r.policy < 0 then some (s.tasks p).policy else SchedPolicy.ofInt r.policy with
    | none => none
    | some policy =>
      if r.pid < 0 then none
      else if priority < 0 ∨ priority > maxUserRtPrio - 1 then none
      else if (policy = .other) ≠ (priority = 0) then none
      else if policy ≠ .other ∧ !r.capSysNice then none
      else if !r.sameOwner ∧ !r.capSysNice then none
      else some (p, policy, priority)
  | _, _ => none

theorem setscheduler_granted (r : SetSched) (jiffies : UInt32) (s : RunQueue) :
    (setscheduler r jiffies s).2 = match granted r s with
      | none => s
      | some (p, policy, priority) =>
        if (s.tasks p).array.isSome = true then
          activateTask p jiffies ((deactivateTask p s).setTask p (assigned policy priority))
        else s.setTask p (assigned policy priority) := by
  unfold setscheduler granted
  cases r.param with
  | none => rfl
  | some copy =>
    cases copy with
    | none => dsimp only; split <;> rfl
    | some priority =>
      cases r.target with
      | none => dsimp only; split <;> rfl
      | some p =>
        dsimp only
        generalize (if r.policy < 0 then some (s.tasks p).policy
          else SchedPolicy.ofInt r.policy) = found
        cases found with
        | none => dsimp only; split <;> rfl
        | some policy =>
          dsimp only
          split
          · rfl
          split
          · rfl
          split
          · rfl
          split
          · rfl
          split
          · rfl
          · dsimp only
            generalize (s.tasks p).array.isSome = queued
            cases queued <;> rfl

theorem granted_spec {r : SetSched} {policy : SchedPolicy} {priority : Int}
    (h : granted r s = some (p, policy, priority)) :
    r.target = some p ∧ (0 ≤ priority ∧ priority ≤ 99) ∧ (policy = .other ↔ priority = 0) := by
  unfold granted at h
  split at h
  next _ q _ htarget =>
    split at h
    · cases h
    · split_ifs at h with _ hrange hpolicy
      cases h
      simp only [maxUserRtPrio, not_or, Int.not_lt] at hrange
      rw [ne_eq, not_not, eq_iff_iff] at hpolicy
      exact ⟨htarget, ⟨hrange.1, by omega⟩, hpolicy⟩
  · cases h

/-- The task comes back to the active array, whichever it was in. -/
theorem reassigned_tasks (policy : SchedPolicy) (priority : Int) :
    (activateTask p jiffies ((deactivateTask p s).setTask p (assigned policy priority))).tasks =
      update s.tasks p
        { creditSleep jiffies (assigned policy priority (s.tasks p)) with array := some s.active } := by
  have hout : creditSleep jiffies (assigned policy priority { s.tasks p with array := none }) =
      { creditSleep jiffies (assigned policy priority (s.tasks p)) with array := none } :=
    creditSleep_array jiffies (assigned policy priority (s.tasks p)) none
  simp [RunQueue.setTask, hout]

end Tasks

/-! ## Operations that edit nothing -/

section Nothing
variable {s : RunQueue} {p q : TaskId} {f : Task → Task}

theorem setTask_rel {R : Task → Task → Prop} (hrefl : ∀ t, R t t) (p q : TaskId)
    (hf : ∀ t, R t (f t)) : R (s.tasks q) ((s.setTask p f).tasks q) := by
  by_cases hq : q = p
  · subst hq
    rw [setTask_self]
    exact hf _
  · rw [setTask_of_ne hq]
    exact hrefl _

theorem setTask_same (p q : TaskId)
    (hf : ∀ t, Same t (f t) := by exact fun _ => ⟨rfl, rfl, rfl, rfl, rfl, id⟩) :
    Same (s.tasks q) ((s.setTask p f).tasks q) := setTask_rel Same.refl p q hf

theorem setTask_kept (p q : TaskId)
    (hf : ∀ t, Kept t (f t) := by exact fun _ => ⟨⟨rfl, rfl, rfl, rfl, rfl, id⟩, .inl rfl, fun _ => id⟩) :
    Kept (s.tasks q) ((s.setTask p f).tasks q) := setTask_rel Kept.refl p q hf

theorem reschedTask_kept (s : RunQueue) (p q : TaskId) :
    Kept (s.tasks q) ((reschedTask p s).tasks q) :=
  setTask_kept p q

theorem deactivateTask_same (s : RunQueue) (p q : TaskId) :
    Same (s.tasks q) ((deactivateTask p s).tasks q) := by
  rw [deactivateTask_tasks]
  by_cases hq : q = p
  · subst hq
    rw [update_self]
    exact ⟨rfl, rfl, rfl, rfl, rfl, fun h => absurd rfl h⟩
  · rw [update_of_ne hq]

theorem putPrev_kept (s : RunQueue) (q : TaskId) : Kept (s.tasks q) ((putPrev s).tasks q) := by
  unfold putPrev
  by_cases hq : q = s.curr
  · subst hq
    have hoff := deactivateTask_same s s.curr s.curr
    split
    · rfl
    next hint =>
      split
      · rw [setTask_self]
        exact ⟨⟨rfl, rfl, rfl, rfl, rfl, id⟩, .inr ⟨hint, rfl⟩, fun _ => id⟩
      · refine ⟨hoff, .inl (by simp), fun hrun => ?_⟩
        rw [hint] at hrun
        cases hrun
    next hrun _ => exact ⟨hoff, .inl (by simp), fun h => absurd h hrun⟩
  · split
    · rfl
    · split
      · rw [setTask_of_ne hq]
      · rw [deactivateTask_tasks, update_of_ne hq]
    · rw [deactivateTask_tasks, update_of_ne hq]

theorem pickNext_kept (s : RunQueue) (q : TaskId) : Kept (s.tasks q) ((pickNext s).2.tasks q) := by
  unfold pickNext swapArrays
  split
  · rfl
  · split <;> rfl

theorem schedule_kept (jiffies : UInt32) (s : RunQueue) (q : TaskId) :
    Kept (s.tasks q) ((schedule jiffies s).tasks q) := by
  have h1 : Kept (s.tasks q) ((s.setTask s.curr fun t =>
      { t with sleepTimestamp := jiffies }).tasks q) :=
    setTask_kept _ q
  have h2 := (h1.trans (putPrev_kept _ q)).trans (pickNext_kept _ q)
  have h3 := h2.trans (setTask_kept (f := fun t => { t with needResched := false }) s.curr q)
  unfold schedule
  dsimp only
  split
  · exact h3
  · split
    · exact h3
    · exact h3

end Nothing

/-! ## The other operations -/

section Operations
variable {s s' : RunQueue} {Q : Content} {p q i : TaskId} {jiffies : UInt32}

theorem tryToWakeUp_edited :
    Edited Same s jiffies (.tryToWakeUp p) q (tryToWakeUp p jiffies s).2 := by
  have hrun (s' : RunQueue) : Same (s'.tasks q)
      ((s'.setTask p fun t => { t with state := .running }).tasks q) :=
    setTask_same p q
  unfold tryToWakeUp
  dsimp only
  split
  · refine Edited.then ?_ (hrun _)
    generalize (if (s.tasks p).state = .uninterruptible then s.nrUninterruptible - 1
      else s.nrUninterruptible) = n
    have hact : Edited Same s jiffies (.tryToWakeUp p) q
        (activateTask p jiffies { s with nrUninterruptible := n }) := by
      by_cases hq : q = p
      · subst hq
        exact (edited_of_eq (.woken q) (by rw [activateTask_tasks, update_self])).toSame
      · refine edited_same nofun ?_
        rw [activateTask_tasks, update_of_ne hq]
    split
    · exact hact.then (reschedTask_kept _ _ q).toSame
    · exact hact
  · exact edited_same nofun (hrun s)

theorem setTask_ite {c : Task → Prop} [DecidablePred c] {f : Task → Task} :
    (if c (s.tasks p) then s.setTask p f else s) = s.setTask p fun t => if c t then f t else t := by
  split
  next h => simp [RunQueue.setTask, h]
  next h => simp [RunQueue.setTask, h]

theorem schedExit_eq : schedExit p s =
    (s.setTask s.curr (repaid (s.tasks p))).setTask s.curr (averaged (s.tasks p)) := by
  have hfirst := setTask_ite (s := s) (p := s.curr) (c := fun _ => (s.tasks p).firstTimeSlice = true)
    (f := fun t =>
      { t with
        timeSlice := if t.timeSlice + (s.tasks p).timeSlice > UInt32.ofInt maxTimeslice then
          UInt32.ofInt maxTimeslice else t.timeSlice + (s.tasks p).timeSlice })
  unfold schedExit
  dsimp only at hfirst ⊢
  rw [hfirst]
  exact setTask_ite (c := fun t => (s.tasks p).sleepAvg < t.sleepAvg)

theorem schedExit_edited : Edited Kept s jiffies (.schedExit p) q (schedExit p s) := by
  rw [schedExit_eq]
  by_cases hq : q = s.curr
  · subst hq
    exact edited_of_eq (.reaper p) (by rw [setTask_self, setTask_self])
  · refine edited_same nofun ?_
    rw [setTask_of_ne hq, setTask_of_ne hq]

/-- The record of the running task after a tick, up to where it is queued. -/
theorem schedulerTick_kept (hc : s.curr ≠ s.idle)
    (harr : (s.tasks s.curr).array = some s.active) :
    Kept (ticked (s.tasks s.curr)) ((schedulerTick jiffies s).tasks s.curr) := by
  unfold schedulerTick ticked
  rw [if_neg hc, if_neg (not_not.mpr harr)]
  split
  · split
    · simp only [setTask_self]
      split
      · simp only [enqueueTask_tasks, dequeueTask_tasks, update_self, setTask_self]
        exact ⟨⟨rfl, rfl, rfl, rfl, rfl, fun _ => by simp [newSlice, harr]⟩, .inl rfl, fun _ _ => by simp⟩
      · simp only [setTask_self]
        rfl
    · rfl
  · simp only [setTask_self]
    split
    · have hsame (b : Bool) (s' : RunQueue) (t : Task) (h : s'.tasks s.curr = t)
          (ht : t.array = some s.active) : Kept t ((enqueueTask s.curr b s').tasks s.curr) := by
        rw [enqueueTask_tasks, update_self, h]
        exact ⟨⟨rfl, rfl, rfl, rfl, rfl, fun _ => by simp [ht]⟩, .inl rfl, fun _ _ => by simp⟩
      refine Kept.ite (hsame _ _ _ ?_ ?_) (hsame _ _ _ ?_ ?_)
      all_goals simp [newSlice, harr]
    · simp only [setTask_self]
      rfl

/-- A tick does nothing to the idle task, nor to one that is in the expired
array already. -/
theorem schedulerTick_idle (h : ¬(s.curr ≠ s.idle ∧ (s.tasks s.curr).array = some s.active)) :
    Kept (s.tasks s.curr) ((schedulerTick jiffies s).tasks s.curr) := by
  unfold schedulerTick
  by_cases hc : s.curr = s.idle
  · rw [if_pos hc]
  · rw [if_neg hc, if_pos fun harr => h ⟨hc, harr⟩]
    exact reschedTask_kept _ _ _

theorem schedulerTick_edited : Edited Kept s jiffies .schedulerTick q (schedulerTick jiffies s) := by
  by_cases hq : q = s.curr
  · subst hq
    by_cases h : s.curr ≠ s.idle ∧ (s.tasks s.curr).array = some s.active
    · exact ⟨_, .tick h.1, schedulerTick_kept h.1 h.2⟩
    · exact edited_same nofun (schedulerTick_idle h)
  · refine edited_same nofun ?_
    rw [(schedulerTick_frame jiffies hq).1]

theorem setUserNice_edited {nice : Int} :
    Edited Kept s jiffies (.setUserNice p nice) q (setUserNice p nice s) := by
  unfold setUserNice
  split
  · exact edited_same nofun (Kept.refl _)
  next hrange =>
  have hnice : -20 ≤ nice ∧ nice ≤ 19 := by omega
  by_cases hq : q = p
  · subst hq
    have hedit : Edit s jiffies (.setUserNice q nice) q _ := .renice q hnice
    split
    next hrt =>
      refine edited_of_eq hedit ?_
      simp [reniced, hrt]
    next hrt =>
      dsimp only
      split
      · refine edited_of_eq hedit ?_
        simp [reniced, hrt]
      next b hb =>
        have hqueued : Edited Kept s jiffies (.setUserNice q nice) q (enqueueTask q b
            ((dequeueTask q b s).setTask q fun t =>
              { t with staticPrio := niceToPrio nice, prio := niceToPrio nice })) := by
          refine ⟨_, hedit, ?_⟩
          simp only [enqueueTask_tasks, update_self, setTask_self, dequeueTask_tasks]
          simp only [reniced, hrt]
          exact ⟨⟨rfl, rfl, rfl, rfl, rfl, fun _ => by simp [hb]⟩, .inl rfl, fun _ _ => by simp⟩
        split
        · exact hqueued.then (reschedTask_kept _ _ q)
        · exact hqueued
  · have hother (b : Bool) (f : Task → Task) :
        (enqueueTask p b ((dequeueTask p b s).setTask p f)).tasks q = s.tasks q := by
      rw [enqueueTask_tasks, update_of_ne hq, setTask_of_ne hq, dequeueTask_tasks]
    refine edited_same nofun ?_
    split
    · rw [setTask_of_ne hq]
    · dsimp only
      split
      · rw [setTask_of_ne hq]
      · split
        · refine Kept.trans ?_ (reschedTask_kept _ _ q)
          rw [hother]
        · rw [hother]

theorem array_creditSleep (t : Task) : (creditSleep jiffies t).array = t.array := by
  unfold creditSleep
  dsimp only
  split <;> rfl

theorem setscheduler_edited {r : SetSched} :
    Edited Kept s jiffies (.setscheduler r) q (setscheduler r jiffies s).2 := by
  rw [setscheduler_granted]
  cases hg : granted r s with
  | none => exact edited_same nofun (Kept.refl _)
  | some g =>
    obtain ⟨p, policy, priority⟩ := g
    obtain ⟨htarget, hrange, hpolicy⟩ := granted_spec hg
    dsimp only
    by_cases hq : q = p
    · subst hq
      cases ht : (s.tasks q).array with
      | none => exact edited_of_eq (.reschedule htarget hrange hpolicy false) setTask_self
      | some b =>
        have hold : (creditSleep jiffies (assigned policy priority (s.tasks q))).array ≠ none := by
          rw [array_creditSleep]
          exact ht ▸ Option.some_ne_none b
        refine ⟨_, .reschedule htarget hrange hpolicy true, ?_⟩
        rw [if_pos Option.isSome_some, reassigned_tasks, update_self]
        exact ⟨⟨rfl, rfl, rfl, rfl, rfl, fun _ => hold⟩, .inl rfl, fun _ _ => by simp⟩
    · refine edited_same nofun (Kept.ite ?_ ?_)
      · rw [reassigned_tasks, update_of_ne hq]
      · rw [setTask_of_ne hq]

/-- The queue to which a yielding task goes down is the first one in use. -/
theorem next_queue (hi : Inv s Q i i) {b : Bool} (ht : (s.tasks p).array = some b)
    {n : Nat} (hn : IsFirst (clearBit (s.arrays b).bitmap (s.tasks p).prio.toNat) n)
    (hlt : n < 140) :
    (∃ q, q ≠ p ∧ (s.tasks q).array = some b ∧ (s.tasks q).prio = n) ∧
      ∀ r, r ≠ p → (s.tasks r).array = some b → (s.tasks r).prio ≠ (s.tasks p).prio →
        (n : Int) ≤ (s.tasks r).prio := by
  have hp := (hi.good_queued ht).prio_nonneg
  obtain ⟨hset, hmin⟩ := hn
  rw [testBit_clearBit (by decide)] at hset
  simp only [Bool.and_eq_true, Bool.not_eq_true', decide_eq_false_iff_not] at hset
  constructor
  · obtain ⟨q, hq⟩ := List.exists_mem_of_ne_nil _ ((hi.lists.bit b n hlt).mp hset.2)
    obtain ⟨hqb, hqn⟩ := (hi.placed q b n).mp hq
    refine ⟨q, ?_, hqb, hqn⟩
    rintro rfl
    omega
  · intro r hr hrb hne
    have hgood := hi.good_queued hrb
    have hused : testBit (s.arrays b).bitmap (s.tasks r).prio.toNat = true := by
      refine (hi.lists.bit b _ ?_).mpr (List.ne_nil_of_mem (hi.mem_queue hrb))
      have := hgood.prio_lt
      omega
    have hnonneg := hgood.prio_nonneg
    by_contra hlow
    have hclear := hmin (s.tasks r).prio.toNat (by omega)
    rw [testBit_clearBit (by decide), hused] at hclear
    simp only [Bool.and_true, Bool.not_eq_false', decide_eq_true_eq] at hclear
    omega

theorem sysSchedYield_ne_doFork (p : TaskId) (vfork : Bool) (h : Op.sysSchedYield = .doFork p vfork) :
    q ≠ p := by
  cases h

/-- A task that is alone at its priority is put before or after the next one. -/
theorem requeueYielding_alone (hi : Inv s Q i i)
    (hgate : ¬((s.tasks s.curr).policyOn = 1 ∧ (s.tasks s.curr).policyLevel < 1)) {b : Bool} (ht : (s.tasks s.curr).array = some b)
    (hrt : rtTask (s.tasks s.curr) = false)
    (halone : without Q s.curr (b, (s.tasks s.curr).prio.toNat) = []) {n : Nat}
    (hn : schedFindFirstBit (clearBit (s.arrays b).bitmap (s.tasks s.curr).prio.toNat) = n)
    (hs' : s'.tasks s.curr = { s.tasks s.curr with
      prio := if (n : Int) = maxPrio ∨ (n : Int) ≤ (s.tasks s.curr).prio
        then (s.tasks s.curr).prio else n }) :
    Edited Same s jiffies .sysSchedYield s.curr s' := by
  have hdel := hi.lists.del (hi.mem_queue ht)
  have hdelim : testBit (clearBit (s.arrays b).bitmap (s.tasks s.curr).prio.toNat) 140 = true := by
    simpa [withdrawn, halone] using hdel.delimiter b
  have hfirst := schedFindFirstBit_isFirst hdelim
  have hle := schedFindFirstBit_le hdelim
  rw [hn] at hfirst hle
  split at hs'
  · refine edited_same sysSchedYield_ne_doFork ?_
    rw [hs']
  next hdown =>
  simp only [maxPrio, maxRtPrio, maxUserRtPrio, not_or, Int.not_le] at hdown
  obtain ⟨⟨q, hq, hqb, hqn⟩, hmin⟩ := next_queue hi ht hfirst (by omega)
  rw [← hqn] at hs' hmin
  refine (edited_of_eq (.yield hgate hrt ht hq hqb (by omega) ?_) hs').toSame
  intro r hr hrb
  refine hmin r hr hrb ?_
  -- nobody else is at the priority it leaves
  intro heq
  have hmem := hi.mem_queue hrb
  rw [heq] at hmem
  have := hi.lists.mem_without.mpr ⟨hr, hmem⟩
  rw [halone] at this
  cases this

theorem requeueYielding_edited (hi : Inv s Q i i)
    (hgate : ¬((s.tasks s.curr).policyOn = 1 ∧ (s.tasks s.curr).policyLevel < 1)) :
    Edited Same s jiffies .sysSchedYield q (requeueYielding s) := by
  by_cases hq : q = s.curr
  · subst hq
    unfold requeueYielding
    dsimp only
    split
    · exact edited_same sysSchedYield_ne_doFork (Same.refl _)
    next b ht =>
    have hdel := hi.lists.del (hi.mem_queue ht)
    have hempty := hdel.listEmpty_eq (b := b) (k := (s.tasks s.curr).prio.toNat)
    split
    · exact edited_same sysSchedYield_ne_doFork (Same.refl _)
    next hrt =>
    split
    · exact edited_same sysSchedYield_ne_doFork (Same.refl _)
    next halone =>
    refine requeueYielding_alone hi hgate ht (Bool.not_eq_true _ ▸ hrt) ?_ rfl ?_
    · have : (without Q s.curr (b, (s.tasks s.curr).prio.toNat)).isEmpty = true := by
        rw [← hempty]
        simpa [RunQueue.setLinks, RunQueue.need, queue] using halone
      exact List.isEmpty_iff.mp this
    · simp [RunQueue.need, RunQueue.setLinks, RunQueue.setArray, RunQueue.setTask]
  · refine edited_same sysSchedYield_ne_doFork ?_
    have : (requeueYielding s).tasks q = s.tasks q := by
      unfold requeueYielding
      dsimp only
      split
      · rfl
      · split_ifs <;> simp [RunQueue.need, RunQueue.setLinks, RunQueue.setArray, setTask_of_ne hq]
    rw [this]

theorem sysSchedYield_edited (hi : Inv s Q i i) :
    Edited Same s jiffies .sysSchedYield q (sysSchedYield jiffies s).2 := by
  unfold sysSchedYield
  dsimp only
  split
  · exact edited_same nofun (Same.refl _)
  next hgate => exact (requeueYielding_edited hi hgate).then (schedule_kept _ _ q).toSame

end Operations

/-! ## Forking -/

section Fork
variable {s : RunQueue} {Q : Content} {p q i : TaskId} {jiffies : UInt32}

theorem wakeUpForkedProcess_child (hp : p ≠ s.curr) :
    (wakeUpForkedProcess p jiffies s).tasks p =
      { creditSleep jiffies (grown { s.tasks p with state := .running }) with
        array := some s.active } := by
  unfold wakeUpForkedProcess grown
  simp only [setTask_self]
  split
  · simp [RunQueue.setTask]
  · simp [RunQueue.setTask, hp]

theorem wakeUpForkedProcess_parent (hp : p ≠ s.curr) (jiffies : UInt32) :
    ∃ penalty : Bool, (wakeUpForkedProcess p jiffies s).tasks s.curr =
      if penalty then penalised (s.tasks s.curr) else s.tasks s.curr := by
  refine ⟨!rtTask { s.tasks p with state := .running }, ?_⟩
  unfold wakeUpForkedProcess
  simp only [setTask_self]
  split
  next h => simp [RunQueue.setTask, hp.symm, h]
  next h => simp [RunQueue.setTask, hp.symm, h, penalised]

theorem wakeUpForkedProcess_other (hp : q ≠ p) (hq : q ≠ s.curr) :
    (wakeUpForkedProcess p jiffies s).tasks q = s.tasks q := by
  unfold wakeUpForkedProcess
  simp only [setTask_self]
  split <;> simp [RunQueue.setTask, hp, hq]

/-- The time slice is shared, and a tick is spent if that was the last one. -/
def shared (jiffies : UInt32) (s : RunQueue) : RunQueue :=
  if (s.tasks s.curr).timeSlice >>> 1 = 0 then schedulerTick jiffies (s.setTask s.curr halved)
  else s.setTask s.curr halved

theorem doFork_eq (vfork : Bool) : doFork p vfork jiffies s =
    let forked := (s.setTask p fun _ => newborn jiffies (s.tasks s.curr)).setLinks
      fun L => L.initListHead (.task p)
    let woken := wakeUpForkedProcess p jiffies (shared jiffies forked)
    if vfork then woken else reschedTask woken.curr woken := by
  have hshared (s' : RunQueue) : (if ((s'.setTask s'.curr fun t =>
        { t with timeSlice := t.timeSlice >>> 1 }).tasks s'.curr).timeSlice = 0 then
      schedulerTick jiffies ((s'.setTask s'.curr fun t =>
        { t with timeSlice := t.timeSlice >>> 1 }).setTask s'.curr fun t => { t with timeSlice := 1 })
      else s'.setTask s'.curr fun t => { t with timeSlice := t.timeSlice >>> 1 }) =
      shared jiffies s' := by
    unfold shared
    by_cases h : (s'.tasks s'.curr).timeSlice >>> 1 = 0
    · simp [RunQueue.setTask, halved, h]
    · simp [RunQueue.setTask, halved, h]
  dsimp only
  rw [← hshared]
  rfl

theorem shared_frame (hq : q ≠ s.curr) :
    (shared jiffies s).tasks q = s.tasks q ∧ (shared jiffies s).curr = s.curr := by
  unfold shared
  split
  · obtain ⟨htasks, hcurr⟩ := schedulerTick_frame jiffies (s := s.setTask s.curr halved) hq
    rw [setTask_of_ne hq] at htasks
    exact ⟨htasks, hcurr⟩
  · exact ⟨setTask_of_ne hq, rfl⟩

theorem shared_curr (s : RunQueue) (jiffies : UInt32) : ∃ t, (t = halved (s.tasks s.curr) ∨ s.curr ≠ s.idle ∧
      (s.tasks s.curr).timeSlice >>> 1 = 0 ∧ t = ticked (halved (s.tasks s.curr))) ∧
    Kept t ((shared jiffies s).tasks s.curr) := by
  have hself := setTask_self (s := s) (p := s.curr) (f := halved)
  unfold shared
  split
  next h0 =>
    rw [← hself]
    by_cases hact : s.curr ≠ s.idle ∧ ((s.setTask s.curr halved).tasks s.curr).array = some s.active
    · exact ⟨_, .inr ⟨hact.1, h0, rfl⟩, schedulerTick_kept hact.1 hact.2⟩
    · exact ⟨_, .inl rfl, schedulerTick_idle hact⟩
  next =>
    rw [hself]
    exact ⟨_, .inl rfl, Kept.refl _⟩

/-- What a fork makes of the child, of the parent and of everybody else. -/
structure Forked (s : RunQueue) (p : TaskId) (jiffies : UInt32) (s' : RunQueue) : Prop where
  child : ∃ b, Kept { creditSleep jiffies
    (grown { newborn jiffies (s.tasks s.curr) with state := .running }) with array := some b }
    (s'.tasks p)
  parent : ∃ (t : Task) (penalty : Bool), (t = halved (s.tasks s.curr) ∨ s.curr ≠ s.idle ∧
      (s.tasks s.curr).timeSlice >>> 1 = 0 ∧ t = ticked (halved (s.tasks s.curr))) ∧
    Kept (if penalty then penalised t else t) (s'.tasks s.curr)
  others : ∀ q, q ≠ p → q ≠ s.curr → Kept (s.tasks q) (s'.tasks q)

theorem Forked.then {s' s'' : RunQueue} (h : Forked s p jiffies s')
    (h' : ∀ q, Kept (s'.tasks q) (s''.tasks q)) : Forked s p jiffies s'' := by
  obtain ⟨b, hchild⟩ := h.child
  obtain ⟨t, penalty, ht, hparent⟩ := h.parent
  exact ⟨⟨b, hchild.trans (h' p)⟩, ⟨t, penalty, ht, hparent.trans (h' _)⟩,
    fun q hq hc => (h.others q hq hc).trans (h' q)⟩

theorem doFork_forked (hp : p ≠ s.curr) (vfork : Bool) (jiffies : UInt32) :
    Forked s p jiffies (doFork p vfork jiffies s) := by
  let forked := (s.setTask p fun _ => newborn jiffies (s.tasks s.curr)).setLinks
    fun L => L.initListHead (.task p)
  have hcurr : (shared jiffies forked).curr = s.curr := (shared_frame (s := forked) hp).2
  have hpc : p ≠ (shared jiffies forked).curr := hcurr ▸ hp
  have hwoken : Forked s p jiffies (wakeUpForkedProcess p jiffies (shared jiffies forked)) := by
    constructor
    case child =>
      have hchild : forked.tasks p = newborn jiffies (s.tasks s.curr) := update_self ..
      refine ⟨(shared jiffies forked).active, ?_⟩
      rw [wakeUpForkedProcess_child hpc, (shared_frame (s := forked) hp).1, hchild]
    case parent =>
      have hparent : forked.tasks s.curr = s.tasks s.curr := update_of_ne hp.symm ..
      obtain ⟨t, ht, hsame⟩ := shared_curr forked jiffies
      obtain ⟨penalty, hpen⟩ := wakeUpForkedProcess_parent hpc jiffies
      change t = halved (forked.tasks s.curr) ∨ s.curr ≠ s.idle ∧
        (forked.tasks s.curr).timeSlice >>> 1 = 0 ∧ t = ticked (halved (forked.tasks s.curr)) at ht
      rw [hparent] at ht
      refine ⟨t, penalty, ht, ?_⟩
      rw [hcurr] at hpen
      rw [hpen]
      cases penalty with
      | false => exact hsame
      | true =>
        exact { hsame with
          sleepAvg := congrArg (fun avg => avg * parentPenalty / 100) hsame.sleepAvg }
    case others =>
      intro q hq hqc
      have hother : forked.tasks q = s.tasks q := update_of_ne hq ..
      rw [wakeUpForkedProcess_other hq (hcurr ▸ hqc), (shared_frame (s := forked) hqc).1, hother]
  rw [doFork_eq]
  split
  · exact hwoken
  · exact hwoken.then fun q => reschedTask_kept _ _ q

theorem doFork_edited (hp : p ≠ s.curr) (vfork : Bool) :
    Edited Kept s jiffies (.doFork p vfork) q (doFork p vfork jiffies s) := by
  obtain ⟨⟨b, hchild⟩, ⟨t, penalty, ht, hparent⟩, hothers⟩ := doFork_forked hp vfork jiffies
  by_cases hq : q = p
  · subst hq
    exact ⟨_, .child q vfork b, hchild⟩
  by_cases hqc : q = s.curr
  · subst hqc
    exact ⟨_, .parent p vfork ht penalty, hparent⟩
  · exact edited_same (by rintro _ _ ⟨⟩; exact hq) (hothers q hq hqc)

end Fork

/-- Whatever happens, each task's record is one that `Edit` allows. -/
theorem step_edited {s s' : RunQueue} {Q : Content} {i : TaskId} {e : Op × UInt32}
    (hi : Inv s Q i i) (h : Step s e s') (q : TaskId) : Edited Same s e.2 e.1 q s' := by
  obtain ⟨o, now⟩ := e
  obtain ⟨hok, rfl⟩ := h
  cases o with
  | tryToWakeUp p => exact tryToWakeUp_edited
  | doFork p vfork =>
    exact (doFork_edited (hi.ne_curr (hi.is_idle ▸ hok.1) hok.2) vfork).toSame
  | schedExit p => exact schedExit_edited.toSame
  | schedulerTick => exact schedulerTick_edited.toSame
  | schedule => exact edited_same nofun (schedule_kept _ _ q).toSame
  | setUserNice p nice => exact setUserNice_edited.toSame
  | setscheduler r => exact setscheduler_edited.toSame
  | sysSchedYield => exact sysSchedYield_edited hi
  | setState p state =>
    exact edited_same nofun (setTask_same (f := fun t => { t with state := state }) p q)
  | setPending p pending =>
    exact edited_same nofun (setTask_same (f := fun t => { t with sigpending := pending }) p q)
  | setPolicy p on level =>
    exact edited_same nofun (setTask_same (f := fun t => { t with policyOn := on, policyLevel := level }) p q)

end CustomKernel.Sched.Records

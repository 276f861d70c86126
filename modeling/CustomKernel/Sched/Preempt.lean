import CustomKernel.Sched.Records

/-! # Preemption

Each operation of the scheduler decides for itself whether the running task has
to give up the processor. A wake-up compares priorities; `set_user_nice`
compares the new priority with the one it has just stored, and `setscheduler`
and the parent of a `vfork` do not compare at all. Where these do not put a
better task beside the running one, `need_resched` is never missing. -/
namespace CustomKernel.Sched.Preempt
open Lib.Transition
open Function (update update_of_ne update_self)
open Sched.Functions Sched.Queues Sched.Invariant
open Sched.Pick Sched.Steps Sched.Reachable
open Sched.Records

/-- No task of the active array is better than the running one, unless that has
been told to give up the processor. -/
def Heeded (s : RunQueue) : Prop :=
  ∀ p, (s.tasks p).array = some s.active → (s.tasks p).prio < (s.tasks s.curr).prio →
    (s.tasks s.curr).needResched = true

/-! ## One task changes -/

section Change
variable {s s' : RunQueue} {p : TaskId}

theorem Heeded.keep {f : Task → Task} (h : Heeded s) (p : TaskId)
    (hf : ∀ t : Task, (f t).array = t.array ∧ (f t).prio = t.prio ∧
      (t.needResched = true → (f t).needResched = true) := by exact fun _ => ⟨rfl, rfl, id⟩) :
    Heeded (s.setTask p f) := by
  have hsame (q : TaskId) := setTask_rel (s := s) (R := fun t t' => t'.array = t.array ∧
    t'.prio = t.prio ∧ (t.needResched = true → t'.needResched = true)) (fun _ => ⟨rfl, rfl, id⟩) p q hf
  intro q harr hlt
  rw [(hsame q).1] at harr
  have hcurr : ((s.setTask p f).tasks s.curr).prio = (s.tasks s.curr).prio := (hsame s.curr).2.1
  change ((s.setTask p f).tasks q).prio < ((s.setTask p f).tasks s.curr).prio at hlt
  rw [(hsame q).2.1, hcurr] at hlt
  exact (hsame s.curr).2.2 (h q harr hlt)

theorem Heeded.ite {c : Prop} [Decidable c] (h : Heeded s) (h' : Heeded s') :
    Heeded (if c then s else s') := by
  split
  · exact h
  · exact h'

/-- A task other than the running one changes, and a request is made if it is
now the better one. -/
theorem Heeded.change (h : Heeded s) (hp : p ≠ s.curr) (hactive : s'.active = s.active)
    (hcurr : s'.curr = s.curr)
    (hothers : ∀ q, q ≠ p → (s'.tasks q).array = (s.tasks q).array ∧
      (s'.tasks q).prio = (s.tasks q).prio)
    (hkept : (s.tasks s.curr).needResched = true → (s'.tasks s.curr).needResched = true)
    (hnew : (s'.tasks p).array = some s.active → (s'.tasks p).prio < (s.tasks s.curr).prio →
      (s'.tasks s.curr).needResched = true) : Heeded s' := by
  intro q harr hlt
  rw [hactive] at harr
  rw [hcurr] at hlt ⊢
  rw [(hothers s.curr hp.symm).2] at hlt
  by_cases hq : q = p
  · subst hq
    exact hnew harr hlt
  · rw [(hothers q hq).1] at harr
    rw [(hothers q hq).2] at hlt
    exact hkept (h q harr hlt)

theorem Heeded.put {t : Task} (h : Heeded s) (hp : p ≠ s.curr) (hactive : s'.active = s.active)
    (hcurr : s'.curr = s.curr) (htasks : s'.tasks = update s.tasks p t)
    (hnew : t.array = some s.active → t.prio < (s.tasks s.curr).prio →
      (s.tasks s.curr).needResched = true) : Heeded s' := by
  have hothers (q : TaskId) (hq : q ≠ p) : s'.tasks q = s.tasks q := by
    rw [htasks, update_of_ne hq]
  refine h.change hp hactive hcurr (fun q hq => by simp [hothers q hq]) ?_ ?_
  · rw [hothers _ hp.symm]
    exact id
  · rw [hothers _ hp.symm, htasks, update_self]
    exact hnew

end Change

/-! ## The operations -/

section Operations
variable {s : RunQueue} {Q : Content} {p i : TaskId} {jiffies : UInt32}

theorem reschedTask_heeded (s : RunQueue) : Heeded (reschedTask s.curr s) := by
  intro q _ _
  exact congrArg Task.needResched setTask_self

theorem tryToWakeUp_heeded (hi : Inv s Q i i) (h : Heeded s) (hp : p ≠ i) :
    Heeded (tryToWakeUp p jiffies s).2 := by
  unfold tryToWakeUp
  by_cases ht : (s.tasks p).array = none
  · rw [if_pos ht]
    dsimp only
    refine Heeded.keep ?_ p
    generalize (if (s.tasks p).state = .uninterruptible then s.nrUninterruptible - 1
      else s.nrUninterruptible) = n
    split
    · exact reschedTask_heeded _
    next hnot =>
      have hpc := hi.ne_curr hp ht
      refine h.put hpc rfl rfl activateTask_tasks ?_
      intro _ hlt
      refine absurd ?_ hnot
      simpa [hpc.symm] using hlt
  · rw [if_neg ht]
    dsimp only
    exact h.keep p

/-- `schedule` leaves nothing better than what it has chosen. -/
theorem schedule_heeded (hi : Inv s Q i i) (jiffies : UInt32) : Heeded (schedule jiffies s) := by
  obtain ⟨Q', hb, hbest, hturn, hi'⟩ := schedule_best hi jiffies
  intro q harr hlt
  have hmem := hi'.mem_queue harr
  have hgood := hi'.good_queued harr
  have htot : total Q' ≠ 0 := by
    have := total_without hi'.lists hmem
    omega
  rw [hturn htot] at hmem
  generalize hc : (schedule jiffies s).curr = c at hbest hlt
  cases hbest with
  | idle hempty => rw [hempty] at hmem; cases hmem
  | @first k c ps hk hq =>
    have hprio := ((hi'.placed c _ _).mp (hq ▸ List.mem_cons_self)).2
    have hlow : ((schedule jiffies s).tasks q).prio.toNat < k := by
      have := hgood.prio_nonneg
      omega
    rw [hk.empty _ hlow] at hmem
    cases hmem

theorem schedulerTick_heeded (h : Heeded s) (jiffies : UInt32) :
    Heeded (schedulerTick jiffies s) := by
  unfold schedulerTick
  dsimp only
  split
  · exact h
  split
  · exact reschedTask_heeded s
  split
  · split
    · split
      · -- the time slice is used up, and the request made
        intro q _ _
        simp [newSlice, enqueueTask, RunQueue.setTask, RunQueue.setLinks, RunQueue.setArray,
          RunQueue.need]
      · exact h.keep s.curr
    · exact h
  · split
    · split
      · intro q _ _
        simp [newSlice, enqueueTask, RunQueue.setTask, RunQueue.setLinks, RunQueue.setArray,
          RunQueue.need]
      · intro q _ _
        simp [newSlice, enqueueTask, RunQueue.setTask, RunQueue.setLinks, RunQueue.setArray,
          RunQueue.need]
    · exact h.keep s.curr

/-- The new priority is not better than that of the running task. The range of
`nice` and real-time tasks are the cases in which `prio` does not change. -/
def NiceHeeds (s : RunQueue) (p : TaskId) (nice : Int) : Prop :=
  (s.tasks s.curr).needResched = true ∨ p = s.curr ∨ (s.tasks p).array ≠ some s.active ∨
    rtTask (s.tasks p) = true ∨ (taskNice (s.tasks p) = nice ∨ nice < -20 ∨ nice > 19) ∨
    (s.tasks s.curr).prio ≤ niceToPrio nice

theorem setUserNice_heeded (hi : Inv s Q i i) (h : Heeded s) (hp : p ≠ i) {nice : Int}
    (hc : NiceHeeds s p nice) : Heeded (setUserNice p nice s) := by
  unfold setUserNice
  split
  · exact h
  next hrange =>
  split
  · exact h.keep p
  next hrt =>
  split
  next harr =>
    exact h.put (hi.ne_curr hp harr) rfl rfl rfl (by simp [harr])
  next b harr =>
    by_cases hpc : p = s.curr
    · rw [if_pos (.inr (by simp [enqueueTask, RunQueue.setTask, RunQueue.setLinks,
        RunQueue.setArray, RunQueue.need, hpc]))]
      exact reschedTask_heeded _
    · rw [if_neg (by simp [enqueueTask, RunQueue.setTask, RunQueue.setLinks,
        RunQueue.setArray, RunQueue.need, hpc])]
      have htasks : (enqueueTask p b ((dequeueTask p b s).setTask p fun t =>
          { t with staticPrio := niceToPrio nice, prio := niceToPrio nice })).tasks = update s.tasks p
            { s.tasks p with
              staticPrio := niceToPrio nice, prio := niceToPrio nice, array := some b } := by
        simp [RunQueue.setTask]
      refine h.put hpc (dequeueTask_active) (dequeueTask_curr b) htasks ?_
      -- the first test of `set_user_nice` does not see the change; the condition does
      intro hact hlt
      unfold NiceHeeds at hc
      rw [harr] at hc
      rcases hc with hc | hc | hc | hc | hc | hc
      · exact hc
      · exact absurd hc hpc
      · exact absurd hact hc
      · exact absurd hc hrt
      · exact absurd hc hrange
      · exact absurd hlt (Int.not_lt.mpr hc)

@[simp] theorem creditSleep_needResched (jiffies : UInt32) (t : Task) :
    (creditSleep jiffies t).needResched = t.needResched := by
  unfold creditSleep
  dsimp only
  split <;> rfl

/-- The queued task that gets the new priority is not better than the running one, or,
being the running one, is not worse than another. -/
def SchedulerHeeds (s : RunQueue) (r : SetSched) (jiffies : UInt32) : Prop :=
  ∀ p policy priority, granted r s = some (p, policy, priority) → (s.tasks p).array ≠ none →
    (s.tasks s.curr).needResched = true ∨
    let prio := (creditSleep jiffies (assigned policy priority (s.tasks p))).prio
    if p = s.curr then
      ∀ q, q ≠ p → (s.tasks q).array = some s.active → prio ≤ (s.tasks q).prio
    else (s.tasks s.curr).prio ≤ prio

theorem setscheduler_heeded {r : SetSched} (hi : Inv s Q i i) (h : Heeded s)
    (hr : r.target ≠ some i) (hc : SchedulerHeeds s r jiffies) :
    Heeded (setscheduler r jiffies s).2 := by
  rw [setscheduler_granted]
  cases hg : granted r s with
  | none => exact h
  | some g =>
    obtain ⟨p, policy, priority⟩ := g
    have hp : p ≠ i := by
      rintro rfl
      exact hr (granted_spec hg).1
    dsimp only
    cases harr : (s.tasks p).array with
    | none =>
      exact h.put (hi.ne_curr hp harr) rfl rfl rfl (by simp [assigned, harr])
    | some b =>
      rw [if_pos Option.isSome_some]
      have hc := hc p policy priority hg (by rw [harr]; exact Option.some_ne_none b)
      by_cases hpc : p = s.curr
      · rw [if_pos hpc] at hc
        intro q hact hlt
        rw [reassigned_tasks] at hact hlt ⊢
        simp only [activateTask_curr, activateTask_active, RunQueue.setTask, deactivateTask_curr,
          deactivateTask_active, ← hpc, update_self] at hact hlt ⊢
        by_cases hq : q = p
        · subst hq
          simp at hlt
        · rw [update_of_ne hq] at hact hlt
          rcases hc with hc | hc
          · rw [creditSleep_needResched]
            exact hpc ▸ hc
          · have := hc q hq hact
            omega
      · rw [if_neg hpc] at hc
        exact h.put hpc deactivateTask_active deactivateTask_curr (reassigned_tasks _ _)
          fun _ hlt => hc.resolve_right (Int.not_le.mpr hlt)

theorem sysSchedYield_heeded (hi : Inv s Q i i) (h : Heeded s) (hc : s.curr ≠ i) :
    Heeded (sysSchedYield jiffies s).2 := by
  unfold sysSchedYield
  dsimp only
  split
  · exact h
  · obtain ⟨Q', hi'⟩ := requeueYielding_inv hi hc
    exact schedule_heeded hi' jiffies

theorem schedExit_heeded (h : Heeded s) (p : TaskId) : Heeded (schedExit p s) := by
  exact Heeded.ite ((Heeded.ite (h.keep s.curr) h).keep _) (Heeded.ite (h.keep s.curr) h)

/-! A fork. -/

theorem wakeUpForkedProcess_frame (s : RunQueue) (p : TaskId) (jiffies : UInt32) :
    (wakeUpForkedProcess p jiffies s).curr = s.curr ∧
      (wakeUpForkedProcess p jiffies s).active = s.active := by
  unfold wakeUpForkedProcess
  dsimp only
  split <;> exact ⟨rfl, rfl⟩

theorem wakeUpForkedProcess_others {q : TaskId} (hp : p ≠ s.curr) (hq : q ≠ p) (jiffies : UInt32) :
    ((wakeUpForkedProcess p jiffies s).tasks q).array = (s.tasks q).array ∧
      ((wakeUpForkedProcess p jiffies s).tasks q).prio = (s.tasks q).prio ∧
      ((wakeUpForkedProcess p jiffies s).tasks q).needResched = (s.tasks q).needResched := by
  by_cases hc : q = s.curr
  · subst hc
    obtain ⟨penalty, hparent⟩ := wakeUpForkedProcess_parent hp jiffies
    rw [hparent]
    cases penalty <;> exact ⟨rfl, rfl, rfl⟩
  · rw [wakeUpForkedProcess_other hq hc]
    exact ⟨rfl, rfl, rfl⟩

/-- What the child starts with: it has not slept since its time stamp was taken. -/
theorem wakeUpForkedProcess_prio (hp : p ≠ s.curr) (hst : (s.tasks p).sleepTimestamp = jiffies) :
    ((wakeUpForkedProcess p jiffies s).tasks p).prio =
      if rtTask (s.tasks p) then (s.tasks p).prio
      else effectivePrio { s.tasks p with sleepAvg := (s.tasks p).sleepAvg * childPenalty / 100 } := by
  have hrt : rtTask { s.tasks p with state := .running } = rtTask (s.tasks p) := rfl
  rw [wakeUpForkedProcess_child hp, grown, hrt]
  split
  next h => simp [creditSleep, hrt, h]
  · simp [creditSleep, hst, effectivePrio]

/-- A tick makes a request or does not touch the priority. -/
theorem schedulerTick_curr (s : RunQueue) (jiffies : UInt32) :
    ((schedulerTick jiffies s).tasks s.curr).needResched = true ∨
      ((schedulerTick jiffies s).tasks s.curr).prio = (s.tasks s.curr).prio := by
  unfold schedulerTick
  dsimp only
  split_ifs <;> simp [newSlice, reschedTask, enqueueTask, RunQueue.setTask, RunQueue.setLinks,
    RunQueue.setArray, RunQueue.need]

/-- A task that is not real-time and is in its last tick is told to give up the processor. -/
theorem schedulerTick_last (hidle : s.curr ≠ s.idle) (hrt : rtTask (s.tasks s.curr) = false)
    (hslice : (s.tasks s.curr).timeSlice = 1) (jiffies : UInt32) :
    ((schedulerTick jiffies s).tasks s.curr).needResched = true := by
  unfold schedulerTick
  dsimp only
  split_ifs <;> simp_all [newSlice, reschedTask, enqueueTask, RunQueue.setTask, RunQueue.setLinks,
    RunQueue.setArray, RunQueue.need]

/-- A parent that is not rescheduled is not worse than its child, or had its last tick taken. -/
def ForkHeeds (s : RunQueue) (vfork : Bool) : Prop :=
  let parent := s.tasks s.curr
  vfork = false ∨ parent.needResched = true ∨ rtTask parent = true ∨
    (s.curr ≠ s.idle ∧ parent.timeSlice >>> 1 = 0) ∨
    parent.prio ≤ effectivePrio { parent with sleepAvg := parent.sleepAvg * childPenalty / 100 }

/-- What the child starts with is not better than the running task. -/
theorem wakeUpForkedProcess_heeded (h : Heeded s) (hpc : p ≠ s.curr)
    (hst : (s.tasks p).sleepTimestamp = jiffies)
    (hc : (s.tasks s.curr).needResched = true ∨ (s.tasks s.curr).prio ≤
      if rtTask (s.tasks p) then (s.tasks p).prio
      else effectivePrio { s.tasks p with sleepAvg := (s.tasks p).sleepAvg * childPenalty / 100 }) :
    Heeded (wakeUpForkedProcess p jiffies s) := by
  have hcp := wakeUpForkedProcess_others hpc hpc.symm jiffies
  obtain ⟨hcurr, hactive⟩ := wakeUpForkedProcess_frame s p jiffies
  refine h.change hpc hactive hcurr ?_ ?_ ?_
  · intro q hq
    obtain ⟨harr, hprio, _⟩ := wakeUpForkedProcess_others hpc hq jiffies
    exact ⟨harr, hprio⟩
  · rw [hcp.2.2]
    exact id
  · intro _ hlt
    rw [wakeUpForkedProcess_prio hpc hst] at hlt
    rw [hcp.2.2]
    exact hc.resolve_right (Int.not_le.mpr hlt)

/-- `do_fork` once the child is made. -/
theorem forked_heeded (h : Heeded s) (hpc : p ≠ s.curr) (hst : (s.tasks p).sleepTimestamp = jiffies)
    (hrt : rtTask (s.tasks p) = rtTask (s.tasks s.curr))
    (hprio : (s.tasks p).prio = (s.tasks s.curr).prio)
    (hc : (s.tasks s.curr).needResched = true ∨ rtTask (s.tasks s.curr) = true ∨
      (s.curr ≠ s.idle ∧ (s.tasks s.curr).timeSlice >>> 1 = 0) ∨ (s.tasks s.curr).prio ≤
        effectivePrio { s.tasks p with sleepAvg := (s.tasks p).sleepAvg * childPenalty / 100 }) :
    Heeded (wakeUpForkedProcess p jiffies (shared jiffies s)) := by
  have hkeep : Heeded (s.setTask s.curr halved) := h.keep s.curr
  have hself : (s.setTask s.curr halved).tasks s.curr = halved (s.tasks s.curr) := setTask_self
  have hchild : (s.setTask s.curr halved).tasks p = s.tasks p := setTask_of_ne hpc
  unfold shared
  split
  next h0 =>
    obtain ⟨hp, hcurr⟩ := schedulerTick_frame jiffies (s := s.setTask s.curr halved) hpc
    rw [hchild] at hp
    have hpc' : p ≠ (schedulerTick jiffies (s.setTask s.curr halved)).curr := by
      rw [hcurr]
      exact hpc
    refine wakeUpForkedProcess_heeded (schedulerTick_heeded hkeep jiffies) hpc' (hp ▸ hst) ?_
    rw [hcurr, hp]
    change ((schedulerTick jiffies (s.setTask s.curr halved)).tasks s.curr).needResched = true ∨
      ((schedulerTick jiffies (s.setTask s.curr halved)).tasks s.curr).prio ≤ _
    cases hcase : rtTask (s.tasks s.curr) with
    | true =>
      -- the tick leaves the priority of a real-time task alone
      rw [if_pos (hrt.trans hcase), hprio]
      rcases schedulerTick_curr (s.setTask s.curr halved) jiffies with htick | htick
      · exact .inl htick
      · exact .inr (htick.trans (congrArg Task.prio hself)).le
    | false =>
      rw [if_neg (by simp [hrt, hcase])]
      by_cases hidle : s.curr = s.idle
      · have htick : schedulerTick jiffies (s.setTask s.curr halved) = s.setTask s.curr halved :=
          if_pos hidle
        rw [htick, hself]
        rcases hc with hc | hc | hc | hc
        · exact .inl hc
        · exact absurd hc (by simp [hcase])
        · exact absurd hidle hc.1
        · exact .inr hc
      · have hrt' : rtTask ((s.setTask s.curr halved).tasks s.curr) = false :=
          (congrArg rtTask hself).trans hcase
        have hslice := (congrArg Task.timeSlice hself).trans (if_pos h0)
        exact .inl (schedulerTick_last (s := s.setTask s.curr halved) hidle hrt' hslice jiffies)
  next h0 =>
    refine wakeUpForkedProcess_heeded hkeep hpc (hchild ▸ hst) ?_
    rw [hchild]
    change ((s.setTask s.curr halved).tasks s.curr).needResched = true ∨
      ((s.setTask s.curr halved).tasks s.curr).prio ≤ _
    rw [hself]
    rcases hc with hc | hc | hc | hc
    · exact .inl hc
    · exact .inr (by rw [if_pos (hrt.trans hc), hprio]; rfl)
    · exact absurd hc.2 h0
    · right
      split
      · exact hprio.ge
      · exact hc

theorem doFork_heeded (hi : Inv s Q i i) (h : Heeded s) (hp : p ≠ i)
    (ht : (s.tasks p).array = none) {vfork : Bool} (hc : ForkHeeds s vfork) :
    Heeded (doFork p vfork jiffies s) := by
  have hpc := hi.ne_curr hp ht
  rcases hc with rfl | hc
  · exact reschedTask_heeded _
  · cases vfork with
    | false => exact reschedTask_heeded _
    | true =>
      let forked := (s.setTask p fun _ => newborn jiffies (s.tasks s.curr)).setLinks
        fun L => L.initListHead (.task p)
      have hchild : forked.tasks p = newborn jiffies (s.tasks s.curr) := update_self ..
      have hself : forked.tasks s.curr = s.tasks s.curr := update_of_ne hpc.symm ..
      -- the child is not queued yet
      have h1 : Heeded forked := h.put hpc rfl rfl rfl (by simp [newborn])
      rw [doFork_eq]
      refine forked_heeded h1 hpc (congrArg Task.sleepTimestamp hchild) ?_ ?_ ?_
      · exact (congrArg rtTask hchild).trans (congrArg rtTask hself).symm
      · exact (congrArg Task.prio hchild).trans (congrArg Task.prio hself).symm
      · change (forked.tasks s.curr).needResched = true ∨ rtTask (forked.tasks s.curr) = true ∨
          (s.curr ≠ s.idle ∧ (forked.tasks s.curr).timeSlice >>> 1 = 0) ∨
          (forked.tasks s.curr).prio ≤ _
        rw [hself, hchild]
        exact hc

end Operations

/-! ## Runs -/

section Runs
variable {s s' : RunQueue} {Q : Content} {boot i : TaskId} {jiffies : UInt32}
  {es : List (Op × UInt32)}

/-- The operations after which no request can be missing. -/
def Heeds (s : RunQueue) (e : Op × UInt32) : Prop :=
  match e.1 with
  | .setUserNice p nice => NiceHeeds s p nice
  | .setscheduler r => SchedulerHeeds s r e.2
  | .doFork _ vfork => ForkHeeds s vfork
  | _ => True

theorem step_heeded {e : Op × UInt32} (hi : Inv s Q i i) (h : Heeded s) (hc : Heeds s e)
    (hs : Step s e s') : Heeded s' := by
  obtain ⟨o, now⟩ := e
  obtain ⟨hok, rfl⟩ := hs
  have hidle := hi.is_idle
  cases o with
  | tryToWakeUp p => exact tryToWakeUp_heeded hi h (hidle ▸ hok)
  | doFork p vfork => exact doFork_heeded hi h (hidle ▸ hok.1) hok.2 hc
  | schedExit p => exact schedExit_heeded h p
  | schedulerTick => exact schedulerTick_heeded h now
  | schedule => exact schedule_heeded hi now
  | setUserNice p nice => exact setUserNice_heeded hi h (hidle ▸ hok) hc
  | setscheduler r => exact setscheduler_heeded hi h (hidle ▸ hok) hc
  | sysSchedYield => exact sysSchedYield_heeded hi h (hidle ▸ hok)
  | setState p state =>
    exact h.keep (f := fun t => { t with state := state }) p
  | setPending p pending =>
    exact h.keep (f := fun t => { t with sigpending := pending }) p
  | setPolicy p on level =>
    exact h.keep (f := fun t => { t with policyOn := on, policyLevel := level }) p

theorem initialised_heeded : Heeded (initialised boot jiffies) := by
  intro q hact _
  exact absurd (initialised_inv.mem_queue hact) List.not_mem_nil

/-- Each operation makes the request it has to. -/
def AllHeed (s : RunQueue) : List (Op × UInt32) → Prop
  | [] => True
  | e :: es => Heeds s e ∧ AllHeed (e.1.exec e.2 s) es

theorem run_heeding (hok : AllAllowed s es) (hc : AllHeed s es) :
    Run (Meeting Heeds Step) s es (after s es) := by
  induction es generalizing s with
  | nil => exact .nil s
  | cons e es ih => exact .cons ⟨hc.1, hok.1, rfl⟩ (ih hok.2 hc.2)

/-- Where `set_user_nice`, `setscheduler` and `vfork` do not put a better task
beside the running one, no preemption is missed. -/
theorem preemption_heeded (h : Run (Meeting Heeds Step) (initialised boot jiffies) es s) :
    ∀ p, (s.tasks p).array = some s.active → (s.tasks p).prio < (s.tasks s.curr).prio →
      (s.tasks s.curr).needResched = true := by
  have hboth : (∃ Q, Inv s Q boot boot) ∧ Heeded s := by
    refine h.invariant (I := fun s => (∃ Q, Inv s Q boot boot) ∧ Heeded s) ?_
      ⟨⟨_, initialised_inv⟩, initialised_heeded⟩
    intro s e s' ⟨⟨Q, hi⟩, hh⟩ ⟨hc, hs⟩
    exact ⟨step_inv hi hs, step_heeded hi hh hc hs⟩
  exact hboth.2

/-- Task 1 has just been told to give up the processor to the task it made. -/
theorem preemption_heeded_twoTasks :
    let s := after (initialised 0 0) (twoTasks.take 4)
    (s.tasks 2).array = some s.active ∧ (s.tasks 2).prio < (s.tasks s.curr).prio ∧
      (s.tasks s.curr).needResched = true := by
  have hrun : Run (Meeting Heeds Step) (initialised 0 0) (twoTasks.take 4)
      (after (initialised 0 0) (twoTasks.take 4)) :=
    run_heeding (by decide +kernel)
      ⟨.inl rfl, trivial, .inl rfl, .inl (by decide +kernel), trivial⟩
  generalize hs : after (initialised 0 0) (twoTasks.take 4) = s at hrun
  have harr : (s.tasks 2).array = some s.active := by
    subst hs
    decide +kernel
  have hprio : (s.tasks 2).prio < (s.tasks s.curr).prio := by
    subst hs
    decide +kernel
  exact ⟨harr, hprio, preemption_heeded hrun 2 harr hprio⟩

/-- Task 1 makes task 2 and is chosen again. -/
def sideBySide : List (Op × UInt32) :=
  [(.doFork 1 false, 0), (.schedule, 0), (.schedule, 0), (.doFork 2 false, 1), (.schedule, 1)]

/-- Task 1 has slept for long, and has lost its bonus by a change of its nice value. -/
def withoutBonus : List (Op × UInt32) :=
  [(.doFork 1 false, 0), (.schedule, 0), (.schedule, 0), (.setState 1 .interruptible, 6),
    (.schedule, 6), (.tryToWakeUp 1, 2000), (.schedule, 2000), (.setUserNice 1 1, 2000),
    (.setUserNice 1 0, 2000), (.schedule, 2000)]

/-- A task of the same owner is made a real-time task. -/
def makeFifo (p : TaskId) : SetSched where
  pid := p
  policy := 1
  param := some (some 50)
  target := some p
  capSysNice := true
  sameOwner := true

/-- The operations end in a state where the running task has not been asked to give way to
the better one. -/
def Missed (es : List (Op × UInt32)) : Prop :=
  let s := after (initialised 0 0) es
  Run Step (initialised 0 0) es s ∧ s.curr = 1 ∧ (s.tasks 2).array = some s.active ∧
    (s.tasks 2).prio < (s.tasks 1).prio ∧ (s.tasks 1).needResched = false

/-- Neither a better nice value nor a real-time policy for the other task makes a
request to the running one, nor does the birth of a better child. -/
theorem preemption_missed :
    Missed (sideBySide ++ [(.setUserNice 2 (-10), 1)]) ∧
      Missed (sideBySide ++ [(.setscheduler (makeFifo 2), 1)]) ∧
      Missed (withoutBonus ++ [(.doFork 2 true, 2000)]) :=
  ⟨⟨run_after (by decide +kernel), by decide +kernel⟩,
    ⟨run_after (by decide +kernel), by decide +kernel⟩,
    ⟨run_after (by decide +kernel), by decide +kernel⟩⟩

end Runs

end CustomKernel.Sched.Preempt

import CustomKernel.Sched.Pick

/-! # Every operation keeps the invariant

One lemma for each function of the scheduler, from the moves it is made of. -/
namespace CustomKernel.Sched.Steps
open Lib.ListHead Lib.Bitmap Function
open Sched.Functions Sched.Queues Sched.Invariant
open Sched.Pick

section Tools
variable {s : RunQueue} {Q : Content} {i x : TaskId}

theorem keeps_state : Keeps fun t : Task => { t with state := .running } :=
  fun _ => ⟨rfl, rfl, rfl, fun _ => rfl⟩

theorem keeps_needResched (r : Bool) : Keeps fun t : Task => { t with needResched := r } :=
  fun _ => ⟨rfl, rfl, rfl, id⟩

theorem keeps_timeSlice (g : Task → UInt32) : Keeps fun t : Task => { t with timeSlice := g t } :=
  fun _ => ⟨rfl, rfl, rfl, id⟩

theorem keeps_sleepAvg (g : Task → UInt32) : Keeps fun t : Task => { t with sleepAvg := g t } :=
  fun _ => ⟨rfl, rfl, rfl, id⟩

theorem reschedTask_inv (hi : Inv s Q i x) (p : TaskId) : Inv (reschedTask p s) Q i x :=
  hi.keep (keeps_needResched true) p

end Tools

/-! ## Waking up -/

section Wake
variable {s : RunQueue} {Q : Content} {p i x : TaskId} {jiffies : UInt32}

theorem tryToWakeUp_inv (hi : Inv s Q i i) (hp : p ≠ i) :
    ∃ Q', Inv (tryToWakeUp p jiffies s).2 Q' i i := by
  unfold tryToWakeUp
  by_cases ht : (s.tasks p).array = none
  · rw [if_pos ht]
    have hgood := (hi.good p hp hp).creditSleep jiffies
    obtain ⟨Q', hi'⟩ := (hi.fields (if (s.tasks p).state = .uninterruptible then
      s.nrUninterruptible - 1 else s.nrUninterruptible) s.nrSwitches s.expiredTimestamp).activate
      (.inl rfl) hp ht jiffies hgood
    exact ⟨Q', (Inv.ite (reschedTask_inv hi' _) hi').keep keeps_state p⟩
  · rw [if_neg ht]
    exact ⟨Q, hi.keep keeps_state p⟩

/-- The child that `do_fork` has just made is in no queue. -/
theorem wakeUpForkedProcess_inv (hi : Inv s Q i p) (hp : p ≠ i) (hcurr : s.curr ≠ p)
    (hprio : 0 ≤ (s.tasks p).prio) (hge : 100 ≤ (s.tasks p).staticPrio)
    (hlt : (s.tasks p).staticPrio < 140) :
    ∃ Q', Inv (wakeUpForkedProcess p jiffies s) Q' i i := by
  have hi1 := hi.keep keeps_state p
  unfold wakeUpForkedProcess
  dsimp only
  split
  next hrt =>
    simp only [setTask_self, rtTask, decide_eq_true_eq] at hrt
    refine hi1.activate (.inr rfl) hp hi1.fresh jiffies (Good.creditSleep ?_ jiffies)
    rw [setTask_self]
    exact ⟨hprio, Int.lt_trans hrt (by decide), hge, hlt⟩
  next =>
    have hi2 := hi1.keep (keeps_sleepAvg fun t => t.sleepAvg * parentPenalty / 100) s.curr
    have hi3 := hi2.fresh_change (f := fun t =>
      { t with
        sleepAvg := t.sleepAvg * childPenalty / 100
        prio := effectivePrio { t with sleepAvg := t.sleepAvg * childPenalty / 100 } })
      (.inr rfl) hp hi2.fresh hi2.fresh
    refine hi3.activate (.inr rfl) hp hi3.fresh jiffies (Good.creditSleep ?_ jiffies)
    rw [setTask_self, setTask_of_ne hcurr.symm, setTask_self]
    exact .of_effectivePrio rfl hge hlt

theorem schedExit_inv (hi : Inv s Q i x) (p : TaskId) : Inv (schedExit p s) Q i x := by
  have hi1 := Inv.ite (c := (s.tasks p).firstTimeSlice = true)
    (hi.keep (keeps_timeSlice fun t => if t.timeSlice + (s.tasks p).timeSlice >
      UInt32.ofInt maxTimeslice then UInt32.ofInt maxTimeslice
      else t.timeSlice + (s.tasks p).timeSlice) s.curr) hi
  exact Inv.ite (hi1.keep (keeps_sleepAvg _) _) hi1

end Wake

/-! ## The timer tick -/

section Tick
variable {s : RunQueue} {Q : Content} {p i x : TaskId} {jiffies : UInt32}

theorem keeps_newSlice : Keeps newSlice := fun _ => ⟨rfl, rfl, rfl, id⟩

theorem keeps_tick : Keeps fun t : Task =>
    { t with
      sleepAvg := if t.sleepAvg ≠ 0 then t.sleepAvg - 1 else t.sleepAvg
      timeSlice := t.timeSlice - 1 } :=
  fun _ => ⟨rfl, rfl, rfl, id⟩

theorem enqueue_stamped {u : UInt32} (h : ∀ c, ∃ Q', Inv (enqueueTask p c s) Q' i x) :
    ∃ Q', Inv (enqueueTask p s.expired { s with expiredTimestamp := u }) Q' i x :=
  (h s.expired).imp fun _ hi => hi.fields _ _ _

/-- The running task is taken off the active array and put back. -/
theorem schedulerTick_inv (hi : Inv s Q i x) (jiffies : UInt32) :
    ∃ Q', Inv (schedulerTick jiffies s) Q' i x := by
  unfold schedulerTick
  dsimp only
  split
  · exact ⟨Q, hi⟩
  split
  · exact ⟨Q, reschedTask_inv hi _⟩
  rename_i hne harr
  have harr : (s.tasks s.curr).array = some s.active := not_not.mp harr
  have hgood := hi.good_queued harr
  split
  · -- a real-time task goes to the end of its queue
    have hi1 := hi.keep (keeps_timeSlice fun t => t.timeSlice - 1) s.curr
    have hi2 := hi1.keep keeps_newSlice s.curr
    have hgood2 := hi2.good_queued (p := s.curr) (by simpa [newSlice] using harr)
    obtain ⟨Q', hi3⟩ := hi2.requeue (f := id) (by simpa [newSlice] using harr) hgood2 s.active
    rw [setTask_id] at hi3
    split
    · split
      · exact ⟨Q', hi3⟩
      · exact ⟨Q, hi1⟩
    · exact ⟨Q, hi⟩
  · -- an ordinary one goes to the array it deserves
    have hi1 := hi.keep keeps_tick s.curr
    have hre (c : Bool) := hi1.requeue
      (f := fun t => newSlice { t with prio := effectivePrio t }) (by rw [setTask_self]; exact harr)
      (.of_effectivePrio rfl (by rw [setTask_self]; exact hgood.static_ge)
        (by rw [setTask_self]; exact hgood.static_lt)) c
    split
    · split
      · exact enqueue_stamped hre
      · exact hre _
    · exact ⟨Q, hi1⟩

end Tick

/-! ## Changing priorities -/

section Priorities
variable {s : RunQueue} {Q : Content} {p i : TaskId} {jiffies : UInt32}

theorem setUserNice_inv (hi : Inv s Q i i) (hp : p ≠ i) (nice : Int) :
    ∃ Q', Inv (setUserNice p nice s) Q' i i := by
  have hold := hi.good p hp hp
  unfold setUserNice
  split
  · exact ⟨Q, hi⟩
  next hrange =>
  have hnew : 100 ≤ niceToPrio nice ∧ niceToPrio nice < 140 := by
    simp only [niceToPrio, maxRtPrio, maxUserRtPrio]
    omega
  let renice := fun t : Task => { t with staticPrio := niceToPrio nice, prio := niceToPrio nice }
  have hgood : Good (renice (s.tasks p)) :=
    ⟨Int.le_trans (by decide) hnew.1, hnew.2, hnew.1, hnew.2⟩
  split
  · exact ⟨Q, hi.change hp rfl (.inr rfl) ⟨hold.prio_nonneg, hold.prio_lt, hnew.1, hnew.2⟩⟩
  · split
    · exact ⟨Q, hi.change hp rfl (.inl ‹_›) hgood⟩
    · obtain ⟨Q', hi'⟩ := hi.requeue ‹_› hgood _
      exact ⟨Q', Inv.ite (reschedTask_inv hi' _) hi'⟩

/-- A queued task leaves its queue to get other priorities and comes back. -/
theorem reprioritise_inv {f : Task → Task} (hi : Inv s Q i i) (hp : p ≠ i)
    (harr : ∀ t, (f t).array = t.array) (hgood : ∀ t, Good t → Good (f t)) (jiffies : UInt32) :
    ∃ Q', Inv (if (s.tasks p).array.isSome = true then
        activateTask p jiffies ((if (s.tasks p).array.isSome = true then deactivateTask p s
          else s).setTask p f)
      else (if (s.tasks p).array.isSome = true then deactivateTask p s else s).setTask p f)
      Q' i i := by
  have hold := hi.good p hp hp
  cases ht : (s.tasks p).array with
  | none => exact ⟨Q, hi.change hp (harr _) (.inl ht) (hgood _ hold)⟩
  | some b =>
    simp only [Option.isSome_some, if_true]
    obtain ⟨⟨L, A, n, heq⟩, hb⟩ := hi.toBase.deactivate ht
    have harr0 : ((deactivateTask p s).tasks p).array = none := by rw [heq]; simp
    have hgood1 := hgood _ (hb.good p hp hp)
    have hb1 : Base ((deactivateTask p s).setTask p f) (without Q p) i i := by
      refine hb.setTask (harr _) (.inl harr0) ?_ hb.fresh fun h => absurd h hp
      intro q hq _
      split
      · exact hgood1
      · exact hb.good q hq hq
    obtain ⟨⟨L', A', t, heq'⟩, Q', hb2⟩ := hb1.activate (.inl rfl) hp
      (by rw [setTask_self, harr, harr0]) jiffies (Good.creditSleep (by rw [setTask_self]; exact hgood1) _)
    refine ⟨Q', hb2, ?_⟩
    -- the running task is either `p`, which is queued again, or where it was
    intro hc
    rw [heq'] at hc ⊢
    by_cases he : s.curr = p
    · simp [heq, he, RunQueue.setTask]
    · simpa [heq, he, RunQueue.setTask] using hi.curr (by simpa [heq, RunQueue.setTask] using hc)

theorem setscheduler_inv {r : SetSched} (hi : Inv s Q i i) (hr : r.target ≠ some i) :
    ∃ Q', Inv (setscheduler r jiffies s).2 Q' i i := by
  unfold setscheduler
  split
  · exact ⟨Q, hi⟩
  split
  · exact ⟨Q, hi⟩
  split
  · exact ⟨Q, hi⟩
  · exact ⟨Q, hi⟩
  next priority p htarget _ =>
  have hp : p ≠ i := by rintro rfl; exact hr htarget
  dsimp only
  split
  · exact ⟨Q, hi⟩
  next policy _ =>
  split
  · exact ⟨Q, hi⟩
  next hrange =>
  split
  · exact ⟨Q, hi⟩
  split
  · exact ⟨Q, hi⟩
  split
  · exact ⟨Q, hi⟩
  refine reprioritise_inv hi hp ?_ ?_ jiffies
  · intro _; rfl
  intro t ht
  simp only [maxUserRtPrio, not_or, Int.not_lt] at hrange
  refine ⟨?_, ?_, ht.static_ge, ht.static_lt⟩
  all_goals
    have := ht.static_ge
    have := ht.static_lt
    simp only [maxUserRtPrio]
    split <;> omega

end Priorities

/-! ## `sys_sched_yield` -/

section Yield
variable {s : RunQueue} {Q : Content} {i : TaskId} {jiffies : UInt32}

theorem schedFindFirstBit_le {b : Nat → BitVec 32} (h : testBit b 140 = true) :
    schedFindFirstBit b ≤ 140 := by
  by_contra hlt
  have := (schedFindFirstBit_isFirst h).2 140 (by omega)
  rw [h] at this
  cases this

/-- A task comes back at the priority it has left. -/
theorem relinked {p : TaskId} {b e : Bool} {k : Nat} {L : Links Node} {xs : List TaskId}
    (hi : Inv s Q i i) (ht : (s.tasks p).array = some b) (hk : (s.tasks p).prio = k)
    (hxs : ∀ q, q ∈ xs ↔ q = p ∨ q ∈ without Q p (b, k))
    (hlen : xs.length = (without Q p (b, k)).length + 1)
    (hl : Lists L (inserted (withdrawn s.arrays b k e) b k)
      (update (without Q p) (b, k) xs)) :
    ∃ Q', Inv { s with links := L } Q' i i := by
  have hmem : p ∈ Q (b, k) := (hi.placed p b k).mpr ⟨ht, hk⟩
  have hmoved := hi.moved ht hxs hlen (hi.lists.back hmem hl) ht hk (hi.good_queued ht)
  rw [update_eq_self] at hmoved
  exact ⟨_, hmoved⟩

theorem requeueYielding_inv (hi : Inv s Q i i) (hc : s.curr ≠ i) :
    ∃ Q', Inv (requeueYielding s) Q' i i := by
  obtain ⟨b, ht⟩ := Option.ne_none_iff_exists'.mp (hi.curr hc)
  have hgood := hi.good_queued ht
  obtain ⟨k, hk⟩ := Int.eq_ofNat_of_zero_le hgood.prio_nonneg
  have hlt : k < 140 := by have := hgood.prio_lt; omega
  have hdel := hi.lists.del ((hi.placed s.curr b k).mpr ⟨ht, hk⟩)
  have hempty := hdel.listEmpty_eq (b := b) (k := k)
  have hout : ∀ j, s.curr ∉ without Q s.curr j := by
    intro j hm
    exact (hi.lists.mem_without.mp hm).1 rfl
  unfold requeueYielding
  simp only [ht, hk, hasQueue_of_lt (Int.natCast_nonneg k) (by omega : (k : Int) < 140), need_true,
    queue, Int.toNat_natCast, RunQueue.setLinks, hempty]
  split
  · exact relinked hi ht hk (fun q => by simp [or_comm]) (by simp) (hdel.insertTail hout hlt)
  split
  · exact relinked hi ht hk (fun _ => mem_afterFirst) length_afterFirst
      (hdel.insertAfterFirst hout hlt)
  next hlast =>
  -- alone at its priority, the task goes to the next one that is in use
  rw [Bool.not_eq_true, Bool.not_eq_false'] at hlast
  rw [hlast] at hdel
  simp only [RunQueue.setArray, RunQueue.setTask, update_self]
  have hdelim : testBit (clearBit (s.arrays b).bitmap k) 140 = true := by
    simpa [withdrawn] using hdel.delimiter b
  have hle := schedFindFirstBit_le hdelim
  generalize schedFindFirstBit (clearBit (s.arrays b).bitmap k) = n at hle ⊢
  obtain ⟨m, hm, hsel⟩ : ∃ m : Nat, m < 140 ∧
      (if (n : Int) = maxPrio ∨ (n : Int) ≤ k then (k : Int) else n) = m := by
    split
    · exact ⟨k, hlt, rfl⟩
    · next h => exact ⟨n, by simp only [maxPrio, maxRtPrio, maxUserRtPrio] at h; omega, rfl⟩
  rw [hsel, hasQueue_of_lt (Int.natCast_nonneg m) (by omega), need_true]
  refine ⟨_, hi.moved ht (fun _ => mem_afterFirst)
    length_afterFirst ((hdel.insertAfterFirst hout hm).congr ?_ ?_) ht rfl
    ⟨Int.natCast_nonneg m, by dsimp only; omega, hgood.static_ge, hgood.static_lt⟩⟩
  · intro c
    by_cases hcb : c = b
    · subst hcb; simp [inserted, withdrawn]
    · simp [inserted, withdrawn, hcb]
  · intro c _
    by_cases hcb : c = b
    · subst hcb; simp [inserted, withdrawn]
    · simp [inserted, withdrawn, hcb]

theorem sysSchedYield_inv (hi : Inv s Q i i) (hc : s.curr ≠ i) :
    ∃ Q', Inv (sysSchedYield jiffies s).2 Q' i i := by
  unfold sysSchedYield
  dsimp only
  split
  · exact ⟨Q, hi⟩
  · obtain ⟨Q1, hi1⟩ := requeueYielding_inv hi hc
    obtain ⟨Q2, _, _, _, hi2⟩ := schedule_best hi1 jiffies
    exact ⟨Q2, hi2⟩

end Yield

/-! ## New tasks -/

section Fork
variable {s : RunQueue} {Q : Content} {p i x : TaskId} {jiffies : UInt32}

@[simp] theorem dequeueTask_tasks (b : Bool) : (dequeueTask p b s).tasks = s.tasks := by
  unfold dequeueTask
  dsimp only
  split <;> rfl

@[simp] theorem dequeueTask_curr (b : Bool) : (dequeueTask p b s).curr = s.curr := by
  unfold dequeueTask
  dsimp only
  split <;> rfl

/-- A tick changes the record of the running task only. -/
theorem schedulerTick_frame (jiffies : UInt32) {q : TaskId} (hq : q ≠ s.curr) :
    (schedulerTick jiffies s).tasks q = s.tasks q ∧ (schedulerTick jiffies s).curr = s.curr := by
  unfold schedulerTick
  dsimp only
  split_ifs <;> simp [enqueueTask, reschedTask, RunQueue.setTask, RunQueue.setLinks,
    RunQueue.setArray, RunQueue.need, hq]

/-- `do_fork` once the child is made and the time slice is shared. -/
theorem forked_inv (hi : Inv s Q i p) (hp : p ≠ i) (hcurr : s.curr ≠ p)
    (hprio : 0 ≤ (s.tasks p).prio) (hge : 100 ≤ (s.tasks p).staticPrio)
    (hlt : (s.tasks p).staticPrio < 140) (vfork : Bool) :
    let s' := wakeUpForkedProcess p jiffies (if (s.tasks s.curr).timeSlice = 0 then
      schedulerTick jiffies (s.setTask s.curr fun t => { t with timeSlice := 1 }) else s)
    ∃ Q', Inv (if vfork then s' else reschedTask s'.curr s') Q' i i := by
  intro s'
  have hwoken : ∃ Q', Inv s' Q' i i := by
    by_cases h0 : (s.tasks s.curr).timeSlice = 0
    · have hi1 := hi.keep (keeps_timeSlice fun _ => 1) s.curr
      obtain ⟨Q1, hi2⟩ := schedulerTick_inv hi1 jiffies
      obtain ⟨htasks, hc⟩ := schedulerTick_frame jiffies
        (s := s.setTask s.curr fun t => { t with timeSlice := 1 }) hcurr.symm
      rw [setTask_of_ne hcurr.symm] at htasks
      simp only [s', if_pos h0]
      exact wakeUpForkedProcess_inv hi2 hp (hc.trans_ne hcurr) (htasks ▸ hprio) (htasks ▸ hge)
        (htasks ▸ hlt)
    · simp only [s', if_neg h0]
      exact wakeUpForkedProcess_inv hi hp hcurr hprio hge hlt
  obtain ⟨Q', hi'⟩ := hwoken
  exact ⟨Q', Inv.ite hi' (reschedTask_inv hi' _)⟩

/-- The child as `do_fork` fills in its record. -/
def newborn (jiffies : UInt32) (parent : Task) : Task :=
  { parent with
    policyLevel := 2
    policyOn := 0
    state := .uninterruptible
    sigpending := false
    array := none
    timeSlice := (parent.timeSlice + 1) >>> 1
    firstTimeSlice := true
    sleepTimestamp := jiffies }

theorem doFork_inv (hi : Inv s Q i i) (hp : p ≠ i) (ht : (s.tasks p).array = none)
    (vfork : Bool) : ∃ Q', Inv (doFork p vfork jiffies s) Q' i i := by
  have hcurr : s.curr ≠ p := (hi.ne_curr hp ht).symm
  -- the idle task may be the parent: it makes the first process
  have hparent : 0 ≤ (s.tasks s.curr).prio ∧ 100 ≤ (s.tasks s.curr).staticPrio ∧
      (s.tasks s.curr).staticPrio < 140 := by
    by_cases hc : s.curr = i
    · rw [hc]
      exact ⟨by rw [hi.idle.prio]; decide, hi.idle.static_ge, hi.idle.static_lt⟩
    · have hgood := hi.good _ hc hc
      exact ⟨hgood.prio_nonneg, hgood.static_ge, hgood.static_lt⟩
  let child := newborn jiffies (s.tasks s.curr)
  have hi1 := hi.fresh_change (f := fun _ => child) (.inl rfl) hp ht rfl
  have hi2 : Inv ((s.setTask p fun _ => child).setLinks fun L => L.initListHead (.task p)) Q i p :=
    ⟨⟨hi1.lists.initListHead (hi1.not_queued hi1.fresh), hi1.placed, hi1.good, hi1.fresh, hi1.idle,
      hi1.is_idle, hi1.expired, hi1.running, hi1.tame⟩, hi1.curr⟩
  have hi3 := hi2.keep (keeps_timeSlice fun t => t.timeSlice >>> 1) s.curr
  refine forked_inv hi3 hp hcurr ?_ ?_ ?_ vfork
  all_goals
    rw [setTask_of_ne hcurr.symm]
    simp [RunQueue.setLinks]
  · exact hparent.1
  · exact hparent.2.1
  · exact hparent.2.2

end Fork

end CustomKernel.Sched.Steps

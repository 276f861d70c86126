import CustomKernel.Sched.Records

/-! # The bonus range

`effective_prio` keeps the priority of an ordinary task within five levels of
its static priority, and every other function that sets a priority sets it to
the static one, with one exception. `sys_sched_yield` lets a task that is alone
at its priority go down to the next one in use, however far that is. -/
namespace CustomKernel.Sched.Bonus
open Lib.Transition
open Sched.Functions Sched.Invariant Sched.Reachable
open Sched.Steps Sched.Records

/-- What a task, the idle one included, hands on to its children. -/
structure Sound (t : Task) : Prop where
  sleepAvg : t.sleepAvg ≤ maxSleepAvg
  static_ge : 100 ≤ t.staticPrio
  static_lt : t.staticPrio < 140
  ordinary : t.policy = .other → 100 ≤ t.prio
  realTime : t.policy ≠ .other → t.prio < 100

/-- The priority of an ordinary task `q` is within the bonus range. The idle task
`i` has a priority of its own. -/
structure Ranged (i q : TaskId) (t : Task) : Prop extends Sound t where
  near : q ≠ i → t.policy = .other → t.prio < 140 ∧ (t.prio - t.staticPrio).natAbs ≤ 5
  idle : q = i → t.policy = .other ∧ t.prio = maxPrio

/-- A task yields to tasks of its array, if there are any, of which one is at
most five levels below its static priority. -/
def Careful (s : RunQueue) (e : Op × UInt32) : Prop :=
  e.1 = .sysSchedYield → ¬((s.tasks s.curr).policyOn = 1 ∧ (s.tasks s.curr).policyLevel < 1) →
    (s.tasks s.curr).policy = .other →
    ∀ q, q ≠ s.curr → (s.tasks q).array = (s.tasks s.curr).array →
      ∃ r, r ≠ s.curr ∧ (s.tasks r).array = (s.tasks s.curr).array ∧
        (s.tasks r).prio ≤ (s.tasks s.curr).staticPrio + 5

section Records
variable {t t' child : Task} {i q : TaskId} {jiffies : UInt32}

theorem Sound.rtTask_iff (h : Sound t) : rtTask t = true ↔ t.policy ≠ .other := by
  have hrt : rtTask t = true ↔ t.prio < 100 := decide_eq_true_iff
  rw [hrt]
  constructor
  · intro hlt hpolicy
    have := h.ordinary hpolicy
    omega
  · exact h.realTime

theorem Ranged.avg (h : Ranged i q t) (hprio : t'.prio = t.prio)
    (hstatic : t'.staticPrio = t.staticPrio) (hpolicy : t'.policy = t.policy)
    (havg : t'.sleepAvg ≤ maxSleepAvg) : Ranged i q t' := by
  obtain ⟨⟨_, hge, hlt, hordinary, hreal⟩, hnear, hidle⟩ := h
  rw [← hstatic] at hge hlt hnear
  rw [← hpolicy, ← hprio] at hordinary hreal hnear hidle
  exact ⟨⟨havg, hge, hlt, hordinary, hreal⟩, hnear, hidle⟩

theorem Ranged.same (h : Ranged i q t) (hs : Same t t') : Ranged i q t' :=
  h.avg hs.prio hs.staticPrio hs.policy (hs.sleepAvg ▸ h.sleepAvg)

/-! ## The sleep average -/

theorem maxSleepAvg_toNat : maxSleepAvg.toNat = 1024 := rfl

theorem sleepAvg_toNat_le {avg : UInt32} : avg ≤ maxSleepAvg ↔ avg.toNat ≤ 1024 := by
  rw [UInt32.le_iff_toNat_le, maxSleepAvg_toNat]

theorem scaled_le {avg percent : UInt32} (h : avg ≤ maxSleepAvg) (hp : percent.toNat ≤ 100) :
    avg * percent / 100 ≤ maxSleepAvg := by
  rw [sleepAvg_toNat_le] at h ⊢
  have hmul : avg.toNat * percent.toNat ≤ 1024 * 100 := Nat.mul_le_mul h hp
  rw [UInt32.toNat_div, UInt32.toNat_mul, Nat.mod_eq_of_lt (by omega)]
  exact Nat.div_le_of_le_mul (by simpa [Nat.mul_comm] using hmul)

theorem averaged_le {avg other : UInt32} (h : avg ≤ maxSleepAvg) (hlt : other < avg) :
    (avg * exitWeight + other) / (exitWeight + 1) ≤ maxSleepAvg := by
  rw [sleepAvg_toNat_le] at h ⊢
  have hweight : exitWeight.toNat = 3 := rfl
  have hfour : (exitWeight + 1).toNat = 4 := rfl
  rw [UInt32.lt_iff_toNat_lt] at hlt
  rw [UInt32.toNat_div, UInt32.toNat_add, UInt32.toNat_mul, hweight, hfour,
    Nat.mod_eq_of_lt (by omega : avg.toNat * 3 < 2 ^ 32), Nat.mod_eq_of_lt (by omega)]
  omega

/-- The bonus is at least -5 and at most 5. -/
theorem effectivePrio_near (h : t.sleepAvg ≤ maxSleepAvg) (hge : 100 ≤ t.staticPrio)
    (hlt : t.staticPrio < 140) : (effectivePrio t - t.staticPrio).natAbs ≤ 5 := by
  rw [sleepAvg_toNat_le] at h
  have hratio : (UInt32.ofNat (maxUserPrio * prioBonusRatio) * t.sleepAvg / maxSleepAvg / 100).toNat
      = 1000 * t.sleepAvg.toNat / 1024 / 100 := by
    have h1000 : (UInt32.ofNat (maxUserPrio * prioBonusRatio)).toNat = 1000 := rfl
    rw [UInt32.toNat_div, UInt32.toNat_div, UInt32.toNat_mul, h1000, maxSleepAvg_toNat,
      Nat.mod_eq_of_lt (by omega)]
    rfl
  have hbonus : ∀ n : Fin 11, -5 ≤ (UInt32.ofNat n -
      UInt32.ofNat (maxUserPrio * prioBonusRatio) / 100 / 2).toBitVec.toInt ∧
      (UInt32.ofNat n - UInt32.ofNat (maxUserPrio * prioBonusRatio) / 100 / 2).toBitVec.toInt ≤ 5 := by
    decide
  have hten : 1000 * t.sleepAvg.toNat / 1024 / 100 < 11 := by omega
  have hsteps := UInt32.ofNat_toNat
    (x := UInt32.ofNat (maxUserPrio * prioBonusRatio) * t.sleepAvg / maxSleepAvg / 100)
  rw [hratio] at hsteps
  have hrange := hbonus ⟨_, hten⟩
  rw [hsteps] at hrange
  unfold effectivePrio
  simp only [maxPrio, maxRtPrio, maxUserRtPrio]
  split_ifs <;> omega

/-! ## The edits -/

theorem ranged_of_effectivePrio (hq : q ≠ i) (havg : t.sleepAvg ≤ maxSleepAvg)
    (hge : 100 ≤ t.staticPrio) (hlt : t.staticPrio < 140) (hpolicy : t.policy = .other)
    (hprio : t.prio = effectivePrio t) : Ranged i q t := by
  have hbounds := effectivePrio_bounds t
  have hnear := effectivePrio_near havg hge hlt
  rw [← hprio] at hbounds hnear
  exact ⟨⟨havg, hge, hlt, fun _ => hbounds.1, fun h => absurd hpolicy h⟩,
    fun _ _ => ⟨hbounds.2, hnear⟩, fun h => absurd h hq⟩

theorem Sound.other_of_not_rtTask (h : Sound t) (hrt : rtTask t = false) : t.policy = .other := by
  by_contra hp
  rw [h.rtTask_iff.mpr hp] at hrt
  cases hrt

theorem Ranged.creditSleep (hq : q ≠ i) (h : Ranged i q t) (jiffies : UInt32) :
    Ranged i q (creditSleep jiffies t) := by
  unfold Functions.creditSleep
  dsimp only
  split
  next hcond =>
    simp only [Bool.and_eq_true, Bool.not_eq_true'] at hcond
    refine ranged_of_effectivePrio hq ?_ h.static_ge h.static_lt
      (h.other_of_not_rtTask hcond.1) rfl
    split
    · exact UInt32.le_refl _
    · exact UInt32.not_lt.mp ‹_›
  · exact h

theorem Sound.grown (hq : q ≠ i) (h : Sound t) : Ranged i q (grown t) := by
  unfold Records.grown
  split
  next hrt =>
    exact ⟨h, fun _ hp => absurd hp (h.rtTask_iff.mp hrt), fun he => absurd he hq⟩
  next hrt =>
    exact ranged_of_effectivePrio hq (scaled_le h.sleepAvg (by decide)) h.static_ge h.static_lt
      (h.other_of_not_rtTask (Bool.not_eq_true _ ▸ hrt)) rfl

theorem Sound.newborn (h : Sound t) (jiffies : UInt32) (state : TaskState) :
    Sound { newborn jiffies t with state := state } :=
  ⟨h.sleepAvg, h.static_ge, h.static_lt, h.ordinary, h.realTime⟩

theorem Ranged.ticked (hq : q ≠ i) (h : Ranged i q t) : Ranged i q (ticked t) := by
  unfold Records.ticked
  split
  · split
    · dsimp only
      split
      · exact h.avg rfl rfl rfl h.sleepAvg
      · exact h.avg rfl rfl rfl h.sleepAvg
    · exact h
  next hrt =>
    have hless : (if t.sleepAvg ≠ 0 then t.sleepAvg - 1 else t.sleepAvg) ≤ maxSleepAvg := by
      have := h.sleepAvg
      split
      next hne =>
        rw [sleepAvg_toNat_le] at this ⊢
        have hpos : t.sleepAvg.toNat ≠ 0 := fun h0 => hne (UInt32.toNat_inj.mp h0)
        rw [UInt32.toNat_sub_of_le _ _ (UInt32.le_iff_toNat_le.mpr (by
          rw [UInt32.toNat_one]; omega))]
        omega
      · exact this
    dsimp only
    split
    · exact ranged_of_effectivePrio hq hless h.static_ge h.static_lt
        (h.other_of_not_rtTask (Bool.not_eq_true _ ▸ hrt)) rfl
    · exact h.avg rfl rfl rfl hless

theorem Ranged.array (h : Ranged i q t) (a : Option Bool) : Ranged i q { t with array := a } :=
  h.avg rfl rfl rfl h.sleepAvg

theorem Ranged.halved (h : Ranged i q t) : Ranged i q (halved t) := h.avg rfl rfl rfl h.sleepAvg

theorem Ranged.penalised (h : Ranged i q t) : Ranged i q (penalised t) :=
  h.avg rfl rfl rfl (scaled_le h.sleepAvg (by decide))

theorem Ranged.reaped (h : Ranged i q t) : Ranged i q (averaged child (repaid child t)) := by
  have hrepaid : Ranged i q (repaid child t) := by
    unfold repaid
    split
    · exact h.avg rfl rfl rfl h.sleepAvg
    · exact h
  unfold averaged
  split
  · exact hrepaid.avg rfl rfl rfl (averaged_le hrepaid.sleepAvg ‹_›)
  · exact hrepaid

theorem Ranged.reniced {nice : Int} (hq : q ≠ i) (h : Ranged i q t)
    (hnice : -20 ≤ nice ∧ nice ≤ 19) : Ranged i q (reniced nice t) := by
  have hrange : 100 ≤ niceToPrio nice ∧ niceToPrio nice < 140 := by
    simp only [niceToPrio, maxRtPrio, maxUserRtPrio]
    omega
  unfold Records.reniced
  split
  next hrt =>
    have hreal := h.rtTask_iff.mp hrt
    exact ⟨⟨h.sleepAvg, hrange.1, hrange.2, h.ordinary, h.realTime⟩,
      fun _ hp => absurd hp hreal, fun he => absurd he hq⟩
  next hrt =>
    have hother := h.other_of_not_rtTask (Bool.not_eq_true _ ▸ hrt)
    exact ⟨⟨h.sleepAvg, hrange.1, hrange.2, fun _ => hrange.1, fun hp => absurd hother hp⟩,
      fun _ _ => ⟨hrange.2, by simp⟩, fun he => absurd he hq⟩

theorem Ranged.assigned {policy : SchedPolicy} {priority : Int} (hq : q ≠ i) (h : Ranged i q t)
    (hrange : 0 ≤ priority ∧ priority ≤ 99) : Ranged i q (assigned policy priority t) := by
  by_cases hother : policy = .other
  · have hprio : (Records.assigned policy priority t).prio = t.staticPrio := by
      simp [Records.assigned, hother]
    refine ⟨⟨h.sleepAvg, h.static_ge, h.static_lt, fun _ => hprio ▸ h.static_ge,
      fun hp => absurd hother hp⟩, fun _ _ => ?_, fun he => absurd he hq⟩
    rw [hprio]
    exact ⟨h.static_lt, by simp [Records.assigned]⟩
  · have hprio : (Records.assigned policy priority t).prio = 99 - priority := by
      simp [Records.assigned, hother, maxUserRtPrio]
    exact ⟨⟨h.sleepAvg, h.static_ge, h.static_lt, fun hp => absurd hp hother,
      fun _ => by rw [hprio]; omega⟩, fun _ hp => absurd hp hother, fun he => absurd he hq⟩

end Records

/-! ## Runs -/

section Runs
variable {s s' : RunQueue} {Q : Queues.Content} {boot i q : TaskId} {jiffies : UInt32}
  {es : List (Op × UInt32)}

/-- A careful yield goes down by no more than the bonus range. -/
theorem yield_ranged {now : UInt32} {b : Bool} (hi : Inv s Q i i)
    (h : ∀ q, Ranged i q (s.tasks q)) (hcare : Careful s (.sysSchedYield, now)) (hc : s.curr ≠ i)
    (hgate : ¬((s.tasks s.curr).policyOn = 1 ∧ (s.tasks s.curr).policyLevel < 1))
    (hrt : rtTask (s.tasks s.curr) = false) (hb : (s.tasks s.curr).array = some b)
    (hq : q ≠ s.curr) (hqb : (s.tasks q).array = some b)
    (hlt : (s.tasks s.curr).prio < (s.tasks q).prio)
    (hfirst : ∀ r, r ≠ s.curr → (s.tasks r).array = some b →
      (s.tasks q).prio ≤ (s.tasks r).prio) :
    Ranged i s.curr { s.tasks s.curr with prio := (s.tasks q).prio } := by
  have hcurr := h s.curr
  have hother := hcurr.other_of_not_rtTask hrt
  obtain ⟨r, hr, hrb, hnear⟩ := hcare rfl hgate hother q hq (hqb.trans hb.symm)
  have hbest := hfirst r hr (hrb.trans hb)
  have hbelow := (hi.good_queued hqb).prio_lt
  have hge := hcurr.ordinary hother
  obtain ⟨_, hdist⟩ := hcurr.near hc hother
  refine ⟨⟨hcurr.sleepAvg, hcurr.static_ge, hcurr.static_lt, fun _ => ?_,
    fun hp => absurd hother hp⟩, fun _ _ => ⟨hbelow, ?_⟩, fun he => absurd he hc⟩
  · dsimp only
    omega
  · dsimp only
    omega

theorem step_ranged {e : Op × UInt32} (hi : Inv s Q i i) (h : ∀ q, Ranged i q (s.tasks q))
    (hcare : Careful s e) (hstep : Step s e s') (q : TaskId) :
    Ranged i q (s'.tasks q) := by
  obtain ⟨t, hedit, hsame⟩ := step_edited hi hstep q
  obtain ⟨o, now⟩ := e
  have hok := hstep.1
  have hidle := hi.is_idle
  refine Ranged.same ?_ hsame
  cases hedit with
  | same => exact h q
  | woken => exact ((h q).creditSleep (hidle ▸ hok) now).array _
  | child vfork b =>
    have hgrown := ((h s.curr).toSound.newborn now .running).grown (hidle ▸ hok.1)
    exact (hgrown.creditSleep (hidle ▸ hok.1) now).array _
  | parent p vfork ht penalty =>
    rename_i t
    have hshared : Ranged i s.curr t := by
      rcases ht with rfl | ⟨hne, _, rfl⟩
      · exact (h s.curr).halved
      · exact (h s.curr).halved.ticked (hidle ▸ hne)
    split
    · exact hshared.penalised
    · exact hshared
  | reaper p => exact (h s.curr).reaped
  | tick hne => exact (h s.curr).ticked (hidle ▸ hne)
  | renice _ hnice => exact (h q).reniced (hidle ▸ hok) hnice
  | reschedule hr hrange _ credit =>
    have hq : q ≠ i := by
      rintro rfl
      exact hok (hidle ▸ hr)
    split
    · exact ((h q).assigned hq hrange).creditSleep hq now
    · exact (h q).assigned hq hrange
  | yield hgate hrt hb hq hqb hlt hfirst =>
    exact yield_ranged hi h hcare (hidle ▸ hok) hgate hrt hb hq hqb hlt hfirst

theorem initTask_ranged (hq : q ≠ i) : Ranged i q initTask :=
  ⟨⟨by decide, by decide, by decide, fun _ => by decide, fun h => absurd rfl h⟩,
    fun _ _ => by decide, fun h => absurd h hq⟩

theorem creditSleep_policy (t : Task) : (creditSleep jiffies t).policy = t.policy := by
  unfold creditSleep
  dsimp only
  split <;> rfl

theorem schedInit_ranged (boot : TaskId) (jiffies : UInt32) (hq : q ≠ i) :
    Ranged i q ((schedInit boot jiffies).tasks q) ∧
      ((schedInit boot jiffies).tasks q).policy = .other := by
  obtain ⟨t, hedit, hsame⟩ : Edited Same _ jiffies (.tryToWakeUp boot) q (schedInit boot jiffies) :=
    tryToWakeUp_edited
  suffices ht : Ranged i q t ∧ t.policy = .other from
    ⟨ht.1.same hsame, hsame.policy.trans ht.2⟩
  cases hedit with
  | same => exact ⟨initTask_ranged hq, rfl⟩
  | woken => exact ⟨((initTask_ranged hq).creditSleep hq jiffies).array _, creditSleep_policy _⟩

theorem initialised_ranged (q : TaskId) : Ranged boot q ((initialised boot jiffies).tasks q) := by
  have hoff := deactivateTask_same { schedInit boot jiffies with curr := boot, idle := boot } boot q
  unfold initialised initIdle
  by_cases hq : q = boot
  · subst hq
    have hne : q ≠ q + 1 := Nat.ne_of_lt (Nat.lt_succ_self q)
    obtain ⟨hranged, hpolicy⟩ := schedInit_ranged q jiffies hne
    obtain ⟨⟨havg, hge, hlt, _, _⟩, _, _⟩ := hranged.same hoff
    have hother := hoff.policy.trans hpolicy
    rw [setTask_self]
    exact ⟨⟨havg, hge, hlt, fun _ => (by decide : 100 ≤ maxPrio), fun h => absurd hother h⟩,
      fun h => absurd rfl h, fun _ => ⟨hother, rfl⟩⟩
  · rw [setTask_of_ne hq]
    exact (schedInit_ranged boot jiffies hq).1.same hoff

theorem run_ranged (h : Run (Meeting Careful Step) (initialised boot jiffies) es s) (q : TaskId) :
    Ranged boot q (s.tasks q) := by
  have hboth : (∃ Q, Inv s Q boot boot) ∧ ∀ q, Ranged boot q (s.tasks q) := by
    refine h.invariant (I := fun s => (∃ Q, Inv s Q boot boot) ∧ ∀ q, Ranged boot q (s.tasks q)) ?_
      ⟨⟨_, initialised_inv⟩, initialised_ranged⟩
    rintro s e s' ⟨⟨Q, hi⟩, hr⟩ ⟨hcare, hstep⟩
    exact ⟨step_inv hi hstep, step_ranged hi hr hcare hstep⟩
  exact hboth.2 q

/-- In every run in which no task yields to tasks that are all more than five
levels below its static priority, the priority of every ordinary task is within
the bonus range, and that of every real-time task above all of them. The idle
task has the priority that `init_idle` gives it, below all others. -/
theorem bonus_range_kept (h : Run (Meeting Careful Step) (initialised boot jiffies) es s) :
    (∀ p, p ≠ boot → (s.tasks p).policy = .other →
      (s.tasks p).sleepAvg ≤ maxSleepAvg ∧ maxRtPrio ≤ (s.tasks p).prio ∧
      (s.tasks p).prio ≤ maxPrio - 1 ∧ ((s.tasks p).prio - (s.tasks p).staticPrio).natAbs ≤ 5) ∧
    (∀ p, p ≠ boot → (s.tasks p).policy ≠ .other → (s.tasks p).prio < maxRtPrio) ∧
    (s.tasks boot).sleepAvg ≤ maxSleepAvg ∧ (s.tasks boot).prio = maxPrio := by
  refine ⟨fun p hp hother => ?_, fun p hp hreal => ?_, ?_⟩
  · have hr := run_ranged h p
    obtain ⟨hlt, hnear⟩ := hr.near hp hother
    exact ⟨hr.sleepAvg, hr.ordinary hother, Int.le_sub_one_of_lt hlt, hnear⟩
  · exact (run_ranged h p).realTime hreal
  · have hr := run_ranged h boot
    exact ⟨hr.sleepAvg, (hr.idle rfl).2⟩

/-- Where nobody yields, nobody yields too far. -/
theorem run_careful (h : Run Step s es s') (hes : ∀ e ∈ es, e.1 ≠ .sysSchedYield) :
    Run (Meeting Careful Step) s es s' := by
  induction h with
  | nil => exact .nil _
  | cons h1 _ ih =>
    have hhead := hes _ List.mem_cons_self
    refine .cons ⟨fun hy => absurd hy hhead, h1⟩ (ih ?_)
    intro e he
    exact hes e (List.mem_cons_of_mem _ he)

/-- Task 1 makes task 2. -/
def siblings : List (Op × UInt32) := [(.doFork 1 false, 0), (.schedule, 0), (.doFork 2 false, 1)]

/-- Task 1 yields to task 2, which has the same priority. -/
theorem bonus_range_kept_siblings :
    let s := after (initialised 0 0) (siblings ++ [(.sysSchedYield, 2)])
    s.curr = 2 ∧ (s.tasks 1).prio = 125 ∧ ((s.tasks 1).prio - (s.tasks 1).staticPrio).natAbs ≤ 5 := by
  have hok : AllAllowed (initialised 0 0) siblings := by decide +kernel
  have hrun := run_careful (run_after hok) (by simp [siblings])
  have hlast : Meeting Careful Step (after (initialised 0 0) siblings) (.sysSchedYield, 2)
      (after (initialised 0 0) (siblings ++ [(.sysSchedYield, 2)])) := by
    refine ⟨fun _ _ _ _ _ _ => ⟨2, ?_, ?_, ?_⟩, ?_, rfl⟩
    all_goals decide +kernel
  have hrange := (bonus_range_kept (hrun.append (.cons hlast (.nil _)))).1 1 (by decide)
    (by decide +kernel)
  exact ⟨by decide +kernel, by decide +kernel, hrange.2.2.2⟩

/-- Task 1 has nice 0, and task 2 gets nice 19 before task 1 yields. -/
def unequal : List (Op × UInt32) := siblings ++ [(.setUserNice 2 19, 1), (.sysSchedYield, 2)]

/-- Task 1 gets the priority of task 2, nineteen levels below its own. -/
theorem bonus_range_left :
    Run Step (initialised 0 0) unequal (after (initialised 0 0) unequal) ∧
      ((after (initialised 0 0) unequal).tasks 1).policy = .other ∧
      ((after (initialised 0 0) unequal).tasks 1).staticPrio = 120 ∧
      ((after (initialised 0 0) unequal).tasks 1).prio = 139 :=
  ⟨run_after (by decide +kernel), by decide +kernel⟩

end Runs

end CustomKernel.Sched.Bonus

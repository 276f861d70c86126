import CustomKernel.Lib.Transition
import CustomKernel.Sched.Steps

/-! # Runs of the scheduler

From the run queue that `sched_init` and `init_idle` leave, any sequence of the
scheduler's operations, at any times, keeps the priority arrays consistent, and
`schedule` always finds the best task in them. -/
namespace CustomKernel.Sched.Reachable
open Lib.ListHead Lib.Bitmap Lib.Transition
open Function (comp_apply update update_self)
open Sched.Functions Sched.Queues Sched.Invariant
open Sched.Pick Sched.Steps

/-! ## Operations -/

/-- What can happen to the run queue. -/
inductive Op where
  | tryToWakeUp (p : TaskId)
  /-- the running task forks; `wake_up_forked_process` is part of it -/
  | doFork (p : TaskId) (vfork : Bool)
  /-- the running task reaps a child -/
  | schedExit (p : TaskId)
  | schedulerTick
  | schedule
  | setUserNice (p : TaskId) (nice : Int)
  | setscheduler (r : SetSched)
  | sysSchedYield
  /-- a task is about to block, is stopped or dies -/
  | setState (p : TaskId) (state : TaskState)
  | setPending (p : TaskId) (pending : Bool)
  | setPolicy (p : TaskId) (on level : Int)

/-- The effect of an operation at a time. -/
def Op.exec (jiffies : UInt32) (s : RunQueue) : Op → RunQueue
  | .tryToWakeUp p => (Functions.tryToWakeUp p jiffies s).2
  | .doFork p vfork => Functions.doFork p vfork jiffies s
  | .schedExit p => Functions.schedExit p s
  | .schedulerTick => Functions.schedulerTick jiffies s
  | .schedule => Functions.schedule jiffies s
  | .setUserNice p nice => Functions.setUserNice p nice s
  | .setscheduler r => (Functions.setscheduler r jiffies s).2
  | .sysSchedYield => (Functions.sysSchedYield jiffies s).2
  | .setState p state => s.setTask p fun t => { t with state := state }
  | .setPending p pending => s.setTask p fun t => { t with sigpending := pending }
  | .setPolicy p on level => s.setTask p fun t => { t with policyOn := on, policyLevel := level }

/-- The idle task never waits, yields or changes its priority, and a new task is
not queued yet. -/
def Op.Allowed (s : RunQueue) : Op → Prop
  | .tryToWakeUp p | .setUserNice p _ | .setState p _ => p ≠ s.idle
  | .doFork p _ => p ≠ s.idle ∧ (s.tasks p).array = none
  | .setscheduler r => r.target ≠ some s.idle
  | .sysSchedYield => s.curr ≠ s.idle
  | .schedExit _ | .schedulerTick | .schedule | .setPending _ _ | .setPolicy _ _ _ => True

instance (s : RunQueue) : (o : Op) → Decidable (o.Allowed s)
  | .tryToWakeUp _ | .setUserNice _ _ | .setState _ _ => inferInstanceAs (Decidable (_ ≠ s.idle))
  | .doFork _ _ => inferInstanceAs (Decidable (_ ≠ s.idle ∧ _))
  | .setscheduler _ => inferInstanceAs (Decidable (_ ≠ some s.idle))
  | .sysSchedYield => inferInstanceAs (Decidable (s.curr ≠ s.idle))
  | .schedExit _ | .schedulerTick | .schedule | .setPending _ _ | .setPolicy _ _ _ =>
    inferInstanceAs (Decidable True)

/-- One operation, at any time. -/
def Step (s : RunQueue) (e : Op × UInt32) (s' : RunQueue) : Prop :=
  e.1.Allowed s ∧ s' = e.1.exec e.2 s

/-- The run queue when the first process is about to be made. -/
def initialised (boot : TaskId) (jiffies : UInt32) : RunQueue :=
  initIdle boot (schedInit boot jiffies)

/-! ## The beginning -/

section Initial
variable {boot : TaskId} {jiffies : UInt32}

theorem testBit_emptyArray (m : Nat) : testBit emptyArray.bitmap m = decide (m = 140) := by
  have hmax : maxPrio.toNat = 140 := rfl
  have hzero : testBit (fun _ => 0 : Nat → BitVec 32) m = false := by simp [testBit]
  unfold emptyArray
  rw [testBit_setBit (by decide), testBit_foldl_clearBit (by decide), hzero, hmax]
  simp

theorem lists_empty : Lists ⟨id, id⟩ (fun _ => emptyArray) fun _ => [] := by
  refine ⟨⟨fun j => ⟨⟨rfl, rfl⟩, List.nodup_singleton _⟩, ?_⟩, ?_, ?_, ?_, fun _ _ _ => rfl⟩
  · intro j l hne y hy hy'
    simp only [comp_apply, List.map_nil, List.mem_singleton] at hy hy'
    rw [hy, headOf, headOf, Node.head.injEq] at hy'
    exact hne (Prod.ext hy'.1 hy'.2)
  · intro b k hk
    simp [testBit_emptyArray, Nat.ne_of_lt hk]
  · intro b
    simp [testBit_emptyArray]
  · intro b
    simp [emptyArray, count]

theorem initTask_good : Good initTask := ⟨by decide, by decide, by decide, by decide⟩

/-- `sched_init` wakes up the task it runs in. -/
theorem schedInit_eq (boot : TaskId) (jiffies : UInt32) :
    ∃ (L : Links Node) (A : Bool → PrioArray) (t : Task) (k : Nat),
      schedInit boot jiffies =
        { tasks := update (fun _ => initTask) boot t
          links := L
          arrays := A
          active := false
          expired := true
          curr := boot
          idle := boot
          nrRunning := 1
          nrUninterruptible := 0
          nrSwitches := 0
          expiredTimestamp := 0
          wild := false } ∧
      Lists L A (update (fun _ => []) (false, k) [boot]) ∧
      Good t ∧ t.prio = k ∧ t.array = some false ∧ t.state = .running := by
  have hgood := initTask_good.creditSleep jiffies
  obtain ⟨k, hk⟩ := Int.eq_ofNat_of_zero_le hgood.prio_nonneg
  let t := creditSleep jiffies initTask
  let s0 : RunQueue :=
    { tasks := update (fun _ => initTask) boot t
      links := ⟨id, id⟩
      arrays := fun _ => emptyArray
      active := false
      expired := true
      curr := boot
      idle := boot
      nrRunning := 0
      nrUninterruptible := 0
      nrSwitches := 0
      expiredTimestamp := 0
      wild := false }
  obtain ⟨L, A, heq, hl⟩ := enqueueTask_eq (s := s0) (p := boot) lists_empty (by simp)
    (by simp only [s0, update_self]; exact hk) (by have := hgood.prio_lt; omega) false
  refine ⟨L, A, { t with array := some false, state := .running }, k, ?_, hl,
    ⟨hgood.prio_nonneg, hgood.prio_lt, hgood.static_ge, hgood.static_lt⟩, hk, rfl, rfl⟩
  have hactivate : activateTask boot jiffies { s0 with tasks := fun _ => initTask } =
      { s0 with
        tasks := update s0.tasks boot { t with array := some false }
        links := L, arrays := A, nrRunning := 1 } := by
    change ({ enqueueTask boot false s0 with
      nrRunning := (enqueueTask boot false s0).nrRunning + 1 } : RunQueue) = _
    rw [heq]
    simp [s0]
  change (tryToWakeUp boot jiffies { s0 with tasks := fun _ => initTask }).2 = _
  have hstate : initTask.state ≠ .uninterruptible := by decide
  unfold tryToWakeUp
  rw [if_pos (show initTask.array = none from rfl)]
  simp only [if_neg hstate]
  rw [hactivate]
  simp [s0, RunQueue.setTask]

/-- The first task is queued by `sched_init` and taken out by `init_idle`. -/
theorem initialised_inv : Inv (initialised boot jiffies) (fun _ => []) boot boot := by
  obtain ⟨L, A, t, k, heq, hl, hgood, hk, harr, hst⟩ := schedInit_eq boot jiffies
  obtain ⟨L', A', heq', hl'⟩ := dequeueTask_eq (p := boot) (b := false) (k := k)
    (s := { schedInit boot jiffies with curr := boot, idle := boot, nrRunning := 0 })
    (by rw [heq]; exact hl) (by simp) (by rw [heq]; simpa using hk)
  have hnone : without (update (fun _ => []) (false, k) [boot]) boot = fun _ => [] := by
    funext j
    by_cases hj : j = (false, k)
    · simp [without, hj]
    · simp [without, hj]
  rw [hnone] at hl'
  have hrun : initialised boot jiffies =
      { schedInit boot jiffies with
        curr := boot, idle := boot, nrRunning := 0, links := L', arrays := A'
        tasks := update (fun _ => initTask) boot
          { t with array := none, prio := maxPrio, state := .running, needResched := true } } := by
    unfold initialised initIdle deactivateTask
    rw [heq] at heq' ⊢
    simp only [update_self, harr, hst, reduceCtorEq, if_false]
    simp only [Int.sub_self]
    rw [heq']
    simp [RunQueue.setTask]
  rw [hrun, heq]
  refine ⟨⟨hl', ?_, ?_, ?_, ?_, rfl, rfl, ?_, rfl⟩, fun h => absurd rfl h⟩
  · intro p b m
    by_cases hp : p = boot
    · simp [hp]
    · simp [hp, initTask]
  · intro p hp _
    simpa [hp] using initTask_good
  · simp
  · simp only [update_self]
    exact ⟨rfl, rfl, rfl, hgood.static_ge, hgood.static_lt⟩
  · simp [total, count]

end Initial

/-! ## Every reachable state -/

section Runs
variable {s s' : RunQueue} {Q : Content} {boot i : TaskId} {jiffies : UInt32}
  {es : List (Op × UInt32)}

theorem step_inv {e : Op × UInt32} (hi : Inv s Q i i) (h : Step s e s') :
    ∃ Q', Inv s' Q' i i := by
  obtain ⟨o, now⟩ := e
  obtain ⟨hok, rfl⟩ := h
  have hidle := hi.is_idle
  cases o with
  | tryToWakeUp p => exact tryToWakeUp_inv hi (hidle ▸ hok)
  | doFork p vfork => exact doFork_inv hi (hidle ▸ hok.1) hok.2 vfork
  | schedExit p => exact ⟨Q, schedExit_inv hi p⟩
  | schedulerTick => exact schedulerTick_inv hi now
  | schedule =>
    obtain ⟨Q', _, _, _, hi'⟩ := schedule_best hi now
    exact ⟨Q', hi'⟩
  | setUserNice p nice => exact setUserNice_inv hi (hidle ▸ hok) nice
  | setscheduler r => exact setscheduler_inv hi (hidle ▸ hok)
  | sysSchedYield => exact sysSchedYield_inv hi (hidle ▸ hok)
  | setState p state =>
    have hp : p ≠ i := hidle ▸ hok
    obtain ⟨g1, g2, g3, g4⟩ := hi.good p hp hp
    exact ⟨Q, hi.change (f := fun t => { t with state := state }) hp rfl (.inr rfl)
      ⟨g1, g2, g3, g4⟩⟩
  | setPending p pending =>
    exact ⟨Q, hi.keep (f := fun t => { t with sigpending := pending })
      (fun _ => ⟨rfl, rfl, rfl, id⟩) p⟩
  | setPolicy p on level =>
    exact ⟨Q, hi.keep (f := fun t => { t with policyOn := on, policyLevel := level })
      (fun _ => ⟨rfl, rfl, rfl, id⟩) p⟩

theorem run_inv (h : Run Step (initialised boot jiffies) es s) : ∃ Q, Inv s Q boot boot := by
  refine h.invariant (I := fun s => ∃ Q, Inv s Q boot boot) ?_ ⟨_, initialised_inv⟩
  rintro s e s' ⟨Q, hi⟩ h1
  exact step_inv hi h1

/-- The links, bitmaps, counts and pointers of the run queue all say that `Q` is
queued. -/
structure Represents (s : RunQueue) (Q : Content) : Prop where
  /-- `queue[k]` is a ring through the tasks of `Q (b, k)` in order, and no task
  is met twice, there or elsewhere -/
  rings : Family s.links headOf (List.map Node.task ∘ Q)
  bit : ∀ b k, k < maxPrio.toNat →
    (testBit (s.arrays b).bitmap k = true ↔ s.links.listEmpty (queue b k) = false)
  delimiter : ∀ b, testBit (s.arrays b).bitmap maxPrio.toNat = true
  nrActive : ∀ b, (s.arrays b).nrActive =
    (∑ k ∈ Finset.range maxPrio.toNat, (Q (b, k)).length : Nat)
  placed : ∀ p b k, p ∈ Q (b, k) ↔ (s.tasks p).array = some b ∧ (s.tasks p).prio = k
  null : ∀ p, (s.tasks p).array = none ↔ ∀ j, p ∉ Q j
  once : ∀ p j, p ∈ Q j → (Q j).count p = 1 ∧ ∀ l, p ∈ Q l → l = j
  nrRunning : s.nrRunning = (s.arrays false).nrActive + (s.arrays true).nrActive

theorem represents_of_base {x : TaskId} (hb : Base s Q i x) : Represents s Q := by
  refine ⟨hb.lists.family, ?_, hb.lists.delimiter, hb.lists.nrActive, hb.placed, ?_, ?_, ?_⟩
  · intro b k hk
    rw [hb.lists.bit b k hk, queue, Int.toNat_natCast, hb.lists.listEmpty_eq]
    simp
  · intro p
    refine ⟨fun h j => hb.not_queued h j, ?_⟩
    intro h
    cases ht : (s.tasks p).array with
    | none => rfl
    | some b => exact absurd (hb.mem_queue ht) (h _)
  · intro p j hp
    exact ⟨List.count_eq_one_of_mem (hb.lists.nodup j) hp, fun l hl => hb.lists.unique hl hp⟩
  · rw [hb.running, hb.lists.nrActive, hb.lists.nrActive]
    exact Int.natCast_add _ _

/-! Concrete runs, for the witnesses. -/

/-- The state after a list of operations. -/
def after (s : RunQueue) (es : List (Op × UInt32)) : RunQueue :=
  es.foldl (fun s e => e.1.exec e.2 s) s

/-- Each operation is allowed when its turn comes. -/
def AllAllowed (s : RunQueue) : List (Op × UInt32) → Prop
  | [] => True
  | e :: es => e.1.Allowed s ∧ AllAllowed (e.1.exec e.2 s) es

instance decidableAllAllowed : (s : RunQueue) → (es : List (Op × UInt32)) →
    Decidable (AllAllowed s es)
  | _, [] => inferInstanceAs (Decidable True)
  | s, e :: es =>
    have := decidableAllAllowed (e.1.exec e.2 s) es
    inferInstanceAs (Decidable (e.1.Allowed s ∧ AllAllowed (e.1.exec e.2 s) es))

theorem run_after (h : AllAllowed s es) : Run Step s es (after s es) := by
  induction es generalizing s with
  | nil => exact .nil s
  | cons e es ih => exact .cons ⟨h.1, rfl⟩ (ih h.2)

/-- In every reachable state the two priority arrays represent some content, in
which the running task is queued unless it is the idle task, and no function has
left the data structure. -/
theorem reachable_represents (h : Run Step (initialised boot jiffies) es s) :
    ∃ Q, Represents s Q ∧ (s.curr ≠ s.idle → ∃ j, s.curr ∈ Q j) ∧ s.wild = false := by
  obtain ⟨Q, hi⟩ := run_inv h
  refine ⟨Q, represents_of_base hi.toBase, ?_, hi.tame⟩
  intro hc
  obtain ⟨b, ht⟩ := Option.ne_none_iff_exists'.mp (hi.curr (hi.is_idle ▸ hc))
  exact ⟨_, hi.mem_queue ht⟩

/-- The idle task makes task 1, which makes task 2 and gives it a better
priority, is preempted and, when task 2 blocks, runs again and yields. -/
def twoTasks : List (Op × UInt32) :=
  [(.doFork 1 false, 0), (.schedule, 0), (.doFork 2 false, 1), (.setUserNice 2 (-10), 1),
    (.schedulerTick, 2), (.schedule, 2), (.setState 2 .interruptible, 3), (.schedule, 3),
    (.sysSchedYield, 4)]

theorem reachable_represents_twoTasks :
    let s := after (initialised 0 0) twoTasks
    s.curr = 1 ∧ s.nrRunning = 1 ∧ (s.tasks 2).array = none ∧
      ∃ Q, Represents s Q ∧ (s.curr ≠ s.idle → ∃ j, s.curr ∈ Q j) ∧ s.wild = false :=
  ⟨by decide +kernel, by decide +kernel, by decide +kernel,
    reachable_represents (run_after (by decide +kernel))⟩

/-- After `schedule` has decided whether the task that calls it stays runnable,
it goes to the first task of the best queue of the array whose turn it is, which
it makes the active one, or to the idle task if none is queued. It never takes a
list head for a task. -/
theorem schedule_runs_best (h : Run Step (initialised boot jiffies) es s) (now : UInt32) :
    ∃ Q, Represents (decided now s) Q ∧
      ((∃ p, ((decided now s).tasks p).array ≠ none) →
        ∃ k p ps, Lowest Q (turn Q s.active s.expired) k ∧
          Q (turn Q s.active s.expired, k) = p :: ps ∧
          (schedule now s).curr = p ∧ (schedule now s).active = turn Q s.active s.expired) ∧
      ((∀ p, ((decided now s).tasks p).array = none) → (schedule now s).curr = s.idle) ∧
      (schedule now s).wild = false := by
  obtain ⟨Q0, hi⟩ := run_inv h
  obtain ⟨Q, hb, hbest, hturn, hi'⟩ := schedule_best hi now
  refine ⟨Q, represents_of_base hb, ?_, ?_, hi'.tame⟩
  · rintro ⟨p, hp⟩
    obtain ⟨b, ht⟩ := Option.ne_none_iff_exists'.mp hp
    have hmem := hb.mem_queue ht
    have htot : total Q ≠ 0 := by
      have := total_without hb.lists hmem
      omega
    generalize hcurr : (schedule now s).curr = c at hbest ⊢
    cases hbest with
    | idle hempty => rw [hempty] at hmem; cases hmem
    | first hk hq => exact ⟨_, _, _, hk, hq, rfl, hturn htot⟩
  · intro hnone
    rw [hi.is_idle]
    generalize hcurr : (schedule now s).curr = c at hbest ⊢
    cases hbest with
    | idle => rfl
    | first _ hq => exact absurd (hq ▸ List.mem_cons_self) (hb.not_queued (hnone c) _)

/-- Task 2 calls `schedule` to wait, and task 1 is what is left. -/
theorem schedule_runs_best_twoTasks :
    let s := after (initialised 0 0) (twoTasks.take 7)
    s.curr = 2 ∧ (schedule 3 s).curr = 1 ∧ ∃ Q, Represents (decided 3 s) Q ∧
      ∃ k ps, Lowest Q (turn Q s.active s.expired) k ∧
        Q (turn Q s.active s.expired, k) = 1 :: ps := by
  have hok : AllAllowed (initialised 0 0) (twoTasks.take 7) := by decide +kernel
  have hcurr : (schedule 3 (after (initialised 0 0) (twoTasks.take 7))).curr = 1 := by
    decide +kernel
  obtain ⟨Q, hrep, hrun, _⟩ := schedule_runs_best (run_after hok) 3
  obtain ⟨k, p, ps, hk, hq, hp, _⟩ := hrun ⟨1, by decide +kernel⟩
  rw [hcurr] at hp
  subst hp
  exact ⟨by decide +kernel, hcurr, Q, hrep, k, ps, hk, hq⟩

end Runs

end CustomKernel.Sched.Reachable

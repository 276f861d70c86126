import CustomKernel.Sched.Records

/-! # Wait queues

Waiters that want to be woken up together stand at the head of a wait queue, and
exclusive ones at its tail, the one that came first before the others. A wake-up
goes along the queue until it has woken up as many exclusive waiters as it was
asked for. -/
namespace CustomKernel.Sched.WaitQueue
open Lib.Transition Function
open Sched.Functions Sched.Invariant Sched.Records
open Sched.Reachable (initialised)

/-! ## Queues -/

/-- A `wait_queue_t`, known by its address, with the flag `WQ_FLAG_EXCLUSIVE`. -/
structure Waiter where
  entry : Nat
  task : TaskId
  exclusive : Bool
deriving DecidableEq

/-- The entries in the order of the list, and when each one was added to it. -/
structure Queue where
  waiters : List Waiter
  since : Nat → Nat
  clock : Nat

def Queue.empty : Queue := ⟨[], fun _ => 0, 0⟩

inductive Event where
  | addWaitQueue (entry : Nat) (task : TaskId)
  | addWaitQueueExclusive (entry : Nat) (task : TaskId)
  | removeWaitQueue (entry : Nat)

/-- `__add_wait_queue` adds at the head of the list, `__add_wait_queue_tail` at
its end. -/
def Event.exec (q : Queue) : Event → Queue
  | .addWaitQueue entry task =>
    { waiters := ⟨entry, task, false⟩ :: q.waiters
      since := update q.since entry q.clock
      clock := q.clock + 1 }
  | .addWaitQueueExclusive entry task =>
    { waiters := q.waiters ++ [⟨entry, task, true⟩]
      since := update q.since entry q.clock
      clock := q.clock + 1 }
  | .removeWaitQueue entry => { q with waiters := q.waiters.filter fun w => w.entry ≠ entry }

/-- An entry is in one list at most. -/
def Event.Allowed (q : Queue) : Event → Prop
  | .addWaitQueue entry _ | .addWaitQueueExclusive entry _ => ∀ w ∈ q.waiters, w.entry ≠ entry
  | .removeWaitQueue entry => ∃ w ∈ q.waiters, w.entry = entry

def Step (q : Queue) (e : Event) (q' : Queue) : Prop := e.Allowed q ∧ q' = e.exec q

/-! ## Waking up -/

/-- `TASK_RUNNING` and so on. -/
def stateBits : TaskState → BitVec 32
  | .running => 0
  | .interruptible => 1
  | .uninterruptible => 2
  | .zombie => 4
  | .stopped => 8

/-- `state & mode` -/
def hit (mode : BitVec 32) (t : Task) : Bool := stateBits t.state &&& mode ≠ 0

/-- `__wake_up_common`. A task that has not yet given up the processor is not
counted. -/
def wakeUpCommon (mode : BitVec 32) (jiffies : UInt32) : List Waiter → Int → RunQueue → RunQueue
  | [], _, s => s
  | w :: ws, nrExclusive, s =>
    if hit mode (s.tasks w.task) then
      let (success, s) := tryToWakeUp w.task jiffies s
      if success && w.exclusive then
        if nrExclusive - 1 = 0 then s else wakeUpCommon mode jiffies ws (nrExclusive - 1) s
      else wakeUpCommon mode jiffies ws nrExclusive s
    else wakeUpCommon mode jiffies ws nrExclusive s

/-! ## What a wake-up is for -/

/-- A task that can run: `schedule` finds it in a queue, and will not take it out. -/
def Runnable (t : Task) : Prop := t.state = .running ∧ t.array ≠ none

/-- The exclusive waiters come last, those that came first before the others. -/
structure Ordered (q : Queue) : Prop where
  parts : ∃ free excl, q.waiters = free ++ excl ∧ (∀ w ∈ free, w.exclusive = false) ∧
    ∀ w ∈ excl, w.exclusive = true
  ages : (q.waiters.filter fun w => w.exclusive).Pairwise fun w w' =>
    q.since w.entry < q.since w'.entry
  past : ∀ w ∈ q.waiters, q.since w.entry < q.clock

section Order
variable {q q' : Queue} {entry : Nat}

end Order

/-! ## One wake-up -/

/-- The tasks of `P` can run, and nothing has happened to the others. -/
def Roused (P : TaskId → Prop) (s s' : RunQueue) : Prop :=
  ∀ p, (P p → Runnable (s'.tasks p)) ∧
    (¬P p → (s'.tasks p).state = (s.tasks p).state ∧ (s'.tasks p).array = (s.tasks p).array)

section Wake
variable {s s' s'' : RunQueue} {P P' : TaskId → Prop} {p q : TaskId} {mode : BitVec 32}
  {jiffies : UInt32} {free excl : List Waiter}

theorem Roused.trans (h : Roused P s s') (h' : Roused P' s' s'') :
    Roused (fun p => P p ∨ P' p) s s'' := by
  intro p
  by_cases hp' : P' p
  · exact ⟨fun _ => (h' p).1 hp', fun hn => absurd (.inr hp') hn⟩
  · obtain ⟨hstate, harray⟩ := (h' p).2 hp'
    refine ⟨fun hp => ?_, fun hn => ?_⟩
    · obtain ⟨hrun, hq⟩ := (h p).1 (hp.resolve_right hp')
      exact ⟨hstate.trans hrun, harray ▸ hq⟩
    · obtain ⟨hstate', harray'⟩ := (h p).2 fun hp => hn (.inl hp)
      exact ⟨hstate.trans hstate', harray.trans harray'⟩

theorem Roused.congr (h : Roused P s s') (hP : ∀ p, P p ↔ P' p) : Roused P' s s' := by
  intro p
  rw [← hP p]
  exact h p

theorem reschedTask_still (s : RunQueue) (p q : TaskId) :
    ((reschedTask p s).tasks q).state = (s.tasks q).state ∧
      ((reschedTask p s).tasks q).array = (s.tasks q).array :=
  setTask_rel (R := fun t t' => t'.state = t.state ∧ t'.array = t.array)
    (fun _ => ⟨rfl, rfl⟩) p q fun _ => ⟨rfl, rfl⟩

theorem creditSleep_state (t : Task) : (creditSleep jiffies t).state = t.state := by
  unfold creditSleep
  dsimp only
  split <;> rfl

theorem tryToWakeUp_roused (s : RunQueue) (p : TaskId) (jiffies : UInt32) :
    Roused (· = p) s (tryToWakeUp p jiffies s).2 := by
  unfold tryToWakeUp
  dsimp only
  split
  next hnone =>
    generalize (if (s.tasks p).state = .uninterruptible then s.nrUninterruptible - 1
      else s.nrUninterruptible) = n
    -- whether the running task is told to give up the processor does not matter
    have hqueued : Roused (· = p) s
        ((activateTask p jiffies { s with nrUninterruptible := n }).setTask p fun t =>
          { t with state := .running }) := by
      intro q
      constructor
      · rintro rfl
        rw [setTask_self, activateTask_tasks, update_self]
        exact ⟨rfl, by simp⟩
      · intro hq
        rw [setTask_of_ne hq, activateTask_tasks, update_of_ne hq]
        exact ⟨rfl, rfl⟩
    split
    · intro q
      obtain ⟨hin, hout⟩ := hqueued q
      generalize activateTask p jiffies { s with nrUninterruptible := n } = a at hin hout ⊢
      obtain ⟨hstate, harray⟩ := reschedTask_still a a.curr q
      constructor
      · rintro rfl
        obtain ⟨_, hq⟩ := hin rfl
        rw [setTask_self] at hq ⊢
        exact ⟨rfl, harray ▸ hq⟩
      · intro hq
        have hsame := hout hq
        rw [setTask_of_ne hq] at hsame ⊢
        exact ⟨hstate.trans hsame.1, harray.trans hsame.2⟩
    · exact hqueued
  next hsome =>
    intro q
    constructor
    · rintro rfl
      rw [setTask_self]
      exact ⟨rfl, hsome⟩
    · intro hq
      rw [setTask_of_ne hq]
      exact ⟨rfl, rfl⟩

theorem hit_running {t : Task} (h : t.state = .running) : hit mode t = false := by
  simp [hit, h, stateBits]

variable {ws : List Waiter} {nr : Int}

/-- The tasks of `ps` that sleep, each one once. -/
def sleepers (mode : BitVec 32) (s : RunQueue) (ps : List TaskId) : List TaskId :=
  (ps.filter fun p => hit mode (s.tasks p) && (s.tasks p).array.isNone).eraseDups

/-- What becomes of a task when those of `ps` are woken up: another one may only
be kept from falling asleep. -/
structure Passed (ps : List TaskId) (ws : List Waiter) (s s' : RunQueue) (p : TaskId) : Prop where
  woken : p ∈ ps → Runnable (s'.tasks p)
  array : p ∉ ps → (s'.tasks p).array = (s.tasks p).array
  state : p ∉ ps → (s'.tasks p).state = (s.tasks p).state ∨
    (s'.tasks p).state = .running ∧ (s.tasks p).array ≠ none ∧ ∃ w ∈ ws, w.task = p

variable {w : Waiter} {ps : List TaskId}

theorem Passed.skip (h : Passed ps ws s s' p) : Passed ps (w :: ws) s s' p := by
  refine ⟨h.woken, h.array, fun hp => (h.state hp).imp_right ?_⟩
  rintro ⟨hrun, hq, w', hw', ht⟩
  exact ⟨hrun, hq, w', List.mem_cons_of_mem _ hw', ht⟩

theorem Passed.runnable (h : Passed ps ws s s' p) (hp : Runnable (s.tasks p)) :
    Runnable (s'.tasks p) := by
  by_cases hin : p ∈ ps
  · exact h.woken hin
  · refine ⟨?_, h.array hin ▸ hp.2⟩
    rcases h.state hin with hst | ⟨hst, _⟩
    · exact hst.trans hp.1
    · exact hst

theorem Passed.cons (hone : Roused (· = w.task) s s') (h : Passed ps ws s' s'' p) :
    Passed (w.task :: ps) (w :: ws) s s'' p := by
  refine ⟨fun hp => ?_, fun hp => ?_, fun hp => ?_⟩
  · rcases List.mem_cons.mp hp with heq | hin
    · exact h.runnable ((hone p).1 heq)
    · exact h.woken hin
  · rw [List.mem_cons, not_or] at hp
    exact (h.array hp.2).trans ((hone p).2 hp.1).2
  · rw [List.mem_cons, not_or] at hp
    obtain ⟨hst, harr⟩ := (hone p).2 hp.1
    have := (h.skip (w := w)).state hp.2
    rwa [hst, harr] at this

/-- The first one of the queue is kept from falling asleep. -/
theorem Passed.kept (hone : Roused (· = w.task) s s') (hw : (s.tasks w.task).array ≠ none)
    (hsame : (s'.tasks w.task).array = (s.tasks w.task).array) (h : Passed ps ws s' s'' p) :
    Passed ps (w :: ws) s s'' p := by
  have harr : (s'.tasks p).array = (s.tasks p).array := by
    by_cases heq : p = w.task
    · exact heq ▸ hsame
    · exact ((hone p).2 heq).2
  refine ⟨h.woken, fun hp => (h.array hp).trans harr, fun hp => ?_⟩
  rcases (h.skip).state hp with hst | ⟨hrun, hq, hin⟩
  · by_cases heq : p = w.task
    · exact .inr ⟨hst.trans ((hone p).1 heq).1, heq ▸ hw, w, List.mem_cons_self, heq.symm⟩
    · exact .inl (hst.trans ((hone p).2 heq).1)
  · exact .inr ⟨hrun, harr ▸ hq, hin⟩

end Wake

end CustomKernel.Sched.WaitQueue

import CustomKernel.Lib.Bitmap
import CustomKernel.Lib.ListHead

/-! # The run queue

The scheduler of a kernel built for one processor. Two priority arrays each
keep a list per priority, a bitmap of the lists that are not empty and a count.
The lists are threaded through the tasks by pointers, and every function edits
them the way the source does. An access that leaves the data structure (a
priority without a list, a list head taken for a task, a null array) is noted in
`wild`. -/
namespace CustomKernel.Sched.Functions
open Lib.ListHead Lib.Bitmap

/-! ## Data -/

def HZ : Nat := 512
def maxUserRtPrio : Int := 100
def maxRtPrio : Int := maxUserRtPrio
def maxPrio : Int := maxRtPrio + 40
def maxUserPrio : Nat := 40
def minTimeslice : Int := 10 * HZ / 1000
def maxTimeslice : Int := 300 * HZ / 1000
def childPenalty : UInt32 := 95
def parentPenalty : UInt32 := 100
def exitWeight : UInt32 := 3
def prioBonusRatio : Nat := 25
def interactiveDelta : Int := 2
def maxSleepAvg : UInt32 := 2 * UInt32.ofNat HZ
def starvationLimit : UInt32 := 2 * UInt32.ofNat HZ

abbrev TaskId := Nat

inductive TaskState where
  | running | interruptible | uninterruptible | zombie | stopped
deriving DecidableEq, Repr

inductive SchedPolicy where
  | other | fifo | rr
deriving DecidableEq, Repr

/-- The fields of `struct task_struct` that the scheduler uses. `array` is a
pointer to one of the two priority arrays, or null. -/
structure Task where
  state : TaskState
  sigpending : Bool
  needResched : Bool
  prio : Int
  staticPrio : Int
  array : Option Bool
  sleepAvg : UInt32
  sleepTimestamp : UInt32
  policy : SchedPolicy
  rtPriority : Int
  timeSlice : UInt32
  firstTimeSlice : Bool
  policyOn : Int
  policyLevel : Int

/-- A `struct list_head`: `queue[prio]` of an array, or the `run_list` of a
task. -/
inductive Node where
  | head (array : Bool) (prio : Nat)
  | task (p : TaskId)
deriving DecidableEq

structure PrioArray where
  nrActive : Int
  bitmap : Nat → BitVec 32

/-- `struct runqueue`, with the tasks and the links of all lists. `active` and
`expired` point to one of `arrays[2]` each. -/
structure RunQueue where
  tasks : TaskId → Task
  links : Links Node
  arrays : Bool → PrioArray
  active : Bool
  expired : Bool
  curr : TaskId
  idle : TaskId
  nrRunning : Int
  nrUninterruptible : Int
  nrSwitches : Int
  expiredTimestamp : UInt32
  wild : Bool

namespace RunQueue

def setTask (s : RunQueue) (p : TaskId) (f : Task → Task) : RunQueue :=
  { s with tasks := Function.update s.tasks p (f (s.tasks p)) }

def setArray (s : RunQueue) (b : Bool) (f : PrioArray → PrioArray) : RunQueue :=
  { s with arrays := Function.update s.arrays b (f (s.arrays b)) }

def setLinks (s : RunQueue) (f : Links Node → Links Node) : RunQueue :=
  { s with links := f s.links }

/-- Note an access that needs `c` when `c` does not hold. -/
def need (s : RunQueue) (c : Bool) : RunQueue := { s with wild := s.wild || !c }

end RunQueue

/-- `queue[]` has a list for this priority. -/
def hasQueue (prio : Int) : Bool := 0 ≤ prio && prio < maxPrio

def queue (b : Bool) (prio : Int) : Node := .head b prio.toNat

def rtTask (t : Task) : Bool := t.prio < maxRtPrio

def niceToPrio (nice : Int) : Int := maxRtPrio + nice + 20

def taskNice (t : Task) : Int := t.staticPrio - maxRtPrio - 20

/-- `SCALE(TASK_NICE(p), 40, MAX_USER_PRIO*PRIO_BONUS_RATIO/100) +
INTERACTIVE_DELTA`, where the division rounds towards zero. -/
def delta (t : Task) : Int :=
  (taskNice t * (maxUserPrio * prioBonusRatio / 100 : Nat)).tdiv 40 + interactiveDelta

def taskInteractive (t : Task) : Bool := t.prio ≤ t.staticPrio - delta t

def taskTimeslice (t : Task) : UInt32 :=
  UInt32.ofInt (minTimeslice + ((maxTimeslice - minTimeslice) * (maxPrio - 1 - t.staticPrio)).tdiv 39)

/-! ## Queueing -/

def dequeueTask (p : TaskId) (b : Bool) (s : RunQueue) : RunQueue :=
  let prio := (s.tasks p).prio
  let s := s.setArray b fun a => { a with nrActive := a.nrActive - 1 }
  let s := s.setLinks fun L => L.listDel (.task p)
  let s := s.need (hasQueue prio)
  if s.links.listEmpty (queue b prio) then
    s.setArray b fun a => { a with bitmap := clearBit a.bitmap prio.toNat }
  else s

def enqueueTask (p : TaskId) (b : Bool) (s : RunQueue) : RunQueue :=
  let prio := (s.tasks p).prio
  let s := s.need (hasQueue prio)
  let s := s.setLinks fun L => L.listAddTail (.task p) (queue b prio)
  let s := s.setArray b fun a =>
    { nrActive := a.nrActive + 1, bitmap := setBit a.bitmap prio.toNat }
  s.setTask p fun t => { t with array := some b }

/-- The sum is unsigned, and the bonus is its value as an `int`. -/
def effectivePrio (t : Task) : Int :=
  let ratio := UInt32.ofNat (maxUserPrio * prioBonusRatio)
  let bonus := (ratio * t.sleepAvg / maxSleepAvg / 100 - ratio / 100 / 2).toBitVec.toInt
  let prio := t.staticPrio - bonus
  let prio := if prio < maxRtPrio then maxRtPrio else prio
  if prio > maxPrio - 1 then maxPrio - 1 else prio

/-- The reward for having slept, in `activate_task`. -/
def creditSleep (jiffies : UInt32) (t : Task) : Task :=
  let sleepTime := jiffies - t.sleepTimestamp
  if !rtTask t && sleepTime ≠ 0 then
    let avg := t.sleepAvg + sleepTime
    let t := { t with sleepAvg := if avg > maxSleepAvg then maxSleepAvg else avg }
    { t with prio := effectivePrio t }
  else t

def activateTask (p : TaskId) (jiffies : UInt32) (s : RunQueue) : RunQueue :=
  let s := s.setTask p (creditSleep jiffies)
  let s := enqueueTask p s.active s
  { s with nrRunning := s.nrRunning + 1 }

def deactivateTask (p : TaskId) (s : RunQueue) : RunQueue :=
  let t := s.tasks p
  let s := { s with
    nrRunning := s.nrRunning - 1
    nrUninterruptible :=
      if t.state = .uninterruptible then s.nrUninterruptible + 1 else s.nrUninterruptible }
  let s := match t.array with
    | some b => dequeueTask p b s
    | none => s.need false
  s.setTask p fun t => { t with array := none }

/-! ## Waking up -/

def reschedTask (p : TaskId) (s : RunQueue) : RunQueue :=
  s.setTask p fun t => { t with needResched := true }

/-- The migration branch is for tasks of another processor. -/
def tryToWakeUp (p : TaskId) (jiffies : UInt32) (s : RunQueue) : Bool × RunQueue :=
  let t := s.tasks p
  let awake := fun s : RunQueue => s.setTask p fun t => { t with state := .running }
  if t.array = none then
    let s := { s with
      nrUninterruptible :=
        if t.state = .uninterruptible then s.nrUninterruptible - 1 else s.nrUninterruptible }
    let s := activateTask p jiffies s
    let s := if (s.tasks p).prio < (s.tasks s.curr).prio then reschedTask s.curr s else s
    (true, awake s)
  else (false, awake s)

def wakeUpForkedProcess (p : TaskId) (jiffies : UInt32) (s : RunQueue) : RunQueue :=
  let s := s.setTask p fun t => { t with state := .running }
  let s :=
    if rtTask (s.tasks p) then s
    else
      let s := s.setTask s.curr fun t =>
        { t with sleepAvg := t.sleepAvg * parentPenalty / 100 }
      s.setTask p fun t =>
        let t := { t with sleepAvg := t.sleepAvg * childPenalty / 100 }
        { t with prio := effectivePrio t }
  activateTask p jiffies s

/-- The parent that reaps `p` gets the rest of its first time slice back. -/
def schedExit (p : TaskId) (s : RunQueue) : RunQueue :=
  let child := s.tasks p
  let s :=
    if child.firstTimeSlice then
      s.setTask s.curr fun t =>
        let slice := t.timeSlice + child.timeSlice
        { t with timeSlice := if slice > UInt32.ofInt maxTimeslice then UInt32.ofInt maxTimeslice else slice }
    else s
  if child.sleepAvg < (s.tasks s.curr).sleepAvg then
    s.setTask s.curr fun t =>
      { t with sleepAvg := (t.sleepAvg * exitWeight + child.sleepAvg) / (exitWeight + 1) }
  else s

/-! ## The timer tick -/

def expiredStarving (jiffies : UInt32) (s : RunQueue) : Bool :=
  s.expiredTimestamp ≠ 0 &&
    jiffies - s.expiredTimestamp ≥ starvationLimit * UInt32.ofInt s.nrRunning + 1

/-- The refill when a time slice is used up. -/
def newSlice (t : Task) : Task :=
  { t with timeSlice := taskTimeslice t, firstTimeSlice := false, needResched := true }

def schedulerTick (jiffies : UInt32) (s : RunQueue) : RunQueue :=
  let p := s.curr
  if p = s.idle then s
  else if (s.tasks p).array ≠ some s.active then reschedTask p s
  else if rtTask (s.tasks p) then
    if (s.tasks p).policy = .rr then
      let s := s.setTask p fun t => { t with timeSlice := t.timeSlice - 1 }
      if (s.tasks p).timeSlice = 0 then
        let s := s.setTask p newSlice
        enqueueTask p s.active (dequeueTask p s.active s)
      else s
    else s
  else
    let s := s.setTask p fun t =>
      { t with
        sleepAvg := if t.sleepAvg ≠ 0 then t.sleepAvg - 1 else t.sleepAvg
        timeSlice := t.timeSlice - 1 }
    if (s.tasks p).timeSlice = 0 then
      let s := dequeueTask p s.active s
      let s := s.setTask p fun t => newSlice { t with prio := effectivePrio t }
      if !taskInteractive (s.tasks p) || expiredStarving jiffies s then
        let s := { s with
          expiredTimestamp := if s.expiredTimestamp = 0 then jiffies else s.expiredTimestamp }
        enqueueTask p s.expired s
      else enqueueTask p s.active s
    else s

/-! ## `schedule` -/

def schedFindFirstBit (b : Nat → BitVec 32) : Nat :=
  if b 0 ≠ 0 then ffs (b 0)
  else if b 1 ≠ 0 then ffs (b 1) + 32
  else if b 2 ≠ 0 then ffs (b 2) + 64
  else if b 3 ≠ 0 then ffs (b 3) + 96
  else ffs (b 4) + 128

/-- What becomes of the task that gives up the processor. -/
def putPrev (s : RunQueue) : RunQueue :=
  match (s.tasks s.curr).state with
  | .running => s
  | .interruptible =>
    if (s.tasks s.curr).sigpending then
      s.setTask s.curr fun t => { t with state := .running }
    else deactivateTask s.curr s
  | _ => deactivateTask s.curr s

/-- The arrays change places when the active one is used up. -/
def swapArrays (s : RunQueue) : RunQueue :=
  if (s.arrays s.active).nrActive = 0 then
    { s with active := s.expired, expired := s.active, expiredTimestamp := 0 }
  else s

/-- `list_entry`: only the `run_list` of a task is inside a task. -/
def listEntry : Node → Option TaskId
  | .task p => some p
  | .head .. => none

/-- The task to run next. -/
def pickNext (s : RunQueue) : Option TaskId × RunQueue :=
  if s.nrRunning = 0 then (some s.idle, { s with expiredTimestamp := 0 })
  else
    let s := swapArrays s
    let idx := schedFindFirstBit (s.arrays s.active).bitmap
    let s := s.need (hasQueue idx)
    (listEntry (s.links.next (queue s.active idx)), s)

/-- One pass; another one follows when `need_resched` is set again. -/
def schedule (jiffies : UInt32) (s : RunQueue) : RunQueue :=
  let prev := s.curr
  let s := s.setTask prev fun t => { t with sleepTimestamp := jiffies }
  let (next, s) := pickNext (putPrev s)
  let s := s.setTask prev fun t => { t with needResched := false }
  match next with
  | none => s.need false
  | some next =>
    if prev ≠ next then { s with nrSwitches := s.nrSwitches + 1, curr := next } else s

/-! ## Changing priorities -/

def setUserNice (p : TaskId) (nice : Int) (s : RunQueue) : RunQueue :=
  if taskNice (s.tasks p) = nice ∨ nice < -20 ∨ nice > 19 then s
  else if rtTask (s.tasks p) then
    s.setTask p fun t => { t with staticPrio := niceToPrio nice }
  else
    let renice := fun t : Task => { t with staticPrio := niceToPrio nice, prio := niceToPrio nice }
    match (s.tasks p).array with
    | none => s.setTask p renice
    | some b =>
      let s := enqueueTask p b ((dequeueTask p b s).setTask p renice)
      -- `static_prio` has just been set, so the first test never holds
      if niceToPrio nice < (s.tasks p).staticPrio ∨ p = s.curr then reschedTask s.curr s else s

def EPERM : Int := 1
def ESRCH : Int := 3
def EFAULT : Int := 14
def EINVAL : Int := 22

def SchedPolicy.ofInt : Int → Option SchedPolicy
  | 0 => some .other
  | 1 => some .fifo
  | 2 => some .rr
  | _ => none

/-- What `setscheduler` is given: the parameter as it is found in user memory,
the task `find_process_by_pid` finds, and what the caller is entitled to. -/
structure SetSched where
  pid : Int
  policy : Int
  /-- the pointer is null, or the copy fails, or gives `sched_priority` -/
  param : Option (Option Int)
  target : Option TaskId
  capSysNice : Bool
  sameOwner : Bool

def setscheduler (r : SetSched) (jiffies : UInt32) (s : RunQueue) : Int × RunQueue :=
  match r.param with
  | none => (-EINVAL, s)
  | some copy =>
    if r.pid < 0 then (-EINVAL, s)
    else
      match copy, r.target with
      | none, _ => (-EFAULT, s)
      | some _, none => (-ESRCH, s)
      | some priority, some p =>
        let policy :=
          if r.policy < 0 then some (s.tasks p).policy else SchedPolicy.ofInt r.policy
        match policy with
        | none => (-EINVAL, s)
        | some policy =>
          if priority < 0 ∨ priority > maxUserRtPrio - 1 then (-EINVAL, s)
          else if (policy = .other) ≠ (priority = 0) then (-EINVAL, s)
          else if policy ≠ .other ∧ !r.capSysNice then (-EPERM, s)
          else if !r.sameOwner ∧ !r.capSysNice then (-EPERM, s)
          else
            let queued := (s.tasks p).array.isSome
            let s := if queued then deactivateTask p s else s
            let s := s.setTask p fun t =>
              { t with
                policy := policy
                rtPriority := priority
                prio := if policy ≠ .other then maxUserRtPrio - 1 - priority else t.staticPrio }
            (0, if queued then activateTask p jiffies s else s)

/-! ## `sys_sched_yield` -/

/-- Behind the policy gate, up to the call of `schedule`. -/
def requeueYielding (s : RunQueue) : RunQueue :=
  let p := s.curr
  let prio := (s.tasks p).prio
  match (s.tasks p).array with
  | none => s.need false
  | some b =>
    let s := s.need (hasQueue prio)
    let s := s.setLinks fun L => L.listDel (.task p)
    if rtTask (s.tasks p) then s.setLinks fun L => L.listAddTail (.task p) (queue b prio)
    else if !s.links.listEmpty (queue b prio) then
      s.setLinks fun L => L.listAdd (.task p) (L.next (queue b prio))
    else
      let s := s.setArray b fun a => { a with bitmap := clearBit a.bitmap prio.toNat }
      let i := schedFindFirstBit (s.arrays b).bitmap
      let i : Int := if (i : Int) = maxPrio ∨ (i : Int) ≤ prio then prio else i
      let s := s.setTask p fun t => { t with prio := i }
      let s := s.need (hasQueue i)
      let s := s.setLinks fun L => L.listAdd (.task p) (L.next (queue b i))
      s.setArray b fun a => { a with bitmap := setBit a.bitmap i.toNat }

def sysSchedYield (jiffies : UInt32) (s : RunQueue) : Int × RunQueue :=
  let t := s.tasks s.curr
  if t.policyOn = 1 ∧ t.policyLevel < 1 then (-EINVAL, s)
  else (0, schedule jiffies (requeueYielding s))

/-! ## New tasks, and the first one -/

/-- What `do_fork` does to the scheduler: the child is a copy of its parent with
half of its time slice. The parent of a `vfork` goes to wait instead of being
rescheduled. -/
def doFork (p : TaskId) (vfork : Bool) (jiffies : UInt32) (s : RunQueue) : RunQueue :=
  let parent := s.tasks s.curr
  let s := s.setTask p fun _ =>
    { parent with
      policyLevel := 2
      policyOn := 0
      state := .uninterruptible
      sigpending := false
      array := none
      timeSlice := (parent.timeSlice + 1) >>> 1
      firstTimeSlice := true
      sleepTimestamp := jiffies }
  let s := s.setLinks fun L => L.initListHead (.task p)
  let s := s.setTask s.curr fun t => { t with timeSlice := t.timeSlice >>> 1 }
  let s :=
    if (s.tasks s.curr).timeSlice = 0 then
      schedulerTick jiffies (s.setTask s.curr fun t => { t with timeSlice := 1 })
    else s
  let s := wakeUpForkedProcess p jiffies s
  if vfork then s else reschedTask s.curr s

def initTask : Task where
  state := .running
  sigpending := false
  needResched := false
  prio := maxPrio - 20
  staticPrio := maxPrio - 20
  array := none
  sleepAvg := 0
  sleepTimestamp := 0
  policy := .other
  rtPriority := 0
  timeSlice := UInt32.ofNat HZ
  firstTimeSlice := false
  policyOn := 0
  policyLevel := 0

/-- The arrays as `sched_init` leaves them, with the delimiter in the bitmap. -/
def emptyArray : PrioArray where
  nrActive := 0
  bitmap := setBit ((List.range maxPrio.toNat).foldl clearBit fun _ => 0) maxPrio.toNat

/-- `sched_init`. The kernel starts with one task; the others have yet to be
made. -/
def schedInit (boot : TaskId) (jiffies : UInt32) : RunQueue :=
  (tryToWakeUp boot jiffies
    { tasks := fun _ => initTask
      links := ⟨id, id⟩
      arrays := fun _ => emptyArray
      active := false
      expired := true
      curr := boot
      idle := boot
      nrRunning := 0
      nrUninterruptible := 0
      nrSwitches := 0
      expiredTimestamp := 0
      wild := false }).2

/-- `init_idle`: the first task becomes the idle task. -/
def initIdle (idle : TaskId) (s : RunQueue) : RunQueue :=
  let s := deactivateTask idle { s with curr := idle, idle := idle }
  s.setTask idle fun t =>
    { t with array := none, prio := maxPrio, state := .running, needResched := true }

end CustomKernel.Sched.Functions

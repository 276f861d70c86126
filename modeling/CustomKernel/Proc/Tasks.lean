import CustomKernel.Lib.ListHead
import CustomKernel.Lib.Transition

/-! # Tasks

How processes are made, given identifiers, put into the family tree, traced, and
taken out again. What a system call does while it holds `tasklist_lock`, or while
it cannot be interrupted, is one operation; the places where it may be are between
operations. The task list is a list of tasks in the order of `for_each_task`, and
does not hold the swapper. -/
namespace CustomKernel.Proc.Tasks
open Lib.ListHead

/-! ## Data -/

def pidMax : Nat := 0x8000

def EPERM : Int := 1
def ESRCH : Int := 3
def EACCES : Int := 13
def EINVAL : Int := 22

abbrev TaskId := Nat

def swapper : TaskId := 0

/-- How far a task is on its way out. `PF_EXITING` is set from `exiting` on, and
the state is `TASK_ZOMBIE` from `zombie` on. -/
inductive Stage where
  | alive
  | exiting
  /-- its children have another original parent -/
  | forgotten
  /-- in the loop of `exit_notify` -/
  | zombie
  /-- past `exit_notify` -/
  | done
deriving DecidableEq, Repr

/-- The fields of `struct task_struct` that say who a task is and where it stands
in the family. `ptraced` is the flag `PT_PTRACED`. -/
structure Task where
  pid : Nat
  pgrp : Nat
  tgid : Nat
  session : Nat
  leader : Bool
  didExec : Bool
  ptraced : Bool
  stage : Stage
  pptr : TaskId
  opptr : TaskId
  cptr : Option TaskId
  ysptr : Option TaskId
  osptr : Option TaskId
deriving Repr

/-- The flags of `do_fork` that matter here. -/
structure CloneFlags where
  pid : Bool
  ptrace : Bool
  parent : Bool
  thread : Bool
deriving DecidableEq, Repr

/-- A `do_fork` between `get_pid` and `SET_LINKS`. -/
structure Making where
  child : TaskId
  parent : TaskId
  flags : CloneFlags
deriving DecidableEq, Repr

structure State where
  tasks : TaskId → Task
  /-- `thread_group` of each task -/
  threads : Links TaskId
  list : List TaskId
  lastPid : Nat
  nextSafe : Nat
  childReaper : TaskId
  /-- the calls of `do_fork` on their way -/
  making : List Making
  /-- the zombies that calls of `sys_wait4` have found and not dealt with yet -/
  found : List TaskId

namespace State

def setTask (p : TaskId) (f : Task → Task) (s : State) : State :=
  { s with tasks := Function.update s.tasks p (f (s.tasks p)) }

/-- Behind a test for a null pointer. -/
def setTaskIf (o : Option TaskId) (f : Task → Task) (s : State) : State :=
  match o with
  | some p => s.setTask p f
  | none => s

end State

/-! ## `get_pid` -/

/-- `n & 0xffff8000` -/
def tooLarge (n : Nat) : Bool := n &&& 0xffff8000 ≠ 0

def Task.uses (t : Task) (n : Nat) : Bool :=
  t.pid = n || t.pgrp = n || t.tgid = n || t.session = n

def lower (last v next : Nat) : Nat := if v > last ∧ next > v then v else next

/-- The bound that a task which does not use `last` leaves for `next_safe`. -/
def Task.bound (t : Task) (last next : Nat) : Nat :=
  lower last t.session (lower last t.tgid (lower last t.pgrp (lower last t.pid next)))

/-- `for_each_task`, as far as the first task that uses `last`: whether there is
one, and `next_safe`. -/
def pass (last : Nat) : List Task → Nat → Bool × Nat
  | [], next => (false, next)
  | t :: ts, next => if t.uses last then (true, next) else pass last ts (t.bound last next)

/-- From the label `repeat` on. The result is the pid, `last_pid` and `next_safe`. -/
def scan (ts : List Task) (beginpid : Nat) : Nat → Nat → Nat → Option (Nat × Nat × Nat)
  | 0, _, _ => none
  | fuel + 1, last, next =>
    match pass last ts next with
    | (false, next) => some (last, last, next)
    | (true, next) =>
      let n := last + 1
      let (last, next) :=
        if n ≥ next then (if tooLarge n then 300 else n, pidMax) else (n, next)
      if last = beginpid then some (0, last, next)
      else scan ts beginpid fuel last next

/-- `get_pid` without `CLONE_PID`. -/
def getPid (fuel : Nat) (ts : List Task) (last next : Nat) : Option (Nat × Nat × Nat) :=
  let n := last + 1
  if tooLarge n then scan ts last fuel 300 pidMax
  else if n ≥ next then scan ts last fuel n pidMax
  else some (n, n, next)

/-! ## The family -/

def removeLinks (p : TaskId) (s : State) : State :=
  let s := { s with list := s.list.erase p }
  let s := s.setTaskIf (s.tasks p).osptr fun t => { t with ysptr := (s.tasks p).ysptr }
  match (s.tasks p).ysptr with
  | some y => s.setTask y fun t => { t with osptr := (s.tasks p).osptr }
  | none => s.setTask (s.tasks p).pptr fun t => { t with cptr := (s.tasks p).osptr }

def setLinks (p : TaskId) (s : State) : State :=
  let s := { s with list := s.list ++ [p] }
  let s := s.setTask p fun t => { t with ysptr := none }
  let s := s.setTask p fun t => { t with osptr := (s.tasks (s.tasks p).pptr).cptr }
  let s := s.setTaskIf (s.tasks p).osptr fun t => { t with ysptr := some p }
  s.setTask (s.tasks p).pptr fun t => { t with cptr := some p }

/-- `REMOVE_LINKS`, a new parent and `SET_LINKS`. -/
def relink (p parent : TaskId) (s : State) : State :=
  setLinks p ((removeLinks p s).setTask p fun t => { t with pptr := parent })

/-! ## `do_fork` -/

/-- Up to `get_pid`; the child is a copy of its parent. -/
def forkStart (fuel : Nat) (p cur : TaskId) (flags : CloneFlags) (s : State) : Option State :=
  if flags.pid ∧ (s.tasks cur).pid ≠ 0 then some s
  else
    let got :=
      if flags.pid then some ((s.tasks cur).pid, s.lastPid, s.nextSafe)
      else getPid fuel (s.list.map s.tasks) s.lastPid s.nextSafe
    got.map fun (pid, last, next) =>
      let s := { s with lastPid := last, nextSafe := next }
      if pid = 0 ∧ (s.tasks cur).pid ≠ 0 then s
      else
        { s.setTask p fun _ =>
            { s.tasks cur with
              pid := pid
              leader := false
              didExec := false
              ptraced := (s.tasks cur).ptraced && flags.ptrace
              cptr := none } with
          making := ⟨p, cur, flags⟩ :: s.making }

/-- The error paths behind `get_pid`. -/
def forkAbort (m : Making) (s : State) : State := { s with making := s.making.erase m }

/-- The part of `do_fork` that makes the child visible. -/
def forkLink (m : Making) (s : State) : State :=
  let s := { s with making := s.making.erase m, threads := s.threads.initListHead m.child }
  let cur := s.tasks m.parent
  let s := s.setTask m.child fun t =>
    { t with
      tgid := if m.flags.thread then cur.tgid else t.pid
      opptr := if m.flags.parent then cur.opptr else m.parent
      pptr := if m.flags.parent || t.ptraced then cur.pptr else m.parent }
  let s :=
    if m.flags.thread then { s with threads := s.threads.listAdd m.child m.parent } else s
  setLinks m.child s

/-! ## Process groups and sessions -/

/-- The pid that `sys_setpgid` looks for. -/
def wanted (cur : TaskId) (pid : Int) (s : State) : Int :=
  if pid = 0 then (s.tasks cur).pid else pid

/-- `found` is what `find_task_by_pid` finds. -/
def sysSetpgid (cur : TaskId) (pid pgid : Int) (found : Option TaskId) (s : State) : Int × State :=
  let pid := wanted cur pid s
  let pgid := if pgid = 0 then pid else pgid
  if pgid < 0 then (-EINVAL, s)
  else
    match found with
    | none => (-ESRCH, s)
    | some p =>
      let t := s.tasks p
      let mine := t.pptr = cur ∨ t.opptr = cur
      if mine ∧ t.session ≠ (s.tasks cur).session then (-EPERM, s)
      else if mine ∧ t.didExec then (-EACCES, s)
      else if ¬mine ∧ p ≠ cur then (-ESRCH, s)
      else if t.leader then (-EPERM, s)
      else if pgid ≠ pid ∧ ∀ q ∈ s.list,
          ¬(((s.tasks q).pgrp : Int) = pgid ∧ (s.tasks q).session = (s.tasks cur).session) then
        (-EPERM, s)
      else (0, s.setTask p fun t => { t with pgrp := pgid.toNat })

def sysSetsid (cur : TaskId) (s : State) : Int × State :=
  if ∃ q ∈ s.list, (s.tasks q).pgrp = (s.tasks cur).pid then (-EPERM, s)
  else
    ((s.tasks cur).pid,
      s.setTask cur fun t => { t with leader := true, session := t.pid, pgrp := t.pid })

/-! ## `do_exit` -/

/-- The search of `forget_original_parent` in the thread group. -/
def findReaper (s : State) (father : TaskId) : Nat → TaskId → Option TaskId
  | 0, _ => none
  | fuel + 1, reaper =>
    let reaper := s.threads.next reaper
    if (s.tasks reaper).stage = .alive then some reaper
    else if reaper ≠ father then findReaper s father fuel reaper
    else some reaper

def forgetOriginalParent (fuel : Nat) (father : TaskId) (s : State) : Option State :=
  (findReaper s father fuel father).map fun reaper =>
    let reaper := if reaper = father then s.childReaper else reaper
    { s with
      tasks := fun p =>
        if p ∈ s.list ∧ (s.tasks p).opptr = father then
          { s.tasks p with opptr := if p = reaper then s.childReaper else reaper }
        else s.tasks p }

/-- The body of the loop of `exit_notify`: the first child `p` of `cur` goes to its
original parent. -/
def inheritFirst (cur p : TaskId) (s : State) : State :=
  let s := s.setTask cur fun t => { t with cptr := (s.tasks p).osptr }
  let s := s.setTask p fun t => { t with ysptr := none, ptraced := false, pptr := t.opptr }
  let s := s.setTask p fun t => { t with osptr := (s.tasks (s.tasks p).pptr).cptr }
  let s := s.setTaskIf (s.tasks p).osptr fun t => { t with ysptr := some p }
  s.setTask (s.tasks p).pptr fun t => { t with cptr := some p }

/-- The test behind which the lock is dropped. -/
def otherGroup (cur p : TaskId) (s : State) : Prop :=
  (s.tasks p).pgrp ≠ (s.tasks cur).pgrp ∧ (s.tasks p).session = (s.tasks cur).session

instance (cur p : TaskId) (s : State) : Decidable (otherGroup cur p s) :=
  inferInstanceAs (Decidable (_ ∧ _))

/-- The loop of `exit_notify` while it holds the lock. -/
def exitLoop (cur : TaskId) : Nat → State → Option State
  | 0, _ => none
  | fuel + 1, s =>
    match (s.tasks cur).cptr with
    | none => some (s.setTask cur fun t => { t with stage := .done })
    | some p =>
      let s := inheritFirst cur p s
      if otherGroup cur p s then some s else exitLoop cur fuel s

/-- `exit_notify` once it has the lock, or has it again. -/
def exitNotify (fuel : Nat) (cur : TaskId) (s : State) : Option State :=
  exitLoop cur fuel (s.setTask cur fun t => { t with stage := .zombie })

/-! ## `sys_wait4` -/

/-- The thread that `next_thread` leads to after `i` steps. -/
def threadAt (s : State) (cur : TaskId) : Nat → TaskId
  | 0 => cur
  | i + 1 => s.threads.next (threadAt s cur i)

/-- The child that `p_osptr` leads to after `j` steps from `p_cptr`. -/
def childAt (s : State) (tsk : TaskId) : Nat → Option TaskId
  | 0 => (s.tasks tsk).cptr
  | j + 1 => (childAt s tsk j).bind fun q => (s.tasks q).osptr

def releaseTask (p : TaskId) (s : State) : State :=
  let s := removeLinks p s
  let s := { s with threads := s.threads.listDel p }
  s.setTask p fun t => { t with pid := 0 }

/-- What `sys_wait4` does with the zombie it has found. -/
def waitDone (p : TaskId) (s : State) : State :=
  let s := { s with found := s.found.erase p }
  if (s.tasks p).opptr ≠ (s.tasks p).pptr then relink p (s.tasks p).opptr s else releaseTask p s

/-! ## Operations -/

inductive Op where
  | forkStart (p cur : TaskId) (flags : CloneFlags)
  | forkAbort (m : Making)
  | forkLink (m : Making)
  | setpgid (cur : TaskId) (pid pgid : Int) (found : Option TaskId)
  | setsid (cur : TaskId)
  | execve (cur : TaskId)
  /-- `init` declares itself the reaper -/
  | becomeReaper (cur : TaskId)
  | reparentToInit (cur : TaskId)
  | traceMe (cur : TaskId)
  | ptraceAttach (cur p : TaskId)
  | ptraceDetach (cur p : TaskId)
  /-- `do_exit` sets `PF_EXITING` -/
  | doExit (cur : TaskId)
  | forgetOriginalParent (cur : TaskId)
  | exitNotify (cur : TaskId)
  /-- `sys_wait4` finds a zombie, a child of a thread of its group, and drops the lock -/
  | waitFound (cur : TaskId) (thread child : Nat)
  | waitDone (p : TaskId)

def Op.exec (fuel : Nat) (s : State) : Op → Option State
  | .forkStart p cur flags => Tasks.forkStart fuel p cur flags s
  | .forkAbort m => some (Tasks.forkAbort m s)
  | .forkLink m => some (Tasks.forkLink m s)
  | .setpgid cur pid pgid found => some (sysSetpgid cur pid pgid found s).2
  | .setsid cur => some (sysSetsid cur s).2
  | .execve cur => some (s.setTask cur fun t => { t with didExec := true })
  | .becomeReaper cur => some { s with childReaper := cur }
  | .reparentToInit cur =>
    some ((relink cur s.childReaper (s.setTask cur fun t => { t with opptr := s.childReaper })).setTask
      cur fun t => { t with ptraced := false })
  | .traceMe cur => some (s.setTask cur fun t => { t with ptraced := true })
  | .ptraceAttach cur p =>
    let s := s.setTask p fun t => { t with ptraced := true }
    some (if (s.tasks p).pptr ≠ cur then relink p cur s else s)
  | .ptraceDetach _ p =>
    let s := s.setTask p fun t => { t with ptraced := false }
    some (relink p (s.tasks p).opptr s)
  | .doExit cur => some (s.setTask cur fun t => { t with stage := .exiting })
  | .forgetOriginalParent cur =>
    (Tasks.forgetOriginalParent fuel cur s).map
      fun s => s.setTask cur fun t => { t with stage := .forgotten }
  | .exitNotify cur => Tasks.exitNotify fuel cur s
  | .waitFound cur i j => some { s with found := (childAt s (threadAt s cur i) j).toList ++ s.found }
  | .waitDone p => some (Tasks.waitDone p s)

/-- A task that can make a system call: it is not on its way out, and not in the
middle of `do_fork`. -/
def Free (s : State) (cur : TaskId) : Prop :=
  cur ∈ s.list ∧ (s.tasks cur).stage = .alive ∧ ∀ m ∈ s.making, m.parent ≠ cur

/-- When an operation can happen. `init` and the swapper do not exit, a tracee has
not lost its `mm`, and a zombie is released when it no longer runs. -/
def Op.Allowed (s : State) : Op → Prop
  | .forkStart p cur _ =>
    (Free s cur ∨ cur = swapper ∧ ∀ m ∈ s.making, m.parent ≠ cur) ∧
      p ≠ swapper ∧ p ∉ s.list ∧ ∀ m ∈ s.making, m.child ≠ p
  | .forkAbort m | .forkLink m => m ∈ s.making
  | .setpgid cur pid _ found =>
    Free s cur ∧
      match found with
      | some p => p ∈ s.list ∧ ((s.tasks p).pid : Int) = wanted cur pid s
      | none => ∀ p ∈ s.list, ((s.tasks p).pid : Int) ≠ wanted cur pid s
  | .setsid cur | .execve cur | .reparentToInit cur | .traceMe cur => Free s cur
  | .becomeReaper cur => Free s cur ∧ (s.tasks cur).pid = 1
  | .ptraceAttach cur p =>
    Free s cur ∧ p ∈ s.list ∧ p ≠ cur ∧ 1 < (s.tasks p).pid ∧ (s.tasks p).ptraced = false ∧
      ((s.tasks p).stage = .alive ∨ (s.tasks p).stage = .exiting)
  | .ptraceDetach cur p =>
    Free s cur ∧ p ∈ s.list ∧ (s.tasks p).ptraced = true ∧ (s.tasks p).pptr = cur ∧
      (s.tasks p).stage = .alive
  | .doExit cur => Free s cur ∧ 1 < (s.tasks cur).pid
  | .forgetOriginalParent cur => cur ∈ s.list ∧ (s.tasks cur).stage = .exiting
  | .exitNotify cur =>
    cur ∈ s.list ∧ ((s.tasks cur).stage = .forgotten ∨ (s.tasks cur).stage = .zombie)
  | .waitFound cur i j =>
    Free s cur ∧ ∃ p ∈ childAt s (threadAt s cur i) j,
      (s.tasks p).stage = .zombie ∨ (s.tasks p).stage = .done
  | .waitDone p =>
    p ∈ s.found ∧ ((s.tasks p).opptr ≠ (s.tasks p).pptr ∨ (s.tasks p).stage = .done)

instance (s : State) (cur : TaskId) : Decidable (Free s cur) :=
  inferInstanceAs (Decidable (_ ∧ _ ∧ _))

instance (s : State) : (o : Op) → Decidable (o.Allowed s)
  | .forkStart .. => inferInstanceAs (Decidable (_ ∧ _))
  | .forkAbort m | .forkLink m => inferInstanceAs (Decidable (m ∈ s.making))
  | .setpgid _ _ _ (some _) => inferInstanceAs (Decidable (_ ∧ _ ∧ _))
  | .setpgid _ _ _ none => inferInstanceAs (Decidable (_ ∧ ∀ p ∈ s.list, _))
  | .setsid cur | .execve cur | .reparentToInit cur | .traceMe cur =>
    inferInstanceAs (Decidable (Free s cur))
  | .becomeReaper _ => inferInstanceAs (Decidable (_ ∧ _))
  | .ptraceAttach .. => inferInstanceAs (Decidable (_ ∧ _))
  | .ptraceDetach .. => inferInstanceAs (Decidable (_ ∧ _))
  | .doExit _ => inferInstanceAs (Decidable (_ ∧ _))
  | .forgetOriginalParent _ => inferInstanceAs (Decidable (_ ∧ _))
  | .exitNotify _ => inferInstanceAs (Decidable (_ ∧ _))
  | .waitFound _ _ _ => inferInstanceAs (Decidable (_ ∧ ∃ p ∈ _, _))
  | .waitDone _ => inferInstanceAs (Decidable (_ ∧ _))

def Step (s : State) (o : Op) (s' : State) : Prop :=
  o.Allowed s ∧ ∃ fuel, o.exec fuel s = some s'

def initTask : Task where
  pid := 0
  pgrp := 0
  tgid := 0
  session := 0
  leader := false
  didExec := false
  ptraced := false
  stage := .alive
  pptr := swapper
  opptr := swapper
  cptr := none
  ysptr := none
  osptr := none

/-- The swapper is alone. -/
def boot : State where
  tasks := fun _ => initTask
  threads := ⟨id, id⟩
  list := []
  lastPid := 0
  nextSafe := pidMax
  childReaper := swapper
  making := []
  found := []

/-! ## What the family operations leave alone -/

section Frame
variable {s s' s'' : State} {p : TaskId}

/-- Tasks differ in their children and siblings only. The task list is another matter. -/
structure OnlyLinks (s s' : State) : Prop where
  tasks : ∀ q, ∃ c y o, s'.tasks q = { s.tasks q with cptr := c, ysptr := y, osptr := o }
  threads : s'.threads = s.threads
  lastPid : s'.lastPid = s.lastPid
  nextSafe : s'.nextSafe = s.nextSafe
  childReaper : s'.childReaper = s.childReaper
  making : s'.making = s.making
  found : s'.found = s.found

theorem onlyLinks_list (s : State) (l : List TaskId) : OnlyLinks s { s with list := l } :=
  ⟨fun _ => ⟨_, _, _, rfl⟩, rfl, rfl, rfl, rfl, rfl, rfl⟩

theorem OnlyLinks.setTask {f : Task → Task} (h : OnlyLinks s s')
    (hf : ∀ t, ∃ c y o, f t = { t with cptr := c, ysptr := y, osptr := o }) (p : TaskId) :
    OnlyLinks s (s'.setTask p f) := by
  refine ⟨fun q => ?_, h.threads, h.lastPid, h.nextSafe, h.childReaper, h.making, h.found⟩
  obtain ⟨c, y, o, heq⟩ := h.tasks q
  rcases eq_or_ne q p with rfl | hq
  · obtain ⟨c', y', o', heq'⟩ := hf (s'.tasks q)
    refine ⟨c', y', o', ?_⟩
    simpa [State.setTask, heq] using heq'
  · exact ⟨c, y, o, by simpa [State.setTask, hq] using heq⟩

theorem OnlyLinks.setTaskIf {f : Task → Task} (h : OnlyLinks s s')
    (hf : ∀ t, ∃ c y o, f t = { t with cptr := c, ysptr := y, osptr := o }) (o : Option TaskId) :
    OnlyLinks s (s'.setTaskIf o f) := by
  cases o with
  | none => exact h
  | some p => exact h.setTask hf p

theorem onlyLinks_removeLinks (p : TaskId) (s : State) : OnlyLinks s (removeLinks p s) := by
  unfold removeLinks
  dsimp only
  split
  all_goals
    refine OnlyLinks.setTask (OnlyLinks.setTaskIf (onlyLinks_list s _) ?_ _) ?_ _
    all_goals
      intro t
      exact ⟨_, _, _, rfl⟩

theorem onlyLinks_setLinks (p : TaskId) (s : State) : OnlyLinks s (setLinks p s) := by
  unfold setLinks
  refine OnlyLinks.setTask (OnlyLinks.setTaskIf (OnlyLinks.setTask (OnlyLinks.setTask
    (onlyLinks_list s _) ?_ _) ?_ _) ?_ _) ?_ _
  all_goals
    intro t
    exact ⟨_, _, _, rfl⟩

theorem removeLinks_list (p : TaskId) (s : State) : (removeLinks p s).list = s.list.erase p := by
  unfold removeLinks State.setTaskIf
  dsimp only
  split <;> split <;> rfl

theorem setLinks_list (p : TaskId) (s : State) : (setLinks p s).list = s.list ++ [p] := by
  unfold setLinks State.setTaskIf
  dsimp only
  split <;> rfl

/-- The record of the child when it is linked. -/
def born (s : State) (m : Making) : Task :=
  let t := s.tasks m.child
  let cur := s.tasks m.parent
  { t with
    tgid := if m.flags.thread then cur.tgid else t.pid
    opptr := if m.flags.parent then cur.opptr else m.parent
    pptr := if m.flags.parent || t.ptraced then cur.pptr else m.parent }

/-- `forkLink` prepares the record and the thread group of the child, and links it. -/
theorem forkLink_eq (m : Making) (s : State) :
    ∃ s1, forkLink m s = setLinks m.child s1 ∧
      s1.tasks = Function.update s.tasks m.child (born s m) ∧ s1.list = s.list ∧
      s1.lastPid = s.lastPid ∧ s1.nextSafe = s.nextSafe ∧ s1.childReaper = s.childReaper ∧
      s1.making = s.making.erase m ∧
      s1.threads = if m.flags.thread then (s.threads.initListHead m.child).listAdd m.child m.parent
        else s.threads.initListHead m.child := by
  refine ⟨_, rfl, ?_, ?_, ?_, ?_, ?_, ?_, ?_⟩
  · exact (apply_ite State.tasks _ _ _).trans (ite_self _)
  all_goals split <;> rfl

theorem forkLink_frame (m : Making) (s : State) :
    (forkLink m s).list = s.list ++ [m.child] ∧ (forkLink m s).making = s.making.erase m ∧
      (forkLink m s).lastPid = s.lastPid ∧ (forkLink m s).nextSafe = s.nextSafe ∧
      ∀ q, ∃ c y o, (forkLink m s).tasks q =
        { Function.update s.tasks m.child (born s m) q with cptr := c, ysptr := y, osptr := o } := by
  obtain ⟨s1, heq, htasks, hlist, hlast, hnext, _, hmaking, _⟩ := forkLink_eq m s
  have hlinks := onlyLinks_setLinks m.child s1
  rw [heq, setLinks_list, hlist, ← htasks]
  exact ⟨rfl, hlinks.making.trans hmaking, hlinks.lastPid.trans hlast,
    hlinks.nextSafe.trans hnext, hlinks.tasks⟩

theorem relink_list (p parent : TaskId) (s : State) :
    (relink p parent s).list = s.list.erase p ++ [p] := by
  rw [relink, setLinks_list]
  exact congrArg (· ++ [p]) (removeLinks_list p s)

theorem releaseTask_tasks {q : TaskId} (hq : q ≠ p) (s : State) :
    ∃ c y o, (releaseTask p s).tasks q = { s.tasks q with cptr := c, ysptr := y, osptr := o } := by
  obtain ⟨c, y, o, heq⟩ := (onlyLinks_removeLinks p s).tasks q
  exact ⟨c, y, o, (Function.update_of_ne hq _ _).trans heq⟩

end Frame

/-! ## Operations that leave everybody who they are -/

section Calm
variable {s s' s'' : State} {o : Op} {p cur : TaskId} {fuel : Nat} {f : Task → Task}

/-- Who a task is. -/
def name (t : Task) : Nat × Nat × Nat × Nat × Bool := (t.pid, t.pgrp, t.tgid, t.session, t.leader)

/-- Nobody comes or goes, all keep their names, and only `cur` goes on with its exit. -/
structure Calm (cur : TaskId) (s s' : State) : Prop where
  list : s'.list.Perm s.list
  making : s'.making = s.making
  lastPid : s'.lastPid = s.lastPid
  nextSafe : s'.nextSafe = s.nextSafe
  name : ∀ q, name (s'.tasks q) = name (s.tasks q)
  stage : ∀ q, q ≠ cur → (s'.tasks q).stage = (s.tasks q).stage
  done : (s.tasks cur).stage = .done → (s'.tasks cur).stage = .done

theorem Calm.refl (cur : TaskId) (s : State) : Calm cur s s :=
  ⟨.refl _, rfl, rfl, rfl, fun _ => rfl, fun _ _ => rfl, id⟩

theorem Calm.trans (h : Calm cur s s') (h' : Calm cur s' s'') : Calm cur s s'' :=
  ⟨h'.list.trans h.list, h'.making.trans h.making, h'.lastPid.trans h.lastPid,
    h'.nextSafe.trans h.nextSafe, fun q => (h'.name q).trans (h.name q),
    fun q hq => (h'.stage q hq).trans (h.stage q hq), fun hdone => h'.done (h.done hdone)⟩

theorem Calm.setTask (h : Calm cur s s') (p : TaskId)
    (hf : ∀ t, Tasks.name (f t) = Tasks.name t ∧ (f t).stage = t.stage := by
      exact fun _ => ⟨rfl, rfl⟩) : Calm cur s (s'.setTask p f) := by
  have hsame (q : TaskId) : Tasks.name ((s'.setTask p f).tasks q) = Tasks.name (s'.tasks q) ∧
      ((s'.setTask p f).tasks q).stage = (s'.tasks q).stage := by
    rcases eq_or_ne q p with rfl | hq
    · simpa [State.setTask] using hf _
    · simp [State.setTask, hq]
  exact h.trans ⟨.refl _, rfl, rfl, rfl, fun q => (hsame q).1, fun q _ => (hsame q).2,
    fun hdone => (hsame cur).2.trans hdone⟩

theorem Calm.setTaskIf (h : Calm cur s s') (o : Option TaskId)
    (hf : ∀ t, Tasks.name (f t) = Tasks.name t ∧ (f t).stage = t.stage := by
      exact fun _ => ⟨rfl, rfl⟩) : Calm cur s (s'.setTaskIf o f) := by
  cases o with
  | none => exact h
  | some p => exact h.setTask p hf

/-- The exit of `cur` goes on. -/
theorem Calm.advance (h : Calm cur s s') (hf : ∀ t, Tasks.name (f t) = Tasks.name t)
    (hdone : (s'.tasks cur).stage ≠ .done ∨ (f (s'.tasks cur)).stage = .done) :
    Calm cur s (s'.setTask cur f) := by
  refine h.trans ⟨.refl _, rfl, rfl, rfl, fun q => ?_, fun q hq => ?_, fun hold => ?_⟩
  · rcases eq_or_ne q cur with rfl | hq
    · simp [State.setTask, hf]
    · simp [State.setTask, hq]
  · simp [State.setTask, hq]
  · simpa [State.setTask] using hdone.resolve_left (not_not.mpr hold)

theorem calm_relink (cur : TaskId) (hp : p ∈ s.list) (parent : TaskId) :
    Calm cur s (relink p parent s) := by
  have hremove := onlyLinks_removeLinks p s
  have hset := onlyLinks_setLinks p ((removeLinks p s).setTask p fun t => { t with pptr := parent })
  have hsame (q : TaskId) : name ((relink p parent s).tasks q) = name (s.tasks q) ∧
      ((relink p parent s).tasks q).stage = (s.tasks q).stage := by
    obtain ⟨c, y, o, heq⟩ := hset.tasks q
    obtain ⟨c', y', o', heq'⟩ := hremove.tasks q
    rw [relink, heq]
    rcases eq_or_ne q p with rfl | hq
    · simp [State.setTask, heq', name]
    · simp [State.setTask, hq, heq', name]
  refine ⟨?_, hset.making.trans hremove.making, hset.lastPid.trans hremove.lastPid,
    hset.nextSafe.trans hremove.nextSafe, fun q => (hsame q).1, fun q _ => (hsame q).2,
    fun hdone => (hsame cur).2.trans hdone⟩
  rw [relink_list]
  exact (List.perm_append_singleton p _).trans (List.perm_cons_erase hp).symm

theorem Calm.relink (h : Calm cur s s') (hp : p ∈ s.list) (parent : TaskId) :
    Calm cur s (relink p parent s') :=
  h.trans (calm_relink cur (h.list.mem_iff.mpr hp) parent)

theorem calm_inheritFirst (cur p : TaskId) (s : State) : Calm cur s (inheritFirst cur p s) := by
  unfold inheritFirst
  exact (((((Calm.refl cur s).setTask cur).setTask p).setTask p).setTaskIf _).setTask _

theorem calm_exitLoop (h : exitLoop cur fuel s = some s') : Calm cur s s' := by
  induction fuel generalizing s with
  | zero => cases h
  | succ fuel ih =>
    rw [exitLoop] at h
    split at h
    · cases h
      exact (Calm.refl cur s).advance (fun _ => rfl) (.inr rfl)
    next p _ =>
      dsimp only at h
      split at h
      · cases h
        exact calm_inheritFirst cur p s
      · exact (calm_inheritFirst cur p s).trans (ih h)

/-- Who has `father` for its original parent gets another one. -/
def adopted (father reaper : TaskId) (s : State) (q : TaskId) : TaskId :=
  if q ∈ s.list ∧ (s.tasks q).opptr = father then if q = reaper then s.childReaper else reaper
  else (s.tasks q).opptr

theorem forgetOriginalParent_eq {father : TaskId} (h : forgetOriginalParent fuel father s = some s') :
    ∃ r, findReaper s father fuel father = some r ∧ s' = { s with tasks := fun q =>
      { s.tasks q with opptr := adopted father (if r = father then s.childReaper else r) s q } } := by
  obtain ⟨r, hr, rfl⟩ := Option.map_eq_some_iff.mp h
  refine ⟨r, hr, congrArg (fun tasks => { s with tasks := tasks }) (funext fun q => ?_)⟩
  unfold adopted
  split <;> rfl

/-- Who makes a call that leaves everybody who they are. -/
def mover : Op → Option TaskId
  | .execve cur | .becomeReaper cur | .reparentToInit cur | .traceMe cur | .ptraceAttach cur _
  | .ptraceDetach cur _ | .doExit cur | .forgetOriginalParent cur | .exitNotify cur
  | .waitFound cur _ _ => some cur
  | .forkStart .. | .forkAbort _ | .forkLink _ | .setpgid .. | .setsid _ | .waitDone _ => none

theorem exec_calm (hok : o.Allowed s) (hcur : mover o = some cur) (h : o.exec fuel s = some s') :
    Calm cur s s' := by
  cases o with
  | execve c | traceMe c =>
    cases h
    exact (Calm.refl cur s).setTask c
  | becomeReaper c | waitFound c i j =>
    cases h
    exact ⟨.refl _, rfl, rfl, rfl, fun _ => rfl, fun _ _ => rfl, id⟩
  | reparentToInit c =>
    cases h
    exact (((Calm.refl cur s).setTask c).relink hok.1 _).setTask c
  | ptraceAttach c p =>
    cases h
    split
    · exact ((Calm.refl cur s).setTask p).relink hok.2.1 c
    · exact (Calm.refl cur s).setTask p
  | ptraceDetach c p =>
    cases h
    exact ((Calm.refl cur s).setTask p).relink hok.2.1 _
  | doExit c =>
    cases h
    cases hcur
    exact (Calm.refl cur s).advance (fun _ => rfl) (.inl (by simp [hok.1.2.1]))
  | forgetOriginalParent c =>
    cases hcur
    obtain ⟨s1, hs1, rfl⟩ := Option.map_eq_some_iff.mp h
    obtain ⟨r, _, rfl⟩ := forgetOriginalParent_eq hs1
    refine Calm.advance ⟨.refl _, rfl, rfl, rfl, fun _ => rfl, fun _ _ => rfl, id⟩
      (fun _ => rfl) (.inl ?_)
    simp [hok.2]
  | exitNotify c =>
    cases hcur
    refine ((Calm.refl cur s).advance (by intro; rfl) (.inl ?_)).trans (calm_exitLoop h)
    rcases hok.2 with hstage | hstage <;> simp [hstage]
  | forkStart _ _ _ | forkAbort _ | forkLink _ | setpgid _ _ _ _ | setsid _ | waitDone _ => cases hcur

end Calm

end CustomKernel.Proc.Tasks

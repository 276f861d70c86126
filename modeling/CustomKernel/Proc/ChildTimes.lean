import CustomKernel.Proc.Session
import Mathlib.Algebra.Group.Prod
import Mathlib.Data.BitVec

/-! # The CPU time of children

`sys_wait4` adds the times of a zombie to those of the caller as soon as it has found
it. Then it drops `tasklist_lock`, writes the answers to user space, which may fail or
sleep, and only after that it looks whether the zombie is to be released or goes back to
its original parent. A task that waits does not run before the exiting task has left the
processor for good. -/
namespace CustomKernel.Proc.ChildTimes
open Lib.Transition Proc.Tasks Proc.Pid

/-! ## Model -/

def EFAULT : Int := 14

structure Times where
  utime : BitVec 32
  stime : BitVec 32
  cutime : BitVec 32
  cstime : BitVec 32
deriving DecidableEq, Repr

def noTimes : Times := ⟨0, 0, 0, 0⟩

/-- What a child adds to the times of who waits for it. -/
def accumulated (t : Times) : BitVec 32 × BitVec 32 := (t.utime + t.cutime, t.stime + t.cstime)

def childTimes (t : Times) : BitVec 32 × BitVec 32 := (t.cutime, t.cstime)

def addChild (t c : Times) : Times :=
  { t with cutime := t.cutime + (c.utime + c.cutime), cstime := t.cstime + (c.stime + c.cstime) }

/-- `ru` and `stat_addr`: null, or an address that can be written or cannot. -/
inductive Pointer where
  | null
  | good
  | bad
deriving DecidableEq, Repr

structure State where
  tasks : Tasks.State
  times : TaskId → Times
  /-- the zombie that the task has found in a call of `sys_wait4` it is still in -/
  inHand : TaskId → Option TaskId
  /-- history: what the children that the task has released had accumulated then -/
  reaped : TaskId → BitVec 32 × BitVec 32

inductive Event where
  /-- anything but `sys_wait4` -/
  | task (o : Op)
  /-- the timer interrupt finds the task running -/
  | charge (p : TaskId) (utime stime : BitVec 32)
  /-- `sys_wait4` returns an error before it has found a zombie -/
  | fails (cur : TaskId)
  | found (cur : TaskId) (thread child : Nat)
  | finish (cur : TaskId) (ru statAddr : Pointer)

/-- Who makes the call that the operation is a part of, `sys_wait4` apart. -/
def caller : Op → Option TaskId
  | .forkStart _ cur _ => some cur
  | .forkAbort m | .forkLink m => some m.parent
  | .setpgid cur _ _ _ | .setsid cur | .execve cur | .becomeReaper cur | .reparentToInit cur
  | .traceMe cur | .ptraceAttach cur _ | .ptraceDetach cur _ | .doExit cur
  | .forgetOriginalParent cur | .exitNotify cur => some cur
  | .waitFound .. | .waitDone _ => none

/-- `do_fork` clears what it has copied from the parent. -/
def atFork {α : Type} (o : Op) (zero : α) (f : TaskId → α) : TaskId → α :=
  match o with
  | .forkStart p _ _ => Function.update f p zero
  | _ => f

/-- `getrusage` and `put_user` -/
def copyOut (ru statAddr : Pointer) : Int :=
  let retval := if ru = .bad then -EFAULT else 0
  if retval = 0 ∧ statAddr = .bad then -EFAULT else retval

/-- `sys_wait4` behind `read_unlock`, with the zombie `c`. -/
def finish (cur c : TaskId) (ru statAddr : Pointer) (s : State) : Int × State :=
  let back := { s with inHand := Function.update s.inHand cur none }
  if copyOut ru statAddr ≠ 0 then
    (copyOut ru statAddr, { back with tasks := { s.tasks with found := s.tasks.found.erase c } })
  else
    ((s.tasks.tasks c).pid,
      { back with
        tasks := waitDone c s.tasks
        reaped :=
          if (s.tasks.tasks c).opptr ≠ (s.tasks.tasks c).pptr then s.reaped
          else Function.update s.reaped cur (s.reaped cur + accumulated (s.times c)) })

/-- What happens to the state, if the event can happen. -/
def exec (fuel : Nat) (s : State) : Event → Option State
  | .task o =>
    if o.Allowed s.tasks ∧ ∃ cur ∈ caller o, s.inHand cur = none then
      (o.exec fuel s.tasks).map fun tasks =>
        { s with tasks, times := atFork o noTimes s.times, reaped := atFork o 0 s.reaped }
    else none
  | .charge p utime stime =>
    if p ∈ s.tasks.list ∧ (s.tasks.tasks p).stage ≠ .done then
      some { s with
        times := Function.update s.times p
          { s.times p with
            utime := (s.times p).utime + utime
            stime := (s.times p).stime + stime } }
    else none
  | .fails cur => if Free s.tasks cur ∧ s.inHand cur = none then some s else none
  | .found cur i j =>
    if (Op.waitFound cur i j).Allowed s.tasks ∧ s.inHand cur = none then
      (childAt s.tasks (threadAt s.tasks cur i) j).bind fun c =>
        if c ∈ s.tasks.list ∧ (s.tasks.tasks c).stage = .done then
          some { s with
            tasks := { s.tasks with found := c :: s.tasks.found }
            times := Function.update s.times cur (addChild (s.times cur) (s.times c))
            inHand := Function.update s.inHand cur (some c) }
        else none
    else none
  | .finish cur ru statAddr =>
    (s.inHand cur).bind fun c =>
      if (Op.waitDone c).Allowed s.tasks then some (finish cur c ru statAddr s).2 else none

def Step (s : State) (e : Event) (s' : State) : Prop := ∃ fuel, exec fuel s e = some s'

def boot : State := ⟨Tasks.boot, fun _ => noTimes, fun _ => none, fun _ => 0⟩

/-! ## Who stays -/

section Stays
variable {s s' : Tasks.State} {o : Op} {p cur : TaskId} {fuel : Nat}

/-- No task goes, only `cur` begins to exit, and who has exited has. -/
structure Stays (cur : TaskId) (s s' : Tasks.State) : Prop where
  list : ∀ q ∈ s.list, q ∈ s'.list
  alive : ∀ q ∈ s.list, q ≠ cur → (s.tasks q).stage = .alive → (s'.tasks q).stage = .alive
  done : ∀ q ∈ s.list, (s.tasks q).stage = .done → (s'.tasks q).stage = .done

theorem stays_of_stage (hlist : ∀ q ∈ s.list, q ∈ s'.list)
    (hstage : ∀ q ∈ s.list, (s'.tasks q).stage = (s.tasks q).stage) : Stays cur s s' :=
  ⟨hlist, fun q hq _ halive => (hstage q hq).trans halive,
    fun q hq hdone => (hstage q hq).trans hdone⟩

theorem stays_setTask {f : Task → Task} (hf : ∀ t, (f t).stage = t.stage) (s : Tasks.State)
    (p : TaskId) : Stays cur s (s.setTask p f) := by
  refine stays_of_stage (fun _ => id) fun q _ => ?_
  rcases eq_or_ne q p with rfl | hne
  · simp [State.setTask, hf]
  · simp [State.setTask, hne]

theorem stays_calm (h : Calm cur s s') : Stays cur s s' := by
  refine ⟨fun q hq => h.list.mem_iff.mpr hq, fun q _ hne => (h.stage q hne).trans, fun q _ hdone => ?_⟩
  rcases eq_or_ne q cur with rfl | hne
  · exact h.done hdone
  · exact (h.stage q hne).trans hdone

theorem stays_forkLink (m : Making) (s : Tasks.State) : Stays cur s (forkLink m s) := by
  obtain ⟨hlist, _, _, _, htasks⟩ := forkLink_frame m s
  refine stays_of_stage (fun q hq => hlist ▸ List.mem_append_left _ hq) fun q _ => ?_
  obtain ⟨c, y, o, hq⟩ := htasks q
  rw [hq]
  rcases eq_or_ne q m.child with rfl | hne
  · rw [Function.update_self]
    rfl
  · rw [Function.update_of_ne hne]

theorem stays_forkStart {flags : CloneFlags} (hp : p ∉ s.list)
    (h : forkStart fuel p cur flags s = some s') : Stays cur s s' := by
  unfold forkStart at h
  split at h
  · cases h
    exact stays_calm (.refl cur s)
  dsimp only at h
  obtain ⟨⟨pid, last, next⟩, _, rfl⟩ := Option.map_eq_some_iff.mp h
  split
  · exact stays_of_stage (fun _ => id) fun _ _ => rfl
  · refine stays_of_stage (fun _ => id) fun q hq => ?_
    have hne : q ≠ p := fun heq => hp (heq ▸ hq)
    simp [State.setTask, hne]

theorem exec_stays (hok : o.Allowed s) (hcur : caller o = some cur) (h : o.exec fuel s = some s') :
    Stays cur s s' := by
  cases o with
  | forkStart p c flags =>
    cases hcur
    exact stays_forkStart hok.2.2.1 h
  | forkAbort m =>
    cases h
    exact stays_of_stage (fun _ => id) fun _ _ => rfl
  | forkLink m =>
    cases h
    exact stays_forkLink m s
  | setpgid c pid pgid found =>
    cases h
    rcases sysSetpgid_cases hok with heq | ⟨p, _, gid, _, _, heq⟩
    · rw [heq]
      exact stays_calm (.refl cur s)
    · rw [heq]
      exact stays_setTask (by intro t; rfl) s p
  | setsid c =>
    cases h
    unfold sysSetsid
    split
    · exact stays_calm (.refl cur s)
    · dsimp only
      exact stays_setTask (by intro t; rfl) s c
  | execve c | becomeReaper c | reparentToInit c | traceMe c | ptraceAttach c p | ptraceDetach c p
  | doExit c | forgetOriginalParent c | exitNotify c => exact stays_calm (exec_calm hok hcur h)
  | waitFound c i j | waitDone p => cases hcur

end Stays

/-! ## The invariant -/

section Runs
variable {s s' : State} {e : Event} {cur c p : TaskId} {fuel : Nat}

/-- What has been added for a zombie that is not released yet. -/
def owed (times : TaskId → Times) : Option TaskId → BitVec 32 × BitVec 32
  | some c => accumulated (times c)
  | none => 0

/-- Everybody has the times of the children it has released, and of the one it is about to
release. -/
structure Counted (s : State) : Prop where
  waiter : ∀ p c, s.inHand p = some c → p ∈ s.tasks.list ∧ (s.tasks.tasks p).stage = .alive
  zombie : ∀ p c, s.inHand p = some c → c ∈ s.tasks.list ∧ (s.tasks.tasks c).stage = .done
  once : ∀ p q c, s.inHand p = some c → s.inHand q = some c → p = q
  times : ∀ p, childTimes (s.times p) = s.reaped p + owed s.times (s.inHand p)

/-- The zombie is in no other call's hand, the answers can be written, and the zombie is not to
be given back to another parent. -/
def Careful (s : State) : Event → Prop
  | .found cur i j => ∀ c ∈ childAt s.tasks (threadAt s.tasks cur i) j, ∀ q, s.inHand q ≠ some c
  | .finish cur ru statAddr => copyOut ru statAddr = 0 ∧
      ∀ c ∈ s.inHand cur, (s.tasks.tasks c).opptr = (s.tasks.tasks c).pptr
  | _ => True

theorem owed_congr {times times' : TaskId → Times} {o : Option TaskId}
    (h : ∀ c ∈ o, times' c = times c) : owed times' o = owed times o := by
  cases o with
  | none => rfl
  | some c => exact congrArg accumulated (h c rfl)

theorem childTimes_addChild (t c : Times) :
    childTimes (addChild t c) = childTimes t + accumulated c := rfl

theorem Counted.task (h : Counted s) {o : Op} (hs : exec fuel s (.task o) = some s') :
    Counted s' := by
  simp only [exec] at hs
  split at hs
  case isFalse => cases hs
  case isTrue hguard =>
  obtain ⟨hok, cur, hcur, hidle⟩ := hguard
  obtain ⟨sys, hsys, rfl⟩ := Option.map_eq_some_iff.mp hs
  have hstays := exec_stays hok hcur hsys
  have hne {p c : TaskId} (hp : s.inHand p = some c) : p ≠ cur := by
    rintro rfl
    rw [hidle] at hp
    cases hp
  -- what `do_fork` clears belongs to nobody on the list
  have hkeep {α : Type} (zero : α) (f : TaskId → α) {q : TaskId} (hq : q ∈ s.tasks.list) :
      atFork o zero f q = f q := by
    unfold atFork
    split
    next p _ _ =>
      refine Function.update_of_ne ?_ _ _
      rintro rfl
      exact hok.2.2.1 hq
    · rfl
  refine ⟨fun p c hp => ?_, fun p c hp => ?_, h.once, fun p => ?_⟩
  · obtain ⟨hlist, halive⟩ := h.waiter p c hp
    exact ⟨hstays.list p hlist, hstays.alive p hlist (hne hp) halive⟩
  · obtain ⟨hlist, hdone⟩ := h.zombie p c hp
    exact ⟨hstays.list c hlist, hstays.done c hlist hdone⟩
  · have htimes := h.times p
    dsimp only
    rw [owed_congr fun c hc => hkeep noTimes s.times (h.zombie p c hc).1]
    unfold atFork
    split
    next p' _ _ =>
      rcases eq_or_ne p p' with rfl | hpp
      · have hnone : s.inHand p = none := by
          cases hq : s.inHand p with
          | none => rfl
          | some c => exact absurd (h.waiter p c hq).1 hok.2.2.1
        rw [Function.update_self, Function.update_self, hnone]
        rfl
      · rw [Function.update_of_ne hpp, Function.update_of_ne hpp]
        exact htimes
    · exact htimes

theorem Counted.charge (h : Counted s) {utime stime : BitVec 32}
    (hs : exec fuel s (.charge p utime stime) = some s') : Counted s' := by
  simp only [exec] at hs
  split at hs <;> cases hs
  case isTrue hguard =>
  refine ⟨h.waiter, h.zombie, h.once, fun q => ?_⟩
  have hzombie : ∀ c ∈ s.inHand q, c ≠ p := by
    rintro c hc rfl
    exact hguard.2 (h.zombie q c hc).2
  dsimp only
  rw [owed_congr fun c hc => Function.update_of_ne (hzombie c hc) _ _]
  rcases eq_or_ne q p with rfl | hne
  · rw [Function.update_self]
    exact h.times q
  · rw [Function.update_of_ne hne]
    exact h.times q

theorem Counted.found (h : Counted s) {i j : Nat} (hc : Careful s (.found cur i j))
    (hs : exec fuel s (.found cur i j) = some s') : Counted s' := by
  simp only [exec] at hs
  split at hs
  case isFalse => cases hs
  case isTrue hguard =>
  obtain ⟨hok, hidle⟩ := hguard
  obtain ⟨c, hchild, hs⟩ := Option.bind_eq_some_iff.mp hs
  split at hs <;> cases hs
  case isTrue hzombie =>
  obtain ⟨hfree, _⟩ := hok
  have hnew := hc c hchild
  have hne : c ≠ cur := by
    rintro rfl
    have halive := hfree.2.1
    rw [hzombie.2] at halive
    cases halive
  refine ⟨fun p d hp => ?_, fun p d hp => ?_, fun p q d hp hq => ?_, fun p => ?_⟩
  · rcases eq_of_update hp with ⟨rfl, _⟩ | ⟨_, hp⟩
    · exact ⟨hfree.1, hfree.2.1⟩
    · exact h.waiter p d hp
  · rcases eq_of_update hp with ⟨_, hd⟩ | ⟨_, hp⟩
    · cases hd
      exact hzombie
    · exact h.zombie p d hp
  · rcases eq_of_update hp with ⟨hpc, hd⟩ | ⟨_, hp'⟩ <;>
      rcases eq_of_update hq with ⟨hqc, hd'⟩ | ⟨_, hq'⟩
    · exact hpc.trans hqc.symm
    · cases hd
      exact absurd hq' (hnew q)
    · cases hd'
      exact absurd hp' (hnew p)
    · exact h.once p q d hp' hq'
  · have htimes := h.times p
    dsimp only
    rcases eq_or_ne p cur with rfl | hpc
    · rw [hidle, owed, add_zero] at htimes
      rw [Function.update_self, Function.update_self, childTimes_addChild, htimes, owed,
        Function.update_of_ne hne]
    · rw [Function.update_of_ne hpc, Function.update_of_ne hpc, htimes]
      refine congrArg _ (owed_congr fun d hd => ?_).symm
      -- the caller is alive, so it is not the zombie in another call
      refine Function.update_of_ne ?_ _ _
      rintro rfl
      have hdone := (h.zombie p d hd).2
      rw [hfree.2.1] at hdone
      cases hdone

theorem Counted.finish (h : Counted s) {ru statAddr : Pointer}
    (hc : Careful s (.finish cur ru statAddr))
    (hs : exec fuel s (.finish cur ru statAddr) = some s') : Counted s' := by
  obtain ⟨c, hcur, hs⟩ := Option.bind_eq_some_iff.mp hs
  split at hs <;> cases hs
  obtain ⟨hcopy, hparent⟩ := hc
  have hsame := hparent c hcur
  have hlist (q : TaskId) (hq : q ∈ s.tasks.list) (hne : q ≠ c) :
      q ∈ (waitDone c s.tasks).list ∧
        ((waitDone c s.tasks).tasks q).stage = (s.tasks.tasks q).stage := by
    unfold waitDone
    rw [if_neg (not_not.mpr hsame)]
    obtain ⟨_, _, _, heq⟩ := releaseTask_tasks hne { s.tasks with found := s.tasks.found.erase c }
    refine ⟨?_, by rw [heq]⟩
    change q ∈ (removeLinks c _).list
    rw [removeLinks_list]
    exact (List.mem_erase_of_ne hne).mpr hq
  have hother {p d : TaskId} (hpc : p ≠ cur) (hp : s.inHand p = some d) : d ≠ c ∧ p ≠ c := by
    refine ⟨fun heq => hpc (h.once p cur c (heq ▸ hp) hcur), ?_⟩
    rintro rfl
    have halive := (h.waiter p d hp).2
    rw [(h.zombie cur p hcur).2] at halive
    cases halive
  unfold ChildTimes.finish
  rw [if_neg (not_not.mpr hcopy), if_neg (not_not.mpr hsame)]
  have hleft {p d : TaskId} (hp : Function.update s.inHand cur none p = some d) :
      p ≠ cur ∧ s.inHand p = some d :=
    (eq_of_update hp).resolve_left fun hnone => by cases hnone.2
  refine ⟨fun p d hp => ?_, fun p d hp => ?_, fun p q d hp hq => ?_, fun p => ?_⟩
  · obtain ⟨hpc, hp⟩ := hleft hp
    obtain ⟨hmem, halive⟩ := h.waiter p d hp
    obtain ⟨hmem', hstage⟩ := hlist p hmem (hother hpc hp).2
    exact ⟨hmem', hstage.trans halive⟩
  · obtain ⟨hpc, hp⟩ := hleft hp
    obtain ⟨hmem, hdone⟩ := h.zombie p d hp
    obtain ⟨hmem', hstage⟩ := hlist d hmem (hother hpc hp).1
    exact ⟨hmem', hstage.trans hdone⟩
  · exact h.once p q d (hleft hp).2 (hleft hq).2
  · have htimes := h.times p
    dsimp only
    rcases eq_or_ne p cur with rfl | hpc
    · rw [hcur] at htimes
      rw [Function.update_self, Function.update_self, htimes, owed, owed, add_zero]
    · rw [Function.update_of_ne hpc, Function.update_of_ne hpc]
      exact htimes

theorem step_counted (h : Counted s) (hc : Careful s e) (hs : Step s e s') : Counted s' := by
  obtain ⟨fuel, hs⟩ := hs
  cases e with
  | task o => exact h.task hs
  | charge p utime stime => exact h.charge hs
  | fails cur =>
    simp only [exec] at hs
    split at hs <;> cases hs
    exact h
  | found cur i j => exact h.found hc hs
  | finish cur ru statAddr => exact h.finish hc hs

theorem boot_counted : Counted boot :=
  ⟨fun _ _ h => (by cases h), fun _ _ h => (by cases h), fun _ _ _ h => (by cases h), fun _ => rfl⟩

/-- The times of the children of a task that is in no call of `sys_wait4` are those of the
children it has released. A zombie that is about to be released has been counted for one
task. -/
theorem child_times_counted {es : List Event} (hrun : Run (Meeting Careful Step) boot es s) :
    (∀ p, s.inHand p = none → childTimes (s.times p) = s.reaped p) ∧
    (∀ p c, s.inHand p = some c →
      childTimes (s.times p) = s.reaped p + accumulated (s.times c) ∧
        c ∈ s.tasks.list ∧ (s.tasks.tasks c).stage = .done ∧ ∀ q, s.inHand q = some c → q = p) := by
  have hcounted : Counted s := hrun.invariant (fun _ _ _ hi h1 => step_counted hi h1.1 h1.2)
    boot_counted
  refine ⟨fun p hp => ?_, fun p c hp => ⟨?_, hcounted.zombie p c hp |>.1,
    hcounted.zombie p c hp |>.2, fun q hq => hcounted.once q p c hq hp⟩⟩
  · have htimes := hcounted.times p
    rwa [hp, owed, add_zero] at htimes
  · have htimes := hcounted.times p
    rwa [hp] at htimes

/-! ### Runs -/

/-- `exec` without `sys_wait4`. -/
def execOther (s : State) (e : Event) : Option State :=
  match e with
  | .task _ | .charge .. => exec 4 s e
  | _ => none

theorem step_of_execOther (s : State) (e : Event) (s' : State) (h : execOther s e = some s') :
    Meeting Careful Step s e s' := by
  cases e with
  | task o => exact ⟨trivial, 4, h⟩
  | charge p utime stime => exact ⟨trivial, 4, h⟩
  | fails cur => cases h
  | found cur i j => cases h
  | finish cur ru statAddr => cases h

theorem step_of_exec (s : State) (e : Event) (s' : State) (h : exec 4 s e = some s') :
    Step s e s' := ⟨4, h⟩

def forked (p cur : TaskId) (flags : CloneFlags) : List Event :=
  [.task (.forkStart p cur flags), .task (.forkLink ⟨p, cur, flags⟩)]

/-- The task runs for a while, and exits. -/
def works (p : TaskId) : List Event :=
  [.charge p 5 3, .task (.doExit p), .task (.forgetOriginalParent p), .task (.exitNotify p)]

/-- A child of process 1 has exited. -/
def orphaned : List Event := forked 1 swapper noFlags ++ forked 2 1 noFlags ++ works 2

theorem child_times_counted_once : ∃ s,
    execAll (exec 4) boot (orphaned ++ [.found 1 0 0, .finish 1 .good .null]) = some s ∧
      s.reaped 1 = (5, 3) ∧ childTimes (s.times 1) = s.reaped 1 := by
  obtain ⟨s₀, h₀, hidle⟩ : ∃ s, execAll execOther boot orphaned = some s ∧
      s.inHand = fun _ => none := ⟨_, rfl, rfl⟩
  obtain ⟨s₁, h₁⟩ : ∃ s, exec 4 s₀ (.found 1 0 0) = some s := by
    cases h₀
    exact ⟨_, rfl⟩
  obtain ⟨s, h₂, hreaped, hnone, hparent⟩ : ∃ s, exec 4 s₁ (.finish 1 .good .null) = some s ∧
      s.reaped 1 = (5, 3) ∧ s.inHand 1 = none ∧
      ∀ c ∈ s₁.inHand 1, (s₁.tasks.tasks c).opptr = (s₁.tasks.tasks c).pptr := by
    cases h₀
    cases h₁
    exact ⟨_, rfl, by decide, rfl, by decide⟩
  have hfound : Meeting Careful Step s₀ (.found 1 0 0) s₁ := by
    refine ⟨fun c _ q hq => ?_, 4, h₁⟩
    rw [hidle] at hq
    cases hq
  have hfinish : Meeting Careful Step s₁ (.finish 1 .good .null) s := ⟨⟨rfl, hparent⟩, 4, h₂⟩
  have hrun := (Run.of_execAll step_of_execOther h₀).append (.cons hfound (.cons hfinish (.nil s)))
  refine ⟨s, ?_, hreaped, (child_times_counted hrun).1 1 hnone⟩
  cases h₀
  cases h₁
  cases h₂
  rfl

/-- The status cannot be written, and the call is repeated with a good address. -/
def repeated : List Event :=
  orphaned ++ [.found 1 0 0, .finish 1 .null .bad, .found 1 0 0, .finish 1 .null .good]

/-- A tracer waits for the child of process 1 before process 1 does. -/
def traced : List Event :=
  forked 1 swapper noFlags ++ forked 2 1 noFlags ++ forked 3 1 noFlags ++
    [.task (.ptraceAttach 3 2)] ++ works 2 ++ [.found 3 0 0, .finish 3 .null .good,
      .found 1 0 0, .finish 1 .null .good]

/-- Two threads find the same zombie. -/
def shared : List Event :=
  forked 1 swapper noFlags ++ forked 2 1 ⟨false, false, false, true⟩ ++ forked 3 1 noFlags ++
    works 3 ++ [.found 1 0 0, .found 2 1 0]

/-- The child is counted twice for the parent that was refused, for a tracer that does not release
it, and for each of two threads. -/
theorem child_times_repeated :
    (∃ s, Run Step boot repeated s ∧ childTimes (s.times 1) = (10, 6) ∧ s.reaped 1 = (5, 3)) ∧
    (∃ s, Run Step boot traced s ∧ childTimes (s.times 3) = (5, 3) ∧ s.reaped 3 = 0 ∧
      childTimes (s.times 1) = (5, 3) ∧ s.reaped 1 = (5, 3)) ∧
    ∃ s, Run Step boot shared s ∧ childTimes (s.times 1) = (5, 3) ∧
      childTimes (s.times 2) = (5, 3) ∧ s.inHand 1 = some 3 ∧ s.inHand 2 = some 3 := by
  refine ⟨?_, ?_, ?_⟩
  · obtain ⟨s, hs, htimes⟩ : ∃ s, execAll (exec 4) boot repeated = some s ∧
        childTimes (s.times 1) = (10, 6) ∧ s.reaped 1 = (5, 3) := ⟨_, rfl, by decide⟩
    exact ⟨s, Run.of_execAll step_of_exec hs, htimes⟩
  · obtain ⟨s, hs, htimes⟩ : ∃ s, execAll (exec 4) boot traced = some s ∧
        childTimes (s.times 3) = (5, 3) ∧ s.reaped 3 = 0 ∧
        childTimes (s.times 1) = (5, 3) ∧ s.reaped 1 = (5, 3) := ⟨_, rfl, by decide⟩
    exact ⟨s, Run.of_execAll step_of_exec hs, htimes⟩
  · obtain ⟨s, hs, htimes⟩ : ∃ s, execAll (exec 4) boot shared = some s ∧
        childTimes (s.times 1) = (5, 3) ∧ childTimes (s.times 2) = (5, 3) ∧
        s.inHand 1 = some 3 ∧ s.inHand 2 = some 3 := ⟨_, rfl, by decide⟩
    exact ⟨s, Run.of_execAll step_of_exec hs, htimes⟩

end Runs

end CustomKernel.Proc.ChildTimes

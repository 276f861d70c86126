import CustomKernel.Proc.PidSearch
import Mathlib.Data.List.Perm.Subperm

/-! # Process groups and sessions

`sys_setpgid` lets a task into a group that has a member in its session, or makes a
group of the task's own pid without a look at who is in it. That is sound because of a
second invariant: whoever is in a group whose number is somebody's pid is in the session
of that task. `sys_setsid` looks for members of the group of the caller's pid on the task
list. A child that `do_fork` is making has the group and the session of its parent at the
time of the copy, and is not on the list. -/
namespace CustomKernel.Proc.Session
open Lib.Transition Proc.Tasks Proc.Pid Function

variable {s s' : State} {o : Op} {p q r cur : TaskId} {fuel : Nat}

/-! ## What is kept -/

/-- Where a task stands among groups and sessions. -/
structure Place where
  pid : Nat
  pgrp : Nat
  session : Nat
  leader : Bool

def place (t : Task) : Place := ⟨t.pid, t.pgrp, t.session, t.leader⟩

/-- The tasks on the list, and those that are being made. -/
def existing (s : State) : List TaskId := s.list ++ s.making.map Making.child

/-- No task comes, and nobody moves. -/
structure Kept (s s' : State) : Prop where
  existing : (existing s').Subperm (existing s)
  place : ∀ q ∈ Session.existing s', place (s'.tasks q) = place (s.tasks q)

theorem kept_calm (h : Calm cur s s') : Kept s s' := by
  refine ⟨?_, fun q _ => ?_⟩
  · rw [existing, existing, h.making]
    exact (h.list.append_right _).subperm
  · have hname := h.name q
    simp only [name, Prod.mk.injEq] at hname
    simp [Session.place, hname]

theorem kept_forkAbort (m : Making) (s : State) : Kept s (forkAbort m s) :=
  ⟨(List.Subperm.refl _).append (List.erase_sublist.map _).subperm, fun _ _ => rfl⟩

/-- The child comes to the list as it is. -/
theorem kept_forkLink {m : Making} (hm : m ∈ s.making) : Kept s (forkLink m s) := by
  obtain ⟨hlist, hmaking, _, _, htasks⟩ := forkLink_frame m s
  refine ⟨?_, fun q _ => ?_⟩
  · rw [existing, hlist, hmaking, List.append_assoc]
    have hperm := (List.perm_cons_erase hm).map Making.child
    exact (hperm.symm.append_left s.list).subperm
  · obtain ⟨c, y, o, hq⟩ := htasks q
    rw [hq]
    rcases eq_or_ne q m.child with rfl | hne
    · rw [update_self]
      rfl
    · rw [update_of_ne hne]
      rfl

/-- A task that is released has another pid, and does not exist. -/
theorem kept_releaseTask (hnodup : (existing s).Nodup) (hp : p ∈ s.list) :
    Kept s (releaseTask p s) := by
  have hgone : existing (releaseTask p s) = (existing s).erase p := by
    change (removeLinks p s).list ++ (removeLinks p s).making.map Making.child = _
    rw [removeLinks_list, (onlyLinks_removeLinks p s).making, existing,
      List.erase_append_left _ hp]
  refine ⟨hgone ▸ List.erase_sublist.subperm, fun q hq => ?_⟩
  have hne : q ≠ p := fun heq => hnodup.not_mem_erase (hgone ▸ heq ▸ hq)
  obtain ⟨c, y, o, heq⟩ := releaseTask_tasks hne s
  rw [heq]
  rfl

/-! ## The invariant -/

/-- A group is within a session, also the group whose number is the pid of a task, whether or
not that task is in it. -/
structure Grouped (s : State) : Prop where
  nodup : (existing s).Nodup
  pos : ∀ q ∈ existing s, (s.tasks q).pid ≠ 0
  pids : ∀ q ∈ existing s, ∀ r ∈ existing s, (s.tasks q).pid = (s.tasks r).pid → q = r
  group : ∀ q ∈ existing s, ∀ r ∈ existing s,
    (s.tasks q).pgrp = (s.tasks r).pgrp → (s.tasks q).session = (s.tasks r).session
  owner : ∀ q ∈ existing s, ∀ r ∈ existing s,
    (s.tasks q).pgrp = (s.tasks r).pid → (s.tasks q).session = (s.tasks r).session
  leader : ∀ q ∈ existing s, (s.tasks q).leader = true →
    (s.tasks q).session = (s.tasks q).pid ∧ (s.tasks q).pgrp = (s.tasks q).pid

theorem Grouped.kept (h : Grouped s) (hk : Kept s s') : Grouped s' := by
  have hsub {q : TaskId} (hq : q ∈ existing s') : q ∈ existing s := hk.existing.subset hq
  have hpid {q : TaskId} (hq : q ∈ existing s') : (s'.tasks q).pid = (s.tasks q).pid :=
    congrArg Place.pid (hk.place q hq)
  have hpgrp {q : TaskId} (hq : q ∈ existing s') : (s'.tasks q).pgrp = (s.tasks q).pgrp :=
    congrArg Place.pgrp (hk.place q hq)
  have hsession {q : TaskId} (hq : q ∈ existing s') :
      (s'.tasks q).session = (s.tasks q).session :=
    congrArg Place.session (hk.place q hq)
  have hleader {q : TaskId} (hq : q ∈ existing s') : (s'.tasks q).leader = (s.tasks q).leader :=
    congrArg Place.leader (hk.place q hq)
  refine ⟨?_, fun q hq => ?_, fun q hq r hr heq => ?_, fun q hq r hr heq => ?_,
    fun q hq r hr heq => ?_, fun q hq hlead => ?_⟩
  · obtain ⟨l, hperm, hl⟩ := hk.existing
    exact hperm.nodup_iff.mp (h.nodup.sublist hl)
  · rw [hpid hq]
    exact h.pos q (hsub hq)
  · rw [hpid hq, hpid hr] at heq
    exact h.pids q (hsub hq) r (hsub hr) heq
  · rw [hpgrp hq, hpgrp hr] at heq
    rw [hsession hq, hsession hr]
    exact h.group q (hsub hq) r (hsub hr) heq
  · rw [hpgrp hq, hpid hr] at heq
    rw [hsession hq, hsession hr]
    exact h.owner q (hsub hq) r (hsub hr) heq
  · rw [hleader hq] at hlead
    rw [hsession hq, hpid hq, hpgrp hq]
    exact h.leader q (hsub hq) hlead

/-- One task is new or moves, to a group all of whose members are in the session it will be in. -/
theorem Grouped.renew (h : Grouped s) {t : Task} (hnodup : (existing s').Nodup)
    (hmem : ∀ q ∈ existing s',
      s'.tasks q = t ∧ q = p ∨ s'.tasks q = s.tasks q ∧ q ∈ existing s ∧ q ≠ p)
    (hpos : t.pid ≠ 0) (hpids : ∀ r ∈ existing s, r ≠ p → (s.tasks r).pid ≠ t.pid)
    (hgroup : ∀ r ∈ existing s, r ≠ p → (s.tasks r).pgrp = t.pgrp → (s.tasks r).session = t.session)
    (howner : ∀ r ∈ existing s, r ≠ p → (s.tasks r).pid = t.pgrp → (s.tasks r).session = t.session)
    (howned : ∀ r ∈ existing s, r ≠ p → (s.tasks r).pgrp = t.pid → (s.tasks r).session = t.session)
    (hleader : t.leader = true → t.session = t.pid ∧ t.pgrp = t.pid) : Grouped s' := by
  refine ⟨hnodup, fun q hq => ?_, fun q hq r hr => ?_, fun q hq r hr => ?_, fun q hq r hr => ?_,
    fun q hq => ?_⟩
  all_goals rcases hmem q hq with ⟨hqt, rfl⟩ | ⟨hqt, hq, hqp⟩ <;> rw [hqt]
  · exact hpos
  · exact h.pos q hq
  · rcases hmem r hr with ⟨_, rfl⟩ | ⟨hrt, hr, hrp⟩
    · exact fun _ => rfl
    · rw [hrt]
      exact fun heq => absurd heq.symm (hpids r hr hrp)
  · rcases hmem r hr with ⟨hrt, rfl⟩ | ⟨hrt, hr, _⟩ <;> rw [hrt]
    · exact fun heq => absurd heq (hpids q hq hqp)
    · exact h.pids q hq r hr
  · rcases hmem r hr with ⟨hrt, _⟩ | ⟨hrt, hr, hrp⟩ <;> rw [hrt]
    · exact fun _ => rfl
    · exact fun heq => (hgroup r hr hrp heq.symm).symm
  · rcases hmem r hr with ⟨hrt, rfl⟩ | ⟨hrt, hr, _⟩ <;> rw [hrt]
    · exact hgroup q hq hqp
    · exact h.group q hq r hr
  · rcases hmem r hr with ⟨hrt, _⟩ | ⟨hrt, hr, hrp⟩ <;> rw [hrt]
    · exact fun _ => rfl
    · exact fun heq => (howner r hr hrp heq.symm).symm
  · rcases hmem r hr with ⟨hrt, rfl⟩ | ⟨hrt, hr, _⟩ <;> rw [hrt]
    · exact howned q hq hqp
    · exact h.owner q hq r hr
  · exact hleader
  · exact h.leader q hq

theorem Grouped.move (h : Grouped s) (hp : p ∈ existing s) {f : Task → Task}
    (hpid : (f (s.tasks p)).pid = (s.tasks p).pid)
    (hgroup : ∀ r ∈ existing s, r ≠ p → (s.tasks r).pgrp = (f (s.tasks p)).pgrp →
      (s.tasks r).session = (f (s.tasks p)).session)
    (howner : ∀ r ∈ existing s, r ≠ p → (s.tasks r).pid = (f (s.tasks p)).pgrp →
      (s.tasks r).session = (f (s.tasks p)).session)
    (howned : ∀ r ∈ existing s, r ≠ p → (s.tasks r).pgrp = (s.tasks p).pid →
      (s.tasks r).session = (f (s.tasks p)).session)
    (hleader : (f (s.tasks p)).leader = true →
      (f (s.tasks p)).session = (s.tasks p).pid ∧ (f (s.tasks p)).pgrp = (s.tasks p).pid) :
    Grouped (s.setTask p f) := by
  rw [← hpid] at howned hleader
  refine h.renew h.nodup (fun q hq => ?_) (hpid ▸ h.pos p hp) (fun r hr hne heq => ?_) hgroup howner
    howned hleader
  · rcases eq_or_ne q p with rfl | hne
    · exact .inl ⟨update_self .., rfl⟩
    · exact .inr ⟨update_of_ne hne .., hq, hne⟩
  · exact hne (h.pids r hr p hp (heq.trans hpid))

/-! ## Steps -/

/-- A process forks and gets a pid that is new, `sys_setsid` is called while no child is being
made whose group is the pid of the caller, and a zombie is released once. -/
def Orderly (s : State) : Op → Prop
  | .forkStart _ cur _ => cur ≠ swapper ∧
      ∀ fuel pid last next,
        getPid fuel (s.list.map s.tasks) s.lastPid s.nextSafe = some (pid, last, next) → pid ≠ 0 →
        ∀ q ∈ existing s,
          pid ≠ (s.tasks q).pid ∧ pid ≠ (s.tasks q).pgrp ∧ pid ≠ (s.tasks q).session
  | .setsid cur => ∀ m ∈ s.making, (s.tasks m.child).pgrp ≠ (s.tasks cur).pid
  | .waitDone p => p ∈ s.list
  | _ => True

theorem mem_existing : q ∈ existing s ↔ q ∈ s.list ∨ ∃ m ∈ s.making, m.child = q := by
  rw [existing, List.mem_append, List.mem_map]

theorem Grouped.setpgid (h : Grouped s) {pid pgid : Int} {found : Option TaskId}
    (hok : (Op.setpgid cur pid pgid found).Allowed s) :
    Grouped (sysSetpgid cur pid pgid found s).2 := by
  rcases sysSetpgid_cases hok with heq | ⟨p, hp, gid, hleader, hgroup, heq⟩
  · rw [heq]
    exact h
  rw [heq]
  have hp := mem_existing.mpr (.inl hp)
  have hnone : (s.tasks p).leader = true → False := by simp [hleader]
  rcases hgroup with rfl | ⟨w, hw, rfl, hsession⟩
  · refine h.move hp rfl (fun r hr _ hgrp => h.owner r hr p hp hgrp) (fun r hr hne heq => ?_)
      (fun r hr _ hgrp => h.owner r hr p hp hgrp) (fun hlead => (hnone hlead).elim)
    exact absurd (h.pids r hr p hp heq) hne
  · have hw := mem_existing.mpr (.inl hw)
    refine h.move hp rfl (fun r hr _ hgrp => ?_) (fun r hr _ heq => ?_)
      (fun r hr _ hgrp => h.owner r hr p hp hgrp) (fun hlead => (hnone hlead).elim)
    · exact (h.group r hr w hw hgrp).trans hsession
    · exact (h.owner w hw r hr heq.symm).symm.trans hsession

theorem Grouped.setsid (h : Grouped s) (hcur : cur ∈ s.list)
    (hc : Orderly s (.setsid cur)) : Grouped (sysSetsid cur s).2 := by
  unfold sysSetsid
  split
  · exact h
  next hnone =>
  have hcur := mem_existing.mpr (.inl hcur)
  have hempty : ∀ r ∈ existing s, (s.tasks r).pgrp ≠ (s.tasks cur).pid := by
    intro r hr hgrp
    rcases mem_existing.mp hr with hr | ⟨m, hm, rfl⟩
    · exact hnone ⟨r, hr, hgrp⟩
    · exact hc m hm hgrp
  refine h.move hcur (f := fun t => { t with leader := true, session := t.pid, pgrp := t.pid }) rfl
    (fun r hr _ hgrp => absurd hgrp (hempty r hr))
    (fun r hr hne heq => absurd (h.pids r hr cur hcur heq) hne)
    (fun r hr _ hgrp => absurd hgrp (hempty r hr)) fun _ => ⟨rfl, rfl⟩

/-- The child stands where its parent does, with a pid of its own. -/
theorem Grouped.forkStart (h : Grouped s) {flags : CloneFlags}
    (hok : (Op.forkStart p cur flags).Allowed s) (hc : Orderly s (.forkStart p cur flags))
    (hs : forkStart fuel p cur flags s = some s') : Grouped s' := by
  obtain ⟨hcur, _, hp, hpm⟩ := hok
  have hcur : cur ∈ existing s := by
    rcases hcur with hfree | ⟨heq, _⟩
    · exact mem_existing.mpr (.inl hfree.1)
    · exact absurd heq hc.1
  have hnew : p ∉ existing s := by
    intro hmem
    rcases mem_existing.mp hmem with hmem | ⟨m, hm, rfl⟩
    · exact hp hmem
    · exact hpm m hm rfl
  unfold Tasks.forkStart at hs
  split at hs
  · cases hs
    exact h
  next hflag =>
  have hflag : flags.pid ≠ true := fun hflag' => hflag ⟨hflag', h.pos cur hcur⟩
  dsimp only at hs
  rw [if_neg hflag] at hs
  obtain ⟨⟨pid, last, next⟩, hgot, rfl⟩ := Option.map_eq_some_iff.mp hs
  split
  · exact ⟨h.nodup, h.pos, h.pids, h.group, h.owner, h.leader⟩
  next hfound =>
  have hpid : pid ≠ 0 := fun hzero => hfound ⟨hzero, h.pos cur hcur⟩
  have hfresh := hc.2 fuel pid last next hgot hpid
  have hperm : (p :: existing s).Perm (s.list ++ p :: s.making.map Making.child) :=
    List.perm_middle.symm
  refine h.renew (p := p) (t := { s.tasks cur with
    pid := pid, leader := false, didExec := false,
    ptraced := (s.tasks cur).ptraced && flags.ptrace, cptr := none }) (hperm.nodup_iff.mp (List.nodup_cons.mpr ⟨hnew, h.nodup⟩)) (fun q hq => ?_)
    hpid (fun r hr _ heq => (hfresh r hr).1 heq.symm) (fun r hr _ => h.group r hr cur hcur)
    (fun r hr _ heq => (h.owner cur hcur r hr heq.symm).symm)
    (fun r hr _ heq => absurd heq.symm (hfresh r hr).2.1) (fun hlead => by cases hlead)
  rcases List.mem_cons.mp (hperm.symm.subset hq) with rfl | hq
  · exact .inl ⟨update_self .., rfl⟩
  · have hne : q ≠ p := fun heq => hnew (heq ▸ hq)
    exact .inr ⟨update_of_ne hne .., hq, hne⟩

theorem step_grouped (h : Grouped s) (hc : Orderly s o) (hs : Step s o s') : Grouped s' := by
  obtain ⟨hok, fuel, hexec⟩ := hs
  cases o with
  | forkStart p cur flags => exact h.forkStart hok hc hexec
  | forkAbort m =>
    cases hexec
    exact h.kept (kept_forkAbort m s)
  | forkLink m =>
    cases hexec
    exact h.kept (kept_forkLink hok)
  | setpgid cur pid pgid found =>
    cases hexec
    exact h.setpgid hok
  | setsid cur =>
    cases hexec
    exact h.setsid hok.1 hc
  | execve cur | becomeReaper cur | reparentToInit cur | traceMe cur | ptraceAttach cur p
  | ptraceDetach cur p | doExit cur | forgetOriginalParent cur | exitNotify cur
  | waitFound cur i j => exact h.kept (kept_calm (exec_calm hok rfl hexec))
  | waitDone p =>
    cases hexec
    have hfound : Grouped { s with found := s.found.erase p } :=
      h.kept ⟨List.Subperm.refl _, fun _ _ => rfl⟩
    have hp : p ∈ { s with found := s.found.erase p }.list := hc
    unfold Tasks.waitDone
    dsimp only
    split
    · exact hfound.kept (kept_calm (calm_relink p hp _))
    · exact hfound.kept (kept_releaseTask hfound.nodup hp)

/-! ## Runs -/

/-- A group is within a session, and a session leader is in the group and the session of its
own pid. -/
def OneSession (s : State) : Prop :=
  (∀ q ∈ s.list, ∀ r ∈ s.list,
    (s.tasks q).pgrp = (s.tasks r).pgrp → (s.tasks q).session = (s.tasks r).session) ∧
  ∀ q ∈ s.list, (s.tasks q).leader = true →
    (s.tasks q).session = (s.tasks q).pid ∧ (s.tasks q).pgrp = (s.tasks q).pid

instance (s : State) : Decidable (OneSession s) := inferInstanceAs (Decidable (_ ∧ _))

theorem one_session {es : List Op} (h : Grouped s) (hrun : Run (Meeting Orderly Step) s es s') :
    OneSession s' := by
  have hgrouped : Grouped s' := hrun.invariant (fun _ _ _ hi h1 => step_grouped hi h1.1 h1.2) h
  have hmem {q : TaskId} (hq : q ∈ s'.list) : q ∈ existing s' := mem_existing.mpr (.inl hq)
  exact ⟨fun q hq r hr => hgrouped.group q (hmem hq) r (hmem hr),
    fun q hq => hgrouped.leader q (hmem hq)⟩

/-! ## Examples of runs -/

/-- A step that is allowed and needs no search. -/
def execAllowed (s : State) (o : Op) : Option State := if o.Allowed s then o.exec 1 s else none

theorem step_of_execAllowed (s : State) (o : Op) (s' : State) (h : execAllowed s o = some s') :
    Step s o s' := by
  unfold execAllowed at h
  split at h
  next hok => exact ⟨hok, 1, h⟩
  · cases h

/-- The process made at boot. -/
def alone : State := forkLink firstFork starting

theorem alone_grouped : Grouped alone := by
  refine ⟨?_, ?_, ?_, ?_, ?_, ?_⟩ <;> decide

/-- Process 1 leads a session, and its child a group of its own. -/
theorem one_session_shell : ∃ s,
    execAll execAllowed alone [.setsid 1, .forkStart 2 1 noFlags, .forkLink ⟨2, 1, noFlags⟩,
      .setpgid 2 0 0 (some 2)] = some s ∧
    (s.tasks 1).leader = true ∧ (s.tasks 2).pgrp = 2 ∧ (s.tasks 2).session = 1 ∧ OneSession s := by
  obtain ⟨s1, h1, hfresh⟩ : ∃ s, execAllowed alone (.setsid 1) = some s ∧
      (Room s.lastPid s.nextSafe ∧ ∀ q ∈ existing s, s.lastPid + 1 ≠ (s.tasks q).pid ∧
        s.lastPid + 1 ≠ (s.tasks q).pgrp ∧ s.lastPid + 1 ≠ (s.tasks q).session) :=
    ⟨_, rfl, ⟨by decide, by decide⟩, by decide⟩
  obtain ⟨s, hrest, hleader, hpgrp, hsession⟩ : ∃ s, execAll execAllowed s1
      [.forkStart 2 1 noFlags, .forkLink ⟨2, 1, noFlags⟩, .setpgid 2 0 0 (some 2)] = some s ∧
      (s.tasks 1).leader = true ∧ (s.tasks 2).pgrp = 2 ∧ (s.tasks 2).session = 1 := by
    cases h1
    exact ⟨_, rfl, by decide, by decide, by decide⟩
  have hsetsid : Meeting Orderly Step alone (.setsid 1) s1 :=
    ⟨fun m hm => absurd hm List.not_mem_nil, step_of_execAllowed _ _ _ h1⟩
  have hall : execAll execAllowed alone [.setsid 1, .forkStart 2 1 noFlags,
      .forkLink ⟨2, 1, noFlags⟩, .setpgid 2 0 0 (some 2)] = some s := by
    rw [execAll, h1]
    exact hrest
  cases Run.of_execAll step_of_execAllowed hrest with
  | cons hfork hrest =>
  cases hrest with
  | cons hlink hrest =>
  cases hrest with
  | cons hpgid hrest =>
  cases hrest with
  | nil =>
  have horderly : Orderly s1 (.forkStart 2 1 noFlags) := by
    refine ⟨by decide, fun fuel pid last next hget _ => ?_⟩
    rw [getPid_room hfresh.1] at hget
    cases hget
    exact hfresh.2
  have hrun : Run (Meeting Orderly Step) alone [.setsid 1, .forkStart 2 1 noFlags,
      .forkLink ⟨2, 1, noFlags⟩, .setpgid 2 0 0 (some 2)] s :=
    .cons hsetsid (.cons ⟨horderly, hfork⟩
      (.cons ⟨trivial, hlink⟩ (.cons ⟨trivial, hpgid⟩ (.nil s))))
  exact ⟨s, hall, hleader, hpgrp, hsession, one_session alone_grouped hrun⟩

/-- Process 1 leads a group, and its child 2 is making process 3 when process 1 moves the child
and itself to another group and then begins a session. -/
def raced : List Op :=
  [.setpgid 1 0 0 (some 1), .forkStart 2 1 noFlags, .forkLink ⟨2, 1, noFlags⟩,
    .forkStart 3 2 noFlags, .setpgid 1 2 2 (some 2), .setpgid 1 0 2 (some 1), .setsid 1,
    .forkLink ⟨3, 2, noFlags⟩]

/-- The group 2 is in another session than the process 2. -/
def stray : State :=
  { boot with
    tasks := update (update boot.tasks 1
      { initTask with pid := 2, tgid := 2, pgrp := 4, session := 4 }) 2
      { initTask with pid := 3, tgid := 3, pgrp := 2, session := 5 }
    list := [1, 2]
    lastPid := 5 }

/-- A child that comes to the list late joins the group of a session that was begun meanwhile,
and a group of a task's own pid may be in another session to begin with. -/
theorem session_split :
    (∃ s, OneSession alone ∧ Run Step alone raced s ∧ ¬OneSession s) ∧
      ∃ s, OneSession stray ∧ Run Step stray [.setpgid 1 0 0 (some 1)] s ∧ ¬OneSession s := by
  constructor
  · obtain ⟨s, hs, hsplit⟩ : ∃ s, execAll execAllowed alone raced = some s ∧ ¬OneSession s :=
      ⟨_, rfl, by decide⟩
    exact ⟨s, by decide, Run.of_execAll step_of_execAllowed hs, hsplit⟩
  · obtain ⟨s, hs, hsplit⟩ : ∃ s, execAll execAllowed stray [.setpgid 1 0 0 (some 1)] = some s ∧
        ¬OneSession s := ⟨_, rfl, by decide⟩
    exact ⟨s, by decide, Run.of_execAll step_of_execAllowed hs, hsplit⟩

end CustomKernel.Proc.Session

import CustomKernel.Lib.Transition
import Mathlib.Data.BitVec

/-! # Capabilities and user ids

`capset` compares a request with the sets of one target, and a request for a process group or
for everyone is compared with the sets of the caller. The `setuid` calls empty the sets of a
process that gives up its last uid 0, and without `CAP_SETUID` no call brings in another uid. -/
namespace CustomKernel.Proc.Privilege
open Lib.Transition Function

/-- A `kernel_cap_t`. -/
abbrev Caps := BitVec 32

abbrev Uid := BitVec 32

def capSetuid : Nat := 7
def capSetpcap : Nat := 8
def capFsMask : Caps := 0x1f

def capRaised (c : Caps) (flag : Nat) : Bool := c &&& (1 <<< flag) != 0
def capCombine (a b : Caps) : Caps := a ||| b
def capDrop (a drop : Caps) : Caps := a &&& ~~~drop
def capIssubset (a set : Caps) : Bool := a &&& ~~~set == 0

structure CapSets where
  effective : Caps
  inheritable : Caps
  permitted : Caps
deriving DecidableEq, Repr

structure Task where
  pid : BitVec 32
  pgrp : BitVec 32
  uid : Uid
  euid : Uid
  suid : Uid
  fsuid : Uid
  caps : CapSets
  keepCapabilities : Bool
deriving DecidableEq, Repr

inductive Errno
  | EFAULT | EINVAL | EPERM | ESRCH | EAGAIN
deriving DecidableEq, Repr

def Task.capable (t : Task) (cap : Nat) : Bool := capRaised t.caps.effective cap

abbrev TaskId := Nat

/-- `list` is what `for_each_task` goes through. -/
structure State where
  tasks : TaskId → Task
  list : List TaskId
  current : TaskId
  listed : current ∈ list
  securebits : BitVec 32

def State.me (s : State) : Task := s.tasks s.current

def State.setTask (s : State) (p : TaskId) (t : Task) : State :=
  { s with tasks := update s.tasks p t }

def State.findTaskByPid (s : State) (pid : BitVec 32) : Option TaskId :=
  s.list.find? fun p => (s.tasks p).pid = pid

/-! ## `capset` -/

/-- A header and its data in user memory, and which of the accesses to them go well. -/
structure Request where
  version : BitVec 32
  pid : BitVec 32
  sets : CapSets
  versionRead : Bool
  versionWritten : Bool
  pidRead : Bool
  setsRead : Bool
deriving DecidableEq, Repr

def linuxCapabilityVersion : BitVec 32 := 0x19980330

/-- The loop of `cap_set_pg` and `cap_set_all`. -/
def capSetEach (skip : TaskId → Task → Bool) (sets : CapSets) : List TaskId → State → State
  | [], s => s
  | p :: ps, s =>
    capSetEach skip sets ps
      (if skip p (s.tasks p) then s else s.setTask p { s.tasks p with caps := sets })

def State.capSetPg (s : State) (pgrp : BitVec 32) (sets : CapSets) : State :=
  capSetEach (fun _ t => t.pgrp ≠ pgrp) sets s.list s

def State.capSetAll (s : State) (sets : CapSets) : State :=
  capSetEach (fun p t => p = s.current ∨ t.pid = 1) sets s.list s

def State.target (s : State) (pid : BitVec 32) : Option TaskId :=
  if 0 < pid.toInt ∧ pid ≠ s.me.pid then s.findTaskByPid pid else some s.current

/-- `sysCapset` with its header and data read and its target found. -/
def State.capsetTarget (s : State) (target : TaskId) (pid : BitVec 32) (sets : CapSets) :
    Option Errno × State :=
  let t := s.tasks target
  if !capIssubset sets.inheritable (capCombine t.caps.inheritable s.me.caps.permitted) then
    (some .EPERM, s)
  else if !capIssubset sets.permitted (capCombine t.caps.permitted s.me.caps.permitted) then
    (some .EPERM, s)
  else if !capIssubset sets.effective sets.permitted then (some .EPERM, s)
  else if pid.toInt < 0 then
    (none, if pid = -1 then s.capSetAll sets else s.capSetPg (-pid) sets)
  else (none, s.setTask target { t with caps := sets })

def State.sysCapset (s : State) (r : Request) : Option Errno × State :=
  if !r.versionRead then (some .EFAULT, s)
  else if r.version ≠ linuxCapabilityVersion then
    (some (if r.versionWritten then .EINVAL else .EFAULT), s)
  else if !r.pidRead then (some .EFAULT, s)
  else if r.pid ≠ 0 ∧ !s.me.capable capSetpcap then (some .EPERM, s)
  else if !r.setsRead then (some .EFAULT, s)
  else
    match s.target r.pid with
    | none => (some .ESRCH, s)
    | some target => s.capsetTarget target r.pid r.sets

/-- The tasks that a request with this pid is about. -/
def State.reaches (s : State) (pid : BitVec 32) (q : TaskId) : Bool :=
  if pid.toInt < 0 then
    if pid = -1 then q ≠ s.current ∧ (s.tasks q).pid ≠ 1 else (s.tasks q).pgrp = -pid
  else s.target pid = some q

theorem issubset_drop (a b c : Caps) : capIssubset (capDrop a b) c = capIssubset a (capCombine b c) := by
  simp only [capIssubset, capDrop, capCombine, BitVec.not_or, BitVec.and_assoc]

theorem issubset_combine (a b : Caps) : capIssubset a (capCombine a b) = true := by
  have hzero : a &&& (~~~a &&& ~~~b) = 0 := by
    rw [← BitVec.and_assoc, BitVec.and_not_self]
    exact BitVec.zero_and
  simpa only [capIssubset, capCombine, BitVec.not_or, beq_iff_eq] using hzero

section Capset
variable {s s' : State} {q target : TaskId} {pid : BitVec 32} {sets : CapSets}

theorem issubset_zero {a : Caps} (h : capIssubset a 0) : a = 0 := by
  rwa [capIssubset, beq_iff_eq, show ~~~(0 : Caps) = BitVec.allOnes 32 from rfl,
    BitVec.and_allOnes] at h

theorem capSetEach_tasks {skip : TaskId → Task → Bool}
    (hskip : ∀ p t, skip p { t with caps := sets } = skip p t) (ps : List TaskId) (s : State)
    (q : TaskId) : (capSetEach skip sets ps s).tasks q =
      if q ∈ ps ∧ skip q (s.tasks q) = false then { s.tasks q with caps := sets } else s.tasks q := by
  induction ps generalizing s with
  | nil => simp [capSetEach]
  | cons p ps ih =>
    rw [capSetEach, ih]
    rcases eq_or_ne q p with rfl | hne
    · cases hq : skip q (s.tasks q) <;> simp [State.setTask, hskip, hq]
    · have hsame : (if skip p (s.tasks p) then s
          else s.setTask p { s.tasks p with caps := sets }).tasks q = s.tasks q := by
        split
        · rfl
        · exact update_of_ne hne _ _
      simp [hsame, hne]

theorem capSetEach_current (skip : TaskId → Task → Bool) (ps : List TaskId) (s : State) :
    (capSetEach skip sets ps s).current = s.current := by
  induction ps generalizing s with
  | nil => rfl
  | cons p ps ih =>
    rw [capSetEach, ih]
    split <;> rfl

/-- What the new sets have passed, and where they go. -/
structure Granted (s : State) (target : TaskId) (pid : BitVec 32) (sets : CapSets) (s' : State) :
    Prop where
  inheritable : capIssubset sets.inheritable
    (capCombine (s.tasks target).caps.inheritable s.me.caps.permitted)
  permitted : capIssubset sets.permitted
    (capCombine (s.tasks target).caps.permitted s.me.caps.permitted)
  effective : capIssubset sets.effective sets.permitted
  current : s'.current = s.current
  tasks : ∀ q ∈ s.list, s'.tasks q =
    if s.reaches pid q then { s.tasks q with caps := sets } else s.tasks q

theorem capsetTarget_cases (htarget : s.target pid = some target)
    (sets : CapSets) : s.capsetTarget target pid sets = (some .EPERM, s) ∨
      ∃ s', s.capsetTarget target pid sets = (none, s') ∧ Granted s target pid sets s' := by
  unfold State.capsetTarget
  dsimp only
  split
  · exact .inl rfl
  next hinh =>
  split
  · exact .inl rfl
  next hperm =>
  split
  · exact .inl rfl
  next heff =>
  rw [Bool.not_eq_true', Bool.not_eq_false] at hinh hperm heff
  split
  next hneg =>
    refine .inr ⟨_, rfl, hinh, hperm, heff, ?_, fun q hq => ?_⟩
    · split <;> exact capSetEach_current ..
    rw [State.reaches, if_pos hneg]
    split
    · rw [State.capSetAll, capSetEach_tasks fun _ _ => rfl]
      simp [hq]
    · rw [State.capSetPg, capSetEach_tasks fun _ _ => rfl]
      simp [hq]
  next hnonneg =>
    refine .inr ⟨_, rfl, hinh, hperm, heff, rfl, fun q _ => ?_⟩
    rw [State.reaches, if_neg hnonneg, htarget]
    rcases eq_or_ne q target with rfl | hne
    · simp [State.setTask]
    · simp [State.setTask, hne, hne.symm]

theorem sysCapset_cases (s : State) (r : Request) :
    (∃ e, s.sysCapset r = (some e, s)) ∨ ∃ target, s.target r.pid = some target ∧
      (r.pid = 0 ∨ s.me.capable capSetpcap) ∧
      s.sysCapset r = s.capsetTarget target r.pid r.sets := by
  unfold State.sysCapset
  split
  · exact .inl ⟨_, rfl⟩
  split
  · exact .inl ⟨_, rfl⟩
  split
  · exact .inl ⟨_, rfl⟩
  split
  · exact .inl ⟨_, rfl⟩
  next hpcap =>
  split
  · exact .inl ⟨_, rfl⟩
  split
  · exact .inl ⟨_, rfl⟩
  next target htarget =>
  refine .inr ⟨target, htarget, ?_, rfl⟩
  by_contra hnone
  simp only [not_or, Bool.not_eq_true] at hnone
  exact hpcap ⟨hnone.1, by rw [hnone.2]; rfl⟩

/-- A request for several tasks is compared with the sets of the caller. -/
theorem Granted.raised (h : Granted s target pid sets s') (htarget : s.target pid = some target)
    (hq : s.reaches pid q) :
    capIssubset sets.permitted (capCombine (s.tasks q).caps.permitted s.me.caps.permitted) := by
  have hperm := h.permitted
  rcases lt_or_ge pid.toInt 0 with hneg | hnonneg
  · rw [State.target, if_neg (by omega), Option.some.injEq] at htarget
    subst htarget
    simp only [State.me, capIssubset, capCombine, BitVec.or_self, beq_iff_eq] at hperm ⊢
    rw [BitVec.not_or, BitVec.and_comm, BitVec.and_assoc, BitVec.and_comm _ sets.permitted, hperm]
    exact BitVec.and_zero
  · rw [State.reaches, if_neg (by omega), htarget, decide_eq_true_eq, Option.some.injEq] at hq
    rwa [← hq]

/-- The rules for the sets of a task, before and after a call whose caller is permitted `mine`. -/
structure Legal (mine : Caps) (t t' : Task) : Prop where
  permitted : capIssubset (capDrop t'.caps.permitted t.caps.permitted) mine
  inheritable : capIssubset (capDrop t'.caps.inheritable t.caps.inheritable) mine
  effective : capIssubset t'.caps.effective t'.caps.permitted

/-- A task that is reached gets no inheritable capability that the caller is not permitted, and
one that is not reached keeps the rules already. -/
def State.grants (s : State) (pid : BitVec 32) (sets : CapSets) (q : TaskId) : Bool :=
  if s.reaches pid q then
    capIssubset sets.inheritable (capCombine (s.tasks q).caps.inheritable s.me.caps.permitted)
  else capIssubset (s.tasks q).caps.effective (s.tasks q).caps.permitted

theorem Granted.legal_iff (h : Granted s target pid sets s') (htarget : s.target pid = some target)
    (hq : q ∈ s.list) :
    Legal s.me.caps.permitted (s.tasks q) (s'.tasks q) ↔ s.grants pid sets q := by
  rw [h.tasks q hq, State.grants]
  split
  next hreach =>
    refine ⟨fun hlegal => issubset_drop .. ▸ hlegal.inheritable, fun hinh => ⟨?_, ?_, h.effective⟩⟩
    · rw [issubset_drop]
      exact h.raised htarget hreach
    · rwa [issubset_drop]
  · refine ⟨Legal.effective, fun heff => ⟨?_, ?_, heff⟩⟩
    all_goals
      rw [issubset_drop]
      exact issubset_combine _ _

theorem capset_legal_iff (s : State) (r : Request) :
    ((s.sysCapset r).1 ≠ none → (s.sysCapset r).2 = s) ∧
    ((s.sysCapset r).1 = none →
      ((∀ q ∈ s.list, Legal s.me.caps.permitted (s.tasks q) ((s.sysCapset r).2.tasks q)) ↔
        ∀ q ∈ s.list, s.grants r.pid r.sets q)) := by
  have hfail {e : Errno} {P : Prop} (heq : s.sysCapset r = (some e, s)) :
      ((s.sysCapset r).1 ≠ none → (s.sysCapset r).2 = s) ∧ ((s.sysCapset r).1 = none → P) := by
    rw [heq]
    exact ⟨fun _ => rfl, nofun⟩
  rcases sysCapset_cases s r with ⟨e, heq⟩ | ⟨target, htarget, _, heq⟩
  · exact hfail heq
  rcases capsetTarget_cases htarget r.sets with hrefused | ⟨s', hdone, hgrant⟩
  · exact hfail (heq.trans hrefused)
  rw [heq, hdone]
  exact ⟨fun hne => absurd rfl hne, fun _ => forall₂_congr fun q hq => hgrant.legal_iff htarget hq⟩

/-- A process that is permitted `CAP_SETPCAP` alone and can still pass on `CAP_SYS_ADMIN`, and a
process 3 that has no capability. -/
def narrow : State where
  tasks p := ⟨p, p, 0, 0, 0, 0, if p = 2 then ⟨0x100, 0x200000, 0x100⟩ else ⟨0, 0, 0⟩, false⟩
  list := [2, 3]
  current := 2
  listed := by decide
  securebits := 0

/-- The caller gives everyone an inheritable capability that it is not permitted. -/
theorem inheritable_given_away :
    let r : Request := ⟨linuxCapabilityVersion, -1, ⟨0, 0x200000, 0⟩, true, true, true, true⟩
    (narrow.sysCapset r).1 = none ∧
      ¬ Legal narrow.me.caps.permitted (narrow.tasks 3) ((narrow.sysCapset r).2.tasks 3) :=
  ⟨by decide, fun h => absurd h.inheritable (by decide)⟩

end Capset

/-! ## `setuid` and its relatives -/

/-- The bit that makes the setting fixed is not in the default. -/
def secureNoSetuidFixup (securebits : BitVec 32) : Bool := securebits &&& 4 != 0

def capEmulateSetxuid (oldRuid oldEuid oldSuid : Uid) (t : Task) : Task :=
  let t := if (oldRuid = 0 ∨ oldEuid = 0 ∨ oldSuid = 0) ∧ (t.uid ≠ 0 ∧ t.euid ≠ 0 ∧ t.suid ≠ 0) ∧
      !t.keepCapabilities then { t with caps := { t.caps with permitted := 0, effective := 0 } }
    else t
  let t := if oldEuid = 0 ∧ t.euid ≠ 0 then { t with caps := { t.caps with effective := 0 } } else t
  if oldEuid ≠ 0 ∧ t.euid = 0 then { t with caps := { t.caps with effective := t.caps.permitted } }
  else t

/-- The end of the three calls: `t` has the old ids and `u` the new ones. -/
def fixup (securebits : BitVec 32) (t u : Task) : Task :=
  if secureNoSetuidFixup securebits then u else capEmulateSetxuid t.uid t.euid t.suid u

/-- `alloc` says whether `set_user` finds a `user_struct`. -/
def sysSetreuid (securebits : BitVec 32) (alloc : Bool) (ruid euid : Uid) (t : Task) :
    Option Errno × Task :=
  if ruid ≠ -1 ∧ t.uid ≠ ruid ∧ t.euid ≠ ruid ∧ !t.capable capSetuid then (some .EPERM, t)
  else if euid ≠ -1 ∧ t.uid ≠ euid ∧ t.euid ≠ euid ∧ t.suid ≠ euid ∧ !t.capable capSetuid then
    (some .EPERM, t)
  else
    let newRuid := if ruid ≠ -1 then ruid else t.uid
    let newEuid := if euid ≠ -1 then euid else t.euid
    if newRuid ≠ t.uid ∧ !alloc then (some .EAGAIN, t)
    else
      (none, fixup securebits t { t with
        uid := newRuid
        euid := newEuid
        fsuid := newEuid
        suid := if ruid ≠ -1 ∨ euid ≠ -1 ∧ euid ≠ t.uid then newEuid else t.suid })

def sysSetuid (securebits : BitVec 32) (alloc : Bool) (uid : Uid) (t : Task) : Option Errno × Task :=
  if t.capable capSetuid then
    if uid ≠ t.uid ∧ !alloc then (some .EAGAIN, t)
    else (none, fixup securebits t { t with uid := uid, euid := uid, fsuid := uid, suid := uid })
  else if uid ≠ t.uid ∧ uid ≠ t.suid then (some .EPERM, t)
  else (none, fixup securebits t { t with euid := uid, fsuid := uid })

def sysSetresuid (securebits : BitVec 32) (alloc : Bool) (ruid euid suid : Uid) (t : Task) :
    Option Errno × Task :=
  let refused (v : Uid) : Bool := v ≠ -1 ∧ v ≠ t.uid ∧ v ≠ t.euid ∧ v ≠ t.suid
  if !t.capable capSetuid ∧ (refused ruid ∨ refused euid ∨ refused suid) then (some .EPERM, t)
  else if ruid ≠ -1 ∧ ruid ≠ t.uid ∧ !alloc then (some .EAGAIN, t)
  else
    let newEuid := if euid ≠ -1 then euid else t.euid
    (none, fixup securebits t { t with
      uid := if ruid ≠ -1 then ruid else t.uid
      euid := newEuid
      fsuid := newEuid
      suid := if suid ≠ -1 then suid else t.suid })

/-- Returns the old filesystem uid. -/
def sysSetfsuid (securebits : BitVec 32) (uid : Uid) (t : Task) : Uid × Task :=
  let u := if uid = t.uid ∨ uid = t.euid ∨ uid = t.suid ∨ uid = t.fsuid ∨ t.capable capSetuid then
      { t with fsuid := uid }
    else t
  if secureNoSetuidFixup securebits then (t.fsuid, u)
  else
    let u := if t.fsuid = 0 ∧ u.fsuid ≠ 0 then
        { u with caps := { u.caps with effective := u.caps.effective &&& ~~~capFsMask } }
      else u
    (t.fsuid, if t.fsuid ≠ 0 ∧ u.fsuid = 0 then
        { u with caps := { u.caps with
          effective := u.caps.effective ||| (u.caps.permitted &&& capFsMask) } }
      else u)

inductive Call
  | setuid (alloc : Bool) (uid : Uid)
  | setreuid (alloc : Bool) (ruid euid : Uid)
  | setresuid (alloc : Bool) (ruid euid suid : Uid)
  | setfsuid (uid : Uid)
  | capset (r : Request)
deriving DecidableEq, Repr

/-- The calls that can change the real, effective and saved uids. -/
def Call.setsIds : Call → Bool
  | .setuid .. | .setreuid .. | .setresuid .. => true
  | .setfsuid _ | .capset _ => false

/-- A call of the current process. -/
def Call.exec (s : State) : Call → State
  | .setuid alloc uid => s.setTask s.current (sysSetuid s.securebits alloc uid s.me).2
  | .setreuid alloc ruid euid => s.setTask s.current (sysSetreuid s.securebits alloc ruid euid s.me).2
  | .setresuid alloc ruid euid suid =>
    s.setTask s.current (sysSetresuid s.securebits alloc ruid euid suid s.me).2
  | .setfsuid uid => s.setTask s.current (sysSetfsuid s.securebits uid s.me).2
  | .capset r => (s.sysCapset r).2

section Dropping
variable {s s' : State} {t u o : Task} {c : Call} {cs : List Call} {securebits : BitVec 32}

def Task.ids (t : Task) : List Uid := [t.uid, t.euid, t.suid]

def Task.rooted (t : Task) : Prop := t.uid = 0 ∨ t.euid = 0 ∨ t.suid = 0

theorem fixup_frame : fixup securebits t u = { u with caps := (fixup securebits t u).caps } := by
  unfold fixup capEmulateSetxuid
  dsimp only
  split_ifs <;> rfl

theorem fixup_plain (ht : ¬ t.rooted) (hu : ¬ u.rooted) : fixup securebits t u = u := by
  simp only [Task.rooted, not_or, BitVec.ofNat_eq_ofNat] at ht hu
  simp [fixup, capEmulateSetxuid, ht, hu]

theorem fixup_drop (ht : t.rooted) (hu : ¬ u.rooted) (hkeep : u.keepCapabilities = false) :
    (fixup 0 t u).caps.permitted = 0 ∧ (fixup 0 t u).caps.effective = 0 := by
  simp only [Task.rooted, not_or, BitVec.ofNat_eq_ofNat] at ht hu
  simp [fixup, capEmulateSetxuid, secureNoSetuidFixup, ht, hkeep, hu]

/-- New ids; without `CAP_SETUID` they are ids that the task had. -/
structure Ids (t u : Task) : Prop where
  fsuid : u.fsuid = u.euid
  caps : u.caps = t.caps
  keep : u.keepCapabilities = t.keepCapabilities
  within : t.capable capSetuid = false → ∀ v ∈ u.ids, v ∈ t.ids

theorem sysSetuid_cases (alloc : Bool) (uid : Uid) (t : Task) :
    (sysSetuid securebits alloc uid t).2 = t ∨
      ∃ u, (sysSetuid securebits alloc uid t).2 = fixup securebits t u ∧ Ids t u := by
  unfold sysSetuid
  split
  next hcap =>
    split
    · exact .inl rfl
    · exact .inr ⟨_, rfl, rfl, rfl, rfl, fun hno => absurd hcap (by rw [hno]; decide)⟩
  split
  · exact .inl rfl
  next hid => exact .inr ⟨_, rfl, rfl, rfl, rfl, fun _ => by grind [Task.ids]⟩

theorem sysSetreuid_cases (alloc : Bool) (ruid euid : Uid) (t : Task) :
    (sysSetreuid securebits alloc ruid euid t).2 = t ∨
      ∃ u, (sysSetreuid securebits alloc ruid euid t).2 = fixup securebits t u ∧ Ids t u := by
  unfold sysSetreuid
  split
  · exact .inl rfl
  split
  · exact .inl rfl
  dsimp only
  generalize hr : (if ruid ≠ -1 then ruid else t.uid) = newRuid
  split
  · exact .inl rfl
  · exact .inr ⟨_, rfl, rfl, rfl, rfl, fun hno => by grind [Task.ids]⟩

theorem sysSetresuid_cases (alloc : Bool) (ruid euid suid : Uid) (t : Task) :
    (sysSetresuid securebits alloc ruid euid suid t).2 = t ∨
      ∃ u, (sysSetresuid securebits alloc ruid euid suid t).2 = fixup securebits t u ∧ Ids t u := by
  unfold sysSetresuid
  dsimp only
  split
  · exact .inl rfl
  split
  · exact .inl rfl
  · exact .inr ⟨_, rfl, rfl, rfl, rfl, fun hno => by grind [Task.ids]⟩

theorem setsIds_cases (hc : c.setsIds) : ∃ t, c.exec s = s.setTask s.current t ∧
    (t = s.me ∨ ∃ u, t = fixup s.securebits s.me u ∧ Ids s.me u) := by
  cases c with
  | setuid alloc uid => exact ⟨_, rfl, sysSetuid_cases ..⟩
  | setreuid alloc ruid euid => exact ⟨_, rfl, sysSetreuid_cases ..⟩
  | setresuid alloc ruid euid suid => exact ⟨_, rfl, sysSetresuid_cases ..⟩
  | setfsuid _ | capset _ => cases hc

/-- No capability is left, and no uid but those of `o`. -/
structure Dropped (o t : Task) : Prop where
  permitted : t.caps.permitted = 0
  effective : t.caps.effective = 0
  within : ∀ v ∈ t.ids, v ∈ o.ids
  fsuid : t.fsuid ∈ o.ids

theorem Dropped.incapable (h : Dropped o t) (cap : Nat) : t.capable cap = false := by
  simp [Task.capable, capRaised, h.effective]

theorem rooted_iff : t.rooted ↔ 0 ∈ t.ids := by
  simp only [Task.rooted, Task.ids, List.mem_cons, List.not_mem_nil, or_false]
  exact or_congr eq_comm (or_congr eq_comm eq_comm)

theorem Dropped.lower (h : Dropped o t) {e : Caps} (he : e = 0) :
    Dropped o { t with caps := { t.caps with effective := e } } :=
  ⟨h.permitted, he, h.within, h.fsuid⟩

theorem me_setTask (s : State) (t : Task) : (s.setTask s.current t).me = t := by
  simp [State.me, State.setTask]

theorem sysSetfsuid_dropped (h : Dropped o t) (uid : Uid) :
    Dropped o (sysSetfsuid securebits uid t).2 := by
  unfold sysSetfsuid
  dsimp only
  generalize hu : (if uid = t.uid ∨ uid = t.euid ∨ uid = t.suid ∨ uid = t.fsuid ∨
    t.capable capSetuid then { t with fsuid := uid } else t) = u
  have hdrop : Dropped o u := by
    subst hu
    split
    next hid =>
      refine ⟨h.permitted, h.effective, h.within, ?_⟩
      rw [h.incapable] at hid
      rcases hid with rfl | rfl | rfl | rfl | hcap
      · exact h.within _ (by simp [Task.ids])
      · exact h.within _ (by simp [Task.ids])
      · exact h.within _ (by simp [Task.ids])
      · exact h.fsuid
      · cases hcap
    · exact h
  split
  · exact hdrop
  generalize hw : (if t.fsuid = 0 ∧ u.fsuid ≠ 0 then
    { u with caps := { u.caps with effective := u.caps.effective &&& ~~~capFsMask } } else u) = w
  have hlow : Dropped o w := by
    subst hw
    split
    · exact hdrop.lower (by simp [hdrop.effective])
    · exact hdrop
  split
  · exact hlow.lower (by rw [hlow.permitted, hlow.effective]; decide)
  · exact hlow

theorem sysCapset_dropped (h : Dropped o s.me) (r : Request) : Dropped o (s.sysCapset r).2.me := by
  rcases sysCapset_cases s r with ⟨e, heq⟩ | ⟨target, htarget, hpcap, heq⟩
  · rwa [heq]
  rcases capsetTarget_cases htarget r.sets with hrefused | ⟨s', hdone, hgrant⟩
  · rwa [heq, hrefused]
  rw [heq, hdone]
  have hpid : r.pid = 0 := hpcap.resolve_right (by rw [h.incapable]; decide)
  have hself : s.target r.pid = some s.current := by
    rw [hpid]
    rfl
  have hme : s'.me = { s.me with caps := r.sets } := by
    rw [State.me, hgrant.current, hgrant.tasks _ s.listed, if_pos]
    · rfl
    · rw [State.reaches, hself, hpid]
      simp
  cases hself.symm.trans htarget
  have hperm : r.sets.permitted = 0 := by
    refine issubset_zero ?_
    have hsub : capIssubset r.sets.permitted (capCombine s.me.caps.permitted s.me.caps.permitted) :=
      hgrant.permitted
    rwa [h.permitted] at hsub
  rw [hme]
  exact ⟨hperm, issubset_zero (hperm ▸ hgrant.effective), h.within, h.fsuid⟩

theorem exec_dropped (ho : ¬ o.rooted) (h : Dropped o s.me) (c : Call) : Dropped o (c.exec s).me := by
  have hplain (t : Task) (ht : ∀ v ∈ t.ids, v ∈ o.ids) : ¬ t.rooted :=
    fun hroot => ho (rooted_iff.mpr (ht 0 (rooted_iff.mp hroot)))
  cases hc : c.setsIds with
  | true =>
    obtain ⟨t, heq, hcase⟩ := setsIds_cases hc
    rw [heq, me_setTask]
    rcases hcase with rfl | ⟨u, rfl, hids⟩
    · exact h
    · have hwithin (v : Uid) (hv : v ∈ u.ids) : v ∈ o.ids :=
        h.within v (hids.within (h.incapable _) v hv)
      rw [fixup_plain (hplain _ h.within) (hplain u hwithin)]
      refine ⟨hids.caps ▸ h.permitted, hids.caps ▸ h.effective, hwithin, ?_⟩
      rw [hids.fsuid]
      exact hwithin _ (by simp [Task.ids])
  | false =>
    cases c with
    | setfsuid uid =>
      rw [Call.exec, me_setTask]
      exact sysSetfsuid_dropped h uid
    | capset r => exact sysCapset_dropped h r
    | setuid _ _ | setreuid _ _ _ | setresuid _ _ _ _ => cases hc

/-- The call that gives up the last uid 0. -/
theorem drop_dropped (hsecure : s.securebits = 0) (hkeep : s.me.keepCapabilities = false)
    (hc : c.setsIds) (hroot : s.me.rooted) (hplain : ¬ (c.exec s).me.rooted) :
    Dropped (c.exec s).me (c.exec s).me := by
  obtain ⟨t, heq, hcase⟩ := setsIds_cases hc
  rw [heq, me_setTask] at hplain ⊢
  rcases hcase with rfl | ⟨u, rfl, hids⟩
  · exact absurd hroot hplain
  rw [hsecure] at hplain ⊢
  have hframe : fixup 0 s.me u = { u with caps := (fixup 0 s.me u).caps } := fixup_frame
  have hu : ¬ u.rooted := by
    rw [hframe] at hplain
    exact hplain
  obtain ⟨hperm, heff⟩ := fixup_drop hroot hu (hids.keep.trans hkeep)
  refine ⟨hperm, heff, fun v hv => hv, ?_⟩
  rw [hframe]
  simp [hids.fsuid, Task.ids]

/-- A process that has given up its last uid 0 gets back neither a capability nor a uid. -/
theorem privileges_stay_dropped (hsecure : s.securebits = 0) (hkeep : s.me.keepCapabilities = false)
    (hc : c.setsIds) (hroot : s.me.rooted) (hplain : ¬ (c.exec s).me.rooted)
    (hrun : Run (fun s c s' => s' = c.exec s) (c.exec s) cs s') :
    s'.me.caps.permitted = 0 ∧ s'.me.caps.effective = 0 ∧
      ∀ v ∈ [s'.me.uid, s'.me.euid, s'.me.suid, s'.me.fsuid],
        v ∈ [(c.exec s).me.uid, (c.exec s).me.euid, (c.exec s).me.suid] := by
  have h : Dropped (c.exec s).me s'.me := by
    refine hrun.invariant (I := fun s' => Dropped (c.exec s).me s'.me) ?_
      (drop_dropped hsecure hkeep hc hroot hplain)
    rintro s1 c1 _ hi rfl
    exact exec_dropped hplain hi c1
  refine ⟨h.permitted, h.effective, ?_⟩
  intro v hv
  simp only [List.mem_cons, List.not_mem_nil, or_false] at hv
  rcases hv with rfl | rfl | rfl | rfl
  · exact h.within _ (by simp [Task.ids])
  · exact h.within _ (by simp [Task.ids])
  · exact h.within _ (by simp [Task.ids])
  · exact h.fsuid

/-- A superuser who becomes user 1000 and asks for uid 0 again. -/
theorem privileges_stay_dropped_user :
    let s : State := { narrow with tasks p := ⟨p, p, 0, 0, 0, 0, ⟨-1, 0, -1⟩, false⟩ }
    let s' := (Call.setuid true 0).exec ((Call.setuid true 1000).exec s)
    s'.me.caps.permitted = 0 ∧ s'.me.caps.effective = 0 ∧
      ∀ v ∈ [s'.me.uid, s'.me.euid, s'.me.suid, s'.me.fsuid], v ∈ [1000, 1000, 1000] :=
  privileges_stay_dropped rfl rfl rfl (.inl rfl) (by unfold Task.rooted; decide)
    (.cons rfl (.nil _))

end Dropping

end CustomKernel.Proc.Privilege

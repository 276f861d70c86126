import CustomKernel.Policy.Split

/-! # Calls that fail

A policy call that returns an error has at most set the log pointer of a task whose policy is
off, or moved `indexRead` of a log on and back. Nothing of this can be observed: neither by
what the policies are, nor by a later read. -/
namespace CustomKernel.Policy.Failure
open Lib.Transition
open Policy.Heap Policy.Syscalls
open Policy.Effects Policy.Ownership Policy.Outcomes
open Policy.Bounds Policy.Spec

/-! ## What is observed of a process -/

/-- The policy of a process, and while it is on the log with the records that are unread in it. -/
structure Seen where
  on : Int
  level : Int
  log : Option (LogArray × List ForbiddenActivityInfo)
deriving DecidableEq, Repr

/-- The log at an address, with its unread records. -/
def logAt (k : Kernel) (a : Addr) : Option (LogArray × List ForbiddenActivityInfo) :=
  match k.mem a with
  | some (.log l) => some (l, contents k l)
  | _ => none

def taskPolicy (k : Kernel) (t : TaskStruct) : Seen :=
  ⟨t.policyOn, t.policyLevel, if t.policyOn = 1 then logAt k t.logArray else none⟩

def policyOf (k : Kernel) (pid : Int) : Option Seen :=
  (k.pidhash pid).bind fun p =>
    match k.mem p with
    | some (.task t) => some (taskPolicy k t)
    | _ => none

/-- What a read returns, by the policy of its target. `served` says that the allocation and the
copy succeed. -/
def readRet (seen : Option Seen) (size : Int) (served : Prop) [Decidable served] : Int :=
  match seen with
  | none => -ESRCH
  | some ⟨_, _, none⟩ => -EINVAL
  | some ⟨_, _, some (l, _)⟩ =>
    if ¬ (size > l.size ∨ size < 0) ∧ tooFewRecords l size = false then
      if served then 0 else -ENOMEM
    else -EINVAL

section
variable {k k' : Kernel} {pid : Int} {p a : Addr} {t : TaskStruct} {l : LogArray}

theorem policyOf_none (hp : k.pidhash pid = none) : policyOf k pid = none := by
  rw [policyOf, hp]
  rfl

theorem policyOf_some (hp : k.pidhash pid = some p) (ht : k.mem p = some (.task t)) :
    policyOf k pid = some (taskPolicy k t) := by
  simp [policyOf, hp, ht]

/-- Which reads succeed follows from the policy. -/
theorem read_ret (hs : Sound k) (pid size : Int) (a : Addr) (copied : Bool) :
    ((Call.getProcessLog pid size a copied).exec.run k).1.ret =
      readRet (policyOf k pid) size (Fresh k a ∧ copied = true) := by
  cases hp : k.pidhash pid with
  | none =>
    rw [policyOf_none hp]
    simp [Call.exec, sysGetProcessLog, getProcessLogChecks, hp, readRet]
  | some p =>
    obtain ⟨t, ht, -⟩ := hs.hash pid p hp
    obtain ⟨l, hl, -⟩ := hs.someLog ht
    rw [policyOf_some hp ht, taskPolicy]
    simp only [Call.exec, run_bind, run_pure]
    have hon : t.policyOn ≠ 0 → (if t.policyOn = 1 then logAt k t.logArray else none) =
        some (l, contents k l) := by
      intro hne
      rw [if_pos ((hs.flag ht).resolve_left hne), logAt, (hl hne).1]
    rcases run_sysGetProcessLog hp ht (fun h => (hl h).1) size a copied with
      ⟨hc, hrun⟩ | ⟨⟨hne, hc⟩, ⟨ha, hrun⟩ | ⟨h0, ha, data, fs, hrun, -, -⟩⟩
    · rw [hrun]
      by_cases hne : t.policyOn = 0
      · rw [hne]
        rfl
      · rw [hon hne, readRet, if_neg fun h => hc ⟨hne, h⟩]
    · rw [hrun, hon hne, readRet, if_pos hc, if_neg fun h => ha h.1]
    · rw [hrun, hon hne, readRet, if_pos hc]
      cases copied with
      | true =>
        have hserved : Fresh k a ∧ true = true := ⟨⟨h0, ha⟩, rfl⟩
        rw [if_pos hserved]
        rfl
      | false =>
        have hserved : ¬ (Fresh k a ∧ false = true) := fun h => Bool.false_ne_true h.2
        rw [if_neg hserved]
        rfl

/-! ## What an error leaves -/

/-- Nothing has changed but the faults that are noted and, of a task whose policy is off, the
pointer to a log. -/
inductive Leaves (k : Kernel) : Kernel → Prop where
  | faults (fs : List Fault) : Leaves k { k with faults := fs }
  | pointer (p : Addr) (t : TaskStruct) (a : Addr) (ht : k.mem p = some (.task t))
      (hoff : t.policyOn ≠ 1) : Leaves k (k.set p (.task { t with logArray := a }))

theorem outcome_leaves {c : Call} {r : Reply} (h : Outcome k c r k') (hc : c.gate = none)
    (hr : r.ret < 0) : Leaves k k' := by
  have hsuccess {P : Prop} (h : (0 : Int) < 0) : P := absurd h (Int.lt_irrefl 0)
  cases h with
  | noTarget _ _ | noCaller _ _ | enableRefused _ _ _ | disableRefused _ _ _ | levelRefused _ _ _
  | readRefused _ _ _ | readNoMem _ _ _ _ _ => exact .faults k.faults
  | enableNoMem a hp ht hok hm => exact .pointer _ _ a ht hok.2.1
  | enabledEmpty hp ht hok hm => exact hsuccess hr
  | enabled hp ht hok h0 hm => exact hsuccess hr
  | disabled hp ht hon hl => exact hsuccess hr
  | levelSet hp ht hon hlo hhi => exact hsuccess hr
  | readFailed hp ht hl hok hfs hhit => exact .faults _
  | read hp ht hl hok hfs hhit => exact hsuccess hr
  | denied hg hp ht hl hd => cases hg.symm.trans hc
  | passed hg hp ht hd => cases hg.symm.trans hc
  | forked hp ht hd hfresh hpid => cases hc
  | reaped hp ht hd hq hne ht' hl => cases hc

theorem Leaves.fresh (h : Leaves k k') (a : Addr) : Fresh k' a ↔ Fresh k a := by
  cases h with
  | faults fs => exact Iff.rfl
  | pointer p t b ht hoff =>
    rcases eq_or_ne a p with rfl | hne
    · simp [Fresh, ht]
    · simp [Fresh, hne]

theorem Leaves.logAt_eq (h : Leaves k k') (a : Addr) : logAt k' a = logAt k a := by
  cases h with
  | faults fs => rfl
  | pointer p t b ht hoff =>
    have hcontents (l : LogArray) :
        contents (k.set p (.task { t with logArray := b })) l = contents k l := by
      rcases eq_or_ne l.array p with heq | hne
      · simp [contents, heq, ht]
      · simp [contents, hne]
    rcases eq_or_ne a p with rfl | hne
    · simp [logAt, ht]
    · simp [logAt, hne, hcontents]

theorem Leaves.policyOf_eq (h : Leaves k k') (pid : Int) : policyOf k' pid = policyOf k pid := by
  have htask (t : TaskStruct) : taskPolicy k' t = taskPolicy k t := by
    rw [taskPolicy, taskPolicy, h.logAt_eq]
  cases h with
  | faults fs => rfl
  | pointer p t b ht hoff =>
    have hhash : (k.set p (.task { t with logArray := b })).pidhash pid = k.pidhash pid := rfl
    cases hp : k.pidhash pid with
    | none => rw [policyOf_none hp, policyOf_none (hhash.trans hp)]
    | some q =>
      simp only [policyOf, hhash, hp, Option.bind_some]
      rcases eq_or_ne q p with rfl | hne
      · -- whose policy is off has no log, wherever its pointer leads
        simp [ht, taskPolicy, hoff]
      · simp [Function.update_of_ne hne, htask]

end

/-! ## Runs -/

/-- A policy call that returns an error leaves the policy of every process as it was, and every
read would return after it what it would have returned before. -/
theorem failed_call_unobserved {k₀ k k' : Kernel} {es : List (Call × Reply)} {c : Call} {r : Reply}
    (hb : Boot k₀) (hrun : Run Step k₀ es k) (hc : c.gate = none) (hstep : Step k (c, r) k')
    (hr : r.ret < 0) :
    (∀ pid, policyOf k' pid = policyOf k pid) ∧
      ∀ pid size a copied, ((Call.getProcessLog pid size a copied).exec.run k').1.ret =
        ((Call.getProcessLog pid size a copied).exec.run k).1.ret := by
  have hs := (run_sound hb hrun).1
  have ho := step_outcome hs hstep
  have hleaves : Leaves k k' := outcome_leaves ho hc hr
  refine ⟨hleaves.policyOf_eq, ?_⟩
  intro pid size a copied
  rw [read_ret hs, read_ret (outcome_sound hs ho).1, hleaves.policyOf_eq]
  simp [hleaves.fresh]

/-- The calls after which a log of two is full and its read index is 1. -/
def wrapped : List Call :=
  refusedOnce 2 ++ [.schedYield 2 101, .getProcessLog 2 1 5 true, .schedYield 2 102]

/-- The copy of both records to user memory fails, after the read index has gone round. -/
theorem failed_call_unobserved_wrapped :
    policyOf (trace twoTasks wrapped).2 2 =
        some ⟨1, 0, some (⟨1, 1, 2, 1, 4⟩, [⟨1, 0, 101⟩, ⟨1, 0, 102⟩])⟩ ∧
      ((Call.getProcessLog 2 2 5 false).exec.run (trace twoTasks wrapped).2).1.ret = -ENOMEM ∧
      policyOf ((Call.getProcessLog 2 2 5 false).exec.run (trace twoTasks wrapped).2).2 2 =
        policyOf (trace twoTasks wrapped).2 2 :=
  ⟨by decide, by decide, (failed_call_unobserved twoTasks_boot (run_trace twoTasks wrapped)
    (c := .getProcessLog 2 2 5 false) rfl rfl (by decide)).1 2⟩

end CustomKernel.Policy.Failure

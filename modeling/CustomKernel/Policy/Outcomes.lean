import CustomKernel.Policy.Ownership

/-! # What a step of the system can do

`Outcome` lists the ways a call can end, each with what the caller gets and
the state that is left. A call made in a sound state ends in one of them, and
all of them leave a sound state: over whole runs no log block is leaked,
shared, freed twice or used after it was freed. -/
namespace CustomKernel.Policy.Outcomes
open Lib.Ownership Lib.Transition
open Policy.Heap Policy.Syscalls Policy.Log
open Policy.Effects Policy.Ownership

/-- `sys_enable_policy` gets as far as its first `kmalloc`. -/
def EnableOk (t : TaskStruct) (size password : Int) : Prop :=
  password = policyPassword ∧ t.policyOn ≠ 1 ∧ 0 ≤ size

/-- `sys_get_process_log` gets as far as its `kmalloc`. -/
def ReadOk (t : TaskStruct) (l : LogArray) (size : Int) : Prop :=
  t.policyOn ≠ 0 ∧ ¬ (size > l.size ∨ size < 0) ∧ tooFewRecords l size = false

/-- An address at which the next `kmalloc` succeeds. -/
def Fresh (k : Kernel) (a : Addr) : Prop := a ≠ 0 ∧ k.mem a = none

/-- Both allocations of `sys_enable_policy` succeed, as far as it makes them. -/
def EnableFresh (k : Kernel) (size : Int) (m : EnableMem) : Prop :=
  Fresh k m.log ∧ (size ≠ 0 → Fresh k m.array ∧ m.array ≠ m.log)

inductive Outcome (k : Kernel) : Call → Reply → Kernel → Prop where
  | noTarget {c : Call} (hg : c.gate = none) (hp : k.pidhash c.pid = none) :
      Outcome k c (.ofRet (-ESRCH)) k
  | noCaller {c : Call} {g : Gate} (hg : c.gate = some g) (hp : k.pidhash c.pid = none) :
      Outcome k c (.ofRet 0) k
  | enableRefused {pid size password m p t} (hp : k.pidhash pid = some p)
      (ht : k.mem p = some (.task t)) (hc : ¬ EnableOk t size password) :
      Outcome k (.enablePolicy pid size password m) (.ofRet (-EINVAL)) k
  | enableNoMem {pid size password m p t} (a : Addr) (hp : k.pidhash pid = some p)
      (ht : k.mem p = some (.task t)) (hc : EnableOk t size password) (hm : ¬ EnableFresh k size m) :
      Outcome k (.enablePolicy pid size password m) (.ofRet (-ENOMEM))
        (k.set p (.task { t with logArray := a }))
  | enabledEmpty {pid password m p t} (hp : k.pidhash pid = some p)
      (ht : k.mem p = some (.task t)) (hc : EnableOk t 0 password) (hm : EnableFresh k 0 m) :
      Outcome k (.enablePolicy pid 0 password m) (.ofRet 0)
        ((k.set p (.task (onTask t m.log))).set m.log (.log (freshLog 0 m.logJunk.array)))
  | enabled {pid size password m p t} (hp : k.pidhash pid = some p)
      (ht : k.mem p = some (.task t)) (hc : EnableOk t size password) (h0 : 0 < size)
      (hm : EnableFresh k size m) :
      Outcome k (.enablePolicy pid size password m) (.ofRet 0)
        (((k.set p (.task (onTask t m.log))).set m.log (.log (freshLog size m.array))).set
          m.array (.records (requestBytes size) m.arrayJunk))
  | disableRefused {pid password p t} (hp : k.pidhash pid = some p)
      (ht : k.mem p = some (.task t)) (hc : ¬ (t.policyOn = 1 ∧ password = policyPassword)) :
      Outcome k (.disablePolicy pid password) (.ofRet (-EINVAL)) k
  | disabled {pid p t l} (hp : k.pidhash pid = some p) (ht : k.mem p = some (.task t))
      (hon : t.policyOn = 1) (hl : k.mem t.logArray = some (.log l)) :
      Outcome k (.disablePolicy pid policyPassword) (.ofRet 0)
        (freeLog (k.set p (.task (offTask t))) t.logArray l)
  | levelRefused {pid newLevel password p t} (hp : k.pidhash pid = some p)
      (ht : k.mem p = some (.task t))
      (hc : ¬ (t.policyOn = 1 ∧ password = policyPassword ∧ 0 ≤ newLevel ∧ newLevel ≤ 2)) :
      Outcome k (.setProcessCapabilities pid newLevel password) (.ofRet (-EINVAL)) k
  | levelSet {pid newLevel p t} (hp : k.pidhash pid = some p) (ht : k.mem p = some (.task t))
      (hon : t.policyOn = 1) (hlo : 0 ≤ newLevel) (hhi : newLevel ≤ 2) :
      Outcome k (.setProcessCapabilities pid newLevel policyPassword) (.ofRet 0)
        (k.set p (.task { t with policyLevel := newLevel }))
  | readRefused {pid size a copied p t} (hp : k.pidhash pid = some p)
      (ht : k.mem p = some (.task t))
      (hc : ∀ l, k.mem t.logArray = some (.log l) → ¬ ReadOk t l size) :
      Outcome k (.getProcessLog pid size a copied) (.ofRet (-EINVAL)) k
  | readNoMem {pid size a copied p t l} (hp : k.pidhash pid = some p)
      (ht : k.mem p = some (.task t)) (hl : k.mem t.logArray = some (.log l))
      (hc : ReadOk t l size) (ha : ¬ Fresh k a) :
      Outcome k (.getProcessLog pid size a copied) (.ofRet (-ENOMEM)) k
  | readFailed {pid size a p t l fs} (hp : k.pidhash pid = some p)
      (ht : k.mem p = some (.task t)) (hl : k.mem t.logArray = some (.log l))
      (hc : ReadOk t l size) (hfs : ∀ f ∈ fs, ArrayFault f)
      (hhit : ∀ e, Hits k l size.toNat e → fs = []) :
      Outcome k (.getProcessLog pid size a false) (.ofRet (-ENOMEM))
        { k with faults := fs ++ k.faults }
  | read {pid size a p t l data fs} (hp : k.pidhash pid = some p)
      (ht : k.mem p = some (.task t)) (hl : k.mem t.logArray = some (.log l))
      (hc : ReadOk t l size) (hfs : ∀ f ∈ fs, ArrayFault f)
      (hhit : ∀ e, Hits k l size.toNat e → data = picked l size.toNat e ∧ fs = []) :
      Outcome k (.getProcessLog pid size a true) ⟨0, data, true⟩
        { k.set t.logArray (.log (afterCommit (afterReads l size.toNat) size)) with
          faults := fs ++ k.faults }
  | denied {c : Call} {g : Gate} {p t l} (hg : c.gate = some g) (hp : k.pidhash g.cur = some p)
      (ht : k.mem p = some (.task t)) (hl : k.mem t.logArray = some (.log l))
      (hd : TaskStruct.denied t g.reqLevel) :
      Outcome k c ⟨-EINVAL, [], false⟩ (logged k t l ⟨g.reqLevel, t.policyLevel, g.jiffies⟩)
  | passed {c : Call} {g : Gate} {p t} {r : Int} (hg : c.gate = some g)
      (hp : k.pidhash g.cur = some p) (ht : k.mem p = some (.task t))
      (hd : ¬ TaskStruct.denied t g.reqLevel) : Outcome k c ⟨r, [], true⟩ k
  | forked {cur jiffies flags child pid p t} (hp : k.pidhash cur = some p)
      (ht : k.mem p = some (.task t)) (hd : ¬ TaskStruct.denied t 2) (hc : Fresh k child)
      (hpid : k.pidhash pid = none) :
      Outcome k (.fork cur jiffies flags child (.ok pid)) ⟨pid, [], true⟩
        { k.set child (.task (childTask pid)) with
          pidhash := Function.update k.pidhash pid (some child) }
  | reaped {cur jiffies options pid p t q t' l} (hp : k.pidhash cur = some p)
      (ht : k.mem p = some (.task t)) (hd : ¬ TaskStruct.denied t 1)
      (hq : k.pidhash pid = some q) (hne : q ≠ p) (ht' : k.mem q = some (.task t'))
      (hl : t'.policyOn = 1 → k.mem t'.logArray = some (.log l)) :
      Outcome k (.wait4 cur jiffies options (.zombie pid)) ⟨pid, [], true⟩ (released k q t' l)

/-- The call has one of the outcomes. -/
def Ends (k : Kernel) (c : Call) : Prop := Outcome k c (c.exec.run k).1 (c.exec.run k).2

section Cases
variable {k : Kernel} {p : Addr} {t : TaskStruct}

section
variable (hs : Sound k)
include hs

theorem enable_outcome (pid size password : Int) (m : EnableMem) :
    Ends k (.enablePolicy pid size password m) := by
  simp only [Ends, Call.exec, run_bind, run_pure]
  cases hp : k.pidhash pid with
  | none =>
    have hrun : (sysEnablePolicy pid size password m).run k = (-ESRCH, k) := by
      simp [sysEnablePolicy, enablePolicyChecks, hp]
    rw [hrun]
    exact .noTarget rfl hp
  | some p =>
    obtain ⟨t, ht, _⟩ := hs.hash pid p hp
    rcases run_sysEnablePolicy hp ht size password m with
      ⟨hc, hrun⟩ | ⟨h1, h2, h3, hok⟩
    · rw [hrun]
      exact .enableRefused hp ht hc
    · rcases hok with ⟨a, hrun, hm⟩ | ⟨hl0, hl, hsz, hrun⟩ | ⟨hl0, hl, hsz, ha0, ha, hla, hrun⟩
      · rw [hrun]
        refine .enableNoMem a hp ht ⟨h1, h2, h3⟩ ?_
        intro hf
        rcases hm with hm | ⟨hsz, hm⟩
        · exact hm hf.1
        · exact hm ⟨(hf.2 hsz).1.1, (hf.2 hsz).1.2, (hf.2 hsz).2⟩
      · rw [hrun]
        subst hsz
        exact .enabledEmpty hp ht ⟨h1, h2, h3⟩ ⟨⟨hl0, hl⟩, fun h => absurd rfl h⟩
      · rw [hrun]
        exact .enabled hp ht ⟨h1, h2, h3⟩ (by omega) ⟨⟨hl0, hl⟩, fun _ => ⟨⟨ha0, ha⟩, hla.symm⟩⟩

theorem disable_outcome (pid password : Int) :
    Ends k (.disablePolicy pid password) := by
  simp only [Ends, Call.exec, run_bind, run_pure]
  cases hp : k.pidhash pid with
  | none =>
    have hrun : (sysDisablePolicy pid password).run k = (-ESRCH, k) := by
      simp [sysDisablePolicy, hp]
    rw [hrun]
    exact .noTarget rfl hp
  | some p =>
    obtain ⟨t, ht, _⟩ := hs.hash pid p hp
    obtain ⟨l, hl, hr⟩ := hs.someLog ht
    rw [run_sysDisablePolicy _ hp ht (fun h => (hl h).1) hr]
    split
    · rename_i hc
      obtain ⟨hon, rfl⟩ := hc
      exact .disabled hp ht ((hs.flag ht).resolve_left hon) (hl hon).1
    · rename_i hc
      refine .disableRefused hp ht ?_
      rintro ⟨hon, hpw⟩
      exact hc ⟨by rw [hon]; decide, hpw⟩

theorem level_outcome (pid newLevel password : Int) :
    Ends k (.setProcessCapabilities pid newLevel password) := by
  simp only [Ends, Call.exec, run_bind, run_pure]
  cases hp : k.pidhash pid with
  | none =>
    have hrun : (sysSetProcessCapabilities pid newLevel password).run k = (-ESRCH, k) := by
      simp [sysSetProcessCapabilities, hp]
    rw [hrun]
    exact .noTarget rfl hp
  | some p =>
    obtain ⟨t, ht, _⟩ := hs.hash pid p hp
    rw [run_sysSetProcessCapabilities hp ht]
    split
    · rename_i hc
      obtain ⟨hon, rfl, hlo, hhi⟩ := hc
      exact .levelSet hp ht ((hs.flag ht).resolve_left hon) hlo hhi
    · rename_i hc
      refine .levelRefused hp ht ?_
      rintro ⟨hon, hrest⟩
      exact hc ⟨by rw [hon]; decide, hrest⟩

theorem read_outcome (pid size : Int) (a : Addr) (copied : Bool) :
    Ends k (.getProcessLog pid size a copied) := by
  simp only [Ends, Call.exec, run_bind, run_pure]
  cases hp : k.pidhash pid with
  | none =>
    have hrun : (sysGetProcessLog pid size a copied).run k = ((-ESRCH, []), k) := by
      simp [sysGetProcessLog, getProcessLogChecks, hp]
    rw [hrun]
    exact .noTarget rfl hp
  | some p =>
    obtain ⟨t, ht, _⟩ := hs.hash pid p hp
    obtain ⟨l, hl, _⟩ := hs.someLog ht
    rcases run_sysGetProcessLog hp ht (fun h => (hl h).1) size a copied with
      ⟨hc, hrun⟩ | ⟨hc, hrest⟩
    · rw [hrun]
      refine .readRefused hp ht ?_
      intro l' hl' hok
      rw [(hl hok.1).1] at hl'
      cases hl'
      exact hc hok
    · have hl' := (hl hc.1).1
      rcases hrest with ⟨ha, hrun⟩ | ⟨_, _, data, fs, hrun, hfs, hhit⟩
      · rw [hrun]
        exact .readNoMem hp ht hl' hc ha
      · rw [hrun]
        cases copied with
        | true => exact .read hp ht hl' hc hfs hhit
        | false =>
          have hsame : k.set t.logArray (.log l) = k := by
            simp only [Kernel.set]
            rw [← hl', Function.update_eq_self]
          simp only [Bool.false_eq_true, if_false, hsame]
          exact .readFailed hp ht hl' hc hfs fun e hin => (hhit e hin).2

/-- A gated call ends at its gate, or as its body does. -/
theorem gated_outcome {c : Call} {g : Gate} (hg : c.gate = some g) (hpid : c.pid = g.cur)
    (body : Addr → KM Int)
    (hexec : c.exec = asCurrent g.cur fun p => gated p g.reqLevel g.jiffies (body p))
    (hbody : ∀ p t, k.pidhash g.cur = some p → k.mem p = some (.task t) →
      ¬ TaskStruct.denied t g.reqLevel →
      Outcome k c ⟨((body p).run k).1, [], true⟩ ((body p).run k).2) : Ends k c := by
  rw [Ends, hexec]
  simp only [asCurrent, run_bind, run_findTaskByPid]
  cases hp : k.pidhash g.cur with
  | none => exact .noCaller hg (hpid ▸ hp)
  | some p =>
    obtain ⟨t, ht, _⟩ := hs.hash g.cur p hp
    obtain ⟨l, hl, _⟩ := hs.someLog ht
    have hl' : t.policyOn = 1 → k.mem t.logArray = some (.log l) :=
      fun hon => (hl (by rw [hon]; decide)).1
    rw [run_gated ht hl']
    split
    · rename_i hd
      exact .denied hg hp ht (hl' hd.1) hd
    · rename_i hd
      exact hbody p t hp ht hd

theorem fork_outcome (cur jiffies : Int) (flags : Nat) (child : Addr) (rest : ForkRest) :
    Ends k (.fork cur jiffies flags child rest) := by
  refine gated_outcome hs rfl rfl _ rfl fun p t hp ht hd => ?_
  rcases run_doForkBody ht flags child rest with ⟨r, hrun⟩ | ⟨pid, rfl, hc0, hc, hpid, hrun⟩
  · rw [hrun]
    exact .passed rfl hp ht hd
  · rw [hrun]
    exact .forked hp ht hd ⟨hc0, hc⟩ hpid

theorem wait_outcome (cur jiffies : Int) (options : Nat) (scan : WaitScan) :
    Ends k (.wait4 cur jiffies options scan) := by
  refine gated_outcome hs rfl rfl _ rfl fun p t hp ht hd => ?_
  have stays : ∀ r, Outcome k (.wait4 cur jiffies options scan) ⟨r, [], true⟩ k :=
    fun r => .passed rfl hp ht hd
  unfold sysWait4Body
  by_cases ho : options &&& (0xffffffff ^^^ waitOptions) ≠ 0
  · simp only [if_pos ho, run_pure]
    exact stays _
  · cases scan with
    | done r =>
      simp only [if_neg ho, run_pure]
      exact stays r
    | zombie pid =>
      simp only [if_neg ho, run_bind, run_findTaskByPid]
      cases hq : k.pidhash pid with
      | none => exact stays 0
      | some q =>
        by_cases hqp : q = p
        · simp only [if_pos hqp, run_pure]
          exact stays 0
        · obtain ⟨t', ht', _⟩ := hs.hash pid q hq
          obtain ⟨l, hl, hr⟩ := hs.someLog ht'
          simp only [if_neg hqp, run_bind, run_releaseTask ht' hl hr, run_pure]
          exact .reaped hp ht hd hq hqp ht' fun hon => (hl (by rw [hon]; decide)).1

/-- Every call made in a sound state has one of the outcomes. -/
theorem exec_outcome (c : Call) : Ends k c := by
  cases c with
  | enablePolicy pid size password m => exact enable_outcome hs pid size password m
  | disablePolicy pid password => exact disable_outcome hs pid password
  | setProcessCapabilities pid newLevel password => exact level_outcome hs pid newLevel password
  | getProcessLog pid size a copied => exact read_outcome hs pid size a copied
  | fork cur jiffies flags child rest => exact fork_outcome hs cur jiffies flags child rest
  | wait4 cur jiffies options scan => exact wait_outcome hs cur jiffies options scan
  | schedYield cur jiffies =>
    exact gated_outcome hs rfl rfl _ rfl fun p t hp ht hd =>
      .passed rfl hp ht hd

theorem step_outcome {k' : Kernel} {e : Call × Reply} (h : Step k e k') :
    Outcome k e.1 e.2 k' := by
  have ho := exec_outcome hs e.1
  rwa [Ends, h] at ho

end

end Cases

/-! ## Every outcome keeps the blocks accounted for -/

section Keep
variable {k k' : Kernel}

theorem outcome_sound {c : Call} {r : Reply} (hs : Sound k) (h : Outcome k c r k') :
    Sound k' ∧ ∃ fs, k'.faults = fs ++ k.faults ∧ ∀ f ∈ fs, ArrayFault f := by
  have quiet : ∀ {k' : Kernel}, Sound k' → k'.faults = k.faults →
      Sound k' ∧ ∃ fs, k'.faults = fs ++ k.faults ∧ ∀ f ∈ fs, ArrayFault f :=
    fun h1 h2 => ⟨h1, [], h2, by simp⟩
  cases h with
  | noTarget _ _ | noCaller _ _ | enableRefused _ _ _ | disableRefused _ _ _ | levelRefused _ _ _
  | readRefused _ _ _ | readNoMem _ _ _ _ _ | passed _ _ _ _ => exact quiet hs rfl
  | enableNoMem a hp ht hc hm =>
    exact quiet (hs.setTask ht rfl rfl fun hon => absurd hon hc.2.1) rfl
  | enabledEmpty hp ht hc hm => exact quiet (hs.onTask ht hc.2.1 hm.1.1 hm.1.2 _) rfl
  | enabled hp ht hc h0 hm =>
    obtain ⟨hl, ha⟩ := hm
    obtain ⟨ha, hne⟩ := ha (by omega)
    exact quiet (hs.onTask_array ht hc.2.1 hl.1 hl.2 ha.1 ha.2 hne.symm h0 _ _) rfl
  | disabled hp ht hon hl => exact quiet (hs.offTask ht hon hl) (faults_freeLog _)
  | levelSet hp ht hon hlo hhi => exact quiet (hs.setTask ht rfl rfl fun _ => rfl) rfl
  | readFailed hp ht hl hc hfs hhit => exact ⟨hs.faults _, _, rfl, hfs⟩
  | read hp ht hl hc hfs hhit => exact ⟨(hs.setLog hl (by simp) (by simp)).faults _, _, rfl, hfs⟩
  | denied hg hp ht hl hd => exact hs.logged hl _
  | forked hp ht hd hc hpid => exact quiet (hs.fork hc.1 hc.2 rfl rfl) rfl
  | reaped hp ht hd hq hne ht' hl => exact quiet (hs.release ht' hl) faults_released

theorem step_sound {e : Call × Reply} (hs : Sound k) (h : Step k e k') :
    Sound k' ∧ ∃ fs, k'.faults = fs ++ k.faults ∧ ∀ f ∈ fs, ArrayFault f :=
  outcome_sound hs (step_outcome hs h)

end Keep

/-! ## Runs from boot -/

/-- The kernel before the first policy call: tasks with their policy off, and
nothing allocated for a log. -/
structure Boot (k : Kernel) : Prop where
  null : k.mem 0 = none
  hash : ∀ pid p, k.pidhash pid = some p → ∃ t, k.mem p = some (.task t) ∧ t.pid = pid
  tasks : ∀ a x, k.mem a = some x → ∃ t, x = .task t ∧ t.policyOn = 0
  clean : k.faults = []

theorem Boot.sound {k : Kernel} (hb : Boot k) : Sound k := by
  have hown : ∀ a, owner k a = none := by
    intro a
    cases ha : k.mem a with
    | none => simp [owner, ha]
    | some x =>
      obtain ⟨t, rfl, hoff⟩ := hb.tasks a x ha
      simp [owner, ha, ownedBy, hoff]
  refine ⟨hb.null, hb.hash, ?_, ?_, Exact.empty hown ?_⟩
  · intro a x ha
    obtain ⟨t, rfl, hoff⟩ := hb.tasks a x ha
    exact .inl hoff
  · intro b a hba
    rw [hown] at hba; cases hba
  · rintro a ⟨x, ha, hlog⟩
    obtain ⟨t, rfl, _⟩ := hb.tasks a x ha
    simp [isLogBlock, kind] at hlog

/-- The calls, made one after another. -/
def trace (k : Kernel) : List Call → List (Call × Reply) × Kernel
  | [] => ([], k)
  | c :: cs =>
    let rest := trace (c.exec.run k).2 cs
    ((c, (c.exec.run k).1) :: rest.1, rest.2)

theorem run_trace (k : Kernel) (cs : List Call) : Run Step k (trace k cs).1 (trace k cs).2 := by
  induction cs generalizing k with
  | nil => exact .nil k
  | cons c cs ih => exact .cons rfl (ih _)

/-- Two tasks, pid 1 at address 1 and pid 2 at address 2. -/
def twoTasks : Kernel where
  mem a := if a = 1 then some (.task ⟨1, 0, 2, 0⟩)
    else if a = 2 then some (.task ⟨2, 0, 2, 0⟩) else none
  pidhash pid := if pid = 1 then some 1 else if pid = 2 then some 2 else none
  faults := []

theorem twoTasks_boot : Boot twoTasks := by
  refine ⟨rfl, ?_, ?_, rfl⟩
  · intro pid p hp
    simp only [twoTasks] at hp
    split at hp
    · cases hp
      rename_i h1
      exact ⟨_, rfl, h1.symm⟩
    · split at hp
      · cases hp
        rename_i h2
        exact ⟨_, rfl, h2.symm⟩
      · cases hp
  · intro a x ha
    simp only [twoTasks] at ha
    split at ha
    · cases ha; exact ⟨_, rfl, rfl⟩
    · split at ha
      · cases ha; exact ⟨_, rfl, rfl⟩
      · cases ha

/-- Faults in the run of a sound system stay within the record arrays. -/
theorem run_sound {k k' : Kernel} {es : List (Call × Reply)} (hb : Boot k)
    (h : Run Step k es k') : Sound k' ∧ ∀ f ∈ k'.faults, ArrayFault f := by
  refine h.invariant (I := fun k => Sound k ∧ ∀ f ∈ k.faults, ArrayFault f) ?_
    ⟨hb.sound, by simp [hb.clean]⟩
  rintro k e k' ⟨hs, hf⟩ hstep
  obtain ⟨hs', fs, hfs, hfs'⟩ := step_sound hs hstep
  refine ⟨hs', ?_⟩
  intro f hmem
  rw [hfs] at hmem
  rcases List.mem_append.mp hmem with h1 | h1
  · exact hfs' f h1
  · exact hf f h1

end CustomKernel.Policy.Outcomes

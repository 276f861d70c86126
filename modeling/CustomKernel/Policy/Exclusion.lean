import CustomKernel.Policy.Interleave

/-! # When overlapping calls are safe

The code takes no lock over its sleeps, so safety is up to the callers. Two
things must not happen. An enable must not come out of its first `kmalloc` on
a target whose policy went on in the meantime, or which another enable is
giving its records. And a target must not lose its policy or be reaped while a
call that has checked it still sleeps. -/
namespace CustomKernel.Policy.Exclusion
open Lib.Transition Function
open Policy.Heap Policy.Syscalls Policy.Effects
open Policy.Ownership Policy.Outcomes Policy.Interleave

/-- An enable that comes out of its first `kmalloc` finds the policy still off,
and no other enable of the same target between its two allocations. -/
def Apart (s : Sys) : Event → Prop
  | .wake i _ => ∀ p size, s.calls i = some (.enableLog p size) →
      (∀ t, s.k.mem p = some (.task t) → t.policyOn ≠ 1) ∧
      ∀ j n a, s.calls j ≠ some (.enableArray p n a)
  | .enable .. | .getLog .. | .disable .. | .exit _ => True

/-- The policy of a process is only turned off while nobody is reading its log,
and a process is only reaped while no call works on it. -/
def Undisturbed (s : Sys) : Event → Prop
  | .disable pid password => password = policyPassword → ∀ p, s.k.pidhash pid = some p →
      ∀ j f, s.calls j = some f → f.target = p → ¬ f.reads
  | .exit pid => ∀ p, s.k.pidhash pid = some p → ∀ j f, s.calls j = some f → f.target ≠ p
  | .enable .. | .getLog .. | .wake .. => True

section Step
variable {s s' : Sys} {H : Set Addr} {e : Event}

theorem enter_enable (hi : Inv s H) (i : Nat) (pid size password : Int) :
    Inv (s.exec (.enable i pid size password)) H := by
  cases hfree : s.calls i with
  | some f => simp only [Sys.exec, hfree]; exact hi
  | none =>
    cases hp : s.k.pidhash pid with
    | none =>
      simp only [Sys.exec, hfree, enablePolicyChecks, run_bind, run_findTaskByPid, hp, run_pure]
      exact hi.enter hfree (by simp)
    | some p =>
      obtain ⟨t, ht⟩ := hi.target hp
      simp only [Sys.exec, hfree, run_enablePolicyChecks hp ht]
      by_cases hc : password = policyPassword ∧ t.policyOn ≠ 1 ∧ 0 ≤ size
      · rw [if_pos hc]
        refine hi.enter hfree ?_
        intro f hf
        cases hf
        exact ⟨⟨t, ht, hc.2.2⟩, rfl⟩
      · rw [if_neg hc]
        exact hi.enter hfree (by simp)

theorem enter_getLog (hi : Inv s H) (i : Nat) (pid size : Int) :
    Inv (s.exec (.getLog i pid size)) H := by
  cases hfree : s.calls i with
  | some f => simp only [Sys.exec, hfree]; exact hi
  | none =>
    cases hp : s.k.pidhash pid with
    | none =>
      simp only [Sys.exec, hfree, getProcessLogChecks, run_bind, run_findTaskByPid, hp, run_pure]
      exact hi.enter hfree (by simp)
    | some p =>
      obtain ⟨t, ht⟩ := hi.target hp
      obtain ⟨l, hlog, _⟩ := hi.sound.someLog (hi.view_task ht)
      have hl : t.policyOn ≠ 0 → s.k.mem t.logArray = some (.log l) :=
        fun h => (hide_mem_some.mp (hlog h).1).2
      simp only [Sys.exec, hfree, run_getProcessLogChecks hp ht hl]
      by_cases hc : t.policyOn ≠ 0 ∧ ¬ (size > l.size ∨ size < 0) ∧ tooFewRecords l size = false
      · rw [if_pos hc]
        refine hi.enter hfree ?_
        intro f hf
        cases hf
        have hon := (hi.sound.flag (hi.view_task ht)).resolve_left hc.1
        exact ⟨⟨t, ht, hon, l, hl hc.1, by omega⟩, rfl⟩
      · rw [if_neg hc]
        exact hi.enter hfree (by simp)

/-- Every event that meets the two conditions keeps the blocks accounted
for. -/
theorem step_inv (hi : Inv s H) (ha : Apart s e) (hu : Undisturbed s e) (h : SysStep s e s') :
    ∃ H', Inv s' H' := by
  subst h
  cases e with
  | enable i pid size password => exact ⟨H, enter_enable hi i pid size password⟩
  | getLog i pid size => exact ⟨H, enter_getLog hi i pid size⟩
  | wake i w =>
    cases hf : s.calls i with
    | none => simp only [Sys.exec, hf]; exact ⟨H, hi⟩
    | some f =>
      simp only [Sys.exec, hf]
      cases f with
      | enableLog p size => exact hi.wakeLog hf w (ha p size hf).1 (ha p size hf).2
      | enableArray p size a => exact hi.wakeArray hf w
      | readMem p size prev => exact hi.wakeRead hf w
      | readUser p size prev temp => exact hi.wakeUser hf w
  | disable pid password =>
    cases hp : s.k.pidhash pid with
    | none => simp only [Sys.exec, hp]; exact ⟨H, hi⟩
    | some p => exact ⟨H, hi.disable hp fun hc => hu hc p hp⟩
  | exit pid =>
    cases hp : s.k.pidhash pid with
    | none => simp only [Sys.exec, hp]; exact ⟨H, hi⟩
    | some p => exact ⟨H, hi.exit hp (hu p hp)⟩

end Step

/-- What the allocator hands a call that wakes up. -/
def granted (a : Addr) : Wake := ⟨a, default, fun _ => default, true⟩

/-! ## Enables of one process -/

/-- The events of `sys_enable_policy` and `sys_disable_policy`. -/
def toggles : Event → Prop
  | .enable .. | .wake .. | .disable .. => True
  | .getLog .. | .exit _ => False

/-- Where only these run, nobody is reading. -/
theorem exec_noReads {s : Sys} {e : Event} (he : toggles e)
    (h : ∀ j f, s.calls j = some f → ¬ f.reads) :
    ∀ j f, (s.exec e).calls j = some f → ¬ f.reads := by
  have moved : ∀ (i : Nat) (g : Option Frame), (∀ f, g = some f → ¬ f.reads) →
      ∀ j f, update s.calls i g j = some f → ¬ f.reads := by
    intro i g hg j f hj
    rcases eq_of_update hj with ⟨-, hj⟩ | ⟨-, hj⟩
    · exact hg f hj
    · exact h j f hj
  have ended : ∀ f, (none : Option Frame) = some f → ¬ f.reads := by
    intro f hf; cases hf
  have asleep : ∀ g : Frame, ¬ g.reads → ∀ f, some g = some f → ¬ f.reads := by
    intro g hg f hf
    cases hf
    exact hg
  cases e with
  | getLog _ _ _ | exit _ => cases he
  | enable i pid size password =>
    simp only [Sys.exec]
    split
    · exact h
    · split
      · exact moved i _ (asleep _ id)
      · exact moved i _ ended
  | wake i w =>
    simp only [Sys.exec]
    split
    · rename_i f hf
      cases f with
      | enableLog p size =>
        simp only [Sys.resume]
        split
        · exact moved i _ (asleep _ id)
        · exact moved i _ ended
      | enableArray p size a => exact moved i _ ended
      | readMem _ _ _ | readUser _ _ _ _ => exact absurd trivial (h i _ hf)
    · exact h
  | disable pid password =>
    simp only [Sys.exec]
    split
    · exact h
    · exact h

/-- Enables and disables in any interleaving, each enable coming out of its
first `kmalloc` apart from the others: whenever no call is in progress, at most
one enable of a process holds, the log has the size that this one asked for, and
no log block is without an owner. -/
theorem enables_exclusive {k : Kernel} {s : Sys} {es : List Event} (hb : Boot k)
    (h : Run (Meeting (fun s e => toggles e ∧ Apart s e) SysStep) (Sys.boot k) es s)
    (hidle : ∀ i, s.calls i = none) :
    (∀ pid p, s.k.pidhash pid = some p → (s.won p).length ≤ 1 ∧
      ∀ size ∈ s.won p, ∃ t l, s.k.mem p = some (.task t) ∧ t.policyOn = 1 ∧
        s.k.mem t.logArray = some (.log l) ∧ l.size = size) ∧
    logBlocks s.k = ⋃ p, blocksOf s.k p := by
  rw [boot_eq_start hb] at h
  obtain ⟨⟨H, hi⟩, _⟩ := h.invariant
    (I := fun s => (∃ H, Inv s H) ∧ ∀ j f, s.calls j = some f → ¬ f.reads)
    (fun s e s' ⟨⟨H, hi⟩, hno⟩ ⟨⟨het, hea⟩, hstep⟩ => by
      refine ⟨step_inv hi hea ?_ hstep, by rw [hstep]; exact exec_noReads het hno⟩
      cases e with
      | enable _ _ _ _ | wake _ _ => trivial
      | disable pid password => exact fun _ _ _ j f hj _ => hno j f hj
      | getLog _ _ _ | exit _ => cases het)
    ⟨⟨∅, Inv.start hb.sound hb.clean⟩, fun j f hj => by cases hj⟩
  -- with nothing in progress nothing is hidden
  have hH : H = ∅ := by
    apply Set.eq_empty_of_forall_notMem
    intro a ha
    obtain ⟨i, hia⟩ := hi.held.owned a ha
    rw [holder, hidle i] at hia
    cases hia
  have hs : Sound s.k := by
    have := hi.sound
    rwa [hH, hide_empty] at this
  refine ⟨?_, ?_⟩
  · intro pid p hp
    obtain ⟨t, ht⟩ := hi.target hp
    rw [hi.won p t ht]
    rcases hs.flag ht with hoff | hon
    · rw [sizesOf_off (by omega)]
      exact ⟨by simp, by simp⟩
    · obtain ⟨l, hl, _⟩ := hs.log ht hon
      rw [sizesOf_on hon hl]
      refine ⟨by simp, ?_⟩
      intro size hsize
      exact ⟨t, l, ht, hon, hl, (List.mem_singleton.mp hsize).symm⟩
  · ext a
    rw [hs.mem_logBlocks, Set.mem_iUnion]

/-- An enable for two records, a disable, and an enable for three. -/
def enabledTwice : List Event :=
  [.enable 0 2 2 policyPassword, .wake 0 (granted 3), .wake 0 (granted 4),
    .disable 2 policyPassword, .enable 1 2 3 policyPassword, .wake 1 (granted 5),
    .wake 1 (granted 6)]

theorem enables_exclusive_twice :
    let s := (Sys.boot twoTasks).execAll enabledTwice
    s.won 2 = [3] ∧ (s.won 2).length ≤ 1 ∧ logBlocks s.k = ⋃ p, blocksOf s.k p := by
  have hrun : Run (Meeting (fun s e => toggles e ∧ Apart s e) SysStep) (Sys.boot twoTasks)
      enabledTwice ((Sys.boot twoTasks).execAll enabledTwice) := by
    refine .cons ⟨⟨trivial, trivial⟩, rfl⟩ (.cons ⟨⟨trivial, ?_⟩, rfl⟩ (.cons ⟨⟨trivial, ?_⟩, rfl⟩
      (.cons ⟨⟨trivial, trivial⟩, rfl⟩ (.cons ⟨⟨trivial, trivial⟩, rfl⟩
      (.cons ⟨⟨trivial, ?_⟩, rfl⟩ (.cons ⟨⟨trivial, ?_⟩, rfl⟩ (.nil _)))))))
    · rintro p size ⟨⟩
      refine ⟨fun t ht => by cases ht; decide, fun j n a hj => ?_⟩
      cases j <;> cases hj
    · rintro p size ⟨⟩
    · rintro p size ⟨⟩
      refine ⟨fun t ht => by cases ht; decide, fun j n a hj => ?_⟩
      rcases j with _ | _ | j <;> cases hj
    · rintro p size ⟨⟩
  obtain ⟨h1, h2⟩ := enables_exclusive twoTasks_boot hrun (fun i => by
    rcases i with _ | _ | i <;> rfl)
  exact ⟨by decide, (h1 2 2 rfl).1, h2⟩

/-- Two enables that overlap in their first `kmalloc`. -/
def enabledAtOnce : List Event :=
  [.enable 0 2 2 policyPassword, .enable 1 2 3 policyPassword, .wake 0 (granted 3),
    .wake 1 (granted 4), .wake 0 (granted 5), .wake 1 (granted 6)]

/-- Both return 0, the log has the size of the second, and a log and a record
array are left that no task leads to. -/
theorem enables_overlap :
    ∃ s, Run SysStep (Sys.boot twoTasks) enabledAtOnce s ∧ (∀ e ∈ enabledAtOnce, toggles e) ∧
      (∀ i, s.calls i = none) ∧ s.won 2 = [3, 2] ∧
      (3 ∈ logBlocks s.k ∧ ∀ p, 3 ∉ blocksOf s.k p) ∧
      (5 ∈ logBlocks s.k ∧ ∀ p, 5 ∉ blocksOf s.k p) := by
  have owned : ∀ p a, a ∈ blocksOf ((Sys.boot twoTasks).execAll enabledAtOnce).k p →
      a = 4 ∨ a = 6 := by
    rintro p a ⟨t, ht, hon, ha⟩
    rcases p with _ | _ | _ | _ | _ | _ | _ | p <;> cases ht
    · cases hon
    · rcases ha with rfl | ⟨l, hl, _, rfl⟩
      · exact .inl rfl
      · cases hl
        exact .inr rfl
  refine ⟨_, run_execAll _ _, by simp [enabledAtOnce, toggles], ?_, by decide,
    ⟨⟨_, rfl, .inl rfl⟩, ?_⟩, ⟨_, rfl, .inr rfl⟩, ?_⟩
  · intro i
    rcases i with _ | _ | i <;> rfl
  · intro p h
    exact absurd (owned p 3 h) (by decide)
  · intro p h
    exact absurd (owned p 5 h) (by decide)

/-! ## Targets that go away -/

/-- While every event meets the two conditions, no call in progress loses its
task or the log it reads, and no access goes to a task, a log or a record array
that is not there, nor is anything freed that is not live. -/
theorem sleeping_calls_safe {k : Kernel} {s : Sys} {es : List Event} (hs : Sound k)
    (hf : k.faults = [])
    (h : Run (Meeting (fun s e => Apart s e ∧ Undisturbed s e) SysStep) (Sys.start k) es s) :
    (∀ i f, s.calls i = some f → f.Live s.k) ∧ Fault.freedTask ∉ s.k.faults ∧
      Fault.freedLog ∉ s.k.faults ∧ Fault.freedArray ∉ s.k.faults ∧
      Fault.badFree ∉ s.k.faults := by
  obtain ⟨H, hi⟩ := h.invariant (I := fun s => ∃ H, Inv s H)
    (fun s e s' ⟨H, hi⟩ hstep => step_inv hi hstep.1.1 hstep.1.2 hstep.2) ⟨∅, Inv.start hs hf⟩
  have none_of : ∀ f, f ≠ .outOfBounds → f ∉ s.k.faults := fun f hn hmem => hn (hi.faults f hmem)
  exact ⟨hi.live, none_of _ (by simp), none_of _ (by simp), none_of _ (by simp),
    none_of _ (by simp)⟩

/-- Pid 2 with a log of four records, restricted, and one refused call. -/
def restricted : Kernel :=
  (trace twoTasks [.enablePolicy 2 4 policyPassword ⟨3, default, 4, fun _ => default⟩,
    .setProcessCapabilities 2 0 policyPassword, .schedYield 2 100]).2

theorem restricted_sound : Sound restricted := (run_sound twoTasks_boot (run_trace _ _)).1

/-- The record is read, and then the policy goes. -/
def readThenDisable : List Event :=
  [.getLog 0 2 1, .wake 0 (granted 5), .wake 0 (granted 0), .disable 2 policyPassword]

theorem sleeping_calls_safe_read :
    let s := (Sys.start restricted).execAll readThenDisable
    Fault.freedLog ∉ s.k.faults ∧ Fault.badFree ∉ s.k.faults := by
  have hrun : Run (Meeting (fun s e => Apart s e ∧ Undisturbed s e) SysStep)
      (Sys.start restricted) readThenDisable ((Sys.start restricted).execAll readThenDisable) := by
    refine .cons ⟨⟨trivial, trivial⟩, rfl⟩ (.cons ⟨⟨?_, trivial⟩, rfl⟩ (.cons ⟨⟨?_, trivial⟩, rfl⟩
      (.cons ⟨⟨trivial, ?_⟩, rfl⟩ (.nil _))))
    · rintro p size ⟨⟩
    · rintro p size ⟨⟩
    · intro _ p _ j f h
      cases j <;> cases h
  obtain ⟨_, _, hlog, _, hfree⟩ := sleeping_calls_safe restricted_sound rfl hrun
  exact ⟨hlog, hfree⟩

/-- A target is reaped under an enable, another loses its policy under a read,
and a third its log under two enables: the sleeper goes through a freed task,
a freed log, and frees what is not live. -/
theorem sleeping_calls_lose_target :
    (∃ s, Run SysStep (Sys.start twoTasks)
      [.enable 0 2 4 policyPassword, .exit 2, .wake 0 (granted 3)] s ∧
      Fault.freedTask ∈ s.k.faults) ∧
    (∃ s, Run SysStep (Sys.start restricted)
      [.getLog 0 2 1, .disable 2 policyPassword, .wake 0 (granted 5)] s ∧
      Fault.freedLog ∈ s.k.faults) ∧
    (∃ s, Run SysStep (Sys.start twoTasks)
      [.enable 0 2 2 policyPassword, .enable 1 2 3 policyPassword, .wake 0 (granted 3),
        .wake 1 (granted 4), .wake 0 (granted 0), .wake 1 (granted 0)] s ∧
      Fault.badFree ∈ s.k.faults) :=
  ⟨⟨_, run_execAll _ _, by decide⟩, ⟨_, run_execAll _ _, by decide⟩,
    ⟨_, run_execAll _ _, by decide⟩⟩

end CustomKernel.Policy.Exclusion

import CustomKernel.Policy.Log

/-! # What each piece of a call does

The state every piece leaves, given the blocks it finds. These equations are
the only place where the code is executed; everything after works with the
states they name. -/
namespace CustomKernel.Policy.Effects
open Lib.Ring Function
open Policy.Heap Policy.Syscalls Policy.Log

variable {k : Kernel} {p a temp : Addr} {t : TaskStruct} {l : LogArray} {pid size password : Int}

/-! ## Enabling -/

/-- The task once its policy is on, with its log at `a`. -/
def onTask (t : TaskStruct) (a : Addr) : TaskStruct :=
  { t with policyOn := 1, policyLevel := 2, logArray := a }

/-- The task with its policy off. The log pointer is left as it was. -/
def offTask (t : TaskStruct) : TaskStruct := { t with policyOn := 0, policyLevel := 2 }

theorem run_enablePolicyChecks (hp : k.pidhash pid = some p)
    (ht : k.mem p = some (.task t)) : (enablePolicyChecks pid size password).run k =
      (if password = policyPassword ∧ t.policyOn ≠ 1 ∧ 0 ≤ size then .ok p
        else .error (-EINVAL), k) := by
  by_cases h1 : password = policyPassword
  · by_cases h2 : t.policyOn = 1
    · simp [enablePolicyChecks, hp, ht, h1, h2]
    · by_cases h3 : size < 0
      · have h3' : ¬ 0 ≤ size := by omega
        simp [enablePolicyChecks, hp, ht, h1, h2, h3]
      · have h3' : 0 ≤ size := by omega
        simp [enablePolicyChecks, hp, ht, h1, h2, h3, h3']
  · simp [enablePolicyChecks, hp, h1]

section
variable (ht : k.mem p = some (.task t))
include ht

theorem run_enablePolicyLog_fail (size : Int) (junk : LogArray)
    (h : ¬ (a ≠ 0 ∧ k.mem a = none)) : (enablePolicyLog p size a junk).run k =
      (some (-ENOMEM), k.set p (.task { t with logArray := 0 })) := by
  simp [enablePolicyLog, run_kmalloc_fail _ h, ht]

theorem run_enablePolicyLog_done (junk : LogArray)
    (h0 : a ≠ 0) (h : k.mem a = none) : (enablePolicyLog p 0 a junk).run k =
      (some 0, (k.set p (.task (onTask t a))).set a (.log (freshLog 0 junk.array))) := by
  have hne := k.ne_of_free ht h
  simp only [enablePolicyLog, run_bind, run_kmalloc _ h0 h]
  simp [enablePolicyInit, ht, hne, h0, onTask, freshLog, Kernel.set_comm _ _ hne.symm]

theorem run_enablePolicyLog_ask {size : Int} (junk : LogArray)
    (hs : size ≠ 0) (h0 : a ≠ 0) (h : k.mem a = none) : (enablePolicyLog p size a junk).run k =
      (none, (k.set p (.task { t with logArray := a })).set a (.log junk)) := by
  have hne := k.ne_of_free ht h
  simp only [enablePolicyLog, run_bind, run_kmalloc _ h0 h]
  simp [ht, hne, hs, h0, Kernel.set_comm _ _ hne.symm]

theorem run_enablePolicyArray_fail
    (hl : k.mem t.logArray = some (.log l)) (size : Int) (junk : Int → ForbiddenActivityInfo)
    (h : ¬ (a ≠ 0 ∧ k.mem a = none)) : (enablePolicyArray p size a junk).run k =
      (-ENOMEM, k.unset t.logArray) := by
  have hne := k.ne_of_mem ht hl (by simp)
  simp [enablePolicyArray, run_kmalloc_fail _ h, ht, hl, hne]

theorem run_enablePolicyArray_done
    (hl : k.mem t.logArray = some (.log l)) (size : Int) (junk : Int → ForbiddenActivityInfo)
    (h0 : a ≠ 0) (h : k.mem a = none) : (enablePolicyArray p size a junk).run k =
      (0, ((k.set p (.task (onTask t t.logArray))).set t.logArray (.log (freshLog size a))).set a
        (.records (requestBytes size) junk)) := by
  have hne := k.ne_of_mem ht hl (by simp)
  have hpa := k.ne_of_free ht h
  have hla := k.ne_of_free hl h
  simp only [enablePolicyArray, run_bind, run_kmalloc _ h0 h]
  simp [enablePolicyInit, ht, hl, hne, hpa, hla, h0, onTask, freshLog,
    Kernel.set_comm _ _ hne.symm, Kernel.set_comm _ _ hpa.symm, Kernel.set_comm _ _ hla.symm]

end

/-- The five ways `sys_enable_policy` can end once it has found its task. -/
theorem run_sysEnablePolicy (hp : k.pidhash pid = some p)
    (ht : k.mem p = some (.task t)) (size password : Int) (m : EnableMem) :
    (¬ (password = policyPassword ∧ t.policyOn ≠ 1 ∧ 0 ≤ size) ∧
      (sysEnablePolicy pid size password m).run k = (-EINVAL, k)) ∨
    (password = policyPassword ∧ t.policyOn ≠ 1 ∧ 0 ≤ size ∧
      ((∃ a, (sysEnablePolicy pid size password m).run k =
          (-ENOMEM, k.set p (.task { t with logArray := a })) ∧
          (¬ (m.log ≠ 0 ∧ k.mem m.log = none) ∨
            (size ≠ 0 ∧ ¬ (m.array ≠ 0 ∧ k.mem m.array = none ∧ m.array ≠ m.log)))) ∨
        (m.log ≠ 0 ∧ k.mem m.log = none ∧ size = 0 ∧
          (sysEnablePolicy pid size password m).run k =
            (0, (k.set p (.task (onTask t m.log))).set m.log
              (.log (freshLog 0 m.logJunk.array)))) ∨
        (m.log ≠ 0 ∧ k.mem m.log = none ∧ size ≠ 0 ∧ m.array ≠ 0 ∧ k.mem m.array = none ∧
          m.log ≠ m.array ∧ (sysEnablePolicy pid size password m).run k =
            (0, ((k.set p (.task (onTask t m.log))).set m.log (.log (freshLog size m.array))).set
              m.array (.records (requestBytes size) m.arrayJunk))))) := by
  by_cases hc : password = policyPassword ∧ t.policyOn ≠ 1 ∧ 0 ≤ size
  · refine .inr ⟨hc.1, hc.2.1, hc.2.2, ?_⟩
    by_cases h1 : m.log ≠ 0 ∧ k.mem m.log = none
    · obtain ⟨h1, h2⟩ := h1
      have hpl := k.ne_of_free ht h2
      by_cases h3 : size = 0
      · refine .inr (.inl ⟨h1, h2, h3, ?_⟩)
        subst h3
        simp only [sysEnablePolicy, run_bind, run_enablePolicyChecks hp ht, if_pos hc,
          run_enablePolicyLog_done ht m.logJunk h1 h2, run_pure]
      · -- the record array is asked for in the state with the log already there
        have ht' : ((k.set p (.task { t with logArray := m.log })).set m.log (.log m.logJunk)).mem p =
            some (.task { t with logArray := m.log }) := by simp [hpl]
        have hl' : ((k.set p (.task { t with logArray := m.log })).set m.log (.log m.logJunk)).mem
            m.log = some (.log m.logJunk) := by simp
        by_cases h4 : m.array ≠ 0 ∧ k.mem m.array = none ∧ m.array ≠ m.log
        · obtain ⟨h4, h5, h6⟩ := h4
          have hpa : m.array ≠ p := by intro he; rw [← he, h5] at ht; cases ht
          refine .inr (.inr ⟨h1, h2, h3, h4, h5, h6.symm, ?_⟩)
          simp only [sysEnablePolicy, run_bind, run_enablePolicyChecks hp ht, if_pos hc,
            run_enablePolicyLog_ask ht m.logJunk h3 h1 h2]
          rw [run_enablePolicyArray_done ht' hl' size m.arrayJunk h4 (by simp [h6, hpa, h5])]
          simp [onTask, Kernel.set_comm _ _ hpl.symm]
        · refine .inl ⟨m.log, ?_, .inr ⟨h3, h4⟩⟩
          have hbad : ¬ (m.array ≠ 0 ∧ ((k.set p (.task { t with logArray := m.log })).set m.log
              (.log m.logJunk)).mem m.array = none) := by
            rintro ⟨g1, g2⟩
            have g3 : m.array ≠ m.log := by intro he; simp [he] at g2
            have g4 : m.array ≠ p := by intro he; simp [he, hpl] at g2
            exact h4 ⟨g1, by simpa [g3, g4] using g2, g3⟩
          simp only [sysEnablePolicy, run_bind, run_enablePolicyChecks hp ht, if_pos hc,
            run_enablePolicyLog_ask ht m.logJunk h3 h1 h2]
          rw [run_enablePolicyArray_fail ht' hl' size m.arrayJunk hbad, Kernel.unset_set,
            Kernel.unset_comm _ hpl, Kernel.unset_of_none h2]
    · refine .inl ⟨0, ?_, .inl h1⟩
      simp [sysEnablePolicy, run_enablePolicyChecks hp ht, if_pos hc,
        run_enablePolicyLog_fail ht size m.logJunk h1]
  · refine .inl ⟨hc, ?_⟩
    simp [sysEnablePolicy, run_enablePolicyChecks hp ht, if_neg hc]

/-! ## Disabling, changing the level -/

/-- The blocks of a log are given back. -/
def freeLog (k : Kernel) (a : Addr) (l : LogArray) : Kernel :=
  (if l.size = 0 then k else k.unset l.array).unset a

theorem run_sysDisablePolicy (password : Int) (hp : k.pidhash pid = some p)
    (ht : k.mem p = some (.task t)) (hl : t.policyOn ≠ 0 → k.mem t.logArray = some (.log l))
    (hr : t.policyOn ≠ 0 → l.size ≠ 0 → ∃ n e, k.mem l.array = some (.records n e)) :
    (sysDisablePolicy pid password).run k =
      if t.policyOn ≠ 0 ∧ password = policyPassword then
        (0, freeLog (k.set p (.task (offTask t))) t.logArray l)
      else (-EINVAL, k) := by
  by_cases h1 : t.policyOn = 0
  · simp [sysDisablePolicy, hp, ht, h1]
  · by_cases h2 : password = policyPassword
    · have hl := hl h1
      have hne := (k.ne_of_mem ht hl (by simp)).symm
      by_cases h3 : l.size = 0
      · simp [sysDisablePolicy, hp, ht, h1, h2, hl, hne, h3, freeLog, offTask]
      · obtain ⟨n, e, hr⟩ := hr h1 h3
        have hpr := k.ne_of_mem ht hr (by simp)
        have hlr := k.ne_of_mem hl hr (by simp)
        simp [sysDisablePolicy, hp, ht, h1, h2, hl, hr, hne, hlr, hpr, hpr.symm, h3, freeLog,
          offTask]
    · simp [sysDisablePolicy, hp, ht, h1, h2]

theorem run_sysSetProcessCapabilities {newLevel : Int}
    (hp : k.pidhash pid = some p) (ht : k.mem p = some (.task t)) :
    (sysSetProcessCapabilities pid newLevel password).run k =
      if t.policyOn ≠ 0 ∧ password = policyPassword ∧ 0 ≤ newLevel ∧ newLevel ≤ 2 then
        (0, k.set p (.task { t with policyLevel := newLevel }))
      else (-EINVAL, k) := by
  by_cases h3 : newLevel > 2 ∨ newLevel < 0
  · have h3' : ¬ (0 ≤ newLevel ∧ newLevel ≤ 2) := by omega
    have h4 : ¬ (t.policyOn ≠ 0 ∧ password = policyPassword ∧ 0 ≤ newLevel ∧ newLevel ≤ 2) :=
      fun h => h3' h.2.2
    simp [sysSetProcessCapabilities, hp, if_pos h3, if_neg h4]
  · have h3' : 0 ≤ newLevel ∧ newLevel ≤ 2 := by omega
    by_cases h2 : password = policyPassword
    · by_cases h1 : t.policyOn = 0
      · simp [sysSetProcessCapabilities, hp, ht, h1, h2, h3]
      · simp only [sysSetProcessCapabilities, run_bind, run_findTaskByPid, hp, run_ite, if_neg h3]
        simp [ht, h1, h2, h3'.1, h3'.2]
    · simp only [sysSetProcessCapabilities, run_bind, run_findTaskByPid, hp, run_ite, if_neg h3]
      simp [h2]

/-! ## Reading -/

theorem run_getProcessLogChecks (hp : k.pidhash pid = some p)
    (ht : k.mem p = some (.task t)) (hl : t.policyOn ≠ 0 → k.mem t.logArray = some (.log l)) :
    (getProcessLogChecks pid size).run k =
      (if t.policyOn ≠ 0 ∧ ¬ (size > l.size ∨ size < 0) ∧ tooFewRecords l size = false then
        .ok (p, l.indexRead) else .error (-EINVAL), k) := by
  by_cases h1 : t.policyOn = 0
  · simp [getProcessLogChecks, hp, ht, h1]
  · have hl := hl h1
    by_cases h2 : size > l.size ∨ size < 0
    · have h2' : ¬ (t.policyOn ≠ 0 ∧ ¬ (size > l.size ∨ size < 0) ∧
          tooFewRecords l size = false) := fun h => h.2.1 h2
      rw [if_neg h2']
      simp [getProcessLogChecks, hp, ht, hl, if_pos h2]
    · cases h3 : tooFewRecords l size with
      | true =>
        simp only [getProcessLogChecks, run_bind, run_findTaskByPid, hp, run_loadTask, ht,
          if_neg h1, run_loadLog, hl, if_neg h2, h3, if_true, run_pure]
        simp
      | false =>
        rw [if_pos ⟨h1, h2, rfl⟩]
        simp [getProcessLogChecks, hp, ht, if_neg h1, hl, if_neg h2, h3]

/-- Faults that stay within the record arrays. -/
def ArrayFault (f : Fault) : Prop := f = .outOfBounds ∨ f = .freedArray

/-- The faults of loads from the array at `array`: past its end, or because it
is not there. -/
def Misses (k : Kernel) (array : Addr) (fs : List Fault) : Prop :=
  ∀ f ∈ fs, f = .outOfBounds ∨ (f = .freedArray ∧ ∀ n e, k.mem array ≠ some (.records n e))

theorem Misses.arrayFault {array : Addr} {fs : List Fault} (h : Misses k array fs) :
    ∀ f ∈ fs, ArrayFault f := fun f hf => (h f hf).imp_right And.left

theorem run_loadElem_spec (array : Addr) (i : Int) : ∃ r fs,
    (loadElem array i).run k = (r, { k with faults := fs ++ k.faults }) ∧ Misses k array fs ∧
      ∀ n e, k.mem array = some (.records n e) → inBlock n i → r = e i ∧ fs = [] := by
  rw [run_loadElem]
  split
  · rename_i n e hm
    by_cases hb : inBlock n i
    · refine ⟨e i, [], by rw [if_pos hb]; rfl, by simp [Misses], ?_⟩
      intro n' e' hm' _
      rw [hm] at hm'
      cases hm'
      exact ⟨rfl, rfl⟩
    · refine ⟨default, [.outOfBounds], by rw [if_neg hb]; rfl, by simp [Misses], ?_⟩
      intro n' e' hm' hb'
      rw [hm] at hm'
      cases hm'
      exact absurd hb' hb
  · rename_i hm
    refine ⟨default, [.freedArray], rfl, ?_, fun n e hm' => absurd hm' (hm n e)⟩
    intro f hf
    exact .inr ⟨List.mem_singleton.mp hf, hm⟩

/-- The `n` cells from `indexRead` on are inside the array, and it holds `e`. -/
def Hits (k : Kernel) (l : LogArray) (n : Nat) (e : Int → ForbiddenActivityInfo) : Prop :=
  ∀ i < n, ∃ m, k.mem l.array = some (.records m e) ∧ inBlock m ((next l.size)^[i] l.indexRead)

/-- What `n` rounds of the copy loop pick up from an array that holds `e`. -/
def picked (l : LogArray) (n : Nat) (e : Int → ForbiddenActivityInfo) :
    List ForbiddenActivityInfo :=
  (List.range n).map fun i => e ((next l.size)^[i] l.indexRead)

/-- The state in the middle of a read: `n` records are in the temporary array
and `indexRead` has moved past them. -/
def midRead (k : Kernel) (t : TaskStruct) (l : LogArray) (temp : Addr)
    (data : List ForbiddenActivityInfo) (fs : List Fault) (n : Nat) : Kernel :=
  { (k.set temp (.temp data)).set t.logArray (.log (afterReads l n)) with
    faults := fs ++ k.faults }

theorem midRead_next {data data' : List ForbiddenActivityInfo}
    {fs fs' : List Fault} {n m : Nat} (hne : t.logArray ≠ temp) :
    midRead (midRead k t l temp data fs n) t (afterReads l n) temp data' fs' m =
      midRead k t l temp data' (fs' ++ fs) (n + m) := by
  have h : afterReads (afterReads l n) m = afterReads l (n + m) := by
    simp [afterReads, ← Function.iterate_add_apply, Nat.add_comm]
  simp only [midRead, h, Kernel.set, List.append_assoc]
  rw [update_comm hne, update_idem, update_idem]

theorem run_copyRecord {d : List ForbiddenActivityInfo}
    (ht : k.mem p = some (.task t)) (hl : k.mem t.logArray = some (.log l))
    (hd : k.mem temp = some (.temp d)) : ∃ r fs,
    (copyRecord p temp).run k = ((), midRead k t l temp (d ++ [r]) fs 1) ∧
      Misses k l.array fs ∧
      ∀ n e, k.mem l.array = some (.records n e) → inBlock n l.indexRead →
        r = e l.indexRead ∧ fs = [] := by
  have h1 := k.ne_of_mem ht hl (by simp)
  have h2 := k.ne_of_mem ht hd (by simp)
  have h3 := k.ne_of_mem hl hd (by simp)
  obtain ⟨r, fs, hrun, hfs, hhit⟩ := run_loadElem_spec l.array l.indexRead
  refine ⟨r, fs, ?_, hfs, hhit⟩
  by_cases hw : l.indexRead + 1 = l.size
  · simp only [copyRecord, run_bind, run_loadTask, ht, run_loadLog, hl, hrun]
    simp [hd, ht, h1, h2, hl, h3, hw, midRead, afterReads, next, Kernel.set]
  · simp only [copyRecord, run_bind, run_loadTask, ht, run_loadLog, hl, hrun]
    simp [hd, ht, h1, h2, hl, h3, hw, midRead, afterReads, next, Kernel.set]

/-- The copy loop, from any state of the log. Whatever it loads, it touches
only `indexRead` and the temporary array; when every index it visits is inside
the array it copies the records in order and misses nothing. -/
theorem run_copyLoop {d : List ForbiddenActivityInfo} (n : Nat)
    (ht : k.mem p = some (.task t)) (hl : k.mem t.logArray = some (.log l))
    (hd : k.mem temp = some (.temp d)) : ∃ data fs,
    (copyLoop p temp n).run k = ((), midRead k t l temp (d ++ data) fs n) ∧
      Misses k l.array fs ∧
      ∀ e, Hits k l n e → data = picked l n e ∧ fs = [] := by
  induction n generalizing k l d with
  | zero =>
    refine ⟨[], [], ?_, by simp [Misses], fun _ _ => ⟨rfl, rfl⟩⟩
    have h3 := k.ne_of_mem hl hd (by simp)
    have e1 : update k.mem temp (some (.temp d)) = k.mem := by
      rw [← hd, update_eq_self]
    have e2 : update k.mem t.logArray (some (.log l)) = k.mem := by
      rw [← hl, update_eq_self]
    simp [copyLoop, midRead, afterReads, Kernel.set, e1, e2]
  | succ n ih =>
    have h1 := k.ne_of_mem ht hl (by simp)
    have h2 := k.ne_of_mem ht hd (by simp)
    have h3 := k.ne_of_mem hl hd (by simp)
    obtain ⟨r, fs, hrun, hfs, hhit⟩ := run_copyRecord ht hl hd
    obtain ⟨data, fs', hrun', hfs', hhit'⟩ := ih (k := midRead k t l temp (d ++ [r]) fs 1)
      (l := afterReads l 1) (d := d ++ [r])
      (by simp [midRead, h1, h2, ht]) (by simp [midRead]) (by simp [midRead, h3.symm])
    refine ⟨r :: data, fs' ++ fs, ?_, ?_, ?_⟩
    · simp only [copyLoop, run_bind, hrun, hrun', midRead_next h3]
      simp [Nat.add_comm]
    · intro f hf
      rcases List.mem_append.mp hf with hf | hf
      · refine (hfs' f hf).imp_right fun h4 => ⟨h4.1, fun m e hr => h4.2 m e ?_⟩
        simp [midRead, (k.ne_of_mem hl hr (by simp)).symm, (k.ne_of_mem hd hr (by simp)).symm, hr]
      · exact hfs f hf
    · intro e hin
      obtain ⟨m, hr, hin0⟩ := hin 0 (by omega)
      have h4 := k.ne_of_mem hl hr (by simp)
      have h5 := k.ne_of_mem hd hr (by simp)
      obtain ⟨hr0, hfs0⟩ := hhit m e hr hin0
      obtain ⟨hdata, hfs1⟩ := hhit' e (by
        intro i hi
        obtain ⟨m', hr', hini⟩ := hin (i + 1) (by omega)
        exact ⟨m', by simp [midRead, h4.symm, h5.symm, hr'], hini⟩)
      refine ⟨?_, by rw [hfs0, hfs1]; rfl⟩
      rw [hdata, hr0]
      unfold picked
      rw [List.range_succ_eq_map]
      simp [afterReads, Function.iterate_succ_apply, Function.comp_def]

theorem run_getProcessLogCopy_fail (p : Addr) (size : Int) (h : ¬ (a ≠ 0 ∧ k.mem a = none)) :
    (getProcessLogCopy p size a).run k = (.error (-ENOMEM), k) := by
  simp [getProcessLogCopy, run_kmalloc_fail _ h]

theorem run_getProcessLogCopy (ht : k.mem p = some (.task t))
    (hl : k.mem t.logArray = some (.log l)) (size : Int) (h0 : a ≠ 0) (h : k.mem a = none) :
    ∃ data fs,
    (getProcessLogCopy p size a).run k = (.ok a, midRead k t l a data fs size.toNat) ∧
      Misses k l.array fs ∧
      ∀ e, Hits k l size.toNat e → data = picked l size.toNat e ∧ fs = [] := by
  have hpa := k.ne_of_free ht h
  have hla := k.ne_of_free hl h
  have ht' : (k.set a (.temp [])).mem p = some (.task t) := by simp [hpa, ht]
  have hl' : (k.set a (.temp [])).mem t.logArray = some (.log l) := by simp [hla, hl]
  have hd' : (k.set a (.temp [])).mem a = some (.temp []) := by simp
  obtain ⟨data, fs, hrun, hfs, hhit⟩ := run_copyLoop size.toNat ht' hl' hd'
  have hfs' : Misses k l.array fs := by
    intro f hf
    refine (hfs f hf).imp_right fun ⟨h4, h5⟩ => ⟨h4, fun m e hr => h5 m e ?_⟩
    have hra := k.ne_of_free hr h
    simp [hra, hr]
  refine ⟨data, fs, ?_, hfs', ?_⟩
  · simp only [getProcessLogCopy, run_bind, run_kmalloc _ h0 h, if_neg h0, hrun, run_pure]
    simp [midRead]
  · intro e hin
    refine hhit e ?_
    intro i hi
    obtain ⟨m, hr, hini⟩ := hin i hi
    have hra := k.ne_of_free hr h
    exact ⟨m, by simp [hra, hr], hini⟩

theorem run_getProcessLogFinish {d : List ForbiddenActivityInfo}
    (ht : k.mem p = some (.task t)) (hl : k.mem t.logArray = some (.log l))
    (hd : k.mem temp = some (.temp d)) (size prev : Int) (copied : Bool) :
    (getProcessLogFinish p size prev temp copied).run k =
      if copied then ((0, d), (k.unset temp).set t.logArray (.log (afterCommit l size)))
      else ((-ENOMEM, []), (k.unset temp).set t.logArray (.log { l with indexRead := prev })) := by
  have h2 := k.ne_of_mem ht hd (by simp)
  have h3 := k.ne_of_mem hl hd (by simp)
  have h1 := k.ne_of_mem ht hl (by simp)
  cases copied with
  | false => simp [getProcessLogFinish, hd, h2, ht, h3, hl]
  | true =>
    by_cases hs : size = l.size
    · simp [getProcessLogFinish, hd, h2, ht, h3, hl, h1, hs, afterCommit]
    · simp [getProcessLogFinish, hd, h2, ht, h3, hl, h1, hs, afterCommit]

/-- The ways `sys_get_process_log` can end once it has found its task: refused,
out of memory, or through to `copy_to_user`. -/
theorem run_sysGetProcessLog (hp : k.pidhash pid = some p)
    (ht : k.mem p = some (.task t)) (hl : t.policyOn ≠ 0 → k.mem t.logArray = some (.log l))
    (size : Int) (a : Addr) (copied : Bool) :
    (¬ (t.policyOn ≠ 0 ∧ ¬ (size > l.size ∨ size < 0) ∧ tooFewRecords l size = false) ∧
      (sysGetProcessLog pid size a copied).run k = ((-EINVAL, []), k)) ∨
    ((t.policyOn ≠ 0 ∧ ¬ (size > l.size ∨ size < 0) ∧ tooFewRecords l size = false) ∧
      ((¬ (a ≠ 0 ∧ k.mem a = none) ∧
          (sysGetProcessLog pid size a copied).run k = ((-ENOMEM, []), k)) ∨
        (a ≠ 0 ∧ k.mem a = none ∧ ∃ data fs,
          (sysGetProcessLog pid size a copied).run k =
            (if copied then (0, data) else (-ENOMEM, []),
              { k.set t.logArray (.log (if copied then afterCommit (afterReads l size.toNat) size
                  else l)) with faults := fs ++ k.faults }) ∧
          (∀ f ∈ fs, ArrayFault f) ∧
          ∀ e, Hits k l size.toNat e → data = picked l size.toNat e ∧ fs = []))) := by
  by_cases hc : t.policyOn ≠ 0 ∧ ¬ (size > l.size ∨ size < 0) ∧ tooFewRecords l size = false
  · refine .inr ⟨hc, ?_⟩
    have hl' := hl hc.1
    by_cases ha : a ≠ 0 ∧ k.mem a = none
    · obtain ⟨h0, ha⟩ := ha
      obtain ⟨data, fs, hrun, hfs, hhit⟩ := run_getProcessLogCopy ht hl' size h0 ha
      refine .inr ⟨h0, ha, data, fs, ?_, hfs.arrayFault, hhit⟩
      have hpa := k.ne_of_free ht ha
      have hla := k.ne_of_free hl' ha
      have hpl := k.ne_of_mem ht hl' (by simp)
      simp only [sysGetProcessLog, run_bind, run_getProcessLogChecks hp ht hl, if_pos hc, hrun]
      rw [run_getProcessLogFinish (t := t) (l := afterReads l size.toNat) (d := data)
        (by simp [midRead, hpl, hpa, ht]) (by simp [midRead]) (by simp [midRead, hla.symm])]
      have hback : ∀ v, ((midRead k t l a data fs size.toNat).unset a).set t.logArray v =
          { k.set t.logArray v with faults := fs ++ k.faults } := by
        intro v
        simp only [midRead, Kernel.set, Kernel.unset, Kernel.mk.injEq, and_true]
        rw [update_comm hla, update_idem, update_idem]
        congr 1
        exact update_eq_self_iff.mpr ha.symm
      cases copied with
      | true => simp [hback]
      | false => simp [hback, afterReads]
    · refine .inl ⟨ha, ?_⟩
      simp only [sysGetProcessLog, run_bind, run_getProcessLogChecks hp ht hl, if_pos hc,
        run_getProcessLogCopy_fail p size ha, run_pure]
  · refine .inl ⟨hc, ?_⟩
    simp only [sysGetProcessLog, run_bind, run_getProcessLogChecks hp ht hl, if_neg hc, run_pure]

/-! ## The gates -/

/-- A store to an element touches record arrays only, and its misses are array
faults. -/
theorem run_storeElem_spec (array : Addr) (i : Int) (r : ForbiddenActivityInfo) : ∃ k1 fs,
    (storeElem array i r).run k = ((), { k1 with faults := fs ++ k.faults }) ∧
      (∀ f ∈ fs, ArrayFault f) ∧
      ((k1 = k ∧ ∀ n e, k.mem array = some (.records n e) → ¬ inBlock n i) ∨
        ∃ n e, k.mem array = some (.records n e) ∧ inBlock n i ∧ fs = [] ∧
          k1 = k.set array (.records n (update e i r))) := by
  unfold storeElem
  simp only [KM.run]
  split
  · rename_i n e hm
    by_cases hb : inBlock n i
    · exact ⟨k.set array (.records n (update e i r)), [], by rw [if_pos hb]; rfl,
        by simp, .inr ⟨n, e, hm, hb, rfl, rfl⟩⟩
    · refine ⟨k, [.outOfBounds], by rw [if_neg hb]; rfl, by simp [ArrayFault], .inl ⟨rfl, ?_⟩⟩
      intro n' e' hm'
      rw [hm] at hm'
      cases hm'
      exact hb
  · rename_i hm
    refine ⟨k, [.freedArray], rfl, by simp [ArrayFault], .inl ⟨rfl, ?_⟩⟩
    intro n e hm'
    exact absurd hm' (hm n e)

/-- The state after a refused call: the record is in the array if it has a
place there, and the indices have moved on. -/
def logged (k : Kernel) (t : TaskStruct) (l : LogArray) (r : ForbiddenActivityInfo) : Kernel :=
  ((storeElem l.array l.indexWrite r).run k).2.set t.logArray (.log (afterWrite l))

theorem logged_of_inBlock {n : Nat} {e : Int → ForbiddenActivityInfo}
    (hr : k.mem l.array = some (.records n e)) (hin : inBlock n l.indexWrite)
    (r : ForbiddenActivityInfo) : logged k t l r =
      (k.set l.array (.records n (update e l.indexWrite r))).set t.logArray
        (.log (afterWrite l)) := by
  simp [logged, KM.run, storeElem, hr, if_pos hin]

theorem run_addLog (ht : k.mem p = some (.task t)) (hl : k.mem t.logArray = some (.log l))
    (reqLevel jiffies : Int) : (addLog p reqLevel jiffies).run k =
      ((), logged k t l ⟨reqLevel, t.policyLevel, jiffies⟩) := by
  obtain ⟨k1, fs, hrun, _, hk1⟩ :=
    run_storeElem_spec l.array l.indexWrite ⟨reqLevel, t.policyLevel, jiffies⟩
  have hl1 : k1.mem t.logArray = some (.log l) := by
    rcases hk1 with ⟨rfl, _⟩ | ⟨n, e, hm, _, _, rfl⟩
    · exact hl
    · simp [k.ne_of_mem hl hm (by simp), hl]
  simp only [logged, hrun]
  by_cases hw : l.indexWrite + 1 = l.size
  · by_cases hr : 0 = l.indexRead
    · simp [addLog, ht, hl, hrun, hl1, hw, ← hr, afterWrite, next, Kernel.set]
    · simp [addLog, ht, hl, hrun, hl1, hw, hr, afterWrite, next, Kernel.set]
  · by_cases hr : l.indexWrite + 1 = l.indexRead
    · have hrs : ¬ l.indexRead = l.size := by rw [← hr]; exact hw
      simp [addLog, ht, hl, hrun, hl1, hr, hrs, afterWrite, next, Kernel.set]
    · simp [addLog, ht, hl, hrun, hl1, hw, hr, afterWrite, next, Kernel.set]

theorem run_policyGate (ht : k.mem p = some (.task t))
    (hl : t.policyOn = 1 → k.mem t.logArray = some (.log l)) (reqLevel jiffies : Int) :
    (policyGate p reqLevel jiffies).run k = if TaskStruct.denied t reqLevel then
      (true, logged k t l ⟨reqLevel, t.policyLevel, jiffies⟩) else (false, k) := by
  by_cases hd : TaskStruct.denied t reqLevel
  · simp [policyGate, ht, run_addLog ht (hl hd.1)]
  · simp [policyGate, ht, if_neg hd]

theorem run_gated (ht : k.mem p = some (.task t))
    (hl : t.policyOn = 1 → k.mem t.logArray = some (.log l)) (reqLevel jiffies : Int)
    (body : KM Int) : (gated p reqLevel jiffies body).run k =
      if TaskStruct.denied t reqLevel then
        (⟨-EINVAL, [], false⟩, logged k t l ⟨reqLevel, t.policyLevel, jiffies⟩)
      else (⟨(body.run k).1, [], true⟩, (body.run k).2) := by
  by_cases hd : TaskStruct.denied t reqLevel
  · simp [gated, run_policyGate ht hl, if_pos hd]
  · simp [gated, run_policyGate ht hl, if_neg hd]

/-! ## Behind the gates -/

@[simp] theorem run_hashPid (pid : Int) : (hashPid pid p).run k =
    ((), { k with pidhash := update k.pidhash pid (some p) }) := rfl

@[simp] theorem run_unhashPid (pid : Int) : (unhashPid pid).run k =
    ((), { k with pidhash := update k.pidhash pid none }) := rfl

/-- The child as `do_fork` leaves it. -/
def childTask (pid : Int) : TaskStruct := ⟨pid, 0, 2, 0⟩

/-- `do_fork` either fails and leaves nothing behind, or adds a child. -/
theorem run_doForkBody (ht : k.mem p = some (.task t)) (flags : Nat) (child : Addr)
    (rest : ForkRest) :
    (∃ r, (doForkBody p flags child rest).run k = (r, k)) ∨
      ∃ pid, rest = .ok pid ∧ child ≠ 0 ∧ k.mem child = none ∧ k.pidhash pid = none ∧
        (doForkBody p flags child rest).run k = (pid,
          { k.set child (.task (childTask pid)) with
            pidhash := update k.pidhash pid (some child) }) := by
  unfold doForkBody
  by_cases h1 : flags &&& (CLONE_NEWNS ||| CLONE_FS) = CLONE_NEWNS ||| CLONE_FS
  · exact .inl ⟨-EINVAL, by simp only [if_pos h1, run_pure]⟩
  by_cases h2 : flags &&& CLONE_PID ≠ 0 ∧ t.pid ≠ 0
  · refine .inl ⟨-EPERM, ?_⟩
    simp [if_neg h1, ht, if_pos h2]
  by_cases h3 : child ≠ 0 ∧ k.mem child = none
  · obtain ⟨h3, h4⟩ := h3
    cases rest with
    | error e =>
      refine .inl ⟨e, ?_⟩
      simp only [if_neg h1, run_bind, run_loadTask, ht, if_neg h2, run_kmalloc _ h3 h4, if_neg h3]
      simp [Kernel.unset_of_none h4]
    | ok pid =>
      by_cases h5 : k.pidhash pid = none
      · refine .inr ⟨pid, rfl, h3, h4, h5, ?_⟩
        simp only [if_neg h1, run_bind, run_loadTask, ht, if_neg h2, run_kmalloc _ h3 h4,
          if_neg h3]
        simp [h5, childTask, Kernel.set]
      · refine .inl ⟨-EAGAIN, ?_⟩
        have h5' : (k.pidhash pid).isSome := Option.isSome_iff_ne_none.mpr h5
        simp only [if_neg h1, run_bind, run_loadTask, ht, if_neg h2, run_kmalloc _ h3 h4,
          if_neg h3]
        simp [h5', Kernel.unset_of_none h4]
  · refine .inl ⟨-ENOMEM, ?_⟩
    simp only [if_neg h1, run_bind, run_loadTask, ht, if_neg h2, run_kmalloc_fail _ h3]
    simp

/-- The state after `release_task`. -/
def released (k : Kernel) (p : Addr) (t : TaskStruct) (l : LogArray) : Kernel :=
  let k1 := if t.policyOn = 0 then k else freeLog k t.logArray l
  { k1.unset p with pidhash := update k.pidhash t.pid none }

theorem run_releaseTask (ht : k.mem p = some (.task t))
    (hl : t.policyOn ≠ 0 → k.mem t.logArray = some (.log l) ∧ 0 ≤ l.size)
    (hr : t.policyOn ≠ 0 → l.size ≠ 0 → ∃ n e, k.mem l.array = some (.records n e)) :
    (releaseTask p).run k = ((), released k p t l) := by
  by_cases h1 : t.policyOn = 0
  · simp [releaseTask, ht, h1, released, Kernel.set, Kernel.unset]
  · obtain ⟨hl, hnn⟩ := hl h1
    have h2 := k.ne_of_mem ht hl (by simp)
    by_cases h3 : l.size = 0
    · simp [releaseTask, ht, h1, hl, h2.symm, h3, released, freeLog, Kernel.set, Kernel.unset,
        update_comm h2]
    · have h3' : 0 < l.size := by omega
      obtain ⟨n, e, hr⟩ := hr h1 h3
      have h4 := k.ne_of_mem ht hr (by simp)
      have h5 := k.ne_of_mem hl hr (by simp)
      simp [releaseTask, ht, h1, hl, hr, h2.symm, h3, h3', h4.symm, h5, released, freeLog,
        Kernel.set, Kernel.unset, update_comm h2, update_comm h4]

end CustomKernel.Policy.Effects

import CustomKernel.Policy.Refinement

/-! # A read overlapped by refused calls of its target

`sys_get_process_log` sleeps in `copy_to_user` with `indexRead` already moved,
and on its return clears the flag and perhaps both indices, or puts
`indexRead` back. The target may be refused any number of calls meanwhile.
Which records survive is decided by how many were unread, asked for and
logged in between. -/
namespace CustomKernel.Policy.Overlap
open Lib.Ring Lib.Transition Function
open Policy.Heap Policy.Syscalls Policy.Log
open Policy.Effects Policy.Ownership Policy.Outcomes
open Policy.Bounds Policy.Spec Policy.Refinement

/-! ## Writing several records -/

/-- The indices and the cells after a list of records has been written. -/
def storeAll (l : LogArray) (e : Int → ForbiddenActivityInfo) :
    List ForbiddenActivityInfo → LogArray × (Int → ForbiddenActivityInfo)
  | [] => (l, e)
  | r :: rs => storeAll (afterWrite l) (update e l.indexWrite r) rs

section StoreAll
variable {l : LogArray} {e : Int → ForbiddenActivityInfo} {rs : List ForbiddenActivityInfo}

theorem storeAll_frame (l : LogArray) (e : Int → ForbiddenActivityInfo)
    (rs : List ForbiddenActivityInfo) : (storeAll l e rs).1.size = l.size ∧
      (storeAll l e rs).1.array = l.array ∧ (storeAll l e rs).1.indexRead = l.indexRead := by
  induction rs generalizing l e with
  | nil => exact ⟨rfl, rfl, rfl⟩
  | cons r rs ih => exact ih (afterWrite l) (update e l.indexWrite r)

theorem storeAll_inRange (h : InRange l) (rs : List ForbiddenActivityInfo) :
    InRange (storeAll l e rs).1 := by
  induction rs generalizing l e with
  | nil => exact h
  | cons r rs ih => exact ih h.afterWrite

/-- Seen from a cell `b`, the window up to the write index grows by what is
written, for as long as it does not come round to `b` again. The flag stays down
while the write index stays off the read index. -/
theorem storeAll_window (rs : List ForbiddenActivityInfo) {b : Int} (hb0 : 0 ≤ b) (hb : b < l.size) {c : Nat}
    (hw : l.indexWrite = slot l.size b c) (hc : (c + rs.length : Int) ≤ l.size) :
    (storeAll l e rs).1.indexWrite = slot l.size b (c + rs.length) ∧
      window l.size b (storeAll l e rs).2 (c + rs.length) = window l.size b e c ++ rs ∧
      (l.full ≠ 1 → (∀ j, 1 ≤ j → j ≤ rs.length → slot l.size b (c + j) ≠ l.indexRead) →
        (storeAll l e rs).1.full ≠ 1) := by
  induction rs generalizing l e c with
  | nil => exact ⟨hw, (List.append_nil _).symm, fun hf _ => hf⟩
  | cons r rs ih =>
    rw [List.length_cons, Int.natCast_succ] at hc
    have hstep : next l.size l.indexWrite = slot l.size b (c + 1) := by
      rw [hw, next_slot hb0 hb (by omega)]
    obtain ⟨h1, h2, h3⟩ := ih (l := afterWrite l) hb hstep
      (by rw [afterWrite_size]; push_cast; omega)
    have hlen : c + (r :: rs).length = c + 1 + rs.length := by
      rw [List.length_cons]; omega
    rw [hlen]
    refine ⟨h1, ?_, fun hf hoff => h3 ?_ fun j hj hle => ?_⟩
    · have hpush : window l.size b (update e l.indexWrite r) (c + 1) =
          window l.size b e c ++ [r] := by
        rw [hw]
        exact window_push (by omega) r
      rw [afterWrite_size] at h2
      show window l.size b (storeAll (afterWrite l) (update e l.indexWrite r) rs).2 _ = _
      rw [h2, hpush, List.append_assoc, List.singleton_append]
    · have hne : next l.size l.indexWrite ≠ l.indexRead :=
        hstep ▸ hoff 1 (by omega) (by rw [List.length_cons]; omega)
      simp only [afterWrite, if_neg hne]
      exact hf
    · have hlater := hoff (j + 1) (by omega) (by rw [List.length_cons]; omega)
      rwa [afterWrite_size, show c + 1 + j = c + (j + 1) by omega]

/-- Records written while there is room are appended to the unread ones. -/
theorem storeAll_room (h : Consistent l) (hc : unreadCount l + rs.length ≤ l.size) :
    Consistent (storeAll l e rs).1 ∧
      unread (storeAll l e rs).1 (storeAll l e rs).2 = unread l e ++ rs := by
  induction rs generalizing l e with
  | nil => exact ⟨h, (List.append_nil _).symm⟩
  | cons r rs ih =>
    rw [List.length_cons, Int.natCast_succ] at hc
    obtain ⟨h1, h2⟩ := write_room h (by omega) r
    have hcount : unreadCount (afterWrite l) = unreadCount l + 1 := by
      rw [← length_unread h1.toInRange (update e l.indexWrite r), h2, List.length_append,
        Int.natCast_add, length_unread h.toInRange]
      rfl
    obtain ⟨h3, h4⟩ := ih h1
      (by rw [hcount, afterWrite_size]; omega)
    refine ⟨h3, ?_⟩
    show unread (storeAll (afterWrite l) (update e l.indexWrite r) rs).1
      (storeAll (afterWrite l) (update e l.indexWrite r) rs).2 = _
    rw [h4, h2, List.append_assoc, List.singleton_append]

end StoreAll

/-! ## The end of the read -/

section Finish
variable {l : LogArray} {e : Int → ForbiddenActivityInfo} {rs : List ForbiddenActivityInfo}
  {n : Nat}

/-- With the flag down, what lies between the indices is unread, unless that is
a full turn. -/
theorem unread_eq_window_iff (h : InRange l) (hf : l.full ≠ 1) {d : Nat} (hd : (d : Int) ≤ l.size)
    (hw : l.indexWrite = slot l.size l.indexRead d) :
    unread l e = window l.size l.indexRead e d ↔ (d : Int) < l.size := by
  by_cases hlt : (d : Int) < l.size
  · rw [unread, unreadCount_of_slot hf hlt hw, Int.toNat_natCast]
    exact iff_of_true rfl hlt
  · have hturn : l.indexWrite = l.indexRead := hw.trans (slot_turn h.read_nonneg (by omega))
    rw [unread_of_meet hf hturn]
    refine iff_of_false (fun he => ?_) hlt
    have hlen := congrArg List.length he
    rw [length_window, List.length_nil] at hlen
    have hpos := h.read_nonneg.trans_lt h.read_lt
    omega

/-- Where the reader has got to, and what lies between it and the writer once
`rs` have come in. -/
theorem reader_window (h : Consistent l) (hn : (n : Int) ≤ unreadCount l)
    (hcap : unreadCount l + rs.length ≤ l.size + n) :
    (storeAll (afterReads l n) e rs).1.indexWrite =
        slot l.size ((next l.size)^[n] l.indexRead) ((unreadCount l).toNat - n + rs.length) ∧
      window l.size ((next l.size)^[n] l.indexRead) (storeAll (afterReads l n) e rs).2
        ((unreadCount l).toNat - n + rs.length) = (unread l e ++ rs).drop n := by
  have hb := unreadCount_bounds h.toInRange
  have hread : (next l.size)^[n] l.indexRead = slot l.size l.indexRead n :=
    iterate_next h.read_nonneg h.read_lt (by omega)
  obtain ⟨h0, h1⟩ := slot_bounds h.read_nonneg h.read_lt (i := n) (by omega)
  have hw : (afterReads l n).indexWrite =
      slot l.size (slot l.size l.indexRead n) ((unreadCount l).toNat - n) := by
    rw [slot_slot h.read_lt (by omega)]
    show l.indexWrite = _
    rw [indexWrite_eq_slot h]
    congr 1
    omega
  obtain ⟨h2, h3, -⟩ := storeAll_window (l := afterReads l n) rs h0 h1 hw (by
    rw [afterReads_size]; omega)
  rw [afterReads_size] at h2 h3
  rw [hread]
  refine ⟨h2, ?_⟩
  have hlen := length_unread h.toInRange e
  rw [h3, List.drop_append_of_le_length (by omega), unread,
    window_drop h.read_lt (by omega) (by omega)]

/-- A read that reached the user leaves the right records exactly when the
records of the meantime did not fill the log up again, or there were none and
the whole log was read. -/
theorem commit_overlap_iff (rs : List ForbiddenActivityInfo) (h : Consistent l) (hn : (n : Int) ≤ unreadCount l)
    (hcap : unreadCount l + rs.length ≤ l.size + n) :
    unread (afterCommit (storeAll (afterReads l n) e rs).1 n) (storeAll (afterReads l n) e rs).2 =
        (unread l e ++ rs).drop n ↔
      ((n : Int) < l.size ∧ unreadCount l + rs.length < l.size + n) ∨
        ((n : Int) = l.size ∧ rs = []) := by
  have hb := unreadCount_bounds h.toInRange
  have hlen := length_unread h.toInRange e
  have hlen' : ((unread l e ++ rs).drop n).length = (unreadCount l).toNat + rs.length - n := by
    rw [List.length_drop, List.length_append]; omega
  obtain ⟨hsize, harr, hir⟩ := storeAll_frame (afterReads l n) e rs
  rw [afterReads_size] at hsize
  have hin := storeAll_inRange (e := e) (h.toInRange.afterReads n) rs
  obtain ⟨hw, hwin⟩ := reader_window h hn hcap
  generalize storeAll (afterReads l n) e rs = st at hsize hir hin hw hwin ⊢
  obtain ⟨⟨w, r, size, full, array⟩, e'⟩ := st
  subst hsize hir
  unfold afterCommit
  by_cases hall : (n : Int) = l.size
  · -- both indices are reset, and with them goes whatever came in
    rw [if_pos hall, unread_of_meet (by simp) rfl]
    constructor
    · intro he
      rw [← he, List.length_nil] at hlen'
      exact .inr ⟨hall, List.length_eq_zero_iff.mp (by omega)⟩
    · rintro (⟨hlt, _⟩ | ⟨_, rfl⟩)
      · omega
      · symm
        apply List.length_eq_zero_iff.mp
        rw [hlen', List.length_nil]
        omega
  · -- the commit takes the flag down, also if the writer has caught up with the reader
    rw [if_neg hall, ← hwin]
    refine (unread_eq_window_iff (l := ⟨w, _, l.size, 0, array⟩)
      ⟨hin.read_nonneg, hin.read_lt, hin.write_nonneg, hin.write_lt⟩ (by simp)
      (by dsimp only; omega) hw).trans ?_
    dsimp only
    omega

/-- A read that did not reach the user leaves the right records exactly when
nothing came in, nothing was asked for, or the log is not full afterwards. -/
theorem rollback_overlap_iff (rs : List ForbiddenActivityInfo) (h : Consistent l) (hn : (n : Int) ≤ unreadCount l)
    (hcap : unreadCount l + rs.length ≤ l.size) :
    unread { (storeAll (afterReads l n) e rs).1 with indexRead := l.indexRead }
        (storeAll (afterReads l n) e rs).2 = unread l e ++ rs ↔
      rs = [] ∨ n = 0 ∨ unreadCount l + rs.length < l.size := by
  obtain ⟨hsize, harr, hir⟩ := storeAll_frame (afterReads l n) e rs
  have hin := storeAll_inRange (e := e) (h.toInRange.afterReads n) rs
  by_cases hnil : rs = []
  · subst hnil
    simp [storeAll, afterReads, unread, unreadCount]
  by_cases hzero : n = 0
  · subst hzero
    have hsame : afterReads l 0 = l := rfl
    rw [hsame]
    have hback : { (storeAll l e rs).1 with indexRead := l.indexRead } = (storeAll l e rs).1 := by
      rw [← (storeAll_frame l e rs).2.2]
    rw [hback, (storeAll_room h (by omega)).2]
    simp
  · have hpos : 0 < rs.length := List.length_pos_iff.mpr hnil
    have hread : (next l.size)^[n] l.indexRead = slot l.size l.indexRead n :=
      iterate_next h.read_nonneg h.read_lt (by omega)
    have hf0 : l.full ≠ 1 := by
      intro hf
      have := (full_iff h).mp hf
      omega
    obtain ⟨hw, hwin, hflag⟩ := storeAll_window (l := afterReads l n) rs
      h.read_nonneg h.read_lt (indexWrite_eq_slot h)
      (by rw [afterReads_size]; omega)
    rw [afterReads_size] at hw hwin hflag
    -- the reader stands at least one record on, so the writer does not meet it
    have hflag := hflag hf0 fun j h1 hj he => by
      have he' : slot l.size l.indexRead ((unreadCount l).toNat + j) =
          slot l.size l.indexRead n := he.trans hread
      by_cases hlast : ((unreadCount l).toNat + j : Int) = l.size
      · rw [slot_turn h.read_nonneg (by push_cast; exact hlast), ← slot_zero h.read_lt] at he'
        have hz := slot_zero h.read_lt
        have := slot_inj (n := l.size) (i := 0) (j := n) (by omega) (by omega)
          (by rw [hz] at he' ⊢; exact he')
        omega
      · have := slot_inj (by push_cast; omega) (by omega) he'
        omega
    generalize storeAll (afterReads l n) e rs = st at hsize hir hin hw hwin hflag ⊢
    obtain ⟨⟨w, r, size, full, array⟩, e'⟩ := st
    subst hsize
    change _ = window l.size l.indexRead e (unreadCount l).toNat ++ rs ↔ _
    rw [← hwin]
    refine (unread_eq_window_iff (l := ⟨w, l.indexRead, l.size, full, array⟩)
      ⟨h.read_nonneg, h.read_lt, hin.write_nonneg, hin.write_lt⟩ hflag (by dsimp only; omega)
      hw).trans ?_
    simp only [hnil, hzero, false_or]
    omega

end Finish

/-! ## The three steps of the read -/

/-- The first step: the checks, the temporary array and the copy loop. What the
call keeps over its sleep is the task, the old `indexRead` and the temporary
array. -/
def readStart (pid size : Int) (tempMem : Addr) : KM (Except Int (Addr × Int × Addr)) := do
  match ← getProcessLogChecks pid size with
  | .error e => return .error e
  | .ok (p, prev) =>
    match ← getProcessLogCopy p size tempMem with
    | .error e => return .error e
    | .ok temp => return .ok (p, prev, temp)

inductive Event where
  /-- a call of the target -/
  | call (c : Call)
  /-- the copy to user space ends, well or not -/
  | copyToUser (ok : Bool)

/-- While the read sleeps its target is refused calls. The second component
is the result of `copy_to_user`, once it is there. -/
inductive OverlapStep (pid : Int) : Kernel × Option Bool → Event → Kernel × Option Bool → Prop where
  | refused {k k' : Kernel} {s : Option Bool} {c : Call} {g : Gate} {r : Reply}
      (hg : c.gate = some g) (hcur : g.cur = pid) (hrun : c.exec.run k = (r, k'))
      (hr : r.passed = false) : OverlapStep pid (k, s) (.call c) (k', s)
  | copyToUser {k : Kernel} (ok : Bool) : OverlapStep pid (k, none) (.copyToUser ok) (k, some ok)

/-- The records that the refused calls log. -/
def Event.records (level : Int) : Event → List ForbiddenActivityInfo
  | .call c => (c.gate.map fun g => ⟨g.reqLevel, level, g.jiffies⟩).toList
  | .copyToUser _ => []

def recordsOf (level : Int) (es : List Event) : List ForbiddenActivityInfo :=
  es.flatMap (Event.records level)

/-- The unread records of the task at `p`. -/
def unreadOf (k : Kernel) (p : Addr) : Option (List ForbiddenActivityInfo) :=
  match k.mem p with
  | some (.task t) =>
    match k.mem t.logArray with
    | some (.log l) => some (contents k l)
    | _ => none
  | _ => none

section Steps
variable {k k1 k2 k3 : Kernel} {pid size prev : Int} {p temp a : Addr} {t : TaskStruct}
  {l : LogArray} {bytes : Nat}

theorem unreadOf_eq (ht : k.mem p = some (.task t)) (hm : k.mem t.logArray = some (.log l)) :
    unreadOf k p = some (contents k l) := by
  simp [unreadOf, ht, hm]

theorem readStart_ok (hp : k.pidhash pid = some p) (ht : k.mem p = some (.task t))
    (hm : k.mem t.logArray = some (.log l))
    (h : (readStart pid size a).run k = (.ok (p, prev, temp), k1)) :
    ReadOk t l size ∧ prev = l.indexRead ∧ Fresh k temp ∧
      ∃ data fs, k1 = midRead k t l temp data fs size.toNat := by
  simp only [readStart, run_bind, run_getProcessLogChecks hp ht (fun _ => hm)] at h
  split at h
  · rename_i e he
    cases h
  · rename_i q he
    split at he
    · rename_i hc
      cases he
      by_cases ha : a ≠ 0 ∧ k.mem a = none
      · obtain ⟨data, fs, hrun, _, _⟩ := run_getProcessLogCopy ht hm size ha.1 ha.2
        simp only [run_bind, hrun, run_pure] at h
        cases h
        exact ⟨hc, rfl, ha, data, fs, rfl⟩
      · simp only [run_bind, run_getProcessLogCopy_fail p size ha, run_pure] at h
        cases h
    · cases he

/-- What the read relies on while it sleeps: the task, its log and record
array, and the temporary array. -/
structure Asleep (k : Kernel) (pid : Int) (p : Addr) (t : TaskStruct) (temp : Addr)
    (bytes : Nat) (l : LogArray) (e : Int → ForbiddenActivityInfo) : Prop where
  hash : k.pidhash pid = some p
  task : k.mem p = some (.task t)
  log : k.mem t.logArray = some (.log l)
  array : k.mem l.array = some (.records bytes e)
  copy : ∃ data, k.mem temp = some (.temp data)

/-- A call that comes back refused was denied, and was logged. -/
theorem exec_refused {c : Call} {g : Gate} {r : Reply} (hg : c.gate = some g)
    (hp : k.pidhash g.cur = some p) (ht : k.mem p = some (.task t))
    (hm : k.mem t.logArray = some (.log l)) (hrun : c.exec.run k = (r, k1))
    (hr : r.passed = false) : k1 = logged k t l ⟨g.reqLevel, t.policyLevel, g.jiffies⟩ := by
  have hgate : ∀ body : KM Int, (gated p g.reqLevel g.jiffies body).run k = (r, k1) →
      k1 = logged k t l ⟨g.reqLevel, t.policyLevel, g.jiffies⟩ := by
    intro body hb
    rw [run_gated ht (fun _ => hm)] at hb
    split at hb
    · exact (congrArg Prod.snd hb).symm
    · have hfst : _ = r := congrArg Prod.fst hb
      rw [← hfst] at hr
      cases hr
  cases c with
  | fork _ _ _ _ _ | wait4 _ _ _ _ | schedYield _ _ =>
    cases hg
    simp only [Call.exec, asCurrent, run_bind, run_findTaskByPid, hp] at hrun
    exact hgate _ hrun
  | enablePolicy _ _ _ _ | disablePolicy _ _ | setProcessCapabilities _ _ _
  | getProcessLog _ _ _ _ => cases hg

/-- One refused call writes one record and disturbs nothing else. -/
theorem Asleep.refused {e : Int → ForbiddenActivityInfo} {c : Call} {g : Gate}
    {r : Reply} (h : Asleep k pid p t temp bytes l e) (hin : inBlock bytes l.indexWrite)
    (hg : c.gate = some g) (hcur : g.cur = pid) (hrun : c.exec.run k = (r, k1))
    (hr : r.passed = false) :
    Asleep k1 pid p t temp bytes (afterWrite l)
      (update e l.indexWrite ⟨g.reqLevel, t.policyLevel, g.jiffies⟩) := by
  obtain ⟨data, hd⟩ := h.copy
  have hpl := k.ne_of_mem h.task h.log (by simp)
  have hpr := k.ne_of_mem h.task h.array (by simp)
  have hlr := k.ne_of_mem h.log h.array (by simp)
  have hdl := k.ne_of_mem hd h.log (by simp)
  have hdr := k.ne_of_mem hd h.array (by simp)
  rw [exec_refused hg (hcur ▸ h.hash) h.task h.log hrun hr, logged_of_inBlock h.array hin]
  exact ⟨h.hash, by simp [hpl, hpr, h.task], by simp, by simp [hlr.symm],
    data, by simp [hdl, hdr, hd]⟩

/-- Any number of refused calls, around the end of `copy_to_user`. -/
theorem Asleep.run {e : Int → ForbiddenActivityInfo} {es : List Event}
    {s s' : Option Bool} (h : Asleep k1 pid p t temp bytes l e) (hin : InRange l)
    (hfit : ∀ i, 0 ≤ i → i < l.size → inBlock bytes i)
    (hrun : Run (OverlapStep pid) (k1, s) es (k2, s')) :
    Asleep k2 pid p t temp bytes (storeAll l e (recordsOf t.policyLevel es)).1
      (storeAll l e (recordsOf t.policyLevel es)).2 := by
  generalize hx : (k1, s) = x at hrun
  generalize hy : (k2, s') = y at hrun
  induction hrun generalizing k1 s l e with
  | nil => cases hx; cases hy; exact h
  | @cons _ _ _ ev es hstep _ ih =>
    subst hx
    cases hstep with
    | @refused _ k' _ c g r hg hcur hr1 hr =>
      have h' := h.refused (hfit _ hin.write_nonneg hin.write_lt) hg hcur hr1 hr
      have hrec : recordsOf t.policyLevel (.call c :: es) =
          ⟨g.reqLevel, t.policyLevel, g.jiffies⟩ :: recordsOf t.policyLevel es := by
        simp [recordsOf, Event.records, hg]
      rw [hrec]
      exact ih h' hin.afterWrite hfit rfl hy
    | copyToUser ok => exact ih h hin hfit rfl hy

theorem quiet_run {es : List Event} {s s' : Option Bool} {level : Int}
    (hrun : Run (OverlapStep pid) (k1, s) es (k2, s')) (hq : recordsOf level es = []) :
    k2 = k1 := by
  generalize hx : (k1, s) = x at hrun
  generalize hy : (k2, s') = y at hrun
  induction hrun generalizing k1 s with
  | nil => cases hx; cases hy; rfl
  | @cons _ _ _ ev es hstep _ ih =>
    subst hx
    cases hstep with
    | @refused _ k' _ c g r hg hcur hr1 hr => simp [recordsOf, Event.records, hg] at hq
    | copyToUser ok => exact ih hq rfl hy

/-- The log that the last step leaves. -/
def finishLog (ok : Bool) (size prev : Int) (m : LogArray) : LogArray :=
  if ok then afterCommit m size else { m with indexRead := prev }

theorem finish_log {ok : Bool} {m : LogArray} {ret : Int} {out d : List ForbiddenActivityInfo}
    (ht : k2.mem p = some (.task t)) (hm : k2.mem t.logArray = some (.log m))
    (hd : k2.mem temp = some (.temp d))
    (h : (getProcessLogFinish p size prev temp ok).run k2 = ((ret, out), k3)) :
    k3 = (k2.unset temp).set t.logArray (.log (finishLog ok size prev m)) := by
  rw [run_getProcessLogFinish ht hm hd] at h
  cases ok with
  | true => exact (congrArg Prod.snd h).symm
  | false => exact (congrArg Prod.snd h).symm

end Steps

/-- The target's unread records after the read. `l` is its log before, `es` is
what happened between the first and the last step, `ok` is the outcome of
`copy_to_user`; the log never holds more than its size. The records are right,
none lost and none doubled, exactly when: after a successful copy, fewer than
`size` records remain, or the whole log was read and nothing was logged
meanwhile; after a failed one, nothing was logged or asked for, or the log is
not full. -/
theorem overlapped_read_exact_iff {k k1 k2 k3 : Kernel} {pid size prev ret : Int}
    {p temp a : Addr} {t : TaskStruct} {l : LogArray} {es : List Event} {ok : Bool}
    {out : List ForbiddenActivityInfo} (hs : Sound k) (hl : Logs Consistent k)
    (hp : k.pidhash pid = some p) (ht : k.mem p = some (.task t))
    (hm : k.mem t.logArray = some (.log l))
    (h1 : (readStart pid size a).run k = (.ok (p, prev, temp), k1))
    (h2 : Run (OverlapStep pid) (k1, none) es (k2, some ok))
    (h3 : (getProcessLogFinish p size prev temp ok).run k2 = ((ret, out), k3))
    (hcap : ((contents k l).length + (recordsOf t.policyLevel es).length : Int) ≤
      l.size + (if ok then size else 0)) :
    unreadOf k3 p = some ((contents k l ++ recordsOf t.policyLevel es).drop
        (if ok then size.toNat else 0)) ↔
      if ok then
        (size < l.size ∧
          ((contents k l).length + (recordsOf t.policyLevel es).length : Int) < l.size + size) ∨
        (size = l.size ∧ recordsOf t.policyLevel es = [])
      else recordsOf t.policyLevel es = [] ∨ size = 0 ∨
        ((contents k l).length + (recordsOf t.policyLevel es).length : Int) < l.size := by
  obtain ⟨hc, rfl, hfresh, data, fs, rfl⟩ := readStart_ok hp ht hm h1
  have hon : t.policyOn = 1 := (hs.flag ht).resolve_left hc.1
  obtain ⟨hsz0, hsz⟩ := (readOk_iff hs hl hm hon size).mp hc
  have hpl := k.ne_of_mem ht hm (by simp)
  have hpt := k.ne_of_free ht hfresh.2
  have hlt := k.ne_of_free hm hfresh.2
  generalize hrs : recordsOf t.policyLevel es = rs at hcap ⊢
  rcases hl _ l hm with hi | hu
  · -- a log of size 0: nothing is read and nothing can have been logged
    rw [contents_idle hi] at hsz hcap ⊢
    have hsize : size = 0 := by rw [List.length_nil] at hsz; omega
    have hnil : rs = [] := by
      apply List.length_eq_zero_iff.mp
      rw [hsize, hi.1, List.length_nil] at hcap
      cases ok <;> simp at hcap <;> exact List.length_eq_zero_iff.mpr hcap
    subst hnil
    have hk2 := quiet_run h2 hrs
    subst hk2
    rw [finish_log (t := t) (d := data) (m := afterReads l size.toNat) (by simp [midRead, hpl, hpt, ht])
      (by simp [midRead]) (by simp [midRead, hlt.symm]) h3,
      unreadOf_eq (t := t) (l := finishLog ok size l.indexRead (afterReads l size.toNat))
        (by simp [midRead, hpl, hpt, ht]) (by simp), hsize, contents_idle]
    · cases ok <;> simp [hi.1]
    · cases ok with
      | true => exact hi.commit
      | false => exact hi
  · obtain ⟨bytes, e, hr⟩ := hs.records hm (by have := hu.pos; omega)
    have hrt := k.ne_of_free hr hfresh.2
    have hrl := k.ne_of_mem hr hm (by simp)
    have hn : (size.toNat : Int) = size := by omega
    have hlen := length_contents hs hm hu
    have hasleep : Asleep (midRead k t l temp data fs size.toNat) pid p t temp bytes
        (afterReads l size.toNat) e :=
      ⟨hp, by simp [midRead, hpl, hpt, ht], by simp [midRead], by simp [midRead, hrl, hrt, hr],
        data, by simp [midRead, hlt.symm]⟩
    have hafter := hasleep.run (hu.holds.toInRange.afterReads _)
      (fun i h0 hi => hu.bytes bytes e hr ▸ inBlock_requestBytes hu.nowrap h0 hi) h2
    rw [hrs] at hafter
    obtain ⟨data', hd'⟩ := hafter.copy
    have hplt := k2.ne_of_mem hafter.task hafter.log (by simp)
    have hptt := k2.ne_of_mem hafter.task hd' (by simp)
    have harl := k2.ne_of_mem hafter.array hafter.log (by simp)
    have hatt := k2.ne_of_mem hafter.array hd' (by simp)
    have hfin : (finishLog ok size l.indexRead (storeAll (afterReads l size.toNat) e rs).1).array =
        (storeAll (afterReads l size.toNat) e rs).1.array := by
      unfold finishLog
      split
      · exact afterCommit_array _ _
      · rfl
    rw [finish_log hafter.task hafter.log hd' h3, unreadOf_eq (t := t)
      (l := finishLog ok size l.indexRead (storeAll (afterReads l size.toNat) e rs).1)
      (by simp [hplt, hptt, hafter.task]) (by simp), contents_records (n := bytes)
      (e := (storeAll (afterReads l size.toNat) e rs).2) (by
        rw [hfin]; simp [harl, hatt, hafter.array]), contents_records hr, Option.some_inj]
    have hlen' : ((unread l e).length : Int) = unreadCount l := length_unread hu.holds.toInRange e
    cases ok with
    | true =>
      have hiff := commit_overlap_iff (e := e) rs hu.holds (n := size.toNat) (by omega)
        (by simp only [if_true] at hcap; omega)
      rw [hn] at hiff
      simp only [finishLog, if_true]
      rw [hiff, hlen']
    | false =>
      have hiff := rollback_overlap_iff (e := e) rs hu.holds (n := size.toNat) (by omega)
        (by simp only [Bool.false_eq_true, if_false] at hcap; omega)
      simp only [finishLog, Bool.false_eq_true, if_false, List.drop_zero]
      rw [hiff, hlen']
      have hz : size.toNat = 0 ↔ size = 0 := by omega
      rw [hz]

/-- The state in which pid 2 has been refused `n` calls, with a log of the
given size. -/
def refusedTimes (size : Int) (n : Nat) : Kernel :=
  (trace twoTasks (refusedOnce size ++ (List.range (n - 1)).map fun i =>
    .schedYield 2 (101 + i))).2

/-- Pid 2 is refused a call while a read of its log sleeps. -/
def afterRefusal (k : Kernel) (size : Int) : Kernel :=
  ((Call.schedYield 2 200).exec.run ((readStart 2 size 5).run k).2).2

theorem refusal_run {k : Kernel} {size : Int} (ok : Bool)
    (h : ((Call.schedYield 2 200).exec.run ((readStart 2 size 5).run k).2).1.passed = false) :
    Run (OverlapStep 2) (((readStart 2 size 5).run k).2, none)
      [.call (.schedYield 2 200), .copyToUser ok] (afterRefusal k size, some ok) :=
  .cons (.refused rfl rfl (Prod.ext rfl rfl) h) (.cons (.copyToUser ok) (.nil _))

/-- One record is read while another is logged, in a log of four. -/
theorem overlapped_read_exact_four :
    unreadOf (refusedTimes 4 1) 2 = some [⟨1, 0, 100⟩] ∧
    unreadOf ((getProcessLogFinish 2 1 0 5 true).run (afterRefusal (refusedTimes 4 1) 1)).2 2 =
      some [⟨1, 0, 200⟩] := by
  have hgood : Sound (refusedTimes 4 1) ∧ Logs Consistent (refusedTimes 4 1) :=
    (run_refines (Lib.Queue.fifo ForbiddenActivityInfo) (fun _ _ => LargeEnough.allowed)
      twoTasks_boot refusedOnce_run).2
  have ht : (refusedTimes 4 1).mem 2 = some (.task ⟨2, 1, 0, 3⟩) := rfl
  have hm : (refusedTimes 4 1).mem 3 = some (.log ⟨1, 0, 4, 0, 4⟩) := rfl
  have hold : contents (refusedTimes 4 1) ⟨1, 0, 4, 0, 4⟩ = [⟨1, 0, 100⟩] := by decide
  have h1 : (readStart 2 1 5).run (refusedTimes 4 1) =
      (.ok (2, 0, 5), ((readStart 2 1 5).run (refusedTimes 4 1)).2) := Prod.ext (by decide) rfl
  have h3 : (getProcessLogFinish 2 1 0 5 true).run (afterRefusal (refusedTimes 4 1) 1) =
      ((0, [⟨1, 0, 100⟩]),
        ((getProcessLogFinish 2 1 0 5 true).run (afterRefusal (refusedTimes 4 1) 1)).2) :=
    Prod.ext (by decide) rfl
  have hiff := overlapped_read_exact_iff hgood.1 hgood.2 rfl ht hm h1
    (refusal_run true (by decide)) h3 (by rw [hold]; decide)
  exact ⟨by decide, hiff.mpr (by decide)⟩

/-- A log of two records loses both when a failed read of one overlaps the call
that fills it, and one when a read of the whole log overlaps a refused call. -/
theorem overlapped_read_loses :
    (((readStart 2 1 5).run (refusedTimes 2 1)).1 = .ok (2, 0, 5) ∧
      Run (OverlapStep 2) (((readStart 2 1 5).run (refusedTimes 2 1)).2, none)
        [.call (.schedYield 2 200), .copyToUser false]
        (afterRefusal (refusedTimes 2 1) 1, some false) ∧
      unreadOf (refusedTimes 2 1) 2 = some [⟨1, 0, 100⟩] ∧
      unreadOf ((getProcessLogFinish 2 1 0 5 false).run (afterRefusal (refusedTimes 2 1) 1)).2 2 =
        some []) ∧
    (((readStart 2 2 5).run (refusedTimes 2 2)).1 = .ok (2, 0, 5) ∧
      Run (OverlapStep 2) (((readStart 2 2 5).run (refusedTimes 2 2)).2, none)
        [.call (.schedYield 2 200), .copyToUser true]
        (afterRefusal (refusedTimes 2 2) 2, some true) ∧
      unreadOf (refusedTimes 2 2) 2 = some [⟨1, 0, 100⟩, ⟨1, 0, 101⟩] ∧
      unreadOf ((getProcessLogFinish 2 2 0 5 true).run (afterRefusal (refusedTimes 2 2) 2)).2 2 =
        some []) :=
  ⟨⟨by decide, refusal_run false (by decide), by decide, by decide⟩,
    ⟨by decide, refusal_run true (by decide), by decide, by decide⟩⟩

end CustomKernel.Policy.Overlap

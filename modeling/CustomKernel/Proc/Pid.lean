import CustomKernel.Proc.Tasks
import Mathlib.Data.Nat.Bitwise

/-! # Fresh pids

`get_pid` keeps the promise that no identifier on the task list lies between
`last_pid` and `next_safe`, and while there is room between them it does not look
at the list. A search that finds every pid in use breaks the promise: it puts
`last_pid` back where it was and leaves `next_safe` where the search had it. -/
namespace CustomKernel.Proc.Pid
open Lib.Transition Proc.Tasks Function

/-! ## One search -/

def ids (t : Task) : List Nat := [t.pid, t.pgrp, t.tgid, t.session]

section Search
variable {ts : List Task} {t : Task} {last next beginpid fuel n pid last' next' v : Nat}

theorem uses_iff : t.uses n = true ↔ n ∈ ids t := by
  simp only [Task.uses, ids, Bool.or_eq_true, decide_eq_true_eq, List.mem_cons, List.not_mem_nil,
    or_false, or_assoc]
  exact or_congr eq_comm (or_congr eq_comm (or_congr eq_comm eq_comm))

theorem tooLarge_iff (h : n ≤ pidMax) : tooLarge n = true ↔ n = pidMax := by
  have hmask : (0xffff8000 : Nat) = (2 ^ 17 - 1) <<< 15 := rfl
  rcases Nat.lt_or_eq_of_le h with hlt | rfl
  · have hzero : n &&& 0xffff8000 = 0 := by
      refine Nat.eq_of_testBit_eq fun i => ?_
      rw [Nat.testBit_and, hmask, Nat.testBit_shiftLeft, Nat.zero_testBit]
      rcases Nat.lt_or_ge i 15 with hi | hi
      · simp [Nat.not_le.mpr hi]
      · have hpow : 2 ^ 15 ≤ 2 ^ i := Nat.pow_le_pow_right Nat.two_pos hi
        rw [Nat.testBit_lt_two_pow (Nat.lt_of_lt_of_le hlt hpow)]
        rfl
    simp [tooLarge, hzero, Nat.ne_of_lt hlt]
  · simp [tooLarge, pidMax]

theorem lower_le (last v next : Nat) : lower last v next ≤ next := by
  unfold lower
  split <;> omega

theorem lower_le_value (h : last < v) (next : Nat) : lower last v next ≤ v := by
  unfold lower
  split <;> omega

theorem lt_lower (v : Nat) (h : last < next) : last < lower last v next := by
  unfold lower
  split <;> omega

theorem bound_le (t : Task) (last next : Nat) : t.bound last next ≤ next :=
  ((lower_le ..).trans (lower_le ..)).trans ((lower_le ..).trans (lower_le ..))

theorem bound_le_id (hv : v ∈ ids t) (h : last < v) (next : Nat) :
    t.bound last next ≤ v := by
  simp only [ids, List.mem_cons, List.not_mem_nil, or_false] at hv
  rcases hv with rfl | rfl | rfl | rfl
  · exact ((lower_le ..).trans (lower_le ..)).trans ((lower_le ..).trans (lower_le_value h _))
  · exact ((lower_le ..).trans (lower_le ..)).trans (lower_le_value h _)
  · exact (lower_le ..).trans (lower_le_value h _)
  · exact lower_le_value h _

theorem lt_bound (t : Task) (h : last < next) : last < t.bound last next :=
  lt_lower _ (lt_lower _ (lt_lower _ (lt_lower _ h)))

theorem pass_le : (pass last ts next).2 ≤ next := by
  induction ts generalizing next with
  | nil => exact le_rfl
  | cons t ts ih =>
    rw [Tasks.pass]
    split
    · exact le_rfl
    · exact ih.trans (bound_le t last next)

theorem lt_pass (h : last < next) : last < (pass last ts next).2 := by
  induction ts generalizing next with
  | nil => exact h
  | cons t ts ih =>
    rw [Tasks.pass]
    split
    · exact h
    · exact ih (lt_bound t h)

/-- A pass that reaches the end of the list has seen everything. -/
theorem pass_free (h : (pass last ts next).1 = false) (ht : t ∈ ts) (hv : v ∈ ids t) :
    v ≠ last ∧ (last < v → (pass last ts next).2 ≤ v) := by
  induction ts generalizing next with
  | nil => cases ht
  | cons u ts ih =>
    rw [Tasks.pass] at h ⊢
    split at h
    · cases h
    next hu =>
    rw [if_neg hu]
    rcases List.mem_cons.mp ht with heq | ht
    · subst heq
      refine ⟨?_, fun hlt => pass_le.trans (bound_le_id hv hlt next)⟩
      intro hlast
      exact hu (uses_iff.mpr (hlast ▸ hv))
    · exact ih h ht

theorem pass_used (h : (pass last ts next).1 = true) : ∃ t ∈ ts, last ∈ ids t := by
  induction ts generalizing next with
  | nil => cases h
  | cons u ts ih =>
    rw [Tasks.pass] at h
    split at h
    next hu => exact ⟨u, List.mem_cons_self, uses_iff.mp hu⟩
    · obtain ⟨t, ht, hmem⟩ := ih h
      exact ⟨t, List.mem_cons_of_mem u ht, hmem⟩

/-- Where the search goes on. -/
def advance (last next : Nat) : Nat × Nat :=
  if last + 1 ≥ next then (if tooLarge (last + 1) then 300 else last + 1, pidMax)
  else (last + 1, next)

theorem scan_succ : scan ts beginpid (fuel + 1) last next =
    if (pass last ts next).1 = false then some (last, last, (pass last ts next).2)
    else
      let (l, x) := advance last (pass last ts next).2
      if l = beginpid then some (0, l, x) else scan ts beginpid fuel l x := by
  rw [scan]
  cases h : pass last ts next with
  | mk used x => cases used <;> rfl

theorem advance_eq (hlast : last < pidMax) (hnext : next ≤ pidMax) :
    (advance last next).1 = if last + 1 = pidMax then 300 else last + 1 := by
  have hlarge := tooLarge_iff hlast
  unfold advance
  split
  · split <;> split <;> simp_all
  · rw [if_neg]
    omega

/-- The search stays in its bounds. -/
structure Bounds (last next : Nat) : Prop where
  pos : 0 < last
  last_lt : last < pidMax
  lt_next : last < next
  next_le : next ≤ pidMax

theorem Bounds.advance (h : Bounds last next) : Bounds (advance last next).1 (advance last next).2 := by
  have heq := advance_eq h.last_lt h.next_le
  have h1 := h.last_lt
  have h2 := h.next_le
  have hnext : (Pid.advance last next).2 = if last + 1 ≥ next then pidMax else next := by
    unfold Pid.advance
    split <;> rfl
  have h300 : 300 < pidMax := by decide
  refine ⟨?_, ?_, ?_, ?_⟩
  all_goals
    first | rw [heq, hnext] | rw [heq] | rw [hnext]
    repeat' split
    all_goals omega

theorem Bounds.pass (h : Bounds last next) (ts : List Task) : Bounds last (pass last ts next).2 :=
  ⟨h.pos, h.last_lt, lt_pass h.lt_next, pass_le.trans h.next_le⟩

/-- A search that ends leaves the bounds in place, and a pid it has found is free. -/
theorem scan_spec (hb : Bounds last next)
    (h : scan ts beginpid fuel last next = some (pid, last', next')) :
    Bounds last' next' ∧ (pid ≠ 0 → pid = last' ∧ ∀ t ∈ ts, ∀ v ∈ ids t,
      v ≠ pid ∧ (last' < v → next' ≤ v)) := by
  induction fuel generalizing last next with
  | zero => cases h
  | succ fuel ih =>
    rw [scan_succ] at h
    split at h
    next hfree =>
      cases h
      exact ⟨hb.pass ts, fun _ => ⟨rfl, fun t ht v hv => pass_free hfree ht hv⟩⟩
    next =>
      have hadv := (hb.pass ts).advance
      dsimp only at h
      split at h
      · cases h
        exact ⟨hadv, fun hne => absurd rfl hne⟩
      · exact ih hadv h

/-- Still to be tried before the search is back at `beginpid`. -/
def Ahead (beginpid last n : Nat) : Prop :=
  if beginpid < last then last ≤ n ∨ (300 ≤ n ∧ n < beginpid) else last ≤ n ∧ n < beginpid

/-- The search does not give up before a free pid. -/
theorem scan_ahead (hb : Bounds last next) (hn : n < pidMax) (hfree : ∀ t ∈ ts, n ∉ ids t)
    (hahead : Ahead beginpid last n)
    (h : scan ts beginpid fuel last next = some (pid, last', next')) : pid ≠ 0 := by
  induction fuel generalizing last next with
  | zero => cases h
  | succ fuel ih =>
    rw [scan_succ] at h
    split at h
    · cases h
      exact Nat.ne_of_gt hb.pos
    next hused =>
      obtain ⟨t, ht, hmem⟩ := pass_used (Bool.eq_true_of_not_eq_false hused)
      have hne : n ≠ last := by
        intro heq
        exact hfree t ht (heq ▸ hmem)
      have hp := hb.pass ts
      have heq := advance_eq hp.last_lt hp.next_le
      have hnext : Ahead beginpid (advance last (pass last ts next).2).1 n := by
        rw [heq]
        unfold Ahead at hahead ⊢
        split at hahead <;> split <;> split <;> omega
      dsimp only at h
      split at h
      next hback =>
        rw [hback, Ahead, if_neg (Nat.lt_irrefl _)] at hnext
        omega
      · exact ih hp.advance hnext h

/-- A search that starts above 300 ends. -/
theorem scan_ends (hb : Bounds last next) (hbegin : 300 ≤ beginpid) (hlt : beginpid < pidMax)
    (hne : last ≠ beginpid)
    (hfuel : (if beginpid < last then pidMax - last + beginpid else beginpid - last) < fuel) :
    ∃ r, scan ts beginpid fuel last next = some r := by
  induction fuel generalizing last next with
  | zero => omega
  | succ fuel ih =>
    rw [scan_succ]
    split
    · exact ⟨_, rfl⟩
    · have hp := hb.pass ts
      have heq := advance_eq hp.last_lt hp.next_le
      have h1 := hb.last_lt
      dsimp only
      split
      · exact ⟨_, rfl⟩
      next hback =>
        refine ih hp.advance hback ?_
        rw [heq] at hback ⊢
        generalize hl : (if last + 1 = pidMax then 300 else last + 1) = l at hback ⊢
        split at hl <;> split at hfuel <;> split <;> omega

/-- The promise of the cache. -/
structure Window (ts : List Task) (last next : Nat) : Prop where
  last_lt : last < pidMax
  next_le : next ≤ pidMax
  clear : ∀ t ∈ ts, ∀ v ∈ ids t, last < v → next ≤ v

/-- A pid that a search after `last` comes to. -/
def Spare (ts : List Task) (last n : Nat) : Prop :=
  n ≠ last ∧ n < pidMax ∧ (last < n ∨ 300 ≤ n) ∧ ∀ t ∈ ts, n ∉ ids t

/-- The pid behind `last_pid` is taken without a look at the list. -/
def Room (last next : Nat) : Prop := last + 1 < next ∧ last + 1 < pidMax

theorem getPid_room (h : Room last next) :
    getPid fuel ts last next = some (last + 1, last + 1, next) := by
  have hin : tooLarge (last + 1) ≠ true := by
    rw [Ne, tooLarge_iff h.2.le]
    exact h.2.ne
  rw [getPid, if_neg hin, if_neg (Nat.not_le.mpr h.1)]

theorem getPid_search (hlast : last < pidMax) (h : ¬Room last next) :
    getPid fuel ts last next =
      scan ts last fuel (if last + 1 = pidMax then 300 else last + 1) pidMax := by
  have hlarge := tooLarge_iff hlast
  rw [getPid]
  split
  next hout => rw [if_pos (hlarge.mp hout)]
  next hin =>
    have hne : last + 1 ≠ pidMax := fun heq => hin (hlarge.mpr heq)
    rw [if_neg hne, if_pos (Nat.not_lt.mp fun hroom => h ⟨hroom, Nat.lt_of_le_of_ne hlast hne⟩)]

/-- `get_pid` trusts the promise, or searches. -/
theorem getPid_cases (hlast : last < pidMax) (h : getPid fuel ts last next = some (pid, last', next')) :
    (last + 1 < next ∧ pid = last + 1 ∧ last' = last + 1 ∧ next' = next ∧ last + 1 < pidMax) ∨
    scan ts last fuel (if last + 1 = pidMax then 300 else last + 1) pidMax =
      some (pid, last', next') := by
  by_cases hroom : Room last next
  · rw [getPid_room hroom] at h
    cases h
    exact .inl ⟨hroom.1, rfl, rfl, rfl, hroom.2⟩
  · exact .inr (getPid_search hlast hroom ▸ h)

theorem start_bounds (hlast : last < pidMax) :
    Bounds (if last + 1 = pidMax then 300 else last + 1) pidMax := by
  have h300 : 300 < pidMax := by decide
  split
  · exact ⟨by omega, h300, h300, le_rfl⟩
  · exact ⟨by omega, by omega, by omega, le_rfl⟩

/-- A pid that is found is free, and the promise holds again. -/
theorem Window.getPid (hw : Window ts last next)
    (h : getPid fuel ts last next = some (pid, last', next')) (hpid : pid ≠ 0) :
    pid < pidMax ∧ Window ts last' next' ∧ ∀ t ∈ ts, pid ∉ ids t := by
  rcases getPid_cases hw.last_lt h with ⟨hroom, rfl, rfl, rfl, hlt⟩ | hscan
  · refine ⟨hlt, ⟨hlt, hw.next_le, fun t ht v hv hgt => hw.clear t ht v hv (by omega)⟩, ?_⟩
    intro t ht hmem
    have := hw.clear t ht _ hmem (Nat.lt_succ_self last)
    omega
  · obtain ⟨hb, hfound⟩ := scan_spec (start_bounds hw.last_lt) hscan
    obtain ⟨rfl, hfree⟩ := hfound hpid
    refine ⟨hb.last_lt, ⟨hb.last_lt, hb.next_le, fun t ht v hv => (hfree t ht v hv).2⟩, ?_⟩
    intro t ht hmem
    exact (hfree t ht _ hmem).1 rfl

theorem getPid_ne_zero (hlast : last < pidMax) (hn : Spare ts last n)
    (h : getPid fuel ts last next = some (pid, last', next')) : pid ≠ 0 := by
  obtain ⟨hne, hlt, hrange, hfree⟩ := hn
  rcases getPid_cases hlast h with ⟨_, rfl, _⟩ | hscan
  · omega
  · refine scan_ahead (start_bounds hlast) hlt hfree ?_ hscan
    unfold Ahead
    split <;> split <;> omega

theorem getPid_last (hlast : last < pidMax)
    (h : getPid fuel ts last next = some (pid, last', next')) : last' < pidMax := by
  rcases getPid_cases hlast h with ⟨_, _, rfl, _, hlt⟩ | hscan
  · exact hlt
  · exact (scan_spec (start_bounds hlast) hscan).1.last_lt

/-- A search above 300 stays there. -/
theorem Bounds.advance_ge (hb : Bounds last next) (h300 : 300 ≤ last) :
    300 ≤ (Pid.advance last next).1 := by
  rw [advance_eq hb.last_lt hb.next_le]
  split <;> omega

theorem scan_ge (hb : Bounds last next) (h300 : 300 ≤ last)
    (h : scan ts beginpid fuel last next = some (pid, last', next')) : 300 ≤ last' := by
  induction fuel generalizing last next with
  | zero => cases h
  | succ fuel ih =>
    have hp := hb.pass ts
    rw [scan_succ] at h
    split at h
    · cases h
      exact h300
    · dsimp only at h
      split at h
      · cases h
        exact hp.advance_ge h300
      · exact ih hp.advance (hp.advance_ge h300) h

/-- A search that gives up is where it has begun. At 300 it has just come round. -/
theorem scan_gives_up (hb : Bounds last next) (h300 : 300 ≤ last)
    (h : scan ts beginpid fuel last next = some (0, last', next')) :
    last' = beginpid ∧ (beginpid = 300 → next' = pidMax) := by
  induction fuel generalizing last next with
  | zero => cases h
  | succ fuel ih =>
    have hp := hb.pass ts
    rw [scan_succ] at h
    split at h
    · cases h
      exact absurd h300 (by decide)
    · dsimp only at h
      split at h
      next hback =>
        cases h
        refine ⟨hback, fun hbegin => ?_⟩
        unfold Pid.advance at hback ⊢
        split at hback
        next hwrap => rw [if_pos hwrap]
        · omega
      · exact ih hp.advance (hp.advance_ge h300) h

end Search

/-! ## What the operations do to the identifiers -/

section Frame
variable {s s' : State} {o : Op} {p q cur : TaskId} {fuel v : Nat}

/-- An identifier of a task on the list. -/
def Used (s : State) (v : Nat) : Prop := ∃ q ∈ s.list, v ∈ ids (s.tasks q)

theorem used_of_calm (h : Calm cur s s') (hv : Used s' v) : Used s v := by
  obtain ⟨q, hq, hmem⟩ := hv
  have hname := h.name q
  simp only [name, Prod.mk.injEq] at hname
  exact ⟨q, h.list.mem_iff.mp hq, by simpa [ids, hname] using hmem⟩

theorem used_setTask {f : Task → Task} (hf : ∀ v ∈ ids (f (s.tasks p)), Used s v)
    (hv : Used (s.setTask p f) v) : Used s v := by
  obtain ⟨q, hq, hmem⟩ := hv
  rcases eq_or_ne q p with rfl | hne
  · exact hf v (by simpa [State.setTask] using hmem)
  · exact ⟨q, hq, by simpa [State.setTask, hne] using hmem⟩

/-- A task that leads no session goes to the group of its own pid, or to one with a member in
its session. -/
theorem sysSetpgid_cases {pid pgid : Int} {found : Option TaskId}
    (hok : (Op.setpgid cur pid pgid found).Allowed s) :
    (sysSetpgid cur pid pgid found s).2 = s ∨
      ∃ p ∈ s.list, ∃ gid, (s.tasks p).leader = false ∧
        (gid = (s.tasks p).pid ∨ ∃ q ∈ s.list, (s.tasks q).pgrp = gid ∧
          (s.tasks q).session = (s.tasks p).session) ∧
        (sysSetpgid cur pid pgid found s).2 = s.setTask p fun t => { t with pgrp := gid } := by
  unfold sysSetpgid
  dsimp only
  generalize (if pgid = 0 then wanted cur pid s else pgid) = gid
  split
  · exact .inl rfl
  cases found with
  | none => exact .inl rfl
  | some p =>
    obtain ⟨hp, hpid⟩ := hok.2
    dsimp only
    split
    · exact .inl rfl
    next hsession =>
    split
    · exact .inl rfl
    split
    · exact .inl rfl
    next hother =>
    split
    · exact .inl rfl
    next hleader =>
    split
    · exact .inl rfl
    next hgroup =>
    refine .inr ⟨p, hp, gid.toNat, by simpa using hleader, ?_, rfl⟩
    rcases eq_or_ne gid (wanted cur pid s) with heq | hne
    · exact .inl (by rw [heq, ← hpid, Int.toNat_natCast])
    · have hsome : ∃ q ∈ s.list, ((s.tasks q).pgrp : Int) = gid ∧
          (s.tasks q).session = (s.tasks cur).session := by
        by_contra hnone
        exact hgroup ⟨hne, fun q hq hm => hnone ⟨q, hq, hm⟩⟩
      obtain ⟨q, hq, hgrp, hsess⟩ := hsome
      have hsame : (s.tasks cur).session = (s.tasks p).session := by
        by_cases hmine : (s.tasks p).pptr = cur ∨ (s.tasks p).opptr = cur
        · exact not_ne_iff.mp fun hdiff => hsession ⟨hmine, hdiff.symm⟩
        · rw [not_ne_iff.mp fun hdiff => hother ⟨hmine, hdiff⟩]
      exact .inr ⟨q, hq, by rw [← hgrp, Int.toNat_natCast], hsess.trans hsame⟩

/-- Either system call gives a task identifiers that are in use. -/
theorem groups_cases (hcase : (∃ pid pgid found, o = .setpgid cur pid pgid found) ∨ o = .setsid cur)
    (hok : o.Allowed s) (hexec : o.exec fuel s = some s') :
    s' = s ∨ ∃ p f, s' = s.setTask p f ∧ ∀ v ∈ ids (f (s.tasks p)), Used s v := by
  rcases hcase with ⟨pid, pgid, found, rfl⟩ | rfl
  · cases hexec
    rcases sysSetpgid_cases hok with heq | ⟨p, hp, gid, _, hgroup, heq⟩
    · exact .inl heq
    · have hgid : Used s gid := by
        rcases hgroup with rfl | ⟨q, hq, rfl, _⟩
        · exact ⟨p, hp, by simp [ids]⟩
        · exact ⟨q, hq, by simp [ids]⟩
      refine .inr ⟨p, _, heq, ?_⟩
      intro v hv
      simp only [ids, List.mem_cons, List.not_mem_nil, or_false] at hv
      rcases hv with rfl | rfl | rfl | rfl
      · exact ⟨p, hp, by simp [ids]⟩
      · exact hgid
      · exact ⟨p, hp, by simp [ids]⟩
      · exact ⟨p, hp, by simp [ids]⟩
  · cases hexec
    unfold sysSetsid
    split
    · exact .inl rfl
    · refine .inr ⟨cur, fun t => { t with leader := true, session := t.pid, pgrp := t.pid }, rfl, ?_⟩
      intro v hv
      simp only [ids, List.mem_cons, List.not_mem_nil, or_false] at hv
      rcases hv with rfl | rfl | rfl | rfl
      all_goals exact ⟨cur, hok.1, by simp [ids]⟩

end Frame

/-! ## Runs -/

section Runs
variable {s s' : State} {o : Op} {es : List Op} {fuel pid last next : Nat}

def Safe (s : State) : Prop := Window (s.list.map s.tasks) s.lastPid s.nextSafe

theorem safe_iff : Safe s ↔ s.lastPid < pidMax ∧ s.nextSafe ≤ pidMax ∧
    ∀ v, Used s v → s.lastPid < v → s.nextSafe ≤ v := by
  constructor
  · intro h
    refine ⟨h.last_lt, h.next_le, ?_⟩
    intro v ⟨q, hq, hmem⟩ hlt
    exact h.clear _ (List.mem_map_of_mem hq) v hmem hlt
  · intro ⟨hlast, hnext, hclear⟩
    refine ⟨hlast, hnext, ?_⟩
    intro t ht v hv hlt
    obtain ⟨q, hq, rfl⟩ := List.mem_map.mp ht
    exact hclear v ⟨q, hq, hv⟩ hlt

theorem Safe.of_used (h : Safe s) (hlast : s'.lastPid = s.lastPid) (hnext : s'.nextSafe = s.nextSafe)
    (hused : ∀ v, Used s' v → Used s v) : Safe s' := by
  rw [safe_iff] at h ⊢
  rw [hlast, hnext]
  exact ⟨h.1, h.2.1, fun v hv => h.2.2 v (hused v hv)⟩

theorem Safe.calm (h : Safe s) (hcalm : Calm cur s s') : Safe s' :=
  h.of_used hcalm.lastPid hcalm.nextSafe fun _ hv => used_of_calm hcalm hv

/-- The identifiers a new task brings to the list. -/
def brought (s : State) (m : Making) : List Nat :=
  let t := s.tasks m.child
  [t.pid, t.pgrp, if m.flags.thread then (s.tasks m.parent).tgid else t.pid, t.session]

/-- A pid is left when one is wanted, no search has gone past a task that was
still being made, and a zombie is released once. -/
def Ample (s : State) : Op → Prop
  | .forkStart _ _ flags =>
    flags.pid = true ∨ ∃ n, Spare (s.list.map s.tasks) s.lastPid n
  | .forkLink m => ∀ v ∈ brought s m, s.lastPid < v → s.nextSafe ≤ v
  | .waitDone p => p ∈ s.list
  | _ => True

theorem forkStart_safe {p cur : TaskId} {flags : CloneFlags} (h : Safe s)
    (hok : (Op.forkStart p cur flags).Allowed s) (hc : Ample s (.forkStart p cur flags))
    (hs : forkStart fuel p cur flags s = some s') : Safe s' := by
  obtain ⟨_, _, hp, _⟩ := hok
  unfold forkStart at hs
  split at hs
  · cases hs
    exact h
  dsimp only at hs
  obtain ⟨⟨pid, last, next⟩, hgot, rfl⟩ := Option.map_eq_some_iff.mp hs
  have hwin : Window (s.list.map s.tasks) last next := by
    split at hgot
    · cases hgot
      exact h
    next hflag =>
      obtain ⟨n, hn⟩ := hc.resolve_left hflag
      exact (h.getPid hgot (getPid_ne_zero h.last_lt hn hgot)).2.1
  have hcache : Safe { s with lastPid := last, nextSafe := next } := hwin
  split
  · exact hcache
  · refine hcache.of_used rfl rfl ?_
    -- the child is not on the list yet
    intro v ⟨q, hq, hmem⟩
    have hne : q ≠ p := fun heq => hp (heq ▸ hq)
    exact ⟨q, hq, by simpa [State.setTask, hne] using hmem⟩

theorem ids_forkLink (m : Making) (s : State) (q : TaskId) :
    ids ((forkLink m s).tasks q) = if q = m.child then brought s m else ids (s.tasks q) := by
  obtain ⟨_, _, _, _, htasks⟩ := forkLink_frame m s
  obtain ⟨c, y, o, hq⟩ := htasks q
  rw [hq]
  rcases eq_or_ne q m.child with rfl | hne
  · simp [ids, brought, born]
  · simp [ids, hne]

theorem forkLink_safe {m : Making} (h : Safe s) (hc : Ample s (.forkLink m)) :
    Safe (forkLink m s) := by
  obtain ⟨hlist, _, hlast, hnext, _⟩ := forkLink_frame m s
  rw [safe_iff] at h ⊢
  rw [hlast, hnext]
  refine ⟨h.1, h.2.1, ?_⟩
  intro v ⟨q, hq, hmem⟩
  rw [ids_forkLink] at hmem
  split at hmem
  · exact hc v hmem
  next hne =>
    rw [hlist, List.mem_append, List.mem_singleton] at hq
    exact h.2.2 v ⟨q, hq.resolve_right hne, hmem⟩

theorem releaseTask_safe (h : Safe s) (p : TaskId) : Safe (releaseTask p s) := by
  have hlinks := onlyLinks_removeLinks p s
  rw [safe_iff] at h ⊢
  refine ⟨hlinks.lastPid ▸ h.1, hlinks.nextSafe ▸ h.2.1, ?_⟩
  intro v ⟨q, hq, hmem⟩ hlt
  have hq := List.mem_of_mem_erase (removeLinks_list p s ▸ hq)
  refine hlinks.nextSafe ▸ h.2.2 v ⟨q, hq, ?_⟩ (hlinks.lastPid ▸ hlt)
  rcases eq_or_ne q p with rfl | hne
  · -- the released task has given back its pid, and 0 is not in the way
    obtain ⟨c, y, o, heq⟩ := hlinks.tasks q
    simp only [releaseTask, State.setTask, update_self, heq, ids] at hmem
    rcases List.mem_cons.mp hmem with rfl | hmem
    · cases hlt
    · exact List.mem_cons_of_mem _ hmem
  · obtain ⟨c, y, o, heq⟩ := releaseTask_tasks hne s
    rwa [heq] at hmem

theorem step_safe (h : Safe s) (hc : Ample s o) (hs : Step s o s') : Safe s' := by
  obtain ⟨hok, fuel, hexec⟩ := hs
  have hgroups (hcase : s' = s ∨ ∃ p f, s' = s.setTask p f ∧
      ∀ v ∈ ids (f (s.tasks p)), Used s v) : Safe s' := by
    rcases hcase with rfl | ⟨p, f, rfl, hf⟩
    · exact h
    · exact h.of_used rfl rfl fun v hv => used_setTask hf hv
  cases o with
  | forkStart p cur flags => exact forkStart_safe h hok hc hexec
  | forkAbort m =>
    cases hexec
    exact h
  | forkLink m =>
    cases hexec
    exact forkLink_safe h hc
  | setpgid cur pid pgid found => exact hgroups (groups_cases (.inl ⟨_, _, _, rfl⟩) hok hexec)
  | setsid cur => exact hgroups (groups_cases (.inr rfl) hok hexec)
  | waitDone p =>
    cases hexec
    have hfound : Safe { s with found := s.found.erase p } := h
    have hp : p ∈ { s with found := s.found.erase p }.list := hc
    unfold waitDone
    dsimp only
    split
    · exact hfound.calm (calm_relink p hp _)
    · exact releaseTask_safe hfound p
  | execve cur | becomeReaper cur | reparentToInit cur | traceMe cur | ptraceAttach cur p
  | ptraceDetach cur p | doExit cur | forgetOriginalParent cur | exitNotify cur
  | waitFound cur i j => exact h.calm (exec_calm hok rfl hexec)

/-! The swapper makes process 1. -/

def noFlags : CloneFlags := ⟨false, false, false, false⟩

def firstFork : Making := ⟨1, swapper, noFlags⟩

def starting : State :=
  { boot with
    tasks := update boot.tasks 1 { initTask with pid := 1 }
    lastPid := 1
    making := [firstFork] }

theorem boot_starting : Step boot (.forkStart 1 swapper noFlags) starting := by
  have hget : getPid 0 (boot.list.map boot.tasks) boot.lastPid boot.nextSafe =
      some (1, 1, pidMax) := by
    decide
  have hexec : forkStart 0 1 swapper noFlags boot = some starting := by
    rfl
  refine ⟨⟨.inr ⟨rfl, ?_⟩, by decide, List.not_mem_nil, ?_⟩, 0, hexec⟩
  all_goals
    intro m hm
    cases hm

theorem starting_linked : Step starting (.forkLink firstFork) (forkLink firstFork starting) :=
  ⟨List.mem_singleton_self _, 0, rfl⟩

/-- In a run in which a pid is always left when one is wanted, `get_pid` returns
fresh ones. -/
theorem getPid_fresh (h : Run (Meeting Ample Step) boot es s)
    (hget : getPid fuel (s.list.map s.tasks) s.lastPid s.nextSafe = some (pid, last, next))
    (hpid : pid ≠ 0) :
    pid < pidMax ∧ ∀ q ∈ s.list, pid ≠ (s.tasks q).pid ∧ pid ≠ (s.tasks q).pgrp ∧
      pid ≠ (s.tasks q).tgid ∧ pid ≠ (s.tasks q).session := by
  have hboot : Safe boot := by
    refine ⟨by decide, le_rfl, ?_⟩
    intro t ht
    cases ht
  have hsafe : Safe s := h.invariant (fun _ _ _ hi h1 => step_safe hi h1.1 h1.2) hboot
  obtain ⟨hlt, _, hfree⟩ := Window.getPid hsafe hget hpid
  refine ⟨hlt, fun q hq => ?_⟩
  simpa [ids, not_or] using hfree _ (List.mem_map_of_mem hq)

/-- The second process does not get the pid of the first. -/
theorem getPid_fresh_second :
    let s := forkLink firstFork starting
    s.list = [1] ∧ (s.tasks 1).pid = 1 ∧
      getPid 0 (s.list.map s.tasks) s.lastPid s.nextSafe = some (2, 2, pidMax) ∧
      2 < pidMax ∧ ∀ q ∈ s.list, 2 ≠ (s.tasks q).pid ∧ 2 ≠ (s.tasks q).pgrp ∧
        2 ≠ (s.tasks q).tgid ∧ 2 ≠ (s.tasks q).session := by
  have hrun : Run (Meeting Ample Step) boot [.forkStart 1 swapper noFlags, .forkLink firstFork]
      (forkLink firstFork starting) := by
    refine .cons ⟨.inr ⟨1, by decide, by decide, by decide, ?_⟩, boot_starting⟩
      (.cons ⟨?_, starting_linked⟩ (.nil _))
    · intro t ht
      cases ht
    · change ∀ v ∈ brought starting firstFork, 1 < v → pidMax ≤ v
      decide
  have hget : getPid 0 ((forkLink firstFork starting).list.map (forkLink firstFork starting).tasks)
      (forkLink firstFork starting).lastPid (forkLink firstFork starting).nextSafe =
      some (2, 2, pidMax) := by
    decide
  exact ⟨rfl, rfl, hget, getPid_fresh hrun hget (by decide)⟩

end Runs

end CustomKernel.Proc.Pid

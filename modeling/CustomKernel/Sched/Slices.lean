import CustomKernel.Sched.Records

/-! # Time slices

A fork shares the time slice between parent and child, a tick refills it when it
is used up, and a reaper gets back what its child has left of its first slice.
None of these makes a slice of zero ticks or one above `MAX_TIMESLICE`, and
without ticks none makes more of all slices together. The first task, however,
starts with more than `MAX_TIMESLICE`, and hands on half of it. -/
namespace CustomKernel.Sched.Slices
open Lib.Transition
open Sched.Functions Sched.Invariant
open Sched.Steps Sched.Reachable Sched.Records

/-! ## Tasks that exist -/

/-- The run queue, with the tasks that have been made and not been reaped. -/
structure State where
  rq : RunQueue
  made : Finset TaskId

inductive Event where
  | op (o : Op)
  /-- the parent of a task exits: its reaper will not get the rest of its first
  time slice -/
  | forgetOriginalParent (p : TaskId)

/-- Only tasks that exist are woken up, a new task does not exist yet, and a task
that is reaped is a zombie and has left the processor for good. -/
def Event.Allowed (s : State) : Event → Prop
  | .op o => o.Allowed s.rq ∧ match o with
    | .tryToWakeUp p => p ∈ s.made
    | .doFork p _ => p ∉ s.made
    | .schedExit p => p ∈ s.made ∧ (s.rq.tasks p).state = .zombie ∧ (s.rq.tasks p).array = none
    | _ => True
  | .forgetOriginalParent p => p ∈ s.made

def Event.exec (jiffies : UInt32) (s : State) : Event → State
  | .op o =>
    { rq := o.exec jiffies s.rq
      made := match o with
        | .doFork p _ => insert p s.made
        | .schedExit p => s.made.erase p
        | _ => s.made }
  | .forgetOriginalParent p =>
    { s with rq := s.rq.setTask p fun t => { t with firstTimeSlice := false } }

def Step (s : State) (e : Event × UInt32) (s' : State) : Prop :=
  e.1.Allowed s ∧ s' = e.1.exec e.2 s

/-- All time slices of live and zombie tasks. -/
def total (s : State) : Nat := ∑ p ∈ s.made, (s.rq.tasks p).timeSlice.toNat

/-- The first task alone, if `INIT_TASK` gives it this time slice. -/
def booted (slice : UInt32) (boot : TaskId) (jiffies : UInt32) : State where
  rq := (initialised boot jiffies).setTask boot fun t => { t with timeSlice := slice }
  made := {boot}

/-- The first task alone, as the kernel starts. -/
def start (boot : TaskId) (jiffies : UInt32) : State where
  rq := initialised boot jiffies
  made := {boot}

/-- A fork leaves something of the time slice, and there is no tick. -/
def Tickless (s : State) (e : Event × UInt32) : Prop :=
  match e.1 with
  | .op .schedulerTick => False
  | .op (.doFork _ _) => 2 ≤ (s.rq.tasks s.rq.curr).timeSlice
  | _ => True

/-! ## The edits -/

/-- The time slice of a task is at least one tick and at most `n`. -/
structure Sliced (n : Nat) (t : Task) : Prop where
  static_ge : 100 ≤ t.staticPrio
  static_lt : t.staticPrio < 140
  pos : 1 ≤ t.timeSlice.toNat
  le : t.timeSlice.toNat ≤ n

section Edits
variable {n : Nat} {t t' child : Task} {jiffies : UInt32}

theorem Sliced.congr (h : Sliced n t) (hstatic : t'.staticPrio = t.staticPrio)
    (hslice : t'.timeSlice = t.timeSlice) : Sliced n t' :=
  ⟨hstatic ▸ h.static_ge, hstatic ▸ h.static_lt, hslice ▸ h.pos, hslice ▸ h.le⟩

theorem maxTimeslice_toNat : (UInt32.ofInt maxTimeslice).toNat = 153 := rfl

theorem shift_toNat (x : UInt32) : (x >>> 1).toNat = x.toNat / 2 := by
  exact Nat.shiftRight_one _

/-- The refill for every nice value is between `MIN_TIMESLICE` and
`MAX_TIMESLICE`. -/
theorem taskTimeslice_range (hge : 100 ≤ t.staticPrio) (hlt : t.staticPrio < 140) :
    1 ≤ (taskTimeslice t).toNat ∧ (taskTimeslice t).toNat ≤ 153 := by
  obtain ⟨k, hk⟩ := Int.eq_ofNat_of_zero_le (Int.sub_nonneg_of_le hge)
  have hstatic : t.staticPrio = 100 + (k : Int) := by omega
  have hall : ∀ k : Fin 40, 1 ≤ (UInt32.ofInt (minTimeslice +
      ((maxTimeslice - minTimeslice) * (maxPrio - 1 - (100 + (k.val : Int)))).tdiv 39)).toNat ∧
      (UInt32.ofInt (minTimeslice +
        ((maxTimeslice - minTimeslice) * (maxPrio - 1 - (100 + (k.val : Int)))).tdiv 39)).toNat ≤ 153 := by
    decide
  unfold taskTimeslice
  rw [hstatic]
  exact hall ⟨k, by omega⟩

theorem creditSleep_timeSlice (t : Task) : (creditSleep jiffies t).timeSlice = t.timeSlice := by
  unfold creditSleep
  dsimp only
  split <;> rfl

theorem grown_timeSlice (t : Task) : (grown t).timeSlice = t.timeSlice := by
  unfold grown
  split <;> rfl

theorem Sliced.creditSleep (h : Sliced n t) : Sliced n (creditSleep jiffies t) := by
  unfold Functions.creditSleep
  dsimp only
  split
  · exact h.congr rfl rfl
  · exact h

theorem newborn_toNat (ht : t.timeSlice.toNat < 2 ^ 31) (jiffies : UInt32) :
    (newborn jiffies t).timeSlice.toNat = (t.timeSlice.toNat + 1) / 2 := by
  change ((t.timeSlice + 1) >>> 1).toNat = _
  rw [shift_toNat, UInt32.toNat_add, UInt32.toNat_one, Nat.mod_eq_of_lt (by omega)]

theorem Sliced.newborn (h : Sliced n t) (hn : n < 2 ^ 31) (jiffies : UInt32) (state : TaskState) :
    Sliced n { newborn jiffies t with state := state } := by
  have hslice := newborn_toNat (Nat.lt_of_le_of_lt h.le hn) jiffies
  have hpos := h.pos
  have hle := h.le
  exact ⟨h.static_ge, h.static_lt, by rw [hslice]; omega, by rw [hslice]; omega⟩

theorem Sliced.grown (h : Sliced n t) : Sliced n (grown t) := by
  unfold Records.grown
  split
  · exact h
  · exact h.congr rfl rfl

theorem Sliced.halved (h : Sliced n t) : Sliced n (halved t) := by
  have hpos := h.pos
  have hle := h.le
  refine ⟨h.static_ge, h.static_lt, ?_, ?_⟩
  all_goals
    unfold Records.halved
    dsimp only
    split
  · decide
  next h0 =>
    have : (t.timeSlice >>> 1).toNat ≠ 0 := fun he => h0 (UInt32.toNat_inj.mp he)
    omega
  · rw [UInt32.toNat_one]
    omega
  · rw [shift_toNat]
    omega

theorem sub_one_toNat {x : UInt32} (h : 1 ≤ x.toNat) : (x - 1).toNat = x.toNat - 1 := by
  rw [UInt32.toNat_sub_of_le _ _ (UInt32.le_iff_toNat_le.mpr (by
    rw [UInt32.toNat_one]; exact h)), UInt32.toNat_one]

/-- One tick less is not zero, or is refilled. -/
theorem Sliced.spent (h : Sliced n t) (hstatic : t'.staticPrio = t.staticPrio)
    (hslice : t'.timeSlice = t.timeSlice - 1) (h0 : t'.timeSlice ≠ 0) : Sliced n t' := by
  have hpos := sub_one_toNat h.pos
  have hne : t'.timeSlice.toNat ≠ 0 := fun he => h0 (UInt32.toNat_inj.mp he)
  have hle := h.le
  rw [hslice] at hne
  refine ⟨hstatic ▸ h.static_ge, hstatic ▸ h.static_lt, ?_, ?_⟩
  · rw [hslice]
    omega
  · rw [hslice]
    omega

theorem Sliced.refilled (hn : 153 ≤ n) (hge : 100 ≤ t.staticPrio) (hlt : t.staticPrio < 140) :
    Sliced n (newSlice t) := by
  obtain ⟨hpos, hle⟩ := taskTimeslice_range hge hlt
  exact ⟨hge, hlt, hpos, Nat.le_trans hle hn⟩

theorem Sliced.ticked (hn : 153 ≤ n) (h : Sliced n t) : Sliced n (ticked t) := by
  unfold Records.ticked
  split
  · split
    · dsimp only
      split
      · exact .refilled hn h.static_ge h.static_lt
      · exact h.spent rfl rfl ‹_›
    · exact h
  · dsimp only
    split
    · exact .refilled hn h.static_ge h.static_lt
    · exact h.spent rfl rfl ‹_›

theorem repaid_toNat (child t : Task) (ht : t.timeSlice.toNat < 2 ^ 31)
    (hc : child.timeSlice.toNat < 2 ^ 31) :
    (repaid child t).timeSlice.toNat ≤ t.timeSlice.toNat + child.timeSlice.toNat ∧
      ((repaid child t).timeSlice.toNat = t.timeSlice.toNat ∨
        (repaid child t).timeSlice.toNat = min (t.timeSlice.toNat + child.timeSlice.toNat) 153) := by
  have hadd : (t.timeSlice + child.timeSlice).toNat =
      t.timeSlice.toNat + child.timeSlice.toNat := by
    rw [UInt32.toNat_add, Nat.mod_eq_of_lt (by omega)]
  unfold repaid
  split
  · dsimp only
    split
    next hgt =>
      rw [gt_iff_lt, UInt32.lt_iff_toNat_lt, maxTimeslice_toNat, hadd] at hgt
      rw [maxTimeslice_toNat]
      omega
    next hgt =>
      rw [gt_iff_lt, UInt32.lt_iff_toNat_lt, maxTimeslice_toNat, hadd] at hgt
      omega
  · exact ⟨Nat.le_add_right _ _, .inl rfl⟩

theorem averaged_same (child t : Task) : (averaged child t).timeSlice = t.timeSlice ∧
    (averaged child t).staticPrio = t.staticPrio := by
  unfold averaged
  split <;> exact ⟨rfl, rfl⟩

theorem repaid_static (child t : Task) : (repaid child t).staticPrio = t.staticPrio := by
  unfold repaid
  split <;> rfl

theorem Sliced.reaped (hn : 153 ≤ n) (hn' : n < 2 ^ 31) (h : Sliced n t) (hc : Sliced n child) :
    Sliced n (averaged child (repaid child t)) := by
  obtain ⟨hslice, hstatic⟩ := averaged_same child (repaid child t)
  have hpos := h.pos
  have hle := h.le
  have hcle := hc.le
  obtain ⟨_, hcases⟩ := repaid_toNat child t (by omega) (by omega)
  have hrepaid : Sliced n (repaid child t) := by
    have hsame := repaid_static child t
    refine ⟨hsame ▸ h.static_ge, hsame ▸ h.static_lt, ?_, ?_⟩
    · omega
    · omega
  exact hrepaid.congr hstatic hslice

theorem Sliced.reniced {nice : Int} (h : Sliced n t) (hnice : -20 ≤ nice ∧ nice ≤ 19) :
    Sliced n (reniced nice t) := by
  have hrange : 100 ≤ niceToPrio nice ∧ niceToPrio nice < 140 := by
    simp only [niceToPrio, maxRtPrio, maxUserRtPrio]
    omega
  unfold Records.reniced
  split <;> exact ⟨hrange.1, hrange.2, h.pos, h.le⟩

end Edits

/-! ## Every state -/

/-- Every task that exists has between one and `n` ticks, and only such tasks are
queued. -/
structure Kept (n : Nat) (i : TaskId) (s : State) : Prop where
  queues : ∃ Q, Inv s.rq Q i i
  idle : i ∈ s.made
  queued : ∀ q, (s.rq.tasks q).array ≠ none → q ∈ s.made
  sliced : ∀ q ∈ s.made, Sliced n (s.rq.tasks q)

section States
variable {s s' : State} {n : Nat} {i p q : TaskId} {t : Task} {now : UInt32} {o : Op}

theorem Kept.curr (h : Kept n i s) : s.rq.curr ∈ s.made := by
  obtain ⟨Q, hi⟩ := h.queues
  by_cases hc : s.rq.curr = i
  · exact hc ▸ h.idle
  · exact h.queued _ (hi.curr hc)

/-- Nobody reaps itself, and nobody reaps the idle task. -/
theorem Kept.reaped (h : Kept n i s) (hz : (s.rq.tasks p).state = .zombie)
    (hp : (s.rq.tasks p).array = none) : p ≠ i ∧ p ≠ s.rq.curr := by
  obtain ⟨Q, hi⟩ := h.queues
  have hidle : p ≠ i := by
    rintro rfl
    rw [hi.idle.state] at hz
    cases hz
  refine ⟨hidle, ?_⟩
  rintro rfl
  exact hi.curr hidle hp

/-- The tasks that exist after an operation existed before, but for a child. -/
theorem made_of_exec (hq : q ∈ (Event.exec now s (.op o)).made)
    (hnew : ∀ p vfork, o = .doFork p vfork → q ≠ p) : q ∈ s.made := by
  cases o with
  | doFork p vfork => exact (Finset.mem_insert.mp hq).resolve_left (hnew p vfork rfl)
  | schedExit p => exact Finset.mem_of_mem_erase hq
  | _ => exact hq

/-- A task that exists is still there, unless it is the one that is reaped. -/
theorem made_exec (hq : q ∈ s.made) (hreap : ∀ p, o = .schedExit p → q ≠ p) :
    q ∈ (Event.exec now s (.op o)).made := by
  cases o with
  | doFork p vfork => exact Finset.mem_insert_of_mem hq
  | schedExit p => exact Finset.mem_erase.mpr ⟨hreap p rfl, hq⟩
  | _ => exact hq

theorem edit_sliced (hn : 153 ≤ n) (hn' : n < 2 ^ 31) (h : Kept n i s)
    (hok : (Event.op o).Allowed s) (hq : q ∈ (Event.exec now s (.op o)).made)
    (hedit : Edit s.rq now o q t) : Sliced n t := by
  have hcurr := h.sliced _ h.curr
  cases hedit with
  | same hnew => exact h.sliced q (made_of_exec hq hnew)
  | woken => exact (h.sliced q hq).creditSleep.congr rfl rfl
  | child vfork b =>
    exact (hcurr.newborn hn' now .running).grown.creditSleep.congr rfl rfl
  | parent p vfork ht penalty =>
    rename_i t
    have hshared : Sliced n t := by
      rcases ht with rfl | ⟨_, _, rfl⟩
      · exact hcurr.halved
      · exact hcurr.halved.ticked hn
    split
    · exact hshared.congr rfl rfl
    · exact hshared
  | reaper p => exact hcurr.reaped hn hn' (h.sliced p hok.2.1)
  | tick => exact hcurr.ticked hn
  | renice _ hnice => exact (h.sliced q hq).reniced hnice
  | reschedule hr hrange hpolicy credit =>
    have hset := h.sliced q hq
    split
    · exact Sliced.creditSleep (hset.congr rfl rfl)
    · exact hset.congr rfl rfl
  | yield => exact hcurr.congr rfl rfl

theorem edit_queued (h : Kept n i s) (hok : (Event.op o).Allowed s)
    (hedit : Edit s.rq now o q t) (ht : t.array ≠ none) : q ∈ (Event.exec now s (.op o)).made := by
  have hcurr (hreap : ∀ p, o = .schedExit p → s.rq.curr ≠ p) :
      s.rq.curr ∈ (Event.exec now s (.op o)).made := made_exec h.curr hreap
  cases hedit with
  | same hnew =>
    refine made_exec (h.queued q ht) ?_
    rintro p rfl rfl
    exact ht hok.2.2.2
  | woken => exact hok.2
  | child vfork b => exact Finset.mem_insert_self ..
  | parent p vfork ht penalty => exact hcurr nofun
  | reaper p =>
    refine hcurr ?_
    rintro p' ⟨⟩
    exact (h.reaped hok.2.2.1 hok.2.2.2).2.symm
  | tick => exact hcurr nofun
  | renice =>
    refine h.queued q ?_
    unfold reniced at ht
    split at ht <;> exact ht
  | reschedule hr hrange hpolicy credit =>
    refine h.queued q ?_
    split at ht
    · rwa [array_creditSleep] at ht
    · exact ht
  | yield => exact hcurr nofun

theorem step_kept {e : Event × UInt32} (hn : 153 ≤ n) (hn' : n < 2 ^ 31) (h : Kept n i s)
    (hstep : Step s e s') : Kept n i s' := by
  obtain ⟨e, now⟩ := e
  obtain ⟨hok, rfl⟩ := hstep
  obtain ⟨Q, hi⟩ := h.queues
  cases e with
  | op o =>
    have hrq : Reachable.Step s.rq (o, now) (o.exec now s.rq) := ⟨hok.1, rfl⟩
    refine ⟨step_inv hi hrq, made_exec h.idle ?_, ?_, ?_⟩
    · rintro p rfl
      exact (h.reaped hok.2.2.1 hok.2.2.2).1.symm
    · intro q hq
      obtain ⟨t, hedit, hsame⟩ := step_edited hi hrq q
      exact edit_queued h hok hedit (hsame.queued hq)
    · intro q hq
      obtain ⟨t, hedit, hsame⟩ := step_edited hi hrq q
      exact (edit_sliced hn hn' h hok hq hedit).congr hsame.staticPrio hsame.timeSlice
  | forgetOriginalParent p =>
    have hsame (q : TaskId) := setTask_same (s := s.rq)
      (f := fun t => { t with firstTimeSlice := false }) p q
    have hkeep := hi.keep (f := fun t => { t with firstTimeSlice := false })
      (fun _ => ⟨rfl, rfl, rfl, id⟩) p
    refine ⟨⟨Q, hkeep⟩, h.idle, ?_, ?_⟩
    · intro q hq
      exact h.queued q ((hsame q).queued hq)
    · intro q hq
      exact (h.sliced q hq).congr (hsame q).staticPrio (hsame q).timeSlice

/-! ## All slices together -/

theorem fork_slices (now : UInt32) (h : Kept n i s) (hn : n < 2 ^ 31) (hp : p ∉ s.made)
    (vfork : Bool) (htwo : 2 ≤ (s.rq.tasks s.rq.curr).timeSlice.toNat) :
    ((doFork p vfork now s.rq).tasks p).timeSlice.toNat +
        ((doFork p vfork now s.rq).tasks s.rq.curr).timeSlice.toNat =
      (s.rq.tasks s.rq.curr).timeSlice.toNat ∧
    ∀ q, q ≠ p → q ≠ s.rq.curr →
      ((doFork p vfork now s.rq).tasks q).timeSlice = (s.rq.tasks q).timeSlice := by
  have hpc : p ≠ s.rq.curr := by
    rintro rfl
    exact hp h.curr
  have hle := (h.sliced _ h.curr).le
  obtain ⟨⟨b, hchild⟩, ⟨t, penalty, ht, hparent⟩, hothers⟩ := doFork_forked hpc vfork now
  have hlast : (s.rq.tasks s.rq.curr).timeSlice >>> 1 ≠ 0 := by
    intro h0
    have := shift_toNat (s.rq.tasks s.rq.curr).timeSlice
    rw [h0, UInt32.toNat_zero] at this
    omega
  refine ⟨?_, fun q hq hqc => (hothers q hq hqc).timeSlice⟩
  have hpart : ((doFork p vfork now s.rq).tasks s.rq.curr).timeSlice.toNat =
      (s.rq.tasks s.rq.curr).timeSlice.toNat / 2 := by
    rcases ht with rfl | ⟨_, h0, _⟩
    · rw [hparent.timeSlice, ← shift_toNat]
      cases penalty <;> simp [penalised, halved, hlast]
    · exact absurd h0 hlast
  have hgiven : ((doFork p vfork now s.rq).tasks p).timeSlice =
      (newborn now (s.rq.tasks s.rq.curr)).timeSlice :=
    hchild.timeSlice.trans ((creditSleep_timeSlice _).trans (grown_timeSlice _))
  rw [hpart, hgiven, newborn_toNat (by omega)]
  omega

theorem fork_total (h : Kept n i s) (hn : n < 2 ^ 31) (hp : p ∉ s.made) (vfork : Bool)
    (htwo : 2 ≤ (s.rq.tasks s.rq.curr).timeSlice.toNat) :
    total (Event.exec now s (.op (.doFork p vfork))) = total s := by
  obtain ⟨hsum, hothers⟩ := fork_slices now h hn hp vfork htwo
  have hrest : ∑ q ∈ s.made.erase s.rq.curr, ((doFork p vfork now s.rq).tasks q).timeSlice.toNat =
      ∑ q ∈ s.made.erase s.rq.curr, (s.rq.tasks q).timeSlice.toNat := by
    refine Finset.sum_congr rfl fun q hq => ?_
    obtain ⟨hqc, hqm⟩ := Finset.mem_erase.mp hq
    rw [hothers q (by rintro rfl; exact hp hqm) hqc]
  change ∑ q ∈ insert p s.made, ((doFork p vfork now s.rq).tasks q).timeSlice.toNat = _
  rw [Finset.sum_insert hp, ← Finset.add_sum_erase _ _ h.curr, hrest, total,
    ← Finset.add_sum_erase s.made _ h.curr, ← Nat.add_assoc, hsum]

theorem reap_total (h : Kept n i s) (hn : n < 2 ^ 31) (hp : p ∈ s.made) (hpc : p ≠ s.rq.curr) :
    total (Event.exec now s (.op (.schedExit p))) ≤ total s := by
  have hcurr : s.rq.curr ∈ s.made.erase p := Finset.mem_erase.mpr ⟨hpc.symm, h.curr⟩
  have hpay : ((schedExit p s.rq).tasks s.rq.curr).timeSlice.toNat ≤
      (s.rq.tasks s.rq.curr).timeSlice.toNat + (s.rq.tasks p).timeSlice.toNat := by
    have hle := (h.sliced _ h.curr).le
    have hle' := (h.sliced _ hp).le
    have hrepaid := (repaid_toNat (s.rq.tasks p) (s.rq.tasks s.rq.curr) (by omega) (by omega)).1
    rw [schedExit_eq, setTask_self, setTask_self, (averaged_same _ _).1]
    exact hrepaid
  have hrest : ∑ q ∈ (s.made.erase p).erase s.rq.curr, ((schedExit p s.rq).tasks q).timeSlice.toNat =
      ∑ q ∈ (s.made.erase p).erase s.rq.curr, (s.rq.tasks q).timeSlice.toNat := by
    refine Finset.sum_congr rfl fun q hq => ?_
    have hqc := (Finset.mem_erase.mp hq).1
    rw [schedExit_eq, setTask_of_ne hqc, setTask_of_ne hqc]
  change ∑ q ∈ s.made.erase p, ((schedExit p s.rq).tasks q).timeSlice.toNat ≤ _
  rw [← Finset.add_sum_erase _ _ hcurr, hrest, total, ← Finset.add_sum_erase s.made _ hp,
    ← Finset.add_sum_erase _ (fun q => (s.rq.tasks q).timeSlice.toNat) hcurr]
  omega

/-- The other operations leave every time slice alone. -/
theorem edit_timeSlice (hedit : Edit s.rq now o q t) (hfork : ∀ p vfork, o ≠ .doFork p vfork)
    (hreap : ∀ p, o ≠ .schedExit p) (htick : o ≠ .schedulerTick) :
    t.timeSlice = (s.rq.tasks q).timeSlice := by
  cases hedit with
  | same => rfl
  | woken => exact creditSleep_timeSlice _
  | child vfork b => exact absurd rfl (hfork _ _)
  | parent p vfork ht penalty => exact absurd rfl (hfork _ _)
  | reaper p => exact absurd rfl (hreap _)
  | tick => exact absurd rfl htick
  | renice =>
    unfold reniced
    split <;> rfl
  | reschedule =>
    split
    · exact creditSleep_timeSlice _
    · rfl
  | yield => rfl

theorem step_total {e : Event × UInt32} (h : Kept n i s) (hn : n < 2 ^ 31) (he : Tickless s e)
    (hstep : Step s e s') : total s' ≤ total s := by
  obtain ⟨e, now⟩ := e
  obtain ⟨hok, rfl⟩ := hstep
  cases e with
  | forgetOriginalParent p =>
    refine Nat.le_of_eq (Finset.sum_congr rfl fun q _ => congrArg UInt32.toNat ?_)
    exact (setTask_same (f := fun t => { t with firstTimeSlice := false }) p q).timeSlice
  | op o =>
    obtain ⟨Q, hi⟩ := h.queues
    have hrq : Reachable.Step s.rq (o, now) (o.exec now s.rq) := ⟨hok.1, rfl⟩
    have hsame (hmade : (Event.exec now s (.op o)).made = s.made)
        (hfork : ∀ p vfork, o ≠ .doFork p vfork) (hreap : ∀ p, o ≠ .schedExit p)
        (htick : o ≠ .schedulerTick) : total (Event.exec now s (.op o)) ≤ total s := by
      refine Nat.le_of_eq (Finset.sum_congr hmade fun q _ => congrArg UInt32.toNat ?_)
      obtain ⟨t, hedit, ht⟩ := step_edited hi hrq q
      exact ht.timeSlice.trans (edit_timeSlice hedit hfork hreap htick)
    cases o with
    | doFork p vfork =>
      exact Nat.le_of_eq (fork_total h hn hok.2 vfork (UInt32.le_iff_toNat_le.mp he))
    | schedExit p => exact reap_total h hn hok.2.1 (h.reaped hok.2.2.1 hok.2.2.2).2
    | schedulerTick => exact absurd he id
    | _ => exact hsame rfl nofun nofun nofun

end States

/-! ## Runs -/

section Runs
variable {s s' : State} {boot : TaskId} {slice jiffies : UInt32} {es : List (Event × UInt32)}

theorem initialised_timeSlice (boot : TaskId) (jiffies : UInt32) :
    ((initialised boot jiffies).tasks boot).timeSlice = UInt32.ofNat HZ := by
  obtain ⟨t, hedit, hsame⟩ : Edited Same _ jiffies (.tryToWakeUp boot) boot (schedInit boot jiffies) :=
    tryToWakeUp_edited
  have hoff := deactivateTask_same { schedInit boot jiffies with curr := boot, idle := boot }
    boot boot
  unfold initialised initIdle
  rw [setTask_self]
  refine hoff.timeSlice.trans (hsame.timeSlice.trans ?_)
  cases hedit with
  | same => rfl
  | woken => exact creditSleep_timeSlice _

/-- `INIT_TASK` gives the first task a time slice of one second. -/
theorem start_eq (boot : TaskId) (jiffies : UInt32) :
    start boot jiffies = booted (UInt32.ofNat HZ) boot jiffies := by
  unfold start booted RunQueue.setTask
  rw [← initialised_timeSlice boot jiffies, Function.update_eq_self]

theorem booted_timeSlice (slice : UInt32) (boot : TaskId) (jiffies : UInt32) :
    ((booted slice boot jiffies).rq.tasks boot).timeSlice = slice := by
  unfold booted
  rw [setTask_self]

theorem booted_kept (hpos : 1 ≤ slice.toNat) :
    Kept (max slice.toNat 153) boot (booted slice boot jiffies) := by
  have hinit : Inv (initialised boot jiffies) (fun _ => []) boot boot := initialised_inv
  have hi := hinit.keep (Steps.keeps_timeSlice fun _ => slice) boot
  refine ⟨⟨_, hi⟩, Finset.mem_singleton_self _, ?_, ?_⟩
  · intro q hq
    obtain ⟨b, hb⟩ := Option.ne_none_iff_exists'.mp hq
    exact absurd (hi.mem_queue hb) List.not_mem_nil
  · intro q hq
    obtain rfl := Finset.mem_singleton.mp hq
    have hslice := booted_timeSlice slice q jiffies
    refine ⟨hi.idle.static_ge, hi.idle.static_lt, ?_, ?_⟩
    · rw [hslice]
      exact hpos
    · rw [hslice]
      exact Nat.le_max_left _ _

theorem run_kept (hpos : 1 ≤ slice.toNat) (hlt : slice.toNat < 2 ^ 31)
    (h : Run Step (booted slice boot jiffies) es s) : Kept (max slice.toNat 153) boot s :=
  h.invariant (fun _ _ _ hk hstep => step_kept (Nat.le_max_right _ _) (by omega) hk hstep)
    (booted_kept hpos)

/-- Without ticks and with time to share, no run makes more of all slices. -/
theorem run_total {n : Nat} {i : TaskId} (hn : 153 ≤ n) (hn' : n < 2 ^ 31) (hk : Kept n i s)
    (h : Run (Meeting Tickless Step) s es s') : total s' ≤ total s := by
  have hboth : Kept n i s' ∧ total s' ≤ total s := by
    refine h.invariant (I := fun s' => Kept n i s' ∧ total s' ≤ total s) ?_ ⟨hk, Nat.le_refl _⟩
    rintro s1 e s2 ⟨hk1, hle⟩ ⟨he, hstep⟩
    exact ⟨step_kept hn hn' hk1 hstep, Nat.le_trans (step_total hk1 hn' he hstep) hle⟩
  exact hboth.2

/-- If the first task starts with a time slice that is not above `MAX_TIMESLICE`,
and only then, every task's time slice is between one tick and `MAX_TIMESLICE` in
every run. As the kernel starts, it is at least one tick for every task, the
running one among them, and without ticks no run in which forking tasks have two
ticks or more makes more of all slices together. -/
theorem time_slices_kept_iff (boot : TaskId) (jiffies : UInt32) :
    (∀ slice, (∀ es s, Run Step (booted slice boot jiffies) es s → ∀ p ∈ s.made,
        1 ≤ (s.rq.tasks p).timeSlice ∧ (s.rq.tasks p).timeSlice ≤ UInt32.ofInt maxTimeslice) ↔
      1 ≤ slice ∧ slice ≤ UInt32.ofInt maxTimeslice) ∧
    ∀ es s, Run Step (start boot jiffies) es s →
      s.rq.curr ∈ s.made ∧ (∀ p ∈ s.made, 1 ≤ (s.rq.tasks p).timeSlice) ∧
      ∀ es' s', Run (Meeting Tickless Step) s es' s' → total s' ≤ total s := by
  refine ⟨fun slice => ⟨fun h => ?_, ?_⟩, fun es s h => ?_⟩
  · have hboot := h [] _ (.nil _) boot (Finset.mem_singleton_self _)
    rwa [booted_timeSlice] at hboot
  · rintro ⟨hpos, hle⟩ es s h p hp
    rw [UInt32.le_iff_toNat_le] at hpos hle
    rw [maxTimeslice_toNat] at hle
    have hk := run_kept hpos (by omega) h
    rw [Nat.max_eq_right hle] at hk
    have hsliced := hk.sliced p hp
    exact ⟨UInt32.le_iff_toNat_le.mpr hsliced.pos, UInt32.le_iff_toNat_le.mpr hsliced.le⟩
  · rw [start_eq] at h
    have hk := run_kept (by decide) (by decide) h
    exact ⟨hk.curr, fun p hp => UInt32.le_iff_toNat_le.mpr (hk.sliced p hp).pos,
      fun es' s' h' => run_total (by decide) (by decide) hk h'⟩

/-- The first task makes the second one, which gets 256 ticks, where
`MAX_TIMESLICE` is 153. -/
theorem time_slice_exceeded :
    Run Step (start 0 0) [(.op (.doFork 1 false), 0)]
      (Event.exec 0 (start 0 0) (.op (.doFork 1 false))) ∧
    1 ∈ (Event.exec 0 (start 0 0) (.op (.doFork 1 false))).made ∧
    ((Event.exec 0 (start 0 0) (.op (.doFork 1 false))).rq.tasks 1).timeSlice = 256 ∧
    UInt32.ofInt maxTimeslice = 153 :=
  ⟨.cons ⟨⟨by decide +kernel, by decide⟩, rfl⟩ (.nil _), by decide, by decide +kernel, by decide⟩

end Runs

end CustomKernel.Sched.Slices

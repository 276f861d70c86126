import CustomKernel.Time.Clock
import Mathlib.Algebra.Order.Ring.Int

/-! # Sleeping with a timeout

`schedule_timeout` and `sys_nanosleep` of one task, while the rest of the kernel sets and
deletes timers of its own, interrupts count `jiffies` and ticks are processed. The timer is
set for a value of `jiffies`, and its place on the wheels is found from `timer_jiffies`,
which may be behind. The clock that counts every interrupt, and the number of ticks that
have been processed, are kept beside the two words. -/
namespace CustomKernel.Time.Sleep
open Lib.Transition
open Time.Timer Time.Calendar Time.Wheel
open Time.Clock (Clocked)

/-! ## Requests -/

def hz : Nat := 512

/-- `1000000000L / HZ`, the nanoseconds of one jiffy -/
def tickNsec : Nat := 1000000000 / hz

def maxScheduleTimeout : Nat := 2 ^ 31 - 1

def maxJiffyOffset : Nat := 2 ^ 31 - 2

/-- An `unsigned long` as `signed long`. -/
def signed (n : Nat) : Int := if n < 2 ^ 31 then n else n - 2 ^ 32

structure Timespec where
  sec : Int
  nsec : Int
deriving DecidableEq, Repr

/-- Both fields are of type `long`. -/
def Timespec.InRange (value : Timespec) : Prop :=
  -2 ^ 31 ≤ value.sec ∧ value.sec < 2 ^ 31 ∧ -2 ^ 31 ≤ value.nsec ∧ value.nsec < 2 ^ 31

instance (value : Timespec) : Decidable value.InRange := inferInstanceAs (Decidable (_ ∧ _ ∧ _))

def Timespec.nanoseconds (value : Timespec) : Int := value.sec * 1000000000 + value.nsec

def timespecToJiffies (value : Timespec) : Nat :=
  let sec := (value.sec % 2 ^ 32).toNat
  if maxJiffyOffset / hz ≤ sec then maxJiffyOffset
  else ((hz * sec + (value.nsec + tickNsec - 1).tdiv tickNsec) % 2 ^ 32).toNat

def jiffiesToTimespec (jiffies : Nat) : Timespec where
  nsec := jiffies % hz * tickNsec
  sec := jiffies / hz

/-- How `sys_nanosleep` goes on when it has its argument. -/
inductive Entry where
  | ret (errno : Int)
  | udelay (usecs : Nat)
  | sleep (timeout : Int)
deriving DecidableEq, Repr

/-- `sys_nanosleep` up to the call of `schedule_timeout`. `copy_from_user` may fail, and
`realtime` is `current->policy != SCHED_OTHER`. -/
def sysNanosleep (rqtp : Option Timespec) (realtime : Bool) : Entry :=
  match rqtp with
  | none => .ret (-14)
  | some t =>
    if t.nsec ≥ 1000000000 ∨ t.nsec < 0 ∨ t.sec < 0 then .ret (-22)
    else if t.sec = 0 ∧ t.nsec ≤ 2000000 ∧ realtime then .udelay ((t.nsec + 999) / 1000).toNat
    else .sleep (signed ((timespecToJiffies t + if t.sec ≠ 0 ∨ t.nsec ≠ 0 then 1 else 0) % 2 ^ 32))

/-- The rest of `sys_nanosleep`: what it returns and what it writes to `rmtp`, which may be
`NULL` or an address that cannot be written. -/
def nanosleepReturn (expire : Nat) (rmtp : Option Bool) : Int × Option Timespec :=
  if expire ≠ 0 then
    match rmtp with
    | none => (-4, none)
    | some false => (-14, none)
    | some true => (-4, some (jiffiesToTimespec expire))
  else (0, none)

/-! ## The task that sleeps -/

/-- Where the task is. -/
inductive Phase where
  | away
  | udelay (usecs : Nat)
  /-- `expire` is computed, the timer is not added yet -/
  | expiring (expire : Nat)
  /-- in `schedule`, with a timer or for `MAX_SCHEDULE_TIMEOUT` without one -/
  | scheduled (expire : Option Nat)
  /-- the timer is deleted -/
  | deleted (expire : Nat)
  | done (ret : Nat)
deriving DecidableEq, Repr

structure State where
  timers : Timer.State
  /-- the `timer` on the stack of the task -/
  timer : TimerId
  phase : Phase
  /-- `current->state` is `TASK_RUNNING` -/
  runnable : Bool
  /-- the interrupts of the timer so far -/
  clock : Nat
  /-- the ticks that `run_timer_list` has been through -/
  passed : Nat
  /-- the clock when `schedule_timeout` was called -/
  since : Nat
  timeout : Int
  /-- what `sys_nanosleep` was called with -/
  request : Option Timespec
  /-- a signal or another wake-up has come since the call -/
  roused : Bool
  /-- the jiffies from the call to the return -/
  lasted : Nat

def boot : State where
  timers := Timer.init
  timer := 0
  phase := .away
  runnable := true
  clock := 0
  passed := 0
  since := 0
  timeout := 0
  request := none
  roused := false
  lasted := 0

/-- The clock when the time is over that was asked for. -/
def State.deadline (s : State) : Nat := s.since + s.timeout.toNat

/-- The next tick that is processed from its start, out of all of them. -/
def State.nextTick (s : State) : Nat := if s.timers.running then s.passed + 1 else s.passed

def Phase.inside : Phase → Bool
  | .expiring _ | .scheduled _ | .deleted _ => true
  | _ => false

/-- `schedule_timeout` up to `add_timer`, of a task whose state has been set. -/
def scheduleTimeout (t : TimerId) (timeout : Int) (request : Option Timespec) (s : State) : State :=
  let s :=
    { s with
      timer := t
      runnable := false
      since := s.clock
      timeout := timeout
      request := request
      roused := false
      lasted := 0 }
  if timeout = maxScheduleTimeout then { s with phase := .scheduled none }
  else if timeout < 0 then { s with phase := .done 0, runnable := true }
  else { s with phase := .expiring ((timeout + s.timers.jiffies) % 2 ^ 32).toNat }

/-! ## Steps -/

inductive Event where
  /-- what the rest of the kernel does with the timers -/
  | timer (o : Op)
  | wake
  | scheduleTimeout (t : TimerId) (timeout : Int)
  | nanosleep (t : TimerId) (value : Timespec) (realtime : Bool)
  | addTimer
  /-- `schedule` returns, and `del_timer_sync` is called -/
  | resume
  /-- `jiffies` is read again -/
  | finish
deriving DecidableEq, Repr

def Event.exec (s : State) : Event → State
  | .timer o =>
    { s with
      timers := o.exec s.timers
      -- process_timeout
      runnable := s.runnable || o == .run s.timer
      clock := s.clock + [o].count .interrupt
      passed := s.passed + ticks [o] }
  | .wake => { s with runnable := true, roused := true }
  | .scheduleTimeout t timeout => Sleep.scheduleTimeout t timeout none s
  | .nanosleep t value realtime =>
    match sysNanosleep (some value) realtime with
    | .ret _ => s
    | .udelay usecs => { s with phase := .udelay usecs, request := some value }
    | .sleep timeout => Sleep.scheduleTimeout t timeout (some value) s
  | .addTimer =>
    match s.phase with
    | .expiring expire =>
      { s with timers := Timer.addTimer s.timer expire s.timers, phase := .scheduled (some expire) }
    | _ => s
  | .resume =>
    match s.phase with
    | .scheduled (some expire) =>
      { s with timers := (delTimer s.timer s.timers).2, phase := .deleted expire }
    | .scheduled none => { s with phase := .done maxScheduleTimeout, lasted := s.clock - s.since }
    | _ => s
  | .finish =>
    match s.phase with
    | .deleted expire =>
      { s with
        phase := .done (signed (sub32 expire s.timers.jiffies)).toNat
        lasted := s.clock - s.since }
    | _ => s

/-- Nobody else knows the timer of a task that sleeps, and when it is set up it is new. -/
def Event.Allowed (s : State) : Event → Prop
  | .timer o => o.Allowed s.timers ∧ (s.phase.inside = true → o.names s.timer = false)
  | .wake => True
  | .scheduleTimeout t timeout =>
    s.phase.inside = false ∧ s.timers.pending t = false ∧ -2 ^ 31 ≤ timeout ∧ timeout < 2 ^ 31
  | .nanosleep t value _ =>
    s.phase.inside = false ∧ s.timers.pending t = false ∧ value.InRange
  | .addTimer => ∃ expire, s.phase = .expiring expire
  | .resume => s.runnable = true ∧ ∃ expire, s.phase = .scheduled expire
  | .finish => ∃ expire, s.phase = .deleted expire

def Step (s : State) (e : Event) (s' : State) : Prop := e.Allowed s ∧ s' = e.exec s

/-- The end of the sleep is less than half the range of `jiffies` after the next tick when
the timer is added, and at most as much before the return. -/
def Near (s : State) : Event → Prop
  | .addTimer => s.deadline < s.nextTick + 2 ^ 31
  | .finish => s.clock ≤ s.deadline + 2 ^ 31
  | _ => True

instance (s : State) : (e : Event) → Decidable (Near s e)
  | .addTimer => inferInstanceAs (Decidable (_ < _))
  | .finish => inferInstanceAs (Decidable (_ ≤ _))
  | .timer _ | .wake | .scheduleTimeout _ _ | .nanosleep _ _ _ | .resume => isTrue trivial

/-! ## What a sleep is to be -/

/-- What a return of `schedule_timeout` says, and how long it took. A sleep that began
within a jiffy has lasted one jiffy less, at least, than the clock has counted. -/
structure Lasts (s : State) (ret : Nat) : Prop where
  remaining : 0 ≤ s.timeout → s.timeout < maxScheduleTimeout → ret = s.timeout.toNat - s.lasted
  whole : 0 ≤ s.timeout → s.timeout < maxScheduleTimeout → s.roused = false →
    s.timeout.toNat ≤ s.lasted ∧ ret = 0
  unbounded : s.timeout = maxScheduleTimeout → s.roused = true ∧ ret = maxScheduleTimeout
  request : ∀ value, s.request = some value → s.roused = false →
    value.nanoseconds ≤ ((s.lasted - 1) * tickNsec : Nat)

/-- A state is as it should be when `schedule_timeout` returns or `udelay` is called. -/
structure Sound (s : State) : Prop where
  lasts : ∀ ret, s.phase = .done ret → Lasts s ret
  udelay : ∀ usecs value, s.phase = .udelay usecs → s.request = some value →
    value.nanoseconds ≤ (usecs * 1000 : Nat)

/-! ## The length of a request -/

section
variable {value : Timespec} {realtime : Bool}

/-- `sys_nanosleep` asks for one jiffy more than the request takes, or for no bound. -/
theorem sysNanosleep_sleep {n : Int} (hrange : value.InRange)
    (h : sysNanosleep (some value) realtime = .sleep n) :
    n = maxScheduleTimeout ∨
      0 ≤ n ∧ n < maxScheduleTimeout ∧ value.nanoseconds ≤ ((n.toNat - 1) * tickNsec : Nat) := by
  obtain ⟨-, hsec, -, -⟩ := hrange
  simp only [sysNanosleep] at h
  split at h
  · cases h
  next haccept =>
  split at h
  · cases h
  cases h
  have htick : tickNsec = 1953125 := rfl
  have hmod : (value.sec % 2 ^ 32).toNat = value.sec.toNat := by omega
  simp only [timespecToJiffies, hmod, htick]
  split
  next hlong =>
    left
    have hpos : value.sec ≠ 0 ∨ value.nsec ≠ 0 := by
      left
      rintro hzero
      rw [hzero] at hlong
      exact absurd hlong (by decide)
    rw [if_pos hpos]
    rfl
  next hshort =>
    right
    have hbound : value.sec < 4194303 := by
      have : maxJiffyOffset / hz = 4194303 := rfl
      omega
    rw [Int.tdiv_eq_ediv_of_nonneg (by omega)]
    simp only [signed, hz, maxScheduleTimeout, Timespec.nanoseconds]
    split <;> split <;> omega

theorem sysNanosleep_udelay {usecs : Nat} (h : sysNanosleep (some value) realtime = .udelay usecs) :
    value.nanoseconds ≤ (usecs * 1000 : Nat) := by
  simp only [sysNanosleep] at h
  split at h
  · cases h
  split at h
  next hshort =>
    cases h
    rw [Timespec.nanoseconds, hshort.1]
    omega
  · cases h

end

/-! ## The clock and the wheels -/

/-- The word `jiffies` shows the clock, and no tick is processed before its time. -/
structure Keeps (s : State) (c : Calendar.State) : Prop where
  tracks : Tracks s.timers c
  timely : Timely c
  jiffies : s.timers.jiffies = s.clock % 2 ^ 32
  passed : c.now = s.passed
  behind : s.passed ≤ s.clock + 1
  running : c.running = true → s.passed ≤ s.clock

theorem boot_keeps : Keeps boot blank where
  tracks := init_tracks
  timely := fun _ _ h => by cases h
  jiffies := rfl
  passed := rfl
  behind := Nat.zero_le _
  running := fun _ => Nat.le_refl _

section
variable {s s' : State} {c c' : Calendar.State} {e : Event} {o : Op} {expire : Nat}

theorem Keeps.clocked (h : Keeps s c) : Clocked s.timers s.clock s.passed c :=
  ⟨h.tracks, h.timely, h.jiffies, h.passed, h.behind, h.running⟩

theorem Keeps.move (h : Keeps s c) (s' : State) (hstep : Timer.Step s.timers o s'.timers)
    (hclock : s'.clock = s.clock + [o].count .interrupt) (hpassed : s'.passed = s.passed + ticks [o]) :
    ∃ c', Calendar.Step c o c' ∧ Keeps s' c' := by
  obtain ⟨c', hcal, hmoved⟩ := h.clocked.move hstep
  rw [← hclock, ← hpassed] at hmoved
  exact ⟨c', hcal, hmoved.tracks, hmoved.timely, hmoved.jiffies, hmoved.now, hmoved.behind,
    hmoved.running⟩

/-! ## While the task sleeps -/

/-- The word `expire` stands for the end of the sleep. -/
structure Counts (s : State) (expire : Nat) : Prop where
  nonneg : 0 ≤ s.timeout
  bounded : s.timeout < maxScheduleTimeout
  since : s.since ≤ s.clock
  expire : expire = s.deadline % 2 ^ 32

/-- The time is over, or something else has woken the task. -/
def Over (s : State) : Prop := s.roused = true ∨ s.deadline ≤ s.clock

/-- What holds where the task is. -/
def Waits (s : State) (c : Calendar.State) : Phase → Prop
  | .expiring expire => Counts s expire ∧ c.due s.timer = none ∧ (s.runnable = true → s.roused = true)
  | .scheduled (some expire) =>
    Counts s expire ∧ (∀ d, c.due s.timer = some d → s.deadline ≤ d) ∧ (s.runnable = true → Over s)
  | .scheduled none =>
    s.timeout = maxScheduleTimeout ∧ c.due s.timer = none ∧ (s.runnable = true → s.roused = true)
  | .deleted expire => Counts s expire ∧ Over s
  | _ => True

/-- What was asked for fits what `sys_nanosleep` was called with. -/
def Asked (s : State) : Prop :=
  s.phase.inside = true → ∀ value, s.request = some value →
    s.timeout = maxScheduleTimeout ∨
      0 ≤ s.timeout ∧ s.timeout < maxScheduleTimeout ∧
        value.nanoseconds ≤ ((s.timeout.toNat - 1) * tickNsec : Nat)

structure Inv (s : State) : Prop where
  waits : ∃ c, Keeps s c ∧ Waits s c s.phase
  asked : Asked s
  sound : Sound s

theorem boot_inv : Inv boot where
  waits := ⟨blank, boot_keeps, trivial⟩
  asked := nofun
  sound := ⟨nofun, nofun⟩

theorem Lasts.congr {ret : Nat} (h : Lasts s ret) (htimeout : s'.timeout = s.timeout)
    (hlasted : s'.lasted = s.lasted) (hrequest : s'.request = s.request)
    (hroused : s.roused = true → s'.roused = true) : Lasts s' ret := by
  have hcalm (hnot : s'.roused = false) : s.roused = false := by
    by_contra hr
    rw [hroused (Bool.eq_true_of_not_eq_false hr)] at hnot
    cases hnot
  obtain ⟨hrem, hwhole, hunb, hreq⟩ := h
  rw [← htimeout, ← hlasted] at hrem hwhole
  rw [← htimeout] at hunb
  rw [← hrequest, ← hlasted] at hreq
  exact ⟨hrem, fun h1 h2 h3 => hwhole h1 h2 (hcalm h3), fun h1 => ⟨hroused (hunb h1).1, (hunb h1).2⟩,
    fun value h1 h2 => hreq value h1 (hcalm h2)⟩

theorem Keeps.of_eq (h : Keeps s c) (htimers : s'.timers = s.timers) (hclock : s'.clock = s.clock)
    (hpassed : s'.passed = s.passed) : Keeps s' c := by
  obtain ⟨h1, h2, h3, h4, h5, h6⟩ := h
  rw [← htimers] at h1 h3
  rw [← hclock] at h3 h5 h6
  rw [← hpassed] at h4 h5 h6
  exact ⟨h1, h2, h3, h4, h5, h6⟩

/-- The timer of the task runs when the time is over. -/
theorem timer_waits {phase : Phase} (hkeeps : Keeps s c) (hcal : Calendar.Step c o c')
    (hnames : phase.inside = true → o.names s.timer = false) (hwaits : Waits s c phase) :
    Waits ((Event.timer o).exec s) c' phase := by
  have hclock : s.clock ≤ ((Event.timer o).exec s).clock := Nat.le_add_right ..
  have hcounts {expire : Nat} (h : Counts s expire) : Counts ((Event.timer o).exec s) expire :=
    ⟨h.nonneg, h.bounded, h.since.trans hclock, h.expire⟩
  have hover (h : Over s) : Over ((Event.timer o).exec s) := h.imp_right fun h => h.trans hclock
  have hother (hin : phase.inside = true) (ho : o ≠ .run s.timer) :
      c'.due s.timer = c.due s.timer ∧ ((Event.timer o).exec s).runnable = s.runnable :=
    ⟨hcal.due_eq (hnames hin) ho, by simp [Event.exec, ho]⟩
  -- a timer that is not set does not run
  have hunset (hdue : c.due s.timer = none) : o ≠ .run s.timer := by
    rintro rfl
    rw [hcal.2.1] at hdue
    cases hdue
  cases phase with
  | away => trivial
  | udelay usecs => trivial
  | done ret => trivial
  | expiring expire =>
    obtain ⟨hc, hdue, hrun⟩ := hwaits
    obtain ⟨hdue', hrun'⟩ := hother rfl (hunset hdue)
    exact ⟨hcounts hc, hdue'.trans hdue, fun h => hrun (hrun' ▸ h)⟩
  | scheduled expire =>
    cases expire with
    | none =>
      obtain ⟨hc, hdue, hrun⟩ := hwaits
      obtain ⟨hdue', hrun'⟩ := hother rfl (hunset hdue)
      exact ⟨hc, hdue'.trans hdue, fun h => hrun (hrun' ▸ h)⟩
    | some expire =>
      obtain ⟨hc, hdue, hrun⟩ := hwaits
      rcases eq_or_ne o (.run s.timer) with rfl | ho
      · obtain ⟨hticking, hnow, rfl⟩ := hcal
        have hend : s.deadline ≤ s.clock :=
          (hdue c.now hnow).trans (hkeeps.passed ▸ hkeeps.running hticking)
        refine ⟨hcounts hc, ?_, fun _ => hover (.inr hend)⟩
        intro d hd
        have hclear : (c.clear s.timer).due s.timer = none := Function.update_self ..
        cases hclear.symm.trans hd
      · obtain ⟨hdue', hrun'⟩ := hother rfl ho
        exact ⟨hcounts hc, fun d hd => hdue d (hdue' ▸ hd), fun h => hover (hrun (hrun' ▸ h))⟩
  | deleted expire => exact ⟨hcounts hwaits.1, hover hwaits.2⟩

/-! ## Steps of the task -/

theorem timer_inv (hi : Inv s) (h : (Event.timer o).Allowed s) : Inv ((Event.timer o).exec s) := by
  obtain ⟨c, hkeeps, hwaits⟩ := hi.waits
  obtain ⟨c', hcal, hkeeps'⟩ := hkeeps.move ((Event.timer o).exec s) ⟨h.1, rfl⟩ rfl rfl
  exact ⟨⟨c', hkeeps', timer_waits hkeeps hcal h.2 hwaits⟩, hi.asked,
    fun ret hret => (hi.sound.lasts ret hret).congr rfl rfl rfl id, hi.sound.udelay⟩

theorem wake_inv (hi : Inv s) : Inv (Event.wake.exec s) := by
  obtain ⟨c, hkeeps, hwaits⟩ := hi.waits
  refine ⟨⟨c, hkeeps.of_eq rfl rfl rfl, ?_⟩, hi.asked,
    fun ret hret => (hi.sound.lasts ret hret).congr rfl rfl rfl fun _ => rfl, hi.sound.udelay⟩
  have hcounts {expire : Nat} (h : Counts s expire) : Counts (Event.wake.exec s) expire :=
    ⟨h.nonneg, h.bounded, h.since, h.expire⟩
  change Waits (Event.wake.exec s) c s.phase
  cases hphase : s.phase with
  | away => trivial
  | udelay usecs => trivial
  | done ret => trivial
  | expiring expire =>
    rw [hphase] at hwaits
    exact ⟨hcounts hwaits.1, hwaits.2.1, fun _ => rfl⟩
  | scheduled expire =>
    rw [hphase] at hwaits
    cases expire with
    | none => exact ⟨hwaits.1, hwaits.2.1, fun _ => rfl⟩
    | some expire => exact ⟨hcounts hwaits.1, hwaits.2.1, fun _ => .inl rfl⟩
  | deleted expire =>
    rw [hphase] at hwaits
    exact ⟨hcounts hwaits.1, .inl rfl⟩

theorem scheduleTimeout_inv {t : TimerId} {timeout : Int} {request : Option Timespec} (hi : Inv s)
    (hnew : s.timers.pending t = false) (hlt : timeout < 2 ^ 31)
    (hasked : ∀ value, request = some value → timeout = maxScheduleTimeout ∨
      0 ≤ timeout ∧ timeout < maxScheduleTimeout ∧
        value.nanoseconds ≤ ((timeout.toNat - 1) * tickNsec : Nat)) :
    Inv (scheduleTimeout t timeout request s) := by
  obtain ⟨c, hkeeps, -⟩ := hi.waits
  have hdue : c.due t = none := by
    rw [hkeeps.tracks.pending, Option.isSome_eq_false_iff, Option.isNone_iff_eq_none] at hnew
    exact hnew
  unfold scheduleTimeout
  split
  next hmax =>
    exact ⟨⟨c, hkeeps.of_eq rfl rfl rfl, hmax, hdue, nofun⟩, fun _ => hasked, nofun, nofun⟩
  next hmax =>
  split
  next hneg =>
    refine ⟨⟨c, hkeeps.of_eq rfl rfl rfl, trivial⟩, nofun, fun ret _ => ⟨?_, ?_, ?_, ?_⟩, nofun⟩
    · exact fun h => absurd h (Int.not_le.mpr hneg)
    · exact fun h => absurd h (Int.not_le.mpr hneg)
    · exact fun h => absurd h hmax
    · intro value hvalue
      rcases hasked value hvalue with h | h
      · exact absurd h hmax
      · exact absurd h.1 (Int.not_le.mpr hneg)
  next hpos =>
    refine ⟨⟨c, hkeeps.of_eq rfl rfl rfl, ⟨Int.not_lt.mp hpos, ?_, Nat.le_refl _, ?_⟩, hdue, nofun⟩,
      fun _ => hasked, nofun, nofun⟩
    · simp only [maxScheduleTimeout] at hmax ⊢
      omega
    · simp only [hkeeps.jiffies, State.deadline]
      omega

theorem addTimer_inv (hi : Inv s) (hphase : s.phase = .expiring expire)
    (hnear : Near s .addTimer) : Inv (Event.addTimer.exec s) := by
  obtain ⟨c, hkeeps, hwaits⟩ := hi.waits
  rw [hphase] at hwaits
  obtain ⟨hcounts, hdue, hrun⟩ := hwaits
  have hword : expire < 2 ^ 32 := hcounts.expire ▸ Nat.mod_lt _ (Nat.two_pow_pos 32)
  have hexec : Event.addTimer.exec s =
      { s with timers := (Op.add s.timer expire).exec s.timers, phase := .scheduled (some expire) } := by
    simp only [Event.exec, hphase]
    rfl
  rw [hexec]
  obtain ⟨c', hcal, hkeeps'⟩ := hkeeps.move
    { s with
      timers := (Op.add s.timer expire).exec s.timers, phase := .scheduled (some expire) }
    (o := .add s.timer expire) ⟨hword, rfl⟩ rfl rfl
  refine ⟨⟨c', hkeeps', ⟨hcounts.nonneg, hcounts.bounded, hcounts.since, hcounts.expire⟩, ?_,
    fun h => .inl (hrun h)⟩, fun _ => hi.asked (by rw [hphase]; rfl), nofun, nofun⟩
  intro d hd
  rw [hcounts.expire] at hcal
  exact hkeeps.clocked.add_due hdue hcal hnear hd

theorem resume_inv (hi : Inv s) (h : Event.resume.Allowed s) : Inv (Event.resume.exec s) := by
  obtain ⟨hrunnable, expire, hphase⟩ := h
  obtain ⟨c, hkeeps, hwaits⟩ := hi.waits
  rw [hphase] at hwaits
  cases expire with
  | none =>
    obtain ⟨hmax, -, hrun⟩ := hwaits
    have hexec : Event.resume.exec s =
        { s with phase := .done maxScheduleTimeout, lasted := s.clock - s.since } := by
      simp [Event.exec, hphase]
    rw [hexec]
    refine ⟨⟨c, hkeeps.of_eq rfl rfl rfl, trivial⟩, nofun, ?_, nofun⟩
    rintro ret hret
    cases hret
    refine ⟨fun _ h => absurd hmax h.ne, fun _ h => absurd hmax h.ne, fun _ => ⟨hrun hrunnable, rfl⟩, ?_⟩
    intro value _ hnot
    rw [show s.roused = false from hnot] at hrun
    cases hrun hrunnable
  | some expire =>
    obtain ⟨hcounts, -, hrun⟩ := hwaits
    have hexec : Event.resume.exec s =
        { s with timers := (delTimer s.timer s.timers).2, phase := .deleted expire } := by
      simp [Event.exec, hphase]
    rw [hexec]
    obtain ⟨c', -, hkeeps'⟩ := hkeeps.move
      { s with timers := (delTimer s.timer s.timers).2, phase := .deleted expire }
      (o := .del s.timer (delTimer s.timer s.timers).1) ⟨rfl, rfl⟩ rfl rfl
    exact ⟨⟨c', hkeeps', ⟨hcounts.nonneg, hcounts.bounded, hcounts.since, hcounts.expire⟩,
      hrun hrunnable⟩, fun _ => hi.asked (by rw [hphase]; rfl), nofun, nofun⟩

/-- What is left of the time, read off two words. -/
theorem signed_sub32 {deadline clock : Nat} (hearly : deadline < clock + 2 ^ 31)
    (hlate : clock ≤ deadline + 2 ^ 31) :
    (signed (sub32 (deadline % 2 ^ 32) (clock % 2 ^ 32))).toNat = deadline - clock := by
  unfold signed sub32
  split <;> omega

theorem finish_inv (hi : Inv s) (hphase : s.phase = .deleted expire)
    (hnear : Near s .finish) : Inv (Event.finish.exec s) := by
  obtain ⟨c, hkeeps, hwaits⟩ := hi.waits
  have hasked := hi.asked (by rw [hphase]; rfl)
  rw [hphase] at hwaits
  obtain ⟨hcounts, hover⟩ := hwaits
  have hleft : (signed (sub32 expire s.timers.jiffies)).toNat = s.deadline - s.clock := by
    have hmax : (maxScheduleTimeout : Int) = 2 ^ 31 - 1 := rfl
    have := hcounts.bounded
    have := hcounts.since
    rw [hcounts.expire, hkeeps.jiffies]
    refine signed_sub32 ?_ hnear
    rw [State.deadline]
    omega
  have hexec : Event.finish.exec s =
      { s with phase := .done (s.deadline - s.clock), lasted := s.clock - s.since } := by
    simp [Event.exec, hphase, hleft]
  rw [hexec]
  refine ⟨⟨c, hkeeps.of_eq rfl rfl rfl, trivial⟩, nofun, ?_, nofun⟩
  intro ret hret
  cases hret
  have hsince := hcounts.since
  have hwhole (hnot : s.roused = false) : s.timeout.toNat ≤ s.clock - s.since := by
    rcases hover with h | h
    · rw [hnot] at h
      cases h
    · rw [State.deadline] at h
      omega
  have hrem : s.deadline - s.clock = s.timeout.toNat - (s.clock - s.since) := by
    rw [State.deadline]
    omega
  refine ⟨fun _ _ => hrem, fun _ _ hnot => ⟨hwhole hnot, ?_⟩,
    fun h => absurd h hcounts.bounded.ne, ?_⟩
  · exact hrem.trans (Nat.sub_eq_zero_of_le (hwhole hnot))
  · intro value hvalue hnot
    rcases hasked value hvalue with h | ⟨-, -, h⟩
    · exact absurd h hcounts.bounded.ne
    · refine h.trans (Int.ofNat_le.mpr (Nat.mul_le_mul_right _ ?_))
      exact Nat.sub_le_sub_right (hwhole hnot) 1

theorem step_inv (hi : Inv s) (h : Meeting Near Step s e s') : Inv s' := by
  obtain ⟨hnear, hallowed, rfl⟩ := h
  cases e with
  | timer o => exact timer_inv hi hallowed
  | wake => exact wake_inv hi
  | scheduleTimeout t timeout =>
    exact scheduleTimeout_inv hi hallowed.2.1 hallowed.2.2.2 nofun
  | nanosleep t value realtime =>
    obtain ⟨-, hnew, hrange⟩ := hallowed
    simp only [Event.exec]
    cases hentry : sysNanosleep (some value) realtime with
    | ret errno => exact hi
    | udelay usecs =>
      obtain ⟨c, hkeeps, -⟩ := hi.waits
      refine ⟨⟨c, hkeeps.of_eq rfl rfl rfl, trivial⟩, nofun, nofun, ?_⟩
      rintro usecs' value' hphase hvalue
      cases hphase
      cases hvalue
      exact sysNanosleep_udelay hentry
    | sleep timeout =>
      have hasked := sysNanosleep_sleep hrange hentry
      refine scheduleTimeout_inv hi hnew ?_ ?_
      · have hmax : (maxScheduleTimeout : Int) = 2 ^ 31 - 1 := rfl
        omega
      · rintro value' hvalue
        cases hvalue
        exact hasked
  | addTimer =>
    obtain ⟨expire, hphase⟩ := hallowed
    exact addTimer_inv hi hphase hnear
  | resume => exact resume_inv hi hallowed
  | finish =>
    obtain ⟨expire, hphase⟩ := hallowed
    exact finish_inv hi hphase hnear

end

/-! ## Runs -/

/-- While every end of a sleep is near enough when its timer is added, and not too far back
when `jiffies` is read again, no sleep is too short: it ends early only when something else
wakes the task, and what is returned is the time that is left. -/
theorem sleep_lasts {es : List Event} {s : State} (h : Run (Meeting Near Step) boot es s) :
    Sound s :=
  (h.invariant (I := Inv) (fun _ _ _ => step_inv) boot_inv).sound

/-- A nanosecond is asked for, and two jiffies are waited for. -/
def nap : List Event :=
  [.nanosleep 1 ⟨0, 1⟩ false, .addTimer, .timer .interrupt, .timer .interrupt, .timer .start,
    .timer .finish, .timer .start, .timer .finish, .timer .start, .timer (.run 1), .resume, .finish]

theorem nap_run : Run (Meeting Near Step) boot nap (nap.foldl Event.exec boot) := by
  refine .cons ⟨trivial, ⟨rfl, rfl, by decide⟩, rfl⟩ ?_
  refine .cons ⟨by decide +kernel, ⟨2, by decide +kernel⟩, rfl⟩ ?_
  refine .cons ⟨trivial, ⟨trivial, fun _ => rfl⟩, rfl⟩ ?_
  refine .cons ⟨trivial, ⟨trivial, fun _ => rfl⟩, rfl⟩ ?_
  iterate 6 refine .cons ⟨trivial, ⟨by decide +kernel, fun _ => rfl⟩, rfl⟩ ?_
  refine .cons ⟨trivial, ⟨by decide +kernel, some 2, by decide +kernel⟩, rfl⟩ ?_
  exact .cons ⟨by decide +kernel, ⟨2, by decide +kernel⟩, rfl⟩ (.nil _)

theorem sleep_lasts_nap :
    ∃ s, Run (Meeting Near Step) boot nap s ∧ s.phase = .done 0 ∧ s.lasted = 2 ∧ Sound s :=
  ⟨_, nap_run, by decide +kernel, by decide +kernel, sleep_lasts nap_run⟩

/-- The longest timeout, while two ticks wait to be processed. -/
def longest : List Event :=
  [.timer .interrupt, .timer .interrupt, .scheduleTimeout 1 (2 ^ 31 - 2), .addTimer, .timer .start,
    .timer (.run 1), .resume, .finish]

/-- The longest sleep ends at once when two ticks wait to be processed. Nothing but its own
timer has woken the task, and all that was asked for is returned as the time that is left. -/
theorem longest_sleep_at_once :
    ∃ s, Run Step boot longest s ∧ s.timeout = maxScheduleTimeout - 1 ∧ s.roused = false ∧
      s.lasted = 0 ∧ s.phase = .done (2 ^ 31 - 2) := by
  refine ⟨longest.foldl Event.exec boot, ?_, by decide +kernel, by decide +kernel, by decide +kernel,
    by decide +kernel⟩
  refine .cons ⟨⟨trivial, nofun⟩, rfl⟩ ?_
  refine .cons ⟨⟨trivial, nofun⟩, rfl⟩ ?_
  refine .cons ⟨⟨rfl, rfl, by decide, by decide⟩, rfl⟩ ?_
  refine .cons ⟨⟨2 ^ 31, by decide +kernel⟩, rfl⟩ ?_
  refine .cons ⟨⟨by decide +kernel, fun _ => rfl⟩, rfl⟩ ?_
  refine .cons ⟨⟨by decide +kernel, fun _ => rfl⟩, rfl⟩ ?_
  refine .cons ⟨⟨by decide +kernel, some (2 ^ 31), by decide +kernel⟩, rfl⟩ ?_
  exact .cons ⟨⟨2 ^ 31, by decide +kernel⟩, rfl⟩ (.nil _)

end CustomKernel.Time.Sleep

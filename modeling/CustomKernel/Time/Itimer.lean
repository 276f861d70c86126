import CustomKernel.Time.Sleep

/-! # The interval timer for real time

`setitimer(ITIMER_REAL)` of one task, while the rest of the kernel uses timers of its own. The call
turns the request into ticks and sets `real_timer`; its handler sends `SIGALRM` and sets the timer
again. Both read `jiffies` some time before they add the timer. `it_virt_*` and `it_prof_*`, which no
timer list knows, are left out. -/
namespace CustomKernel.Time.Itimer
open Lib.Transition
open Time.Timer Time.Calendar
open Time.Clock
open Time.Sleep (hz)

/-! ## Requests -/

def ulongMax : Nat := 2 ^ 32 - 1

def longMax : Nat := 2 ^ 31 - 1

/-- `1000000 / HZ`, which is less than the microseconds of one tick -/
def tickUsec : Nat := 1000000 / hz

/-- Both fields are taken as unsigned. -/
structure Timeval where
  sec : BitVec 32
  usec : BitVec 32
deriving DecidableEq, Repr

def tvtojiffies (value : Timeval) : Nat :=
  if ulongMax / hz < value.sec.toNat then ulongMax
  else
    (hz * value.sec.toNat + (value.usec.toNat + (tickUsec - 1)) % 2 ^ 32 / tickUsec) % 2 ^ 32

def Timeval.usecs (value : Timeval) : Nat := value.sec.toNat * 1000000 + value.usec.toNat

/-- The ticks last as long as what is asked for, or are all that there are and it is longer. -/
def AtLeast (value : Timeval) : Prop :=
  value.usecs * hz ≤ tvtojiffies value * 1000000 ∨
    tvtojiffies value = ulongMax ∧ ulongMax * 1000000 < value.usecs * hz

/-- No sum of the conversion overflows. -/
def Fits (value : Timeval) : Prop :=
  ulongMax / hz < value.sec.toNat ∨
    value.usec.toNat + (tickUsec - 1) < 2 ^ 32 ∧
      hz * value.sec.toNat + (value.usec.toNat + (tickUsec - 1)) / tickUsec < 2 ^ 32

instance (value : Timeval) : Decidable (Fits value) := inferInstanceAs (Decidable (_ ∨ _))

/-- The order of two requests. -/
def Timeval.le (a b : Timeval) : Prop :=
  a.sec.toNat < b.sec.toNat ∨ a.sec = b.sec ∧ a.usec.toNat ≤ b.usec.toNat

theorem tvtojiffies_eq (value : Timeval) : tvtojiffies value =
    if 8388607 < value.sec.toNat then 4294967295
    else (512 * value.sec.toNat + (value.usec.toNat + 1952) % 4294967296 / 1953) % 4294967296 := rfl

theorem fits_iff (value : Timeval) : Fits value ↔ 8388607 < value.sec.toNat ∨
    value.usec.toNat + 1952 < 4294967296 ∧
      512 * value.sec.toNat + (value.usec.toNat + 1952) / 1953 < 4294967296 := Iff.rfl

theorem atLeast_iff_fits (value : Timeval) : AtLeast value ↔ Fits value := by
  have husec := value.usec.isLt
  rw [AtLeast, fits_iff, tvtojiffies_eq, Timeval.usecs]
  simp only [hz, ulongMax]
  generalize value.sec.toNat = sec at *
  generalize value.usec.toNat = usec at *
  split
  · omega
  · rcases Nat.lt_or_ge (usec + 1952) 4294967296 with hfits | hover
    · rcases Nat.lt_or_ge (512 * sec + (usec + 1952) / 1953) 4294967296 with hsum | hsum
      · omega
      · omega
    · -- a wrapped sum leaves no tick for the microseconds
      have hzero : (usec + 1952) % 4294967296 / 1953 = 0 := by omega
      omega

/-- Of two requests in their order, the first does not take more ticks. The last microseconds of a
second are rounded up to a tick more than a second has, and a request that overflows is left with
a tick at most. -/
def Rising (a b : Timeval) : Prop :=
  if Fits b then
    ¬ (hz * tickUsec < a.usec.toNat ∧ b.sec.toNat = a.sec.toNat + 1 ∧ b.usec.toNat = 0 ∧
      b.sec.toNat ≤ ulongMax / hz)
  else
    ¬ Fits a ∨ a.sec.toNat = 0 ∧
      (a.usec.toNat = 0 ∨ a.usec.toNat ≤ tickUsec ∧ hz * tickUsec < b.usec.toNat)

theorem tvtojiffies_le_iff {a b : Timeval} (ha : a.usec.toNat < 1000000)
    (hb : b.usec.toNat < 1000000) (hle : a.le b) :
    tvtojiffies a ≤ tvtojiffies b ↔ Rising a b := by
  have hle' : a.sec.toNat < b.sec.toNat ∨
      a.sec.toNat = b.sec.toNat ∧ a.usec.toNat ≤ b.usec.toNat :=
    hle.imp_right fun h => ⟨congrArg BitVec.toNat h.1, h.2⟩
  rw [tvtojiffies_eq, tvtojiffies_eq, Rising]
  by_cases hfits : Fits b
  · rw [if_pos hfits]
    rw [fits_iff] at hfits
    change _ ↔ ¬ (999936 < a.usec.toNat ∧ _ ∧ _ ∧ b.sec.toNat ≤ 8388607)
    split <;> split <;> omega
  · rw [if_neg hfits, fits_iff a]
    rw [fits_iff] at hfits
    change _ ↔ _ ∨ _ ∧ (_ ∨ a.usec.toNat ≤ 1953 ∧ 999936 < b.usec.toNat)
    split <;> split <;> omega

/-! ## The timer of a task -/

/-- A signal that was sent, with what was asked for and the ticks since `jiffies` was read. -/
structure Signal where
  asked : Timeval
  elapsed : Nat
deriving DecidableEq

structure State where
  timers : Timer.State
  /-- the interrupts of the timer so far -/
  clock : Nat
  /-- the ticks that `run_timer_list` has been through -/
  passed : Nat
  itRealIncr : Nat
  /-- `real_timer.expires` is computed, the timer is not added yet -/
  arming : Option Nat
  /-- the clock when `jiffies` was read last -/
  since : Nat
  /-- what was asked for then, and what is asked for each time after it -/
  asked : Timeval
  interval : Timeval
  signals : List Signal

def boot : State where
  timers := Timer.init
  clock := 0
  passed := 0
  itRealIncr := 0
  arming := none
  since := 0
  asked := ⟨0, 0⟩
  interval := ⟨0, 0⟩
  signals := []

/-- `if (j > (unsigned long) LONG_MAX) j = LONG_MAX;` -/
def clamp (ticks : Nat) : Nat := if longMax < ticks then longMax else ticks

/-- `real_timer.expires` is set to so many ticks from now, or is left when there are none. -/
def State.arm (s : State) (ticks : Nat) (asked : Timeval) : State :=
  if ticks = 0 then s
  else
    { s with
      arming := some ((clamp ticks + s.timers.jiffies) % 2 ^ 32), since := s.clock, asked := asked }

inductive Event where
  /-- what the rest of the kernel does with timers -/
  | timer (o : Op)
  /-- `do_setitimer` up to `add_timer` -/
  | setitimer (value interval : Timeval)
  | addTimer
  /-- `it_real_fn` up to `add_timer` -/
  | itRealFn
deriving DecidableEq, Repr

/-- The steps of a kernel in which `t` is the `real_timer` of the task. -/
def Event.exec (t : TimerId) (s : State) : Event → State
  | .timer o =>
    { s with
      timers := o.exec s.timers
      clock := s.clock + [o].count .interrupt
      passed := s.passed + ticks [o] }
  | .setitimer value interval =>
    { s with
      -- del_timer_sync
      timers := (delTimer t s.timers).2
      itRealIncr := tvtojiffies interval
      interval := interval }.arm (tvtojiffies value) value
  | .addTimer =>
    match s.arming with
    | some expires => { s with timers := Timer.addTimer t expires s.timers, arming := none }
    | none => s
  | .itRealFn =>
    { s with
      timers := runTimer t s.timers
      signals := ⟨s.asked, s.clock - s.since⟩ :: s.signals }.arm s.itRealIncr s.interval

/-- Nobody else knows the timer. A call finds its task outside the handler, and the handler runs to
its end before the task goes on. -/
def Event.Allowed (t : TimerId) (s : State) : Event → Prop
  | .timer o => o.Allowed s.timers ∧ o.names t = false ∧ o ≠ .run t
  | .setitimer _ _ => s.arming = none
  | .addTimer => s.arming.isSome
  | .itRealFn => (Op.run t).Allowed s.timers

instance (t : TimerId) (s : State) : (e : Event) → Decidable (e.Allowed t s)
  | .timer _ => inferInstanceAs (Decidable (_ ∧ _ ∧ _))
  | .setitimer _ _ => inferInstanceAs (Decidable (_ = none))
  | .addTimer => inferInstanceAs (Decidable (_ = true))
  | .itRealFn => inferInstanceAs (Decidable ((Op.run t).Allowed s.timers))

def Step (t : TimerId) (s : State) (e : Event) (s' : State) : Prop :=
  e.Allowed t s ∧ s' = e.exec t s

/-- No conversion overflows, and the time is less than half the range of `jiffies` after the next
tick when the timer is added. -/
def Near (s : State) : Event → Prop
  | .setitimer value interval => Fits value ∧ Fits interval
  | .addTimer => s.since + clamp (tvtojiffies s.asked) < nextTick s.timers s.passed + 2 ^ 31
  | _ => True

instance (s : State) : (e : Event) → Decidable (Near s e)
  | .setitimer _ _ => inferInstanceAs (Decidable (_ ∧ _))
  | .addTimer => inferInstanceAs (Decidable (_ < _))
  | .timer _ | .itRealFn => isTrue trivial

/-- A signal comes when as much time has passed as was asked for, or `LONG_MAX` ticks. -/
def OnTime (g : Signal) : Prop :=
  g.asked.usecs * hz ≤ g.elapsed * 1000000 ∨ longMax ≤ g.elapsed

/-! ## What holds of it -/

structure Inv (t : TimerId) (s : State) : Prop where
  clocked : ∃ c, Clocked s.timers s.clock s.passed c ∧
    (∀ d, c.due t = some d → s.since + clamp (tvtojiffies s.asked) ≤ d) ∧
    ∀ expires, s.arming = some expires →
      expires = (s.since + clamp (tvtojiffies s.asked)) % 2 ^ 32 ∧ c.due t = none
  asked : Fits s.asked
  interval : Fits s.interval ∧ s.itRealIncr = tvtojiffies s.interval
  signals : ∀ g ∈ s.signals, OnTime g

section
variable {t : TimerId} {s : State} {c c' : Calendar.State}

theorem boot_inv : Inv t boot where
  clocked := ⟨blank, init_clocked, by simp [blank], by simp [boot]⟩
  asked := by decide
  interval := by decide
  signals := by simp [boot]

/-- As many ticks as a conversion gives, up to the limit, are long enough. -/
theorem clamp_onTime {asked : Timeval} (hfits : Fits asked) {elapsed : Nat}
    (hle : clamp (tvtojiffies asked) ≤ elapsed) : OnTime ⟨asked, elapsed⟩ := by
  unfold clamp at hle
  split at hle
  · exact .inr hle
  · rename_i hshort
    rcases (atLeast_iff_fits asked).mpr hfits with hlong | ⟨hmax, -⟩
    · exact .inl (hlong.trans (Nat.mul_le_mul_right _ hle))
    · rw [hmax] at hshort
      exact absurd (by decide) hshort

/-- Setting `expires` of a timer that is not pending. -/
theorem arm_inv {ticks : Nat} {asked : Timeval} (hclock : Clocked s.timers s.clock s.passed c)
    (hdue : c.due t = none) (harming : s.arming = none) (hticks : ticks = tvtojiffies asked)
    (hold : Fits s.asked) (hfits : Fits asked)
    (hinterval : Fits s.interval ∧ s.itRealIncr = tvtojiffies s.interval)
    (hsignals : ∀ g ∈ s.signals, OnTime g) : Inv t (s.arm ticks asked) := by
  unfold State.arm
  split
  · refine ⟨⟨c, hclock, ?_, ?_⟩, hold, hinterval, hsignals⟩
    · intro d hd
      rw [hdue] at hd
      cases hd
    · intro expires he
      rw [harming] at he
      cases he
  · refine ⟨⟨c, hclock, ?_, ?_⟩, hfits, hinterval, hsignals⟩
    · intro d hd
      rw [hdue] at hd
      cases hd
    · intro expires he
      refine ⟨?_, hdue⟩
      rw [← Option.some.inj he, hclock.jiffies, hticks, Nat.add_mod_mod, Nat.add_comm]

theorem step_inv {e : Event} {s' : State} (hi : Inv t s) (h : Meeting Near (Step t) s e s') :
    Inv t s' := by
  obtain ⟨hnear, hallowed, rfl⟩ := h
  obtain ⟨⟨c, hclock, hdue, harming⟩, hasked, hinterval, hsignals⟩ := hi
  cases e with
  | timer o =>
    obtain ⟨hallowed, hnames, hrun⟩ := hallowed
    obtain ⟨c', hcal, hmoved⟩ := hclock.move ⟨hallowed, rfl⟩
    have hsame := hcal.due_eq hnames hrun
    refine ⟨⟨c', hmoved, ?_, ?_⟩, hasked, hinterval, hsignals⟩
    · intro d hd
      exact hdue d (hsame ▸ hd)
    · intro expires he
      obtain ⟨heq, hnone⟩ := harming expires he
      exact ⟨heq, hsame.trans hnone⟩
  | setitimer value interval =>
    obtain ⟨c', hcal, hmoved⟩ := hclock.move (o := .del t (delTimer t s.timers).1) ⟨rfl, rfl⟩
    refine arm_inv hmoved ?_ hallowed rfl hasked hnear.1 ⟨hnear.2, rfl⟩ hsignals
    rw [hcal.2]
    exact Function.update_self ..
  | addTimer =>
    obtain ⟨expires, he⟩ := Option.isSome_iff_exists.mp hallowed
    obtain ⟨hexp, hnone⟩ := harming expires he
    have hword : expires < 2 ^ 32 := hexp ▸ Nat.mod_lt _ (Nat.two_pow_pos 32)
    obtain ⟨c', hcal, hmoved⟩ := hclock.move (o := .add t expires) ⟨hword, rfl⟩
    have hexec : Event.exec t s .addTimer =
        { s with timers := Timer.addTimer t expires s.timers, arming := none } := by
      simp only [Event.exec, he]
    rw [hexec]
    refine ⟨⟨c', hmoved, ?_, by simp⟩, hasked, hinterval, hsignals⟩
    intro d hd
    rw [hexp] at hcal
    exact hclock.add_due hnone hcal hnear hd
  | itRealFn =>
    obtain ⟨c', hcal, hmoved⟩ := hclock.move (o := .run t) ⟨hallowed, rfl⟩
    obtain ⟨hrunning, hnow, rfl⟩ := hcal
    have hlate : s.since + clamp (tvtojiffies s.asked) ≤ s.clock :=
      (hdue c.now hnow).trans (hclock.now ▸ hclock.running hrunning)
    have hidle : s.arming = none := by
      cases he : s.arming with
      | none => rfl
      | some expires =>
        rw [(harming expires he).2] at hnow
        cases hnow
    refine arm_inv hmoved (Function.update_self ..) hidle hinterval.2 hasked hinterval.1 hinterval ?_
    exact List.forall_mem_cons.mpr ⟨clamp_onTime hasked (by omega), hsignals⟩

end

/-! ## Runs -/

/-- A conversion is too short only where a sum overflows, and out of order only there and at the end
of a second. While no request overflows and every time is near when its timer is added, no signal
comes early. -/
theorem itimer_never_short (value a b : Timeval) (t : TimerId) (es : List Event) (s : State) :
    (AtLeast value ↔ Fits value) ∧
    (a.usec.toNat < 1000000 → b.usec.toNat < 1000000 → a.le b →
      (tvtojiffies a ≤ tvtojiffies b ↔ Rising a b)) ∧
    (Run (Meeting Near (Step t)) boot es s → ∀ g ∈ s.signals, OnTime g) := by
  refine ⟨atLeast_iff_fits value, fun ha hb hle => tvtojiffies_le_iff ha hb hle, ?_⟩
  intro h
  exact (h.invariant (I := Inv t) (fun _ _ _ => step_inv) boot_inv).signals

/-- A microsecond, and then one more each time. -/
def alarm : List Event :=
  [.setitimer ⟨0, 1⟩ ⟨0, 1⟩, .addTimer, .timer .interrupt, .timer .start, .timer .finish,
    .timer .start, .itRealFn, .addTimer, .timer .finish, .timer .interrupt, .timer .start, .itRealFn]

theorem alarm_run : Run (Meeting Near (Step 1)) boot alarm (alarm.foldl (Event.exec 1) boot) := by
  refine .cons ⟨by decide, rfl, rfl⟩ ?_
  refine .cons ⟨by decide +kernel, rfl, rfl⟩ ?_
  iterate 5 refine .cons ⟨trivial, by decide +kernel, rfl⟩ ?_
  refine .cons ⟨by decide +kernel, rfl, rfl⟩ ?_
  iterate 3 refine .cons ⟨trivial, by decide +kernel, rfl⟩ ?_
  exact .cons ⟨trivial, by decide +kernel, rfl⟩ (.nil _)

theorem itimer_never_short_alarm :
    (tvtojiffies ⟨0, 999999⟩ ≤ tvtojiffies ⟨1, 1⟩ ↔ Rising ⟨0, 999999⟩ ⟨1, 1⟩) ∧
    ∃ s, Run (Meeting Near (Step 1)) boot alarm s ∧ s.signals = [⟨⟨0, 1⟩, 1⟩, ⟨⟨0, 1⟩, 1⟩] ∧
      ∀ g ∈ s.signals, OnTime g :=
  have h := itimer_never_short ⟨0, 1⟩ ⟨0, 999999⟩ ⟨1, 1⟩ 1 alarm
  ⟨(h boot).2.1 (by decide) (by decide) (.inl (by decide)), _, alarm_run, by decide +kernel,
    (h _).2.2 alarm_run⟩

/-- The time ends at once when two ticks wait to be processed. -/
def longest : List Event :=
  [.timer .interrupt, .timer .interrupt, .setitimer ⟨8388608, 0⟩ ⟨0, 0⟩, .addTimer, .timer .start,
    .itRealFn]

/-- Over 97 days are one tick, a second is less than a part of it, and the longest time is over at
once. -/
theorem alarm_at_once :
    tvtojiffies ⟨8388607, 999999⟩ = 1 ∧ tvtojiffies ⟨0, 999999⟩ = 513 ∧ tvtojiffies ⟨1, 0⟩ = 512 ∧
    ∃ s, Run (Step 1) boot longest s ∧ s.signals = [⟨⟨8388608, 0⟩, 0⟩] := by
  refine ⟨by decide, by decide, by decide, longest.foldl (Event.exec 1) boot, ?_, by decide +kernel⟩
  refine .cons ⟨by decide +kernel, rfl⟩ ?_
  refine .cons ⟨by decide +kernel, rfl⟩ ?_
  refine .cons ⟨rfl, rfl⟩ ?_
  refine .cons ⟨rfl, rfl⟩ ?_
  refine .cons ⟨by decide +kernel, rfl⟩ ?_
  exact .cons ⟨by decide +kernel, rfl⟩ (.nil _)

end CustomKernel.Time.Itimer

import Mathlib.Algebra.Order.Ring.Int
import Mathlib.Tactic.Ring

/-! # The wall clock

`update_wall_time` moves `xtime` on by the ticks that have come since the last time, and carries into
the seconds when it has done so. The variables of type `long` are integers here: a tick leaves
`time_phase` below one microsecond, and from there the sums stay far from 32 bits. -/
namespace CustomKernel.Time.WallClock

/-! ## The code (`kernel/timer.c`) -/

/-- `tickadj`, which is `500/HZ ? : 1` and not changed -/
def tickadj : Int := 1

/-- `1L << SHIFT_SCALE` -/
def fineusec : Int := 4194304

inductive TimeState
  | ok
  | ins
  | del
  | oop
  | wait
  | error
  deriving DecidableEq

structure Clock where
  tvSec : Int
  tvUsec : Int
  tick : Int
  timeAdjust : Int
  timeAdjustStep : Int
  timePhase : Int
  timeAdj : Int
  timeState : TimeState
  timeStatus : BitVec 32
  timeMaxerror : Int
  timeTolerance : Int
  timeOffset : Int
  timeConstant : Nat
  timeFreq : Int
  ppsFreq : Int
  ppsValid : Int
  ppsJitter : Int
  ppsStabil : Int

def adjustStep (timeAdjust : Int) : Int :=
  if tickadj < timeAdjust then tickadj else if timeAdjust < -tickadj then -tickadj else timeAdjust

/-- The whole microseconds of a phase, which go from the phase to the clock. -/
def wholeUsec (phase : Int) : Int :=
  if phase ≤ -fineusec then -(-phase / fineusec)
  else if fineusec ≤ phase then phase / fineusec
  else 0

def updateWallTimeOneTick (c : Clock) : Clock :=
  let step := adjustStep c.timeAdjust
  let phase := c.timePhase + c.timeAdj
  { c with
    timeAdjustStep := step
    timeAdjust := c.timeAdjust - step
    tvUsec := c.tvUsec + (c.tick + step) + wholeUsec phase
    timePhase := phase - wholeUsec phase * fineusec }

/-- How often the loop `do { ticks--; } while (ticks);` turns. -/
def turns (ticks : BitVec 32) : Nat := (ticks - 1).toNat + 1

/-- What one tick adds to the clock. -/
def increment (c : Clock) : Int :=
  c.tick + adjustStep c.timeAdjust + wholeUsec (c.timePhase + c.timeAdj)

/-- The sum of the increments of some ticks, and of the parts of `time_adjust` in them. -/
def added : Nat → Clock → Int
  | 0, _ => 0
  | n + 1, c => increment c + added n (updateWallTimeOneTick c)

def applied : Nat → Clock → Int
  | 0, _ => 0
  | n + 1, c => adjustStep c.timeAdjust + applied n (updateWallTimeOneTick c)

section Ticks
variable (c : Clock)

/-- What is left to adjust is applied `tickadj` at a time. -/
theorem applied_eq (n : Nat) :
    applied n c = max (-(n * tickadj)) (min c.timeAdjust (n * tickadj)) := by
  induction n generalizing c with
  | zero => simp [applied]
  | succ n ih =>
    rw [applied, ih]
    simp only [updateWallTimeOneTick, adjustStep, tickadj]
    omega

end Ticks

section Phase
variable {x a : Int}

/-- A phase is below one microsecond, or on the side to which it moves. -/
def Settled (x a : Int) : Prop :=
  -fineusec < x ∧ x < fineusec ∨ 0 ≤ x ∧ 0 ≤ a ∨ x ≤ 0 ∧ a ≤ 0

theorem Settled.add (h : Settled x a) : Settled (x + a) a := by
  unfold Settled fineusec at *
  omega

/-- The microseconds that go from the phase to the clock in some ticks. -/
def moved (a : Int) : Nat → Int → Int
  | 0, _ => 0
  | n + 1, x => wholeUsec (x + a) + moved a n (x + a - wholeUsec (x + a) * fineusec)

end Phase

/-- Neither the time nor what is left of `time_adjust` is touched. -/
structure Same (c c' : Clock) : Prop where
  tvSec : c'.tvSec = c.tvSec
  tvUsec : c'.tvUsec = c.tvUsec
  timeAdjust : c'.timeAdjust = c.timeAdjust

end CustomKernel.Time.WallClock

import CustomKernel.Lib.Filing
import CustomKernel.Lib.Transition
import Mathlib.Algebra.Order.Ring.Nat

/-! # Kernel timers

`add_timer`, `mod_timer`, `del_timer` and `run_timer_list`. A timer hangs on one of the
lists of `tv1` to `tv5`, by how far ahead it is, or on the list of those that were set
while a tick is processed. Each call is one operation, under `timerlist_lock`. A tick is
processed in several: `run_timer_list` gives up the lock for every handler, and then the
handler, or an interrupt, may call the others. `unsigned long` has 32 bits. -/
namespace CustomKernel.Time.Timer
open Lib Lib.Transition Function

/-! ## Data -/

abbrev TimerId := Nat

/-- The list heads: `tv1` to `tv5` are the levels 0 to 4. -/
inductive Slot where
  | tv (n i : Nat)
  | queued
deriving DecidableEq, Repr

structure State where
  jiffies : Nat
  timerJiffies : Nat
  /-- `tv1.index` to `tv5.index` -/
  index : Nat → Nat
  vec : Slot → List TimerId
  /-- `run_timer_list_running` is not `NULL` -/
  running : Bool
  expires : TimerId → Nat
  /-- `timer->list.next` is not `NULL` -/
  pending : TimerId → Bool

def init : State where
  jiffies := 0
  timerJiffies := 0
  index _ := 0
  vec _ := []
  running := false
  expires _ := 0
  pending _ := false

/-- `a - b` on `unsigned long` -/
def sub32 (a b : Nat) : Nat := (a + 2 ^ 32 - b % 2 ^ 32) % 2 ^ 32

/-! ## Lists -/

/-- `list_add(&timer->list, vec->prev)` -/
def State.listAddTail (s : State) (slot : Slot) (t : TimerId) : State :=
  { s with vec := Filing.insert s.vec slot t, pending := update s.pending t true }

/-- `list_del` leaves the links of the timer itself as they are. -/
def State.listDel (s : State) (t : TimerId) : State :=
  { s with vec := Filing.remove s.vec t }

def State.setExpires (s : State) (t : TimerId) (expires : Nat) : State :=
  { s with expires := update s.expires t expires }

/-- `timer->list.next = timer->list.prev = NULL` -/
def State.forget (s : State) (t : TimerId) : State :=
  { s with pending := update s.pending t false }

/-! ## The calls -/

/-- The list that `internal_add_timer` picks. -/
def State.slot (s : State) (expires : Nat) : Slot :=
  let idx := sub32 expires s.timerJiffies
  if s.running then .queued
  else if idx < 2 ^ 8 then .tv 0 (expires % 2 ^ 8)
  else if idx < 2 ^ 14 then .tv 1 (expires / 2 ^ 8 % 2 ^ 6)
  else if idx < 2 ^ 20 then .tv 2 (expires / 2 ^ 14 % 2 ^ 6)
  else if idx < 2 ^ 26 then .tv 3 (expires / 2 ^ 20 % 2 ^ 6)
  -- (signed long) idx < 0
  else if 2 ^ 31 ≤ idx then .tv 0 (s.index 0)
  else .tv 4 (expires / 2 ^ 26 % 2 ^ 6)

def internalAddTimer (t : TimerId) (s : State) : State :=
  s.listAddTail (s.slot (s.expires t)) t

/-- The caller fills in `expires` before it calls `add_timer`, of a timer that is not
pending. For one that is, a message is printed. -/
def addTimer (t : TimerId) (expires : Nat) (s : State) : State :=
  if s.pending t then s
  else internalAddTimer t (s.setExpires t expires)

def detachTimer (t : TimerId) (s : State) : Bool × State :=
  if s.pending t then (true, s.listDel t) else (false, s)

def modTimer (t : TimerId) (expires : Nat) (s : State) : Bool × State :=
  let detached := detachTimer t (s.setExpires t expires)
  (detached.1, internalAddTimer t detached.2)

def delTimer (t : TimerId) (s : State) : Bool × State :=
  let detached := detachTimer t s
  (detached.1, detached.2.forget t)

/-! ## A tick -/

/-- The timers of a list are put where they belong now, one after the other, and the list
is then empty. -/
def rehash (slot : Slot) (s : State) : State :=
  let s := (s.vec slot).foldl (fun s t => internalAddTimer t (s.listDel t)) s
  { s with vec := update s.vec slot [] }

def cascadeTimers (n : Nat) (s : State) : State :=
  let s := rehash (.tv n (s.index n)) s
  { s with index := update s.index n ((s.index n + 1) % 2 ^ 6) }

/-- The `do` loop over `tvecs`, from the first of the given levels. -/
def cascades : List Nat → State → State
  | [], s => s
  | n :: ns, s =>
    let s := cascadeTimers n s
    if s.index n = 1 then cascades ns s else s

/-- A turn of `run_timer_list` up to `repeat`. -/
def startTick (s : State) : State :=
  let s := { s with vec := update s.vec .queued [] }
  let s := if s.index 0 = 0 then cascades [1, 2, 3, 4] s else s
  { s with running := true }

/-- From `repeat` to the call of the handler. -/
def runTimer (t : TimerId) (s : State) : State :=
  (detachTimer t s).2.forget t

/-- A turn of `run_timer_list` from where no timer is left to run. -/
def endTick (s : State) : State :=
  rehash .queued
    { s with
      running := false
      timerJiffies := (s.timerJiffies + 1) % 2 ^ 32
      index := update s.index 0 ((s.index 0 + 1) % 2 ^ 8) }

/-! ## Steps -/

inductive Op where
  | interrupt
  | add (t : TimerId) (expires : Nat)
  | mod (t : TimerId) (expires : Nat) (ret : Bool)
  | del (t : TimerId) (ret : Bool)
  | start
  | run (t : TimerId)
  | finish
deriving DecidableEq, Repr

/-- The calls that set or delete a timer. -/
def Op.names (t : TimerId) : Op → Bool
  | .add u _ | .mod u _ _ | .del u _ => u == t
  | _ => false

def Op.exec (s : State) : Op → State
  | .interrupt => { s with jiffies := (s.jiffies + 1) % 2 ^ 32 }
  | .add t expires => addTimer t expires s
  | .mod t expires _ => (modTimer t expires s).2
  | .del t _ => (delTimer t s).2
  | .start => startTick s
  | .run t => runTimer t s
  | .finish => endTick s

def Op.Allowed (s : State) : Op → Prop
  | .interrupt => True
  | .add _ expires => expires < 2 ^ 32
  | .mod t expires ret => expires < 2 ^ 32 ∧ ret = (modTimer t expires s).1
  | .del t ret => ret = (delTimer t s).1
  -- (long)(jiffies - timer_jiffies) >= 0
  | .start => s.running = false ∧ sub32 s.jiffies s.timerJiffies < 2 ^ 31
  | .run t => s.running = true ∧ (s.vec (.tv 0 (s.index 0))).head? = some t
  | .finish => s.running = true ∧ s.vec (.tv 0 (s.index 0)) = []

instance (s : State) : (o : Op) → Decidable (o.Allowed s)
  | .interrupt => isTrue trivial
  | .add _ _ => inferInstanceAs (Decidable (_ < _))
  | .mod _ _ _ => inferInstanceAs (Decidable (_ ∧ _))
  | .del _ _ => inferInstanceAs (Decidable (_ = _))
  | .start => inferInstanceAs (Decidable (_ ∧ _))
  | .run _ => inferInstanceAs (Decidable (_ ∧ _))
  | .finish => inferInstanceAs (Decidable (_ ∧ _))

def Step (s : State) (o : Op) (s' : State) : Prop :=
  o.Allowed s ∧ s' = o.exec s

/-- Whether every operation of a list is allowed when its turn comes. -/
def Runs (s : State) : List Op → Prop
  | [] => True
  | o :: os => o.Allowed s ∧ Runs (o.exec s) os

instance decidableRuns : (s : State) → (os : List Op) → Decidable (Runs s os)
  | _, [] => isTrue trivial
  | s, o :: os =>
    have := decidableRuns (o.exec s) os
    inferInstanceAs (Decidable (o.Allowed s ∧ Runs (o.exec s) os))

theorem run_after (os : List Op) (s : State) (h : Runs s os) :
    Run Step s os (os.foldl Op.exec s) := by
  induction os generalizing s with
  | nil => exact .nil s
  | cons o os ih => exact .cons ⟨h.1, rfl⟩ (ih (o.exec s) h.2)

/-- The next tick that is processed from its start. -/
def State.nextTick (s : State) : Nat :=
  if s.running then (s.timerJiffies + 1) % 2 ^ 32 else s.timerJiffies

/-- The tick a timer is set for: that of `expires`, or the next one when it is past. -/
def State.tickOf (s : State) (expires : Nat) : Nat :=
  if sub32 expires s.nextTick < 2 ^ 31 then expires else s.nextTick

/-- The ticks that end in a list of operations. -/
def ticks (os : List Op) : Nat := os.count .finish

/-- Whether a timer is set after an operation. -/
def armedBy (t : TimerId) (b : Bool) : Op → Bool
  | .add u _ | .mod u _ _ => u == t || b
  | .del u _ | .run u => u != t && b
  | _ => b

/-- Whether a timer has been set and has neither run nor been deleted since. -/
def armed (t : TimerId) (os : List Op) : Bool := os.foldl (armedBy t) false

end CustomKernel.Time.Timer

import Mathlib.Algebra.Order.Ring.Int
import Mathlib.Data.Fintype.Card

/-! # Counting semaphores

`count` is decremented for every task that tries to get the semaphore, and `sleepers` says how many
of these decrements are those of tasks that sleep: 0 or 1, however many there are. A section under
`semaphore_lock` updates `count` once, and nothing else looks at `sleepers`, so that it is one
step. `count` is a 32-bit `int`. -/
namespace CustomKernel.Locking.Semaphore
open Function

/-! ## Data -/

inductive Kind where
  | down
  | downInterruptible
  | downTrylock
deriving DecidableEq, Repr

/-- Where a task is. `intr` says that it waits in `__down_interruptible`, and `flag` that its state
is the one of a task that sleeps. -/
inductive Phase where
  | idle
  /-- Its decrement made `count` negative. -/
  | failed (k : Kind)
  /-- on the wait queue, before its first section -/
  | entering (intr flag : Bool)
  /-- before another one -/
  | again (intr flag : Bool)
  /-- It is going to call `schedule`. -/
  | drowsy (intr flag : Bool)
  | asleep (intr : Bool)
  /-- `schedule` has returned. -/
  | awake (intr : Bool)
  /-- out of the loop, still on the wait queue -/
  | leaving
  /-- It is going to call `wake_up`. -/
  | waking
deriving DecidableEq, Repr

structure State (N : Nat) where
  count : Int
  sleepers : Int
  /-- the wait queue; all entries are exclusive -/
  wait : List (Fin N)
  phase : Fin N → Phase
  /-- how often the semaphore was got, and how often it was given back -/
  acquired : Nat
  ups : Nat

variable {N : Nat}

def State.init (n : Int) : State N := ⟨n, 0, [], fun _ => .idle, 0, 0⟩

def State.set (s : State N) (t : Fin N) (p : Phase) : State N :=
  { s with phase := update s.phase t p }

/-- A value as an `int` holds it. -/
def int32 (x : Int) : Int := Int.bmod x (2 ^ 32)

def State.add (s : State N) (d : Int) : State N := { s with count := int32 (s.count + d) }

def State.acquire (s : State N) : State N := { s with acquired := s.acquired + 1 }

/-! ## Wake-ups -/

/-- `__wake_up_common` for one exclusive task: a task that only is about to sleep does not count
as woken. -/
def wakeUp : List (Fin N) → (Fin N → Phase) → Fin N → Phase
  | [], p => p
  | t :: q, p =>
    match p t with
    | .asleep intr => update p t (.awake intr)
    | .entering intr true => wakeUp q (update p t (.entering intr false))
    | .again intr true => wakeUp q (update p t (.again intr false))
    | .drowsy intr true => wakeUp q (update p t (.drowsy intr false))
    | _ => wakeUp q p

/-! ## Steps -/

inductive Event (N : Nat) where
  | down (t : Fin N) (k : Kind)
  | up (t : Fin N)
  /-- The state is set and the task is put on the wait queue. -/
  | enqueue (t : Fin N)
  /-- A section under `semaphore_lock`. -/
  | sect (t : Fin N) (signal : Bool)
  /-- `schedule` -/
  | sleep (t : Fin N)
  /-- The state is set again. -/
  | mark (t : Fin N)
  | remove (t : Fin N)
  | wake (t : Fin N)
  /-- A signal comes for a task. -/
  | signal (t : Fin N)
deriving DecidableEq

/-- The loop body, with `sleepers` as it was read: it is interrupted, gets the semaphore, or goes
to sleep. -/
def State.body (s : State N) (t : Fin N) (intr signal : Bool) (sleepers : Int) : State N :=
  if intr && signal then
    { s.add sleepers with sleepers := 0 }.set t .leaving
  else
    let s := s.add (sleepers - 1)
    if 0 ≤ s.count then { s.acquire with sleepers := 0 }.set t .leaving
    else { s with sleepers := 1 }.set t (.drowsy intr true)

def State.trylockFailed (s : State N) (t : Fin N) : State N :=
  let s := { s.add (s.sleepers + 1) with sleepers := 0 }
  s.set t (if 0 ≤ s.count then .waking else .idle)

/-- What is added to `count`. -/
def delta (s : State N) : Event N → Int
  | .down _ _ => -1
  | .up _ => 1
  | .sect t signal =>
    match s.phase t with
    | .entering intr _ => if intr && signal then s.sleepers + 1 else s.sleepers
    | .again intr _ => if intr && signal then s.sleepers else s.sleepers - 1
    | _ => s.sleepers + 1
  | _ => 0

def exec (s : State N) : Event N → Option (State N)
  | .down t k =>
    match s.phase t with
    | .idle =>
      let s := s.add (-1)
      -- `js`
      some (if s.count < 0 then s.set t (.failed k) else s.acquire)
    | _ => none
  | .up t =>
    match s.phase t with
    | .idle =>
      -- `jle` looks at the sum, even if it overflows
      some ({ s.add 1 with ups := s.ups + 1 }.set t (if s.count + 1 ≤ 0 then .waking else .idle))
    | _ => none
  | .enqueue t =>
    match s.phase t with
    | .failed .down => some ({ s with wait := s.wait ++ [t] }.set t (.entering false true))
    | .failed .downInterruptible =>
      some ({ s with wait := s.wait ++ [t] }.set t (.entering true true))
    | _ => none
  | .sect t signal =>
    match s.phase t with
    | .entering intr _ => some (s.body t intr signal (s.sleepers + 1))
    | .again intr _ => some (s.body t intr signal s.sleepers)
    | .failed .downTrylock => some (s.trylockFailed t)
    | _ => none
  | .sleep t =>
    match s.phase t with
    | .drowsy intr true => some (s.set t (.asleep intr))
    | .drowsy intr false => some (s.set t (.awake intr))
    | _ => none
  | .mark t =>
    match s.phase t with
    | .awake intr => some (s.set t (.again intr true))
    | _ => none
  | .remove t =>
    match s.phase t with
    | .leaving => some ({ s with wait := s.wait.erase t }.set t .waking)
    | _ => none
  | .wake t =>
    match s.phase t with
    | .waking => some { s with phase := wakeUp s.wait (update s.phase t .idle) }
    | _ => none
  | .signal t =>
    match s.phase t with
    | .entering true _ => some (s.set t (.entering true false))
    | .again true _ => some (s.set t (.again true false))
    | .drowsy true _ => some (s.set t (.drowsy true false))
    | .asleep true => some (s.set t (.awake true))
    | _ => none

def Step (s : State N) (e : Event N) (s' : State N) : Prop := exec s e = some s'

/-- The update of `count` does not overflow. -/
def NoOverflow (s : State N) (e : Event N) : Prop :=
  -2 ^ 31 ≤ s.count + delta s e ∧ s.count + delta s e < 2 ^ 31

instance (s : State N) (e : Event N) : Decidable (NoOverflow s e) :=
  inferInstanceAs (Decidable (_ ∧ _))

/-- No task is between two of its steps. -/
def Quiet (s : State N) : Prop := ∀ t, s.phase t = .idle ∨ ∃ intr, s.phase t = .asleep intr

end CustomKernel.Locking.Semaphore

import Mathlib.Data.BitVec
import Mathlib.Data.Fintype.Basic
import CustomKernel.Lib.Transition

/-! # Read/write semaphores

The low half of `count` is the number of active tasks, the high half is negative while somebody
waits or writes. Fast paths change it without a lock; a task that has to wait, or that has to wake
others, takes `wait_lock`. Every atomic operation is a step of its own, and so is every grant
of a waker that grants several locks. -/
namespace CustomKernel.Locking.Rwsem

/-! ## Data -/

def activeBias : Int := 1
def waitingBias : Int := -0x10000
def activeWriteBias : Int := waitingBias + activeBias

inductive Kind where
  | read
  | write
deriving DecidableEq, Repr

/-- Where a task is with respect to the semaphore. -/
inductive Phase where
  | outside
  /-- A fast path has failed; `wait_lock` is to be taken. -/
  | failed (k : Kind)
  /-- on `wait_list` -/
  | waiting (k : Kind)
  | holds (k : Kind)
  /-- Released it, and is to call `rwsem_wake`. -/
  | waking
deriving DecidableEq, Repr

/-- What the task that has `wait_lock` does next. -/
inductive Stage where
  /-- the update of `rwsem_down_failed_common` -/
  | joins (k : Kind)
  /-- `try_again` -/
  | tryAgain
  | undo
  /-- It has the only active unit, and a writer is in front. -/
  | grantWriter
  /-- A reader is in front. -/
  | countReaders
  /-- This many readers are still to be granted the lock. -/
  | grants (n : Nat)
deriving DecidableEq, Repr

structure State (n : Nat) where
  count : BitVec 32
  waitList : List (Fin n × Kind)
  /-- Who has `wait_lock`. -/
  lock : Option (Fin n × Stage)
  phase : Fin n → Phase
deriving DecidableEq

variable {n : Nat}

def State.init : State n := ⟨0, [], none, fun _ => .outside⟩

def State.add (s : State n) (delta : Int) : State n :=
  { s with count := s.count + BitVec.ofInt 32 delta }

def State.set (s : State n) (t : Fin n) (p : Phase) : State n :=
  { s with phase := Function.update s.phase t p }

def State.goto (s : State n) (t : Fin n) (stage : Stage) : State n :=
  { s with lock := some (t, stage) }

def State.unlock (s : State n) : State n := { s with lock := none }

/-- `count & RWSEM_ACTIVE_MASK` -/
def active (count : BitVec 32) : BitVec 32 := count &&& 0xffff#32

/-! ## Fast paths -/

def State.down (s : State n) (t : Fin n) : Kind → State n
  | .read =>
    let s := s.add activeBias
    -- `js`
    s.set t (if s.count.msb then .failed .read else .holds .read)
  | .write => (s.add activeWriteBias).set t (if s.count = 0 then .holds .write else .failed .write)

def State.downTrylock (s : State n) (t : Fin n) : Kind → State n
  | .read => if s.count.msb then s else (s.add activeBias).set t (.holds .read)
  | .write => if s.count = 0 then (s.add activeWriteBias).set t (.holds .write) else s

/-- `decw %dx` gives 0. -/
def lastActive (old : BitVec 32) : Bool := old.setWidth 16 - 1 == 0

def State.up (s : State n) (t : Fin n) : Kind → State n
  | .read =>
    let s' := s.add (-activeBias)
    s'.set t (if s'.count.msb && lastActive s.count then .waking else .outside)
  | .write =>
    let s' := s.add (-activeWriteBias)
    s'.set t (if s'.count != 0 && lastActive s.count then .waking else .outside)

/-! ## Under `wait_lock` -/

def adjustment : Kind → Int
  | .read => waitingBias - activeBias
  | .write => -activeBias

/-- `list_add_tail` and the update of `rwsem_down_failed_common`. -/
def State.join (s : State n) (t : Fin n) (k : Kind) : State n :=
  let s := ({ s with waitList := s.waitList ++ [(t, k)] }.add (adjustment k)).set t (.waiting k)
  if active s.count = 0 then s.goto t .tryAgain else s.unlock

/-- `rwsem_wake`, after it has got the lock. -/
def State.wake (s : State n) (t : Fin n) : State n :=
  let s := s.set t .outside
  if s.waitList = [] then s else s.goto t .tryAgain

def State.tryAgain (s : State n) (t : Fin n) : State n :=
  let s' := s.add activeBias
  if active s.count ≠ 0 then s'.goto t .undo
  else
    match s.waitList with
    | (_, .write) :: _ => s'.goto t .grantWriter
    | _ => s'.goto t .countReaders

/-- The whole count is compared with 0 here, not its active part. -/
def State.undo (s : State n) (t : Fin n) : State n :=
  let s := s.add (-activeBias)
  if s.count ≠ 0 then s.unlock else s.goto t .tryAgain

def State.grantWriter (s : State n) : State n :=
  match s.waitList with
  | [] => s.unlock
  | (t', _) :: rest => ({ s with waitList := rest }.set t' (.holds .write)).unlock

/-- The readers in front; there is one at least. -/
def woken : List (Fin n × Kind) → Nat
  | [] => 0
  | _ :: rest => (rest.takeWhile fun e => e.2 = .read).length + 1

def State.countReaders (s : State n) (t : Fin n) : State n :=
  (s.add (woken s.waitList * (activeBias - waitingBias) - activeBias)).goto t
    (.grants (woken s.waitList))

def State.grant (s : State n) (t : Fin n) : Nat → State n
  | 0 => s.unlock
  | k + 1 =>
    match s.waitList with
    | [] => s.unlock
    | (t', _) :: rest => ({ s with waitList := rest }.set t' (.holds .read)).goto t (.grants k)

def Stage.exec (s : State n) (t : Fin n) : Stage → State n
  | .joins k => s.join t k
  | .tryAgain => s.tryAgain t
  | .undo => s.undo t
  | .grantWriter => s.grantWriter
  | .countReaders => s.countReaders t
  | .grants k => s.grant t k

/-! ## Steps -/

inductive Event (n : Nat) where
  | down (t : Fin n) (k : Kind)
  | downTrylock (t : Fin n) (k : Kind)
  | up (t : Fin n)
  /-- A task gets `wait_lock`. -/
  | lock (t : Fin n)
  /-- The task that has it goes on. -/
  | go
deriving DecidableEq

def State.owner (s : State n) : Option (Fin n) := s.lock.map Prod.fst

/-- One step of a task. A task that has `wait_lock` does nothing else. -/
def exec (s : State n) : Event n → Option (State n)
  | .down t k => if s.phase t = .outside ∧ s.owner ≠ some t then some (s.down t k) else none
  | .downTrylock t k =>
    if s.phase t = .outside ∧ s.owner ≠ some t then some (s.downTrylock t k) else none
  | .up t =>
    match s.phase t with
    | .holds k => if s.owner ≠ some t then some (s.up t k) else none
    | _ => none
  | .lock t =>
    if s.lock.isSome then none
    else
      match s.phase t with
      | .failed k => some (s.goto t (.joins k))
      | .waking => some (s.wake t)
      | _ => none
  | .go => s.lock.map fun (t, stage) => stage.exec s t

def Step (s : State n) (e : Event n) (s' : State n) : Prop := exec s e = some s'

/-- No task is between two of its steps. -/
def Quiet (s : State n) : Prop :=
  s.lock = none ∧ ∀ t, s.phase t = .outside ∨ ∃ k, s.phase t = .waiting k ∨ s.phase t = .holds k

/-- The undo does not take away the last active unit. -/
def UndoSeen (s : State n) (e : Event n) : Prop :=
  e = .go → ∀ t, s.lock = some (t, .undo) → active s.count ≠ 1

instance (s : State n) (e : Event n) : Decidable (UndoSeen s e) :=
  inferInstanceAs (Decidable (_ → _))

end CustomKernel.Locking.Rwsem

import CustomKernel.Lib.Transition
import Mathlib.Algebra.Order.Ring.Int

/-! # File locks

The lock list of one inode. All kinds of locks are on it: those of `flock`, those of
`fcntl`, which are for a range of bytes, and leases. A function that sleeps gives the
big kernel lock away, so what it does between two sleeps is one operation. -/
namespace CustomKernel.Fs.Locks

/-! ## Data -/

def EACCES : Int := 13
def EAGAIN : Int := 11
def EINVAL : Int := 22
def EDEADLK : Int := 35
def ENOLCK : Int := 37
def ENOMEM : Int := 12

/-- `FL_POSIX`, `FL_FLOCK` or `FL_LEASE` -/
inductive LockKind where
  | posix
  | flock
  | lease
deriving DecidableEq, Repr

inductive LockType where
  | rdlck
  | wrlck
  | unlck
  /-- `LOCK_MAND`, with or without `LOCK_READ` and `LOCK_WRITE` -/
  | mand (read write : Bool)
deriving DecidableEq, Repr

/-- What a `struct file_lock` says. The owner is a `files_struct`. -/
structure FileLock where
  flOwner : Option Nat
  flPid : Nat
  flFile : Nat
  flFlags : LockKind
  flType : LockType
  flStart : Int
  flEnd : Int
deriving DecidableEq, Repr

/-- `OFFSET_MAX`, the last offset of a file -/
def offsetMax : Int := 2 ^ 63 - 1

/-- Arithmetic in a `loff_t` -/
def wrap64 (x : Int) : Int := (x + 2 ^ 63) % 2 ^ 64 - 2 ^ 63

/-! ## Conflicts -/

section Conflicts
variable (fl1 fl2 callerFl sysFl : FileLock)

def locksOverlap : Prop := fl1.flEnd ≥ fl2.flStart ∧ fl2.flEnd ≥ fl1.flStart

def locksSameOwner : Prop := fl1.flOwner = fl2.flOwner ∧ fl1.flPid = fl2.flPid

def locksConflict : Prop :=
  match callerFl.flType with
  | .rdlck => sysFl.flType = .wrlck
  | .wrlck => True
  | _ => False

def posixLocksConflict : Prop :=
  sysFl.flFlags = .posix ∧ ¬locksSameOwner callerFl sysFl ∧ locksOverlap callerFl sysFl ∧
    locksConflict callerFl sysFl

def LockType.isMand : LockType → Bool
  | .mand .. => true
  | _ => false

def flockLocksConflict : Prop :=
  sysFl.flFlags = .flock ∧ callerFl.flFile ≠ sysFl.flFile ∧
    ¬(callerFl.flType.isMand ∨ sysFl.flType.isMand) ∧ locksConflict callerFl sysFl

instance : Decidable (locksOverlap fl1 fl2) := inferInstanceAs (Decidable (_ ∧ _))

instance : Decidable (locksSameOwner fl1 fl2) := inferInstanceAs (Decidable (_ ∧ _))

instance : Decidable (locksConflict callerFl sysFl) :=
  match h : callerFl.flType with
  | .rdlck => decidable_of_iff (sysFl.flType = .wrlck) (by unfold locksConflict; rw [h])
  | .wrlck => isTrue (by unfold locksConflict; rw [h]; trivial)
  | .unlck => isFalse (by unfold locksConflict; rw [h]; exact id)
  | .mand .. => isFalse (by unfold locksConflict; rw [h]; exact id)

instance : Decidable (posixLocksConflict callerFl sysFl) := inferInstanceAs (Decidable (_ ∧ _))

instance : Decidable (flockLocksConflict callerFl sysFl) := inferInstanceAs (Decidable (_ ∧ _))

end Conflicts

/-! ## `posix_lock_file` -/

/-- Where the pass over the locks of the owner stops: `before` is between `skipped` and
`rest`. Where `caller` points at an entry, `self` is the place of that entry, which takes
the value of `caller` only at the end: the pass does not read it again. `left` is a place
too, and `right` can only be the first of `rest`. -/
structure Pass where
  skipped : List FileLock
  rest : List FileLock
  caller : FileLock
  added : Bool
  self : Option Nat
  left : Option Nat
  right : Bool

/-- The pass over the locks with the owner of `caller`. -/
def pass (caller : FileLock) (added : Bool) (self left : Option Nat) (skipped : List FileLock) :
    List FileLock → Pass
  | [] => ⟨skipped, [], caller, added, self, left, false⟩
  | fl :: rest =>
    if ¬locksSameOwner caller fl then ⟨skipped, fl :: rest, caller, added, self, left, false⟩
    else if caller.flType = fl.flType then
      -- adjacent or overlapping regions become one
      if fl.flEnd < wrap64 (caller.flStart - 1) then pass caller added self left (skipped ++ [fl]) rest
      else if fl.flStart > wrap64 (caller.flEnd + 1) then
        ⟨skipped, fl :: rest, caller, added, self, left, false⟩
      else
        let lo := if fl.flStart > caller.flStart then caller.flStart else fl.flStart
        let hi := if fl.flEnd < caller.flEnd then caller.flEnd else fl.flEnd
        if added then pass { caller with flStart := lo, flEnd := hi } added self left skipped rest
        else
          let fl := { fl with flStart := lo, flEnd := hi }
          pass fl true (some skipped.length) left (skipped ++ [fl]) rest
    else if fl.flEnd < caller.flStart then pass caller added self left (skipped ++ [fl]) rest
    else if fl.flStart > caller.flEnd then
      ⟨skipped, fl :: rest, caller, added, self, left, false⟩
    else
      let added := added || decide (caller.flType = .unlck)
      let left := if fl.flStart < caller.flStart then some skipped.length else left
      if fl.flEnd > caller.flEnd then ⟨skipped, fl :: rest, caller, added, self, left, true⟩
      else if fl.flStart ≥ caller.flStart then
        -- the new lock replaces an old one
        if added then pass caller added self left skipped rest
        else
          let fl := { fl with
            flStart := caller.flStart, flEnd := caller.flEnd, flType := caller.flType }
          pass fl true (some skipped.length) left (skipped ++ [fl]) rest
      else pass caller added self left (skipped ++ [fl]) rest

/-- What is done behind the pass. The two new locks are inserted at the same place, the
second one in front of the first. -/
def Pass.finish (p : Pass) : List FileLock :=
  let skipped :=
    match p.self with
    | some i => p.skipped.set i p.caller
    | none => p.skipped
  if ¬p.added ∧ p.caller.flType = .unlck then skipped ++ p.rest
  else
    let toLeft (fl : FileLock) := { fl with flEnd := wrap64 (p.caller.flStart - 1) }
    let newFl := if p.added then [] else [p.caller]
    let newFl2 :=
      if p.right ∧ p.left = some p.skipped.length then p.rest.head?.toList.map toLeft else []
    let rest :=
      if p.right then p.rest.modifyHead fun fl => { fl with flStart := wrap64 (p.caller.flEnd + 1) }
      else p.rest
    let skipped :=
      match p.left with
      | some i => skipped.modify i toLeft
      | none => skipped
    skipped ++ newFl2 ++ newFl ++ rest

/-- The part of `posix_lock_file` that cannot fail. -/
def setLock (caller : FileLock) (l : List FileLock) : List FileLock :=
  let other (fl : FileLock) : Bool := fl.flFlags ≠ .posix ∨ ¬locksSameOwner caller fl
  l.takeWhile other ++ (pass caller false none none [] (l.dropWhile other)).finish

inductive Outcome where
  | returned (error : Int) (l : List FileLock)
  /-- it sleeps until it can start again -/
  | blocked (blocker : FileLock)
deriving DecidableEq, Repr

/-- `posix_lock_file`. Whether the two lock structures could be had is `allocated`, and
`deadlock` is `posix_locks_deadlock`. -/
def posixLockFile (deadlock : FileLock → FileLock → Bool) (allocated wait : Bool) (caller : FileLock)
    (l : List FileLock) : Outcome :=
  if ¬allocated then .returned (-ENOLCK) l
  else
    let blocker :=
      if caller.flType = .unlck then none
      else l.find? fun fl => fl.flFlags = .posix ∧ posixLocksConflict caller fl
    match blocker with
    | some fl =>
      if ¬wait then .returned (-EAGAIN) l
      else if deadlock caller fl then .returned (-EDEADLK) l
      else .blocked fl
    | none => .returned 0 (setLock caller l)

theorem posixLockFile_returned {deadlock : FileLock → FileLock → Bool} {allocated wait : Bool}
    {caller : FileLock} {l l' : List FileLock} {error : Int}
    (h : posixLockFile deadlock allocated wait caller l = .returned error l') :
    error ≠ 0 ∧ l' = l ∨ error = 0 ∧ l' = setLock caller l := by
  unfold posixLockFile at h
  dsimp only at h
  split at h
  · cases h
    exact .inl ⟨by decide, rfl⟩
  · split at h
    · split at h
      · cases h
        exact .inl ⟨by decide, rfl⟩
      · split at h
        · cases h
          exact .inl ⟨by decide, rfl⟩
        · cases h
    · cases h
      exact .inr ⟨rfl, rfl⟩

/-! ## `flock_lock_file` -/

structure FlockCall where
  filp : Nat
  lockType : LockType
  wait : Bool
  pid : Nat
deriving DecidableEq, Repr

def flockMakeLock (c : FlockCall) : FileLock where
  flOwner := none
  flPid := c.pid
  flFile := c.filp
  flFlags := .flock
  flType := c.lockType
  flStart := 0
  flEnd := offsetMax

/-- What a call that has not returned does next. -/
inductive Next where
  | returned (error : Int)
  /-- it goes to `search` -/
  | search
  /-- it sleeps, and then goes to `repeat` -/
  | blocked
deriving DecidableEq, Repr

/-- From the label `repeat` on. -/
def flockRepeat (c : FlockCall) (l : List FileLock) : Next × List FileLock :=
  let flocks := l.takeWhile fun fl => fl.flFlags = .flock
  if ∃ fl ∈ flocks, flockLocksConflict (flockMakeLock c) fl then
    if ¬c.wait then (.returned (-EAGAIN), l) else (.blocked, l)
  else (.returned 0, flockMakeLock c :: l)

/-- From the label `search` on. A lock is deleted in front of those who wait for it. -/
def flockSearch (c : FlockCall) (l : List FileLock) : Next × List FileLock :=
  let flocks := l.takeWhile fun fl => fl.flFlags = .flock
  match flocks.find? fun fl => fl.flFile = c.filp with
  | some fl =>
    if c.lockType = fl.flType then (.returned 0, l)
    else if c.lockType = .unlck then (.returned 0, l.erase fl)
    else (.search, l.erase fl)
  | none => if c.lockType = .unlck then (.returned 0, l) else flockRepeat c l

/-! ## `fcntl_setlease` -/

/-- A call of `fcntl_setlease`, with what its checks find. -/
structure LeaseCall where
  filp : Nat
  files : Nat
  pid : Nat
  arg : LockType
  /-- the caller owns the file or has `CAP_LEASE` -/
  capable : Bool
  regular : Bool
  /-- `d_count` or `i_count` is above one -/
  inUse : Bool
  leasesEnable : Bool
  allocated : Bool
  /-- `fasync_helper` does not fail -/
  notified : Bool
deriving DecidableEq, Repr

def leaseAlloc (c : LeaseCall) : FileLock where
  flOwner := some c.files
  flPid := c.pid
  flFile := c.filp
  flFlags := .lease
  flType := c.arg
  flStart := 0
  flEnd := offsetMax

/-- `assign_type` takes no other type, nor any other number. -/
def LockType.assignable : LockType → Bool
  | .mand .. => false
  | _ => true

/-- The place of the last lease of the file at the front of the list, and the leases of
others there. -/
def leases (filp : Nat) (l : List FileLock) : Option Nat × List FileLock :=
  let front := l.takeWhile fun fl => fl.flFlags = .lease
  let mine := (front.zipIdx.filter fun p => p.1.flFile = filp).getLast?
  (mine.map Prod.snd, front.filter fun fl => fl.flFile ≠ filp)

def leaseModify (i : Nat) (arg : LockType) (l : List FileLock) : Int × List FileLock :=
  if ¬arg.assignable then (-EINVAL, l)
  else if arg = .unlck then (0, l.eraseIdx i)
  else (0, l.modify i fun fl => { fl with flType := arg })

def fcntlSetlease (c : LeaseCall) (l : List FileLock) : Int × List FileLock :=
  if ¬c.capable then (-EACCES, l)
  else if ¬c.regular then (-EINVAL, l)
  else if c.arg = .wrlck ∧ c.inUse then (-EAGAIN, l)
  else
    let (mine, others) := leases c.filp l
    let wrlease := others.countP fun fl => fl.flType = .wrlck
    if c.arg = .rdlck ∧ 0 < wrlease ∨ c.arg = .wrlck ∧ 0 < others.length then (-EAGAIN, l)
    else
      match mine with
      | some i => leaseModify i c.arg l
      | none =>
        if c.arg = .unlck then (0, l)
        else if ¬c.leasesEnable then (-EINVAL, l)
        else if ¬c.allocated then (-ENOMEM, l)
        else if ¬c.arg.assignable then (-EINVAL, l)
        else if ¬c.notified then (-ENOMEM, l)
        else
          let lease (fl : FileLock) : Bool := fl.flFlags = .lease
          (0, l.takeWhile lease ++ leaseAlloc c :: l.dropWhile lease)

/-! ## The last close -/

def locksRemovePosix (owner : Nat) (l : List FileLock) : List FileLock :=
  l.filter fun fl => ¬(fl.flFlags = .posix ∧ fl.flOwner = some owner)

def locksRemoveFlock (filp : Nat) (l : List FileLock) : List FileLock :=
  l.filter fun fl => ¬((fl.flFlags = .flock ∨ fl.flFlags = .lease) ∧ fl.flFile = filp)

end CustomKernel.Fs.Locks

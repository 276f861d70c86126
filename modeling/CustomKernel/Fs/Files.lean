import Mathlib.Data.Fintype.Card
import Mathlib.Order.Bounds.Basic
import CustomKernel.Lib.Bitmap

/-! # The table of open files

A `files_struct` that any number of threads share. A step of a thread is what it does under
`file_lock` until it drops the lock: at the end of the call, or in the middle of `expand_fdset` and
`expand_fd_array`, which drop it to allocate and again to free. -/
namespace CustomKernel.Fs.Files
open Lib.Bitmap Function

def EBADF : Int := 9
def ENOMEM : Int := 12
def EBUSY : Int := 16
def EINVAL : Int := 22
def EMFILE : Int := 24

def nrOpen : Nat := 1024 * 1024
def pageSize : Nat := 4096

/-- A `struct file`. -/
abbrev File := Nat

/-- An `fd_set`, as words. -/
abbrev FdSet := Nat → BitVec 32

/-! ## Growing -/

/-- One turn of the loop in `expand_fd_array`. -/
def arrayStep (nfds : Nat) : Nat :=
  if nfds < 256 then 256
  else if nfds < pageSize / 4 then pageSize / 4
  else min (nfds * 2) nrOpen

/-- One turn of the loop in `expand_fdset`. -/
def setStep (nfds : Nat) : Nat :=
  if nfds < pageSize * 8 then pageSize * 8 else min (nfds * 2) nrOpen

/-- `do nfds = step(nfds) while (nfds <= nr)` -/
def grow (step : Nat → Nat) (nr : Nat) : Nat → Nat → Nat
  | 0, nfds => nfds
  | fuel + 1, nfds =>
    let nfds := step nfds
    if nfds ≤ nr then grow step nr fuel nfds else nfds

/-! ## Calls -/

/-- A call that may have to wait for a larger table. `limit` is `rlim[RLIMIT_NOFILE].rlim_cur`. -/
inductive Call where
  | getUnusedFd (limit : Nat)
  | locateFd (file : File) (origStart limit : Nat)
  | dup2 (file : File) (newfd limit : Nat)
deriving DecidableEq

inductive Phase where
  | idle (ret : Int)
  /-- `dupfd`, before the lock -/
  | enter (file : File) (start limit : Nat)
  /-- in `expand_fdset`, with the lock dropped to allocate -/
  | growSet (c : Call) (nr nfds : Nat)
  /-- on the way back from it -/
  | grownSet (c : Call) (nr : Nat)
  | growArray (c : Call) (nr nfds : Nat)
  | grownArray (c : Call) (nr : Nat)
  /-- `allocate_fd`, before `fd_install` -/
  | installing (fd : Nat) (file : File)
deriving DecidableEq

/-- A descriptor that was handed out, and how the table was when it was taken. -/
structure Handout where
  start : Nat
  limit : Nat
  fd : Nat
  maxFds : Nat
  maxFdset : Nat
  openFds : FdSet
  /-- what was handed out before and not given back -/
  held : List Nat

structure State (n : Nat) where
  maxFds : Nat
  maxFdset : Nat
  nextFd : Nat
  fd : Nat → Option File
  closeOnExec : FdSet
  openFds : FdSet
  phase : Fin n → Phase
  /-- from `get_unused_fd`, neither installed nor put back -/
  reserved : List Nat
  held : List Nat
  handouts : List Handout
  /-- A `BUG()` was met. -/
  bug : Bool

variable {n : Nat}

def State.init : State n :=
  ⟨32, 1024, 0, fun _ => none, fun _ => 0, fun _ => 0, fun _ => .idle 0, [], [], [], false⟩

def State.set (s : State n) (t : Fin n) (p : Phase) : State n :=
  { s with phase := update s.phase t p }

/-! ## Expansion -/

/-- `expand_fdset`, up to the allocation. -/
def State.beginSet (s : State n) (t : Fin n) (c : Call) (nr : Nat) : State n :=
  if nrOpen ≤ s.maxFdset ∨ nrOpen ≤ nr then s.set t (.idle (-EMFILE))
  else s.set t (.growSet c nr (grow setStep nr (nr + 1) s.maxFdset))

/-- `expand_fd_array`, up to the allocation. -/
def State.beginArray (s : State n) (t : Fin n) (c : Call) (nr : Nat) : State n :=
  if nrOpen ≤ s.maxFds ∨ nrOpen ≤ nr then s.set t (.idle (-EMFILE))
  else s.set t (.growArray c nr (grow arrayStep nr (nr + 1) s.maxFds))

/-- The words that are copied, and zeroes after them. -/
def copySet (words : Nat) (b : FdSet) : FdSet := fun i => if i < words then b i else 0

/-- The sets are exchanged, unless somebody else has expanded them. -/
def State.installSet (s : State n) (nfds : Nat) : State n :=
  if s.maxFdset < nfds then
    { s with
      openFds := copySet (s.maxFdset / 32) s.openFds
      closeOnExec := copySet (s.maxFdset / 32) s.closeOnExec
      maxFdset := nfds }
  else s

def State.installArray (s : State n) (nfds : Nat) : State n :=
  if s.maxFds < nfds then
    { s with fd := fun i => if i < s.maxFds then s.fd i else none, maxFds := nfds }
  else s

/-! ## Taking a descriptor -/

/-- `FD_SET(fd, files->open_fds); FD_CLR(fd, files->close_on_exec)` -/
def State.mark (s : State n) (fd : Nat) : State n :=
  { s with openFds := setBit s.openFds fd, closeOnExec := clearBit s.closeOnExec fd }

/-- The same, for a descriptor that is handed out. -/
def State.take (s : State n) (start limit fd : Nat) : State n :=
  { s.mark fd with
    held := s.held ++ [fd]
    handouts := s.handouts ++ [⟨start, limit, fd, s.maxFds, s.maxFdset, s.openFds, s.held⟩] }

/-- `get_unused_fd` from `repeat` on. -/
def State.getUnusedFd (s : State n) (t : Fin n) (limit : Nat) : State n :=
  let fd := nextZero s.openFds s.maxFdset s.nextFd
  if limit ≤ fd then s.set t (.idle (-EMFILE))
  else if s.maxFdset ≤ fd then s.beginSet t (.getUnusedFd limit) fd
  else if s.maxFds ≤ fd then s.beginArray t (.getUnusedFd limit) fd
  else
    -- the last line is the sanity check, which empties the slot if it is not empty
    { s.take 0 limit fd with
      nextFd := fd + 1
      reserved := s.reserved ++ [fd]
      fd := update s.fd fd none }.set t (.idle fd)

/-- `locate_fd` from `repeat` on, and `allocate_fd` up to `fd_install`. -/
def State.locateFd (s : State n) (t : Fin n) (file : File) (origStart limit : Nat) : State n :=
  let start := if origStart < s.nextFd then s.nextFd else origStart
  let newfd := if start < s.maxFdset then nextZero s.openFds s.maxFdset start else start
  if limit ≤ newfd then s.set t (.idle (-EMFILE))
  else if s.maxFdset ≤ newfd then s.beginSet t (.locateFd file origStart limit) newfd
  else if s.maxFds ≤ newfd then s.beginArray t (.locateFd file origStart limit) newfd
  else
    { s.take origStart limit newfd with
      nextFd := if start ≤ s.nextFd then newfd + 1 else s.nextFd }.set t (.installing newfd file)

/-- `sys_dup2` after `expand_files`. -/
def State.dup2Tail (s : State n) (t : Fin n) (file : File) (newfd limit : Nat) : State n :=
  match s.fd newfd with
  | none =>
    if testBit s.openFds newfd then s.set t (.idle (-EBUSY))
    else { s.take newfd limit newfd with
      fd := update s.fd newfd (some file) }.set t (.idle newfd)
  | some _ =>
    -- the file that was there is closed
    { s.mark newfd with fd := update s.fd newfd (some file) }.set t (.idle newfd)

/-- What a call does under the lock when the table has been expanded. -/
def State.resume (s : State n) (t : Fin n) : Call → State n
  | .getUnusedFd limit => s.getUnusedFd t limit
  | .locateFd file origStart limit => s.locateFd t file origStart limit
  | .dup2 file newfd limit => s.dup2Tail t file newfd limit

/-- `expand_files` for `dup2`, from the array on. -/
def State.expandArray (s : State n) (t : Fin n) (c : Call) (nr : Nat) : State n :=
  if s.maxFds ≤ nr then s.beginArray t c nr else s.resume t c

def State.fcheck (s : State n) (fd : Nat) : Option File :=
  if fd < s.maxFds then s.fd fd else none

def State.sysDup2 (s : State n) (t : Fin n) (oldfd newfd limit : Nat) : State n :=
  match s.fcheck oldfd with
  | none => s.set t (.idle (-EBADF))
  | some file =>
    if newfd = oldfd then s.set t (.idle newfd)
    else if limit ≤ newfd then s.set t (.idle (-EBADF))
    else if s.maxFdset ≤ newfd then s.beginSet t (.dup2 file newfd limit) newfd
    else s.expandArray t (.dup2 file newfd limit) newfd

/-! ## Giving it back -/

def State.release (s : State n) (fd : Nat) : State n :=
  { s with
    openFds := clearBit s.openFds fd
    nextFd := if fd < s.nextFd then fd else s.nextFd
    held := s.held.erase fd }

def State.sysClose (s : State n) (fd : Nat) : State n :=
  match s.fcheck fd with
  | none => s
  | some _ =>
    { s with
      fd := update s.fd fd none
      closeOnExec := clearBit s.closeOnExec fd }.release fd

def State.fdInstall (s : State n) (fd : Nat) (file : File) : State n :=
  if (s.fd fd).isSome then { s with bug := true }
  else { s with fd := update s.fd fd (some file) }

/-! ## Steps -/

inductive Event (n : Nat) where
  | getUnusedFd (t : Fin n) (limit : Nat)
  /-- `fd_install` of a descriptor from `get_unused_fd` -/
  | fdInstall (fd : Nat) (file : File)
  | putUnusedFd (fd : Nat)
  /-- `sys_dup` with `start` 0, or `fcntl(F_DUPFD)`: `fget` and the check of the argument -/
  | dup (t : Fin n) (oldfd start limit : Nat)
  | locateFd (t : Fin n)
  /-- `fd_install` at the end of `dupfd` -/
  | install (t : Fin n)
  | dup2 (t : Fin n) (oldfd newfd limit : Nat)
  | close (fd : Nat)
  /-- The lock is taken again after an allocation; `ok` says that there was memory. -/
  | allocated (t : Fin n) (ok : Bool)
  /-- It is taken again after the old table is freed. -/
  | relock (t : Fin n)
deriving DecidableEq

/-- A step. `sys_setrlimit` allows no limit above `NR_OPEN`. -/
def exec (s : State n) : Event n → Option (State n)
  | .getUnusedFd t limit =>
    match s.phase t with
    | .idle _ => if limit ≤ nrOpen then some (s.getUnusedFd t limit) else none
    | _ => none
  | .fdInstall fd file =>
    if fd ∈ s.reserved then
      some ({ s with reserved := s.reserved.erase fd }.fdInstall fd file)
    else none
  | .putUnusedFd fd =>
    if fd ∈ s.reserved then some ({ s with reserved := s.reserved.erase fd }.release fd) else none
  | .dup t oldfd start limit =>
    match s.phase t with
    | .idle _ =>
      if limit ≤ nrOpen then
        match s.fcheck oldfd with
        | none => some (s.set t (.idle (-EBADF)))
        | some file =>
          if start < nrOpen then some (s.set t (.enter file start limit))
          else some (s.set t (.idle (-EINVAL)))
      else none
    | _ => none
  | .locateFd t =>
    match s.phase t with
    | .enter file start limit =>
      if limit ≤ start then some (s.set t (.idle (-EINVAL)))
      else some (s.locateFd t file start limit)
    | _ => none
  | .install t =>
    match s.phase t with
    | .installing fd file => some ((s.set t (.idle fd)).fdInstall fd file)
    | _ => none
  | .dup2 t oldfd newfd limit =>
    match s.phase t with
    | .idle _ => if limit ≤ nrOpen then some (s.sysDup2 t oldfd newfd limit) else none
    | _ => none
  | .close fd => some (s.sysClose fd)
  | .allocated t ok =>
    match s.phase t with
    | .growSet c nr nfds =>
      if ok then some ((s.installSet nfds).set t (.grownSet c nr))
      else some (s.set t (.idle (-ENOMEM)))
    | .growArray c nr nfds =>
      if ok then some ((s.installArray nfds).set t (.grownArray c nr))
      else some (s.set t (.idle (-ENOMEM)))
    | _ => none
  | .relock t =>
    match s.phase t with
    | .grownSet (.getUnusedFd limit) _ => some (s.getUnusedFd t limit)
    | .grownSet c nr => some (s.expandArray t c nr)
    | .grownArray c _ => some (s.resume t c)
    | _ => none

def Step (s : State n) (e : Event n) (s' : State n) : Prop := exec s e = some s'

/-- The descriptor is the smallest one from `start` on that was free, within all limits, and not
handed out already. -/
structure Handout.Right (h : Handout) : Prop where
  least : IsLeast {i | h.start ≤ i ∧ testBit h.openFds i = false} h.fd
  limit : h.fd < h.limit
  fds : h.fd < h.maxFds
  fdset : h.fd < h.maxFdset
  free : h.fd ∉ h.held

end CustomKernel.Fs.Files

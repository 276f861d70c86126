import CustomKernel.Policy.Refinement

/-! # Yields inside the kernel

The gate of `sys_sched_yield` sits in the function and not at the system call
entry, and `yield()` is a macro for that same function. So the loops of the
kernel that give up the processor while they wait go through the gate as well,
on behalf of whatever process happens to run them. Here a process both makes
system calls and goes round such loops. -/
namespace CustomKernel.Policy.Yield
open Lib.Transition Lib.Queue Function
open Policy.Heap Policy.Syscalls Policy.Log
open Policy.Effects Policy.Ownership Policy.Outcomes
open Policy.Bounds Policy.Spec Policy.Refinement

/-! ## The loops -/

def GFP_WAIT : Nat := 0x10
def GFP_FS : Nat := 0x100

/-- `#define yield() sys_sched_yield()` -/
def yield (cur : Addr) (jiffies : Int) : KM Reply := sysSchedYield cur jiffies

/-- Where in the kernel a process is. -/
inductive Path where
  /-- `__alloc_pages`, at `try_again` -/
  | allocPages (gfpMask order : Nat)
  /-- `locks_wake_up_blocks`, with so many waiters on the block list -/
  | wakeUpBlocks (wait : Bool) (waiters : Nat)
  /-- `locks_block_on`, in front of a conflicting lock -/
  | blockOn

/-- What one trip round a loop meets in the rest of the kernel. -/
structure Trip where
  jiffies : Int
  /-- one of the attempts of `__alloc_pages` before the wait finds a page -/
  page : Bool
  /-- `current->flags & PF_MEMALLOC` -/
  memalloc : Bool
  /-- `free_high(ALL_ZONES)` -/
  freeHigh : Int
  /-- what `try_to_free_pages` returns -/
  progress : Bool
  /-- waiters that take themselves off the block list when they get to run -/
  removed : Nat

/-- One trip of `__alloc_pages` from `try_again`. The result is where the
process is next, if it is still in the loop, and what its `yield()` returned, if
it made one. What follows the loop does not yield. -/
def allocPagesTrip (cur : Addr) (gfpMask order : Nat) (m : Trip) :
    KM (Option Path × Option Reply) := do
  if m.page then return (none, none)
  if m.memalloc then return (none, none)
  -- a higher order goes on to `defragment`
  if order > 0 ∧ gfpMask &&& GFP_WAIT ≠ 0 then return (none, none)
  if gfpMask &&& GFP_WAIT ≠ 0 then
    let y ← yield cur m.jiffies
    if order = 0 ∨ m.freeHigh ≥ 0 then
      if m.progress ∨ gfpMask &&& GFP_FS ≠ 0 then
        return (some (.allocPages gfpMask order), some y)
      return (none, some y)
    return (none, some y)
  return (none, none)

/-- One trip of the loop in `locks_wake_up_blocks`. A waiter that is to remove
itself has to run first, and nobody runs unless the processor was given up. -/
def wakeUpBlocksTrip (cur : Addr) (wait : Bool) (waiters : Nat) (m : Trip) :
    KM (Option Path × Option Reply) := do
  if waiters = 0 then return (none, none)
  if wait then
    let y ← yield cur m.jiffies
    return (some (.wakeUpBlocks wait (if y.passed then waiters - m.removed else waiters)), some y)
  return (some (.wakeUpBlocks wait (waiters - 1)), none)

def Path.trip (cur : Addr) (m : Trip) : Path → KM (Option Path × Option Reply)
  | .allocPages gfpMask order => allocPagesTrip cur gfpMask order m
  | .wakeUpBlocks wait waiters => wakeUpBlocksTrip cur wait waiters m
  -- it calls `schedule()` itself
  | .blockOn => return (none, none)

structure Sys where
  k : Kernel
  /-- what each process is doing in the kernel -/
  path : Int → Option Path

inductive Act where
  /-- a system call from user mode, and its reply -/
  | call (c : Call) (r : Reply)
  | enter (pid : Int) (f : Path)
  /-- once round the loop, and what `yield()` returned there -/
  | trip (pid : Int) (m : Trip) (y : Option Reply)

inductive SysStep (s : Sys) : Act → Sys → Prop where
  | call {c : Call} {r : Reply} {k' : Kernel} (hidle : ∀ g, c.gate = some g → s.path g.cur = none)
      (h : Step s.k (c, r) k') : SysStep s (.call c r) { s with k := k' }
  | enter {pid : Int} {f : Path} (h : s.path pid = none) :
      SysStep s (.enter pid f) { s with path := update s.path pid (some f) }
  | trip {pid : Int} {p : Addr} {f : Path} {f' : Option Path} {m : Trip} {y : Option Reply}
      {k' : Kernel} (hp : s.k.pidhash pid = some p) (hf : s.path pid = some f)
      (h : (f.trip p m).run s.k = ((f', y), k')) :
      SysStep s (.trip pid m y) ⟨k', update s.path pid f'⟩

section Trips
variable {k : Kernel} {p : Addr} {t : TaskStruct} {m : Trip}

end Trips

/-! ## What stands in a log -/

def key (r : ForbiddenActivityInfo) : Int × Int := (r.syscallReqLevel, r.time)

section Standing
variable {σ σ' : System (List ForbiddenActivityInfo)} {oom : Bool} {pid : Int}
  {q : List (Int × Int)} {c : Call}

end Standing

/-! ## Runs -/

section Runs
variable {s s' : Sys} {e : Act}

end Runs

end CustomKernel.Policy.Yield

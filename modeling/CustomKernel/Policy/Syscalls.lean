import CustomKernel.Policy.Heap
import Mathlib.Algebra.Order.Ring.Nat

/-! # The policy system calls and the gates

Each function is cut where the C code may sleep: at every
`kmalloc(GFP_KERNEL)` and at `copy_to_user`. The pieces are named after the
part of the call they run, and the whole system call is their composition.
What the rest of the kernel decides (the address the allocator hands out, the
outcome of a copy, the pid of a new child) comes in as an argument. -/
namespace CustomKernel.Policy.Syscalls
open Policy.Heap

def EPERM : Int := 1
def ESRCH : Int := 3
def EAGAIN : Int := 11
def ENOMEM : Int := 12
def EINVAL : Int := 22

/-- The password every caller must present. -/
def policyPassword : Int := 234123

/-! ## `sys_enable_policy` -/

/-- Lookup and checks, up to the first `kmalloc`. -/
def enablePolicyChecks (pid size password : Int) : KM (Except Int Addr) := do
  let some p ← findTaskByPid pid | return .error (-ESRCH)
  if password ≠ policyPassword then return .error (-EINVAL)
  if (← loadTask p).policyOn = 1 then return .error (-EINVAL)
  if size < 0 then return .error (-EINVAL)
  return .ok p

/-- The tail of the call, once both blocks are there. -/
def enablePolicyInit (p : Addr) (size : Int) : KM Int := do
  storeLog (← loadTask p).logArray fun l => { l with indexRead := 0 }
  storeLog (← loadTask p).logArray fun l => { l with indexWrite := 0 }
  storeLog (← loadTask p).logArray fun l => { l with size := size }
  storeTask p fun t => { t with policyLevel := 2 }
  storeTask p fun t => { t with policyOn := 1 }
  storeLog (← loadTask p).logArray fun l => { l with full := 0 }
  return 0

/-- From the first `kmalloc` to the second, or to the end when `size` is 0:
`none` means that the call goes on to ask for the record array. -/
def enablePolicyLog (p : Addr) (size : Int) (a : Addr) (junk : LogArray) :
    KM (Option Int) := do
  let a ← kmalloc a (.log junk)
  storeTask p fun t => { t with logArray := a }
  if (← loadTask p).logArray = 0 then return some (-ENOMEM)
  if size ≠ 0 then return none
  return some (← enablePolicyInit p size)

/-- `size * sizeof(struct forbidden_activity_info)`, a 32-bit product. -/
def requestBytes (size : Int) : Nat := (size.toNat * sizeofInfo) % 2 ^ 32

/-- From the second `kmalloc` to the end. -/
def enablePolicyArray (p : Addr) (size : Int) (a : Addr)
    (junk : Int → ForbiddenActivityInfo) : KM Int := do
  let a ← kmalloc a (.records (requestBytes size) junk)
  storeLog (← loadTask p).logArray fun l => { l with array := a }
  if (← loadLog (← loadTask p).logArray).array = 0 then
    kfree (← loadTask p).logArray
    return -ENOMEM
  enablePolicyInit p size

/-- What the two allocations of `sys_enable_policy` are given: an address each
and the stale contents of the block. -/
structure EnableMem where
  log : Addr
  logJunk : LogArray
  array : Addr
  arrayJunk : Int → ForbiddenActivityInfo

def sysEnablePolicy (pid size password : Int) (m : EnableMem) : KM Int := do
  match ← enablePolicyChecks pid size password with
  | .error e => return e
  | .ok p =>
    match ← enablePolicyLog p size m.log m.logJunk with
    | some r => return r
    | none => enablePolicyArray p size m.array m.arrayJunk

/-! ## `sys_disable_policy` and `sys_set_process_capabilities` -/

def sysDisablePolicy (pid password : Int) : KM Int := do
  let some p ← findTaskByPid pid | return -ESRCH
  if (← loadTask p).policyOn = 0 then return -EINVAL
  if password ≠ policyPassword then return -EINVAL
  storeTask p fun t => { t with policyOn := 0 }
  storeTask p fun t => { t with policyLevel := 2 }
  if (← loadLog (← loadTask p).logArray).size ≠ 0 then
    kfree (← loadLog (← loadTask p).logArray).array
  kfree (← loadTask p).logArray
  return 0

def sysSetProcessCapabilities (pid newLevel password : Int) : KM Int := do
  let some p ← findTaskByPid pid | return -ESRCH
  if newLevel > 2 ∨ newLevel < 0 then return -EINVAL
  if password ≠ policyPassword then return -EINVAL
  if (← loadTask p).policyOn = 0 then return -EINVAL
  storeTask p fun t => { t with policyLevel := newLevel }
  return 0

/-! ## `sys_get_process_log` -/

/-- The tests that refuse a read for want of records. They only apply while
the log is not full. -/
def tooFewRecords (l : LogArray) (size : Int) : Bool :=
  if l.full ≠ 1 then
    if l.indexWrite = l.indexRead ∧ size > 0 then true
    else if l.indexWrite ≥ l.indexRead then decide (l.indexWrite - l.indexRead < size)
    else decide (l.size - l.indexRead + l.indexWrite < size)
  else false

/-- Lookup and checks. The result is the task and `prev_indexRead`. -/
def getProcessLogChecks (pid size : Int) : KM (Except Int (Addr × Int)) := do
  let some p ← findTaskByPid pid | return .error (-ESRCH)
  if (← loadTask p).policyOn = 0 then return .error (-EINVAL)
  let l ← loadLog (← loadTask p).logArray
  if size > l.size ∨ size < 0 then return .error (-EINVAL)
  if tooFewRecords l size then return .error (-EINVAL)
  return .ok (p, l.indexRead)

/-- One round of the copy loop. -/
def copyRecord (p temp : Addr) : KM Unit := do
  let l ← loadLog (← loadTask p).logArray
  let r ← loadElem l.array l.indexRead
  storeTemp temp (· ++ [r])
  storeLog (← loadTask p).logArray fun l => { l with indexRead := l.indexRead + 1 }
  let l ← loadLog (← loadTask p).logArray
  if l.indexRead = l.size then
    storeLog (← loadTask p).logArray fun l => { l with indexRead := 0 }

def copyLoop (p temp : Addr) : Nat → KM Unit
  | 0 => pure ()
  | n + 1 => do
    copyRecord p temp
    copyLoop p temp n

/-- From the `kmalloc` of the temporary array to `copy_to_user`. -/
def getProcessLogCopy (p : Addr) (size : Int) (a : Addr) : KM (Except Int Addr) := do
  let temp ← kmalloc a (.temp [])
  if temp = 0 then return .error (-ENOMEM)
  copyLoop p temp size.toNat
  return .ok temp

/-- From `copy_to_user` to the end. `copied` tells whether it copied
everything; the second component is what the caller then finds in
`user_mem`. -/
def getProcessLogFinish (p : Addr) (size prevIndexRead : Int) (temp : Addr) (copied : Bool) :
    KM (Int × List ForbiddenActivityInfo) := do
  let data ← loadTemp temp
  if !copied then
    kfree temp
    storeLog (← loadTask p).logArray fun l => { l with indexRead := prevIndexRead }
    return (-ENOMEM, [])
  kfree temp
  storeLog (← loadTask p).logArray fun l => { l with full := 0 }
  if size = (← loadLog (← loadTask p).logArray).size then
    storeLog (← loadTask p).logArray fun l => { l with indexWrite := 0 }
    storeLog (← loadTask p).logArray fun l => { l with indexRead := 0 }
  return (0, data)

def sysGetProcessLog (pid size : Int) (tempMem : Addr) (copied : Bool) :
    KM (Int × List ForbiddenActivityInfo) := do
  match ← getProcessLogChecks pid size with
  | .error e => return (e, [])
  | .ok (p, prev) =>
    match ← getProcessLogCopy p size tempMem with
    | .error e => return (e, [])
    | .ok temp => getProcessLogFinish p size prev temp copied

/-! ## The gates in `do_fork`, `sys_wait4` and `sys_sched_yield` -/

/-- The writer, of which the source has three copies that differ in the
required level only. -/
def addLog (cur : Addr) (reqLevel jiffies : Int) : KM Unit := do
  let t ← loadTask cur
  let l ← loadLog t.logArray
  storeElem l.array l.indexWrite ⟨reqLevel, t.policyLevel, jiffies⟩
  storeLog t.logArray fun l => { l with indexWrite := l.indexWrite + 1 }
  let l ← loadLog t.logArray
  if l.indexWrite = l.size then
    storeLog t.logArray fun l => { l with indexWrite := 0 }
  let l ← loadLog t.logArray
  if l.indexWrite = l.indexRead then
    storeLog t.logArray fun l => { l with full := 1 }

/-- The test in front of the writer. -/
def TaskStruct.denied (t : TaskStruct) (reqLevel : Int) : Prop :=
  t.policyOn = 1 ∧ t.policyLevel < reqLevel

instance (t : TaskStruct) (reqLevel : Int) : Decidable (TaskStruct.denied t reqLevel) := by
  unfold TaskStruct.denied; infer_instance

/-- `true` when the call was refused, and logged. -/
def policyGate (cur : Addr) (reqLevel jiffies : Int) : KM Bool := do
  if TaskStruct.denied (← loadTask cur) reqLevel then
    addLog cur reqLevel jiffies
    return true
  return false

/-- What a call hands back: its return value, the records that reached user
memory, and whether control got past the policy gate. -/
structure Reply where
  ret : Int
  out : List ForbiddenActivityInfo
  passed : Bool
deriving DecidableEq, Repr

/-- A gated call: refused with `-EINVAL`, or on with its own body. -/
def gated (cur : Addr) (reqLevel jiffies : Int) (body : KM Int) : KM Reply := do
  if ← policyGate cur reqLevel jiffies then return ⟨-EINVAL, [], false⟩
  return ⟨← body, [], true⟩

def CLONE_FS : Nat := 0x00000200
def CLONE_PID : Nat := 0x00001000
def CLONE_NEWNS : Nat := 0x00020000

def hashPid (pid : Int) (p : Addr) : KM Unit := fun k =>
  ((), { k with pidhash := Function.update k.pidhash pid (some p) })

def unhashPid (pid : Int) : KM Unit := fun k =>
  ((), { k with pidhash := Function.update k.pidhash pid none })

/-- What `do_fork` meets past the point where the child's policy fields are
reset: an error of one of the later steps, or the pid `get_pid` found. -/
abbrev ForkRest := Except Int Int

/-- `do_fork` behind its gate. A pid that is taken stands for `get_pid` having
found none, which is `-EAGAIN`. -/
def doForkBody (cur : Addr) (cloneFlags : Nat) (child : Addr) (rest : ForkRest) : KM Int := do
  if cloneFlags &&& (CLONE_NEWNS ||| CLONE_FS) = CLONE_NEWNS ||| CLONE_FS then return -EINVAL
  if cloneFlags &&& CLONE_PID ≠ 0 ∧ (← loadTask cur).pid ≠ 0 then return -EPERM
  -- `*p = *current`
  let p ← kmalloc child (.task (← loadTask cur))
  if p = 0 then return -ENOMEM
  storeTask p fun t => { t with policyLevel := 2 }
  storeTask p fun t => { t with policyOn := 0 }
  storeTask p fun t => { t with logArray := 0 }
  match rest with
  | .error e =>
    kfree p
    return e
  | .ok pid =>
    if (← findTaskByPid pid).isSome then
      kfree p
      return -EAGAIN
    storeTask p fun t => { t with pid := pid }
    hashPid pid p
    return pid

def doFork (cur : Addr) (jiffies : Int) (cloneFlags : Nat) (child : Addr) (rest : ForkRest) :
    KM Reply :=
  gated cur 2 jiffies (doForkBody cur cloneFlags child rest)

/-- `release_task`: the zombie leaves the pid hash, gives back its log and is
freed. -/
def releaseTask (p : Addr) : KM Unit := do
  unhashPid (← loadTask p).pid
  storeTask p fun t => { t with pid := 0 }
  if (← loadTask p).policyOn ≠ 0 then
    if (← loadLog (← loadTask p).logArray).size > 0 then
      kfree (← loadLog (← loadTask p).logArray).array
    kfree (← loadTask p).logArray
  kfree p

/-- `WNOHANG | WUNTRACED | __WNOTHREAD | __WCLONE | __WALL` -/
def waitOptions : Nat := 0x00000001 ||| 0x00000002 ||| 0x20000000 ||| 0x80000000 ||| 0x40000000

/-- How the scan of `sys_wait4` ends: with a value to return, or at a zombie
that is handed to `release_task`. -/
inductive WaitScan where
  | done (ret : Int)
  | zombie (pid : Int)

def sysWait4Body (cur : Addr) (options : Nat) (scan : WaitScan) : KM Int := do
  if options &&& (0xffffffff ^^^ waitOptions) ≠ 0 then return -EINVAL
  match scan with
  | .done r => return r
  | .zombie pid =>
    -- a task is never its own child
    match ← findTaskByPid pid with
    | none => return 0
    | some p =>
      if p = cur then return 0
      releaseTask p
      return pid

def sysWait4 (cur : Addr) (jiffies : Int) (options : Nat) (scan : WaitScan) : KM Reply :=
  gated cur 1 jiffies (sysWait4Body cur options scan)

/-- `sys_sched_yield`. Behind the gate it works on the run queue only and
calls `schedule()`. -/
def sysSchedYield (cur : Addr) (jiffies : Int) : KM Reply :=
  gated cur 1 jiffies (pure 0)

/-! ## System calls as the steps of a run -/

/-- One system call. The four policy calls look at no property of their
caller, so only the gated ones name the process that makes them. -/
inductive Call where
  | enablePolicy (pid size password : Int) (m : EnableMem)
  | disablePolicy (pid password : Int)
  | setProcessCapabilities (pid newLevel password : Int)
  | getProcessLog (pid size : Int) (tempMem : Addr) (copied : Bool)
  | fork (cur jiffies : Int) (cloneFlags : Nat) (child : Addr) (rest : ForkRest)
  | wait4 (cur jiffies : Int) (options : Nat) (scan : WaitScan)
  | schedYield (cur jiffies : Int)

/-- A passage through a gate: the process that makes the call, the level the
call requires, and the time. -/
structure Gate where
  cur : Int
  reqLevel : Int
  jiffies : Int

def Call.gate : Call → Option Gate
  | .fork cur jiffies .. => some ⟨cur, 2, jiffies⟩
  | .wait4 cur jiffies .. => some ⟨cur, 1, jiffies⟩
  | .schedYield cur jiffies => some ⟨cur, 1, jiffies⟩
  | _ => none

/-- The pid a call looks up first. -/
def Call.pid : Call → Int
  | .enablePolicy pid .. | .disablePolicy pid _ | .setProcessCapabilities pid ..
  | .getProcessLog pid .. => pid
  | .fork cur .. | .wait4 cur .. | .schedYield cur _ => cur

def Reply.ofRet (r : Int) : Reply := ⟨r, [], true⟩

/-- Look up `current`; a process that is gone makes no call. -/
def asCurrent (cur : Int) (f : Addr → KM Reply) : KM Reply := do
  let some p ← findTaskByPid cur | return .ofRet 0
  f p

def Call.exec : Call → KM Reply
  | .enablePolicy pid size password m => return .ofRet (← sysEnablePolicy pid size password m)
  | .disablePolicy pid password => return .ofRet (← sysDisablePolicy pid password)
  | .setProcessCapabilities pid newLevel password =>
    return .ofRet (← sysSetProcessCapabilities pid newLevel password)
  | .getProcessLog pid size tempMem copied => do
    let (ret, out) ← sysGetProcessLog pid size tempMem copied
    return ⟨ret, out, true⟩
  | .fork cur jiffies flags child rest =>
    asCurrent cur fun p => doFork p jiffies flags child rest
  | .wait4 cur jiffies options scan => asCurrent cur fun p => sysWait4 p jiffies options scan
  | .schedYield cur jiffies => asCurrent cur fun p => sysSchedYield p jiffies

/-- One step of the system: a call and what it replied. -/
def Step (k : Kernel) (e : Call × Reply) (k' : Kernel) : Prop := e.1.exec.run k = (e.2, k')

end CustomKernel.Policy.Syscalls

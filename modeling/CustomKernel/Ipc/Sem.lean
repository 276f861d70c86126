import CustomKernel.Ipc.Sempid

/-! # Semaphore sets

The sets, the processes that use them and their undo records. A set is found by the lower part
of its identifier, whose upper part is a sequence number. An undo record is linked in the list
of its process and in the list of its set; a set that is removed leaves its records with the
processes, marked by a missing identifier.

A step is what a process does between taking and releasing the lock of the sets. `sys_semop`
releases it to allocate an undo record and to sleep, and `sem_exit` after each record. -/
namespace CustomKernel.Ipc.Sem
open Semop Function

/-! ## Data -/

def EINTR : Int := 4
def ENOMEM : Int := 12
def EACCES : Int := 13
def EINVAL : Int := 22
def EFBIG : Int := 27
def EIDRM : Int := 43

/-- `SEQ_MULTIPLIER`, which is `IPCMNI`. -/
def seqMultiplier : Nat := 32768

def buildid (lid seq : Nat) : Nat := seqMultiplier * seq + lid

def lidOf (semid : Nat) : Nat := semid % seqMultiplier

/-- Operations as `sys_semop` gets them: `sem_op` is a `short`. -/
structure Sops where
  list : List Sembuf
  inRange : ∀ sop ∈ list, sop.InRange

def Sops.decreases (sops : Sops) : Bool := sops.list.any fun sop => sop.semOp < 0

def Sops.alters (sops : Sops) : Bool := sops.list.any fun sop => sop.semOp ≠ 0

/-- `struct sem_queue`, for a process that sleeps. -/
structure Queue where
  sleeper : Nat
  id : Nat
  sops : Sops
  undo : Option Nat
  /-- 1 once it has been woken up to try again -/
  status : Int
  /-- some operation lowers a value -/
  alter : Bool

/-- What is fixed about a set. -/
structure Head where
  addr : Nat
  seq : Nat
  nsems : Nat

def Head.checkid (h : Head) (semid : Nat) : Bool := semid / seqMultiplier != h.seq

/-- Where a process is. -/
inductive Place where
  | user
  /-- in `alloc_undo`, without the lock -/
  | allocating (semid addr nsems : Nat) (sops : Sops)
  /-- in `schedule`, on the list of the set -/
  | asleep (semid : Nat)
  /-- in `schedule`, taken from the list with a result -/
  | woken (semid : Nat) (status : Int)
  /-- in `sem_exit`, with the identifier read from the first record -/
  | exiting (semid : Option Nat)

/-- What has happened, for the statements: results of calls, and what counts for the
adjustments. -/
inductive Entry where
  | returned (task : Nat) (error : Int)
  | done (task lid : Nat) (sops : List Sembuf)
  | set (lid lo hi : Nat)
  | created (lid : Nat)
  | undone (task lid : Nat)

/-- The fields of the sets are kept by the lower part of the identifier, those of undo records
by number and those of processes by process identifier. -/
structure State where
  sets : Nat → Option Head
  semval : Nat → Nat → Int
  sempid : Nat → Nat → BitVec 32
  pending : Nat → List Queue
  undo : Nat → List Nat
  seq : Nat
  /-- of an undo record; none for -1 -/
  semid : Nat → Option Nat
  semadj : Nat → Nat → Int
  fresh : Nat
  semundo : Nat → List Nat
  place : Nat → Place
  log : List Entry

def boot : State where
  sets := fun _ => none
  semval := fun _ _ => 0
  sempid := fun _ _ => 0
  pending := fun _ => []
  undo := fun _ => []
  seq := 0
  semid := fun _ => none
  semadj := fun _ _ => 0
  fresh := 0
  semundo := fun _ => []
  place := fun _ => .user
  log := []

def pidOf (t : Nat) : BitVec 32 := BitVec.ofNat 32 t

/-! ## One attempt -/

/-- What `try_atomic_semop` may change. -/
structure Cells where
  semval : Nat → Int
  sempid : Nat → BitVec 32
  semadj : Nat → Nat → Int

def Cells.values (c : Cells) : Option Nat → Values
  | some u => ⟨c.semval, c.semadj u⟩
  | none => ⟨c.semval, fun _ => 0⟩

def Cells.put (c : Cells) (un : Option Nat) (s : Semop.State) : Cells where
  semval := s.semval
  sempid := s.sempid
  semadj :=
    match un with
    | some u => update c.semadj u s.semadj
    | none => c.semadj

def Cells.result (c : Cells) (t : Nat) (sops : Sops) (un : Option Nat) (doUndo : Bool) : Int :=
  (tryAtomicSemop sops.list (pidOf t) doUndo ⟨c.values un, c.sempid⟩).1

def Cells.after (c : Cells) (t : Nat) (sops : Sops) (un : Option Nat) (doUndo : Bool) : Cells :=
  c.put un (tryAtomicSemop sops.list (pidOf t) doUndo ⟨c.values un, c.sempid⟩).2

/-! ## The queue -/

/-- An operation that was done is logged. -/
def done (t lid : Nat) (sops : Sops) (error : Int) : List Entry :=
  if error = 0 then [.done t lid sops.list] else []

/-- What a pass over the queue leaves. -/
structure Pass where
  pending : List Queue
  /-- taken from the queue, each with its result -/
  woken : List (Queue × Int)
  cells : Cells
  log : List Entry

def Pass.keep (q : Queue) (p : Pass) : Pass := { p with pending := q :: p.pending }

def Pass.take (q : Queue) (error : Int) (p : Pass) : Pass :=
  { p with woken := (q, error) :: p.woken }

def updateQueue (lid : Nat) : List Queue → Cells → List Entry → Pass
  | [], c, log => ⟨[], [], c, log⟩
  | q :: rest, c, log =>
    let result := c.result q.sleeper q.sops q.undo q.alter
    let c' := c.after q.sleeper q.sops q.undo q.alter
    -- this one was woken up before
    if q.status = 1 then (updateQueue lid rest c log).keep q
    else if result ≤ 0 then
      -- let it try itself
      if result = 0 ∧ q.alter = true then ⟨{ q with status := 1 } :: rest, [], c', log⟩
      else (updateQueue lid rest c' (done q.sleeper lid q.sops result ++ log)).take q result
    else (updateQueue lid rest c' log).keep q

def State.cells (s : State) (lid : Nat) : Cells := ⟨s.semval lid, s.sempid lid, s.semadj⟩

def State.putCells (s : State) (lid : Nat) (c : Cells) : State :=
  { s with
    semval := update s.semval lid c.semval
    sempid := update s.sempid lid c.sempid
    semadj := c.semadj }

def State.setPlace (s : State) (t : Nat) (p : Place) : State :=
  { s with place := update s.place t p }

def State.setUndo (s : State) (t : Nat) (us : List Nat) : State :=
  { s with semundo := update s.semundo t us }

def State.setPending (s : State) (lid : Nat) (qs : List Queue) : State :=
  { s with pending := update s.pending lid qs }

def State.leave (s : State) (t : Nat) (error : Int) : State :=
  { s with place := update s.place t .user, log := .returned t error :: s.log }

def wake (ws : List (Queue × Int)) (place : Nat → Place) (t : Nat) : Place :=
  match ws.find? (·.1.sleeper = t) with
  | some w => .woken w.1.id w.2
  | none => place t

def State.putPass (s : State) (lid : Nat) (p : Pass) : State :=
  { (s.putCells lid p.cells).setPending lid p.pending with
    place := wake p.woken s.place
    log := p.log }

def State.pass (s : State) (lid : Nat) : State :=
  s.putPass lid (updateQueue lid (s.pending lid) (s.cells lid) s.log)

/-! ## `sys_semop` -/

/-- The label `update`. -/
def State.finish (s : State) (t lid : Nat) (sops : Sops) (error : Int) : State :=
  (if sops.alters then s.pass lid else s).leave t error

def State.leaveWith (s : State) (t lid : Nat) (sops : Sops) (un : Option Nat) : State :=
  State.finish
    { s.putCells lid ((s.cells lid).after t sops un false) with
      log := done t lid sops ((s.cells lid).result t sops un false) ++ s.log }
    t lid sops ((s.cells lid).result t sops un false)

/-- `append_to_queue` or `prepend_to_queue`. -/
def enqueue (q : Queue) (qs : List Queue) : List Queue :=
  if q.sops.alters then qs ++ [q] else q :: qs

/-- The first attempt. -/
def State.attempt (s : State) (t semid : Nat) (sops : Sops) (un : Option Nat) : State :=
  let lid := lidOf semid
  if (s.cells lid).result t sops un false ≤ 0 then s.leaveWith t lid sops un
  else
    ((s.putCells lid ((s.cells lid).after t sops un false)).setPending lid
      (enqueue ⟨t, semid, sops, un, -EINTR, sops.decreases⟩ (s.pending lid))).setPlace t
      (.asleep semid)

/-- The search for the record of a set. Records of removed sets are freed on the way. -/
def findUndo (ids : Nat → Option Nat) (semid : Nat) : List Nat → Option Nat × List Nat
  | [] => (none, [])
  | u :: us =>
    if ids u = some semid then (some u, u :: us)
    else if ids u = none then findUndo ids semid us
    else ((findUndo ids semid us).1, u :: (findUndo ids semid us).2)

/-- With the undo record, if one is needed. -/
def State.semopWith (s : State) (t semid : Nat) (h : Head) (sops : Sops) : State :=
  if sops.list.any (·.undo) then
    let found := findUndo s.semid semid (s.semundo t)
    match found.1 with
    | some u => (s.setUndo t found.2).attempt t semid sops (some u)
    | none => (s.setUndo t found.2).setPlace t (.allocating semid h.addr h.nsems sops)
  else s.attempt t semid sops none

def State.sysSemop (s : State) (t semid : Nat) (sops : Sops) (permitted : Bool) : State :=
  match s.sets (lidOf semid) with
  | none => s.leave t (-EINVAL)
  | some h =>
    if sops.list.isEmpty then s.leave t (-EINVAL)
    else if h.checkid semid then s.leave t (-EIDRM)
    else if ∃ sop ∈ sops.list, h.nsems ≤ sop.semNum then s.leave t (-EFBIG)
    else if permitted = false then s.leave t (-EACCES)
    else s.semopWith t semid h sops

def State.revalidate (s : State) (semid addr nsems : Nat) (permitted : Bool) : Except Int Head :=
  match s.sets (lidOf semid) with
  | none => .error (-EIDRM)
  | some h =>
    if h.addr ≠ addr ∨ h.checkid semid = true ∨ h.nsems ≠ nsems then .error (-EIDRM)
    else if permitted = false then .error (-EACCES)
    else .ok h

/-- A new record, linked in both lists by the process, which has the lock again. -/
def State.link (s : State) (t semid : Nat) : State :=
  { s with
    place := update s.place t .user
    semundo := update s.semundo t (s.fresh :: s.semundo t)
    undo := update s.undo (lidOf semid) (s.fresh :: s.undo (lidOf semid))
    semid := update s.semid s.fresh (some semid)
    semadj := update s.semadj s.fresh fun _ => 0
    fresh := s.fresh + 1 }

/-- `alloc_undo` from the allocation on, and what follows it. -/
def State.allocUndo (s : State) (t semid addr nsems : Nat) (sops : Sops)
    (allocated permitted : Bool) : State :=
  if allocated = false then s.leave t (-ENOMEM)
  else
    match s.revalidate semid addr nsems permitted with
    | .error error => s.leave t error
    | .ok _ => (s.link t semid).attempt t semid sops (some s.fresh)

/-- After `schedule`, still on the list of the set. -/
def State.resume (s : State) (lid : Nat) (q : Queue) : State :=
  let others := (s.pending lid).filter (·.sleeper ≠ q.sleeper)
  if q.status = 1 then
    if (s.cells lid).result q.sleeper q.sops q.undo false ≤ 0 then
      (s.setPending lid others).leaveWith q.sleeper lid q.sops q.undo
    else
      (s.putCells lid ((s.cells lid).after q.sleeper q.sops q.undo false)).setPending lid
        ((s.pending lid).map fun q' =>
          if q'.sleeper = q.sleeper then { q' with status := -EINTR } else q')
  else
    -- got an interrupt
    (s.setPending lid others).finish q.sleeper lid q.sops q.status

/-! ## `semctl`, `semget` and `sem_exit` -/

/-- `SETVAL` and `SETALL` for the semaphores from `lo` up to `hi`: the values are set, and no
record of the set has an adjustment for them any more. -/
def State.setVals (s : State) (lid lo hi : Nat) (vals : Nat → Int) : State :=
  State.pass
    { s with
      semval := update s.semval lid fun n => if lo ≤ n ∧ n < hi then vals n else s.semval lid n
      semadj := fun u n => if u ∈ s.undo lid ∧ lo ≤ n ∧ n < hi then 0 else s.semadj u n
      log := .set lid lo hi :: s.log }
    lid

def State.semctlSetval (s : State) (t semid n : Nat) (val : Int) (permitted : Bool) : State :=
  match s.sets (lidOf semid) with
  | none => s.leave t (-EINVAL)
  | some h =>
    if h.checkid semid then s.leave t (-EIDRM)
    else if permitted = false then s.leave t (-EACCES)
    else if h.nsems ≤ n then s.leave t (-EINVAL)
    else if val > semvmx ∨ val < 0 then s.leave t (-ERANGE)
    else
      State.leave
        (State.setVals
          { s with
            sempid := update s.sempid (lidOf semid) (update (s.sempid (lidOf semid)) n (pidOf t)) }
          (lidOf semid) n (n + 1) fun _ => val)
        t 0

/-- `SETALL` from the check of the values on: `addr` and `nsems` are of the set as it was when
the lock was released. -/
def State.semctlSetall (s : State) (t semid addr nsems : Nat) (vals : Nat → Nat)
    (permitted : Bool) : State :=
  if ∃ n < nsems, (vals n : Int) > semvmx then s.leave t (-ERANGE)
  else
    match s.revalidate semid addr nsems permitted with
    | .error error => s.leave t error
    | .ok _ =>
      (s.setVals (lidOf semid) 0 nsems fun n => vals n).leave t 0

def State.newary (s : State) (lid addr nsems : Nat) : State :=
  { s with
    sets := update s.sets lid (some ⟨addr, s.seq, nsems⟩)
    semval := update s.semval lid fun _ => 0
    sempid := update s.sempid lid fun _ => 0
    seq := (s.seq + 1) % 65536
    log := .created lid :: s.log }

def State.freeary (s : State) (lid : Nat) : State :=
  { s with
    sets := update s.sets lid none
    semid := fun u => if u ∈ s.undo lid then none else s.semid u
    undo := update s.undo lid []
    place := wake ((s.pending lid).map fun q => (q, -EIDRM)) s.place
    pending := update s.pending lid [] }

def State.semctlRmid (s : State) (t semid : Nat) (permitted : Bool) : State :=
  match s.sets (lidOf semid) with
  | none => s.leave t (-EINVAL)
  | some h =>
    if h.checkid semid then s.leave t (-EIDRM)
    else if permitted = false then s.leave t (-EACCES)
    else (s.freeary (lidOf semid)).leave t 0

/-- The adjustment of one semaphore. -/
def adjust (val adj : Int) : Int := if int32 (val + adj) < 0 then 0 else int32 (val + adj)

/-- The record `u` is taken from its set, and its adjustments are made. -/
def State.applyUndo (s : State) (t lid nsems u : Nat) : State :=
  { s with
    undo := update s.undo lid ((s.undo lid).erase u)
    semval := update s.semval lid fun n =>
      if n < nsems then adjust (s.semval lid n) (s.semadj u n) else s.semval lid n
    sempid := update s.sempid lid fun n => if n < nsems then pidOf t else s.sempid lid n
    log := .undone t lid :: s.log }

/-- The rest of the loop body of `sem_exit` for the record `u`. -/
def State.exitRecord (s : State) (t semid u : Nat) : State :=
  match s.sets (lidOf semid), s.semid u with
  | some h, some id =>
    if h.checkid id = false ∧ u ∈ s.undo (lidOf semid) then
      (s.applyUndo t (lidOf semid) h.nsems u).pass (lidOf semid)
    else s
  | _, _ => s

def State.exitStep (s : State) (t : Nat) (read : Option Nat) : State :=
  match s.semundo t with
  | [] => s.setPlace t .user
  | u :: us =>
    match read with
    | some semid => ((s.exitRecord t semid u).setUndo t us).setPlace t (.exiting none)
    | none =>
      match s.semid u with
      | none => s.setUndo t us
      | some semid => s.setPlace t (.exiting (some semid))

/-! ## Steps -/

inductive Op where
  | semget (lid addr nsems : Nat)
  | rmid (t semid : Nat) (permitted : Bool)
  | setval (t semid n : Nat) (val : Int) (permitted : Bool)
  | setall (t semid addr nsems : Nat) (vals : Nat → Nat) (permitted : Bool)
  | semop (t semid : Nat) (sops : Sops) (permitted : Bool)
  | alloc (t : Nat) (allocated permitted : Bool)
  | resume (t : Nat)
  | exit (t : Nat)

/-- A process makes its calls in user mode, and its number is below `PID_MAX`. -/
def State.call (s : State) (t : Nat) (s' : State) : Option State :=
  match s.place t with
  | .user => if t < pidMax then some s' else none
  | _ => none

def exec (s : State) : Op → Option State
  | .semget lid addr nsems =>
    if (s.sets lid).isNone ∧ lid < seqMultiplier ∧ nsems ≠ 0 then some (s.newary lid addr nsems)
    else none
  | .rmid t semid permitted => s.call t (s.semctlRmid t semid permitted)
  | .setval t semid n val permitted => s.call t (s.semctlSetval t semid n val permitted)
  | .setall t semid addr nsems vals permitted =>
    s.call t (s.semctlSetall t semid addr nsems vals permitted)
  | .semop t semid sops permitted => s.call t (s.sysSemop t semid sops permitted)
  | .alloc t allocated permitted =>
    match s.place t with
    | .allocating semid addr nsems sops =>
      some (s.allocUndo t semid addr nsems sops allocated permitted)
    | _ => none
  | .resume t =>
    match s.place t with
    | .asleep semid =>
      ((s.pending (lidOf semid)).find? (·.sleeper = t)).map (s.resume (lidOf semid))
    | .woken semid status =>
      some (s.leave t (if (s.sets (lidOf semid)).isNone then -EIDRM else status))
    | _ => none
  | .exit t =>
    match s.place t with
    | .exiting read => some (s.exitStep t read)
    | _ => s.call t (s.setPlace t (.exiting none))

def Step (s : State) (op : Op) (s' : State) : Prop := exec s op = some s'

end CustomKernel.Ipc.Sem

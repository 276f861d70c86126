import CustomKernel.Lib.Census

/-! # Message queues

One queue and the tasks that send to it and receive from it. A step is what a task does between
two points where others may go on: a section under the lock of the queue, a look at `r_msg` without
the lock, the copy to or from user space. `q_qnum`, `q_cbytes` and `q_qbytes` are 32-bit words. -/
namespace CustomKernel.Ipc.Msg
open Lib.Census

def EINTR : Int := 4
def E2BIG : Int := 7
def EAGAIN : Int := 11
def ENOMEM : Int := 12
def EACCES : Int := 13
def EFAULT : Int := 14
def EINVAL : Int := 22
def ENOMSG : Int := 42

def INT_MAX : Nat := 2 ^ 31 - 1

/-- A value as a `long` holds it. -/
def long (x : Int) : Int := Int.bmod x (2 ^ 32)

/-- A value as an `unsigned long` holds it. -/
def ulong (x : Nat) : Nat := x % 2 ^ 32

/-! ## Messages and selectors -/

/-- A message. `id` tells it from every other one. -/
structure Msg where
  id : Nat
  type : Int
  type_pos : 1 ≤ type
  text : List UInt8
deriving DecidableEq

def Msg.ts (m : Msg) : Nat := m.text.length

/-- `sizeof(struct msg_msg)` -/
def headerSize : Nat := 20

/-- The memory that a message takes at least. -/
def Msg.footprint (m : Msg) : Nat := headerSize + m.ts

inductive Mode where
  | any
  | equal
  | notEqual
  | lessEqual
deriving DecidableEq, Repr

/-- The arguments of `sys_msgrcv`, with `MSG_EXCEPT`, `MSG_NOERROR` and `IPC_NOWAIT`. -/
structure Request where
  msgtyp : Int
  msgsz : Nat
  except : Bool
  noerror : Bool
  nowait : Bool
deriving DecidableEq, Repr

def convertMode (msgtyp : Int) (except : Bool) : Mode × Int :=
  if msgtyp = 0 then (.any, msgtyp)
  else if msgtyp < 0 then (.lessEqual, long (-msgtyp))
  else if except then (.notEqual, msgtyp)
  else (.equal, msgtyp)

def Request.mode (r : Request) : Mode := (convertMode r.msgtyp r.except).1
def Request.type (r : Request) : Int := (convertMode r.msgtyp r.except).2

def Request.maxsize (r : Request) : Nat := if r.noerror then INT_MAX else r.msgsz

def testmsg (m : Msg) (type : Int) : Mode → Bool
  | .any => true
  | .lessEqual => decide (m.type ≤ type)
  | .equal => decide (m.type = type)
  | .notEqual => decide (m.type ≠ type)

/-- The search loop of `sys_msgrcv`, with what it has found so far. It also changes `msgtyp`. -/
def scan (mode : Mode) : List Msg → Int → Option Msg → Option Msg × Int
  | [], msgtyp, found => (found, msgtyp)
  | m :: q, msgtyp, found =>
    if testmsg m msgtyp mode then
      if mode = .lessEqual ∧ m.type ≠ 1 then scan mode q (m.type - 1) (some m)
      else (some m, msgtyp)
    else scan mode q msgtyp found

/-! ## Tasks -/

/-- How far a receiver has come that went to sleep. -/
inductive Stage where
  | asleep
  /-- `schedule` returns. -/
  | woken
  /-- It has looked at `r_msg` without the lock, and goes to take it. -/
  | polled
deriving DecidableEq, Repr

def Stage.rouse : Stage → Stage
  | .asleep => .woken
  | st => st

inductive Phase where
  /-- No call, after one that has returned `ret`. -/
  | done (ret : Int)
  /-- `sys_msgsnd` with the message loaded. -/
  | sending (m : Msg) (nowait : Bool)
  /-- on `q_senders` -/
  | blocked (m : Msg) (woken : Bool)
  /-- `sys_msgrcv`, before a search for `msgtyp`. -/
  | receiving (r : Request) (msgtyp : Int)
  /-- on `q_receivers`, with `r_msgtype`; `r_msg` is `-EAGAIN` -/
  | waiting (r : Request) (msgtyp : Int) (st : Stage)
  /-- `r_msg` is `-E2BIG`. -/
  | refused (r : Request) (st : Stage)
  /-- `r_msg` is a message. -/
  | handed (r : Request) (m : Msg) (st : Stage)
  /-- at `out_success`, or on the way to it -/
  | taken (r : Request) (m : Msg)
deriving DecidableEq

/-- The message of a sender. -/
def Phase.loaded : Phase → Option Msg
  | .sending m _ => some m
  | .blocked m _ => some m
  | _ => none

/-- The message that a receiver has got. -/
def Phase.carried : Phase → Option (Request × Msg)
  | .handed r m _ => some (r, m)
  | .taken r m => some (r, m)
  | _ => none

/-- The memory of the message that only the task knows of. -/
def Phase.weight (p : Phase) : Int :=
  match p.loaded, p.carried with
  | some m, _ => m.footprint
  | none, some (_, m) => m.footprint
  | none, none => 0

/-- A message that has reached its receiver, and as much of it as there was room for. -/
structure Receipt (n : Nat) where
  task : Fin n
  msg : Msg
  text : List UInt8
deriving DecidableEq

/-! ## The queue -/

structure State (n : Nat) where
  messages : List Msg
  receivers : List (Fin n)
  senders : List (Fin n)
  qnum : Nat
  cbytes : Nat
  qbytes : Nat
  /-- `msg_ctlmax` -/
  ctlmax : Nat
  phase : Fin n → Phase
  nextId : Nat
  /-- the messages for which `sys_msgsnd` has returned 0, in the order of arrival -/
  sent : List Msg
  received : List (Receipt n)

variable {n : Nat}

def State.init (ctlmax qbytes : Nat) : State n :=
  ⟨[], [], [], 0, 0, qbytes, ctlmax, fun _ => .done 0, 0, [], []⟩

def State.set (s : State n) (t : Fin n) (p : Phase) : State n :=
  { s with phase := Function.update s.phase t p }

def footprints (q : List Msg) : Int := (q.map fun m => (m.footprint : Int)).sum

/-- What all messages take. -/
def State.live (s : State n) : Int := footprints s.messages + census Phase.weight s.phase

/-! ## Wake-ups -/

def State.ssWakeup (s : State n) : State n :=
  { s with phase := fun t =>
      match s.phase t with
      | .blocked m woken => .blocked m (woken || decide (t ∈ s.senders))
      | p => p }

def State.expungeAll (s : State n) : State n :=
  { s with phase := fun t =>
      match s.phase t with
      | .waiting r msgtyp st => .waiting r msgtyp (if t ∈ s.receivers then st.rouse else st)
      | p => p }

/-! ## Sending -/

/-- The receiver's buffer is too small. -/
def State.refuse (s : State n) (t : Fin n) (r : Request) (st : Stage) : State n :=
  { s with receivers := s.receivers.erase t }.set t (.refused r st.rouse)

def State.hand (s : State n) (t : Fin n) (r : Request) (m : Msg) (st : Stage) : State n :=
  { s with receivers := s.receivers.erase t }.set t (.handed r m st.rouse)

def State.enqueue (s : State n) (m : Msg) : State n :=
  { s with
    messages := s.messages ++ [m]
    cbytes := ulong (s.cbytes + m.ts)
    qnum := ulong (s.qnum + 1) }

/-- `pipelined_send`: whether some receiver has taken the message. -/
def pipelinedSend (m : Msg) : List (Fin n) → State n → Bool × State n
  | [], s => (false, s)
  | t :: q, s =>
    match s.phase t with
    | .waiting r msgtyp st =>
      if testmsg m msgtyp r.mode then
        if r.maxsize < m.ts then pipelinedSend m q (s.refuse t r st)
        else (true, s.hand t r m st)
      else pipelinedSend m q s
    -- the list holds only receivers that wait
    | _ => pipelinedSend m q s

/-- The message counts as sent, and the call returns 0. -/
def State.depart (s : State n) (t : Fin n) (m : Msg) : State n :=
  { s with sent := s.sent ++ [m] }.set t (.done 0)

def State.send (s : State n) (t : Fin n) (m : Msg) : State n :=
  let s := s.depart t m
  match pipelinedSend m s.receivers s with
  | (true, s) => s
  | (false, s) => s.enqueue m

/-- `sys_msgsnd` from `retry` on, up to where the lock is dropped. `allowed` is what `ipcperms`
says. -/
def State.trySend (s : State n) (t : Fin n) (m : Msg) (nowait allowed : Bool) : State n :=
  if !allowed then s.set t (.done (-EACCES))
  else if s.qbytes < ulong (m.ts + s.cbytes) ∨ s.qbytes < ulong (1 + s.qnum) then
    if nowait then s.set t (.done (-EAGAIN))
    else { s with senders := s.senders ++ [t] }.set t (.blocked m false)
  else s.send t m

/-- `sys_msgsnd` up to the lock. `load_msg` fails if a page of the user's cannot be read
(`readable`), and at the latest when the address space is used up. -/
def State.load (s : State n) (t : Fin n) (type : Int) (text : List UInt8) (nowait readable : Bool) :
    State n :=
  if text.length > s.ctlmax ∨ text.length > INT_MAX then s.set t (.done (-EINVAL))
  else if h : 1 ≤ type then
    let m : Msg := ⟨s.nextId, type, h, text⟩
    if !readable then s.set t (.done (-EFAULT))
    else if 2 ^ 32 ≤ s.live + m.footprint then s.set t (.done (-ENOMEM))
    else { s with nextId := s.nextId + 1 }.set t (.sending m nowait)
  else s.set t (.done (-EINVAL))

/-! ## Receiving -/

def State.unlink (s : State n) (m : Msg) : State n :=
  { s with
    messages := s.messages.erase m
    qnum := ulong (s.qnum + 2 ^ 32 - 1)
    cbytes := ulong (s.cbytes + 2 ^ 32 - m.ts) }

/-- `sys_msgrcv` from `retry` on, up to where the lock is dropped. -/
def State.tryRecv (s : State n) (t : Fin n) (r : Request) (msgtyp : Int) (allowed : Bool) :
    State n :=
  if !allowed then s.set t (.done (-EACCES))
  else
    match scan r.mode s.messages msgtyp none with
    | (some m, _) =>
      if r.msgsz < m.ts ∧ r.noerror = false then s.set t (.done (-E2BIG))
      else (s.unlink m).ssWakeup.set t (.taken r m)
    | (none, msgtyp) =>
      if r.nowait then s.set t (.done (-ENOMSG))
      else { s with receivers := s.receivers ++ [t] }.set t (.waiting r msgtyp .asleep)

/-- A receiver that was woken without a message leaves the list. -/
def State.leave (s : State n) (t : Fin n) (r : Request) (msgtyp : Int) : State n :=
  { s with receivers := s.receivers.erase t }.set t (.receiving r msgtyp)

/-- `out_success`. A message that cannot be copied is freed all the same. -/
def State.store (s : State n) (t : Fin n) (r : Request) (m : Msg) (copied : Bool) : State n :=
  let msgsz := min r.msgsz m.ts
  if copied then
    let receipt : Receipt n := ⟨t, m, m.text.take msgsz⟩
    { s with received := s.received ++ [receipt] }.set t (.done msgsz)
  else s.set t (.done (-EFAULT))

/-! ## Steps -/

inductive Event (n : Nat) where
  | msgsnd (t : Fin n) (type : Int) (text : List UInt8) (nowait readable : Bool)
  | sendSection (t : Fin n) (allowed : Bool)
  /-- A blocked sender goes on; `pending` says that it has a signal. -/
  | resend (t : Fin n) (pending allowed : Bool)
  | msgrcv (t : Fin n) (r : Request)
  | recvSection (t : Fin n) (allowed : Bool)
  /-- The first look at `r_msg`. -/
  | poll (t : Fin n)
  /-- The section after it. -/
  | relock (t : Fin n) (pending allowed : Bool)
  | store (t : Fin n) (copied : Bool)
  /-- A signal wakes the task. -/
  | signal (t : Fin n)
  /-- `msgctl(IPC_SET)` -/
  | ipcSet (qbytes : Nat)
deriving DecidableEq

def exec (s : State n) : Event n → Option (State n)
  | .msgsnd t type text nowait readable =>
    match s.phase t with
    | .done _ => some (s.load t type text nowait readable)
    | _ => none
  | .sendSection t allowed =>
    match s.phase t with
    | .sending m nowait => some (s.trySend t m nowait allowed)
    | _ => none
  | .resend t pending allowed =>
    match s.phase t with
    | .blocked m true =>
      -- `ss_del`
      let s := { s with senders := s.senders.erase t }
      some (if pending then s.set t (.done (-EINTR)) else s.trySend t m false allowed)
    | _ => none
  | .msgrcv t r =>
    match s.phase t with
    | .done _ =>
      if r.msgsz ≤ INT_MAX ∧ -2 ^ 31 ≤ r.msgtyp ∧ r.msgtyp < 2 ^ 31 then
        some (s.set t (.receiving r r.type))
      else some (s.set t (.done (-EINVAL)))
    | _ => none
  | .recvSection t allowed =>
    match s.phase t with
    | .receiving r msgtyp => some (s.tryRecv t r msgtyp allowed)
    | _ => none
  | .poll t =>
    match s.phase t with
    | .waiting r msgtyp .woken => some (s.set t (.waiting r msgtyp .polled))
    | .refused r .woken => some (s.set t (.refused r .polled))
    | .handed r m .woken => some (s.set t (.taken r m))
    | _ => none
  | .relock t pending allowed =>
    match s.phase t with
    | .waiting r msgtyp .polled =>
      let s := s.leave t r msgtyp
      some (if pending then s.set t (.done (-EINTR)) else s.tryRecv t r msgtyp allowed)
    | .refused _ .polled => some (s.set t (.done (-E2BIG)))
    | .handed r m .polled => some (s.set t (.taken r m))
    | _ => none
  | .store t copied =>
    match s.phase t with
    | .taken r m => some (s.store t r m copied)
    | _ => none
  | .signal t =>
    match s.phase t with
    | .blocked m _ => some (s.set t (.blocked m true))
    | .waiting r msgtyp st => some (s.set t (.waiting r msgtyp st.rouse))
    | .refused r st => some (s.set t (.refused r st.rouse))
    | .handed r m st => some (s.set t (.handed r m st.rouse))
    | _ => none
  | .ipcSet qbytes => some { s with qbytes := ulong qbytes }.expungeAll.ssWakeup

def Step (s : State n) (e : Event n) (s' : State n) : Prop := exec s e = some s'

/-! ## What the queue is for -/

/-- The messages that a request asks for: any, those of one type, those of all other types, or
those of the types up to a bound. -/
def Request.Matches (r : Request) (m : Msg) : Prop :=
  if r.msgtyp = 0 then True
  else if r.msgtyp < 0 then m.type ≤ -r.msgtyp
  else if r.except then m.type ≠ r.msgtyp
  else m.type = r.msgtyp

/-- The message that a request is to get, of those there are in the order of arrival: the first
one that it matches, and for a bound the first one of the smallest type. -/
def Request.Picks (r : Request) (q : List Msg) (m : Msg) : Prop :=
  ∃ before after, q = before ++ m :: after ∧ r.Matches m ∧
    (∀ x ∈ before, r.Matches x → r.msgtyp < 0 ∧ m.type < x.type) ∧
    ∀ x ∈ after, r.Matches x → r.msgtyp < 0 → m.type ≤ x.type

/-- The message that arrives with a step, if it is not turned away. -/
def incoming (s : State n) : Event n → List Msg
  | .sendSection t _ => (s.phase t).loaded.toList
  | .resend t _ _ => (s.phase t).loaded.toList
  | _ => []

/-- No request has the bound `-LONG_MIN`, which a `long` cannot hold, and the buffer of every
receiver can be written. -/
def Careful (_ : State n) : Event n → Prop
  | .msgrcv _ r => r.msgtyp ≠ -2 ^ 31
  | .store _ copied => copied = true
  | _ => True

instance (s : State n) : (e : Event n) → Decidable (Careful s e)
  | .msgrcv _ r => inferInstanceAs (Decidable (r.msgtyp ≠ -2 ^ 31))
  | .store _ copied => inferInstanceAs (Decidable (copied = true))
  | .msgsnd .. | .sendSection .. | .resend .. | .recvSection .. | .poll _ | .relock ..
  | .signal _ | .ipcSet _ => isTrue trivial

end CustomKernel.Ipc.Msg

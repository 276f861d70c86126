import CustomKernel.Lib.Ring
import CustomKernel.Lib.Transition

/-! # Pipes

`pipe_read` and `pipe_write` hold the semaphore of the inode except while they sleep. A call is
cut there: what it does from getting the semaphore to releasing it is one section, and sections
of different calls follow each other in any order. -/
namespace CustomKernel.Fs.Pipe
open Lib

variable {α : Type}

/-! ## The ring -/

def pipeSize : Nat := 4096
def pipeBuf : Nat := 4096

structure PipeInode (α : Type) where
  base : Int → α
  start : Nat
  len : Nat
  readers : Nat
  writers : Nat
  waitingReaders : Nat
  waitingWriters : Nat

def PipeInode.free (p : PipeInode α) : Nat := pipeSize - p.len
def PipeInode.fin (p : PipeInode α) : Nat := (p.start + p.len) &&& (pipeSize - 1)
def PipeInode.maxRchunk (p : PipeInode α) : Nat := pipeSize - p.start
def PipeInode.maxWchunk (p : PipeInode α) : Nat := pipeSize - p.fin

/-- The bytes in the ring, the oldest first. -/
def PipeInode.content (p : PipeInode α) : List α := Ring.window pipeSize p.start p.base p.len

/-- A chunk is taken out. -/
def PipeInode.take (p : PipeInode α) (chars : Nat) : PipeInode α :=
  { p with start := (p.start + chars) &&& (pipeSize - 1), len := p.len - chars }

/-- A chunk is put in. -/
def PipeInode.put (p : PipeInode α) (xs : List α) : PipeInode α :=
  { p with base := Ring.writeFrom p.base p.fin xs, len := p.len + xs.length }

/-- `start` goes back to 0 on an empty pipe. -/
def PipeInode.settle (p : PipeInode α) : PipeInode α :=
  if p.len = 0 then { p with start := 0 } else p

/-! ## The loops -/

/-- How a loop ends: `count` is 0 or there is no data, the copying faults, or there is no room. -/
inductive Stop where
  | finished
  | fault
  | full
deriving DecidableEq, Repr

/-- The loop of `pipe_read`: the chunks, what is left of `count`, and the pipe. A fault comes at
the chunk it says. -/
def readLoop : (fuel : Nat) → (fault : Option Nat) → (count : Nat) → PipeInode α →
    List (List α) × Nat × PipeInode α × Stop
  | 0, _, count, p => ([], count, p, .finished)
  | fuel + 1, fault, count, p =>
    if 0 < count ∧ p.len ≠ 0 then
      let chars := min (min p.maxRchunk count) p.len
      if fault = some 0 then ([], count, p, .fault)
      else
        let r := readLoop fuel (fault.map (· - 1)) (count - chars) (p.take chars)
        (Ring.readFrom p.base p.start chars :: r.1, r.2)
    else ([], count, p, .finished)

/-- The loop of `pipe_write`, up to where it has to wait. -/
def writeLoop : (fuel : Nat) → (fault : Option Nat) → (rest : List α) → PipeInode α →
    List (List α) × List α × PipeInode α × Stop
  | 0, _, rest, p => ([], rest, p, .finished)
  | fuel + 1, fault, rest, p =>
    if rest = [] then ([], rest, p, .finished)
    else if p.free = 0 then ([], rest, p, .full)
    else if fault = some 0 then ([], rest, p, .fault)
    else
      let chars := min (min p.maxWchunk rest.length) p.free
      let r := writeLoop fuel (fault.map (· - 1)) (rest.drop chars) (p.put (rest.take chars))
      (rest.take chars :: r.1, r.2)

/-! ## Calls -/

def ESPIPE : Int := 29
def EAGAIN : Int := 11
def EFAULT : Int := 14
def EPIPE : Int := 32
def ERESTARTSYS : Int := 512

/-- Where a call is: it has not got the semaphore yet, it sleeps, or it has returned. `seek`
says that `ppos` is not the position of the file. -/
inductive Call (α : Type) where
  | readStart (seek : Bool) (count : Nat)
  | readWait (count : Nat) (got : List α)
  | readDone (got : List α) (ret : BitVec 32)
  | writeStart (seek : Bool) (data : List α)
  /-- in the loop that waits for room before anything is written -/
  | writeRoom (data : List α)
  /-- in the loop that writes -/
  | writeMore (written rest : List α)
  | writeDone (data written : List α) (ret : BitVec 32)

/-- What a section finds: a signal for the caller, `O_NONBLOCK`, and a fault at some chunk. -/
structure Env where
  signal : Bool
  nonblock : Bool
  fault : Option Nat
deriving DecidableEq, Repr

/-- What a section leaves: the pipe, the chunks it took and put, and the call. -/
structure Section (α : Type) where
  pipe : PipeInode α
  took : List (List α)
  puts : List (List α)
  call : Call α

/-- `ret`, unless bytes were moved before. -/
def report (n : Nat) (ret : Int) : BitVec 32 :=
  if n = 0 then BitVec.ofInt 32 ret else BitVec.ofNat 32 n

def readReturn (p : PipeInode α) (took : List (List α)) (got : List α) (ret : Int) : Section α :=
  ⟨p, took, [], .readDone got (report got.length ret)⟩

def readSleep (p : PipeInode α) (took : List (List α)) (count : Nat) (got : List α) : Section α :=
  ⟨{ p with waitingReaders := p.waitingReaders + 1 }, took, [], .readWait count got⟩

/-- From `do_more_read` to the loop, on an empty pipe. -/
def doMoreRead (env : Env) (p : PipeInode α) (took : List (List α)) (count : Nat) (got : List α) :
    Section α :=
  if p.writers = 0 then readReturn p took got 0
  else if env.nonblock then readReturn p took got (-EAGAIN)
  else readSleep p took count got

/-- From the loop on. -/
def readData (env : Env) (p : PipeInode α) (count : Nat) (got : List α) : Section α :=
  match readLoop count env.fault count p with
  | (took, _, p, .fault) => readReturn p took (got ++ took.flatten) (-EFAULT)
  | (took, count, p, _) =>
    let p := p.settle
    if count ≠ 0 ∧ p.waitingWriters ≠ 0 ∧ env.nonblock = false then
      doMoreRead env p took count (got ++ took.flatten)
    else readReturn p took (got ++ took.flatten) (got ++ took.flatten).length

def readEnter (env : Env) (p : PipeInode α) (seek : Bool) (count : Nat) : Section α :=
  if seek then readReturn p [] [] (-ESPIPE)
  else if count = 0 then readReturn p [] [] 0
  else if env.signal then readReturn p [] [] (-ERESTARTSYS)
  else if p.len = 0 then doMoreRead env p [] count []
  else readData env p count []

/-- After `pipe_wait`. -/
def readWake (env : Env) (p : PipeInode α) (count : Nat) (got : List α) : Section α :=
  let p := { p with waitingReaders := p.waitingReaders - 1 }
  if env.signal then readReturn p [] got (-ERESTARTSYS)
  else if p.len ≠ 0 then readData env p count got
  else if p.writers = 0 then readReturn p [] got 0
  else readSleep p [] count got

def writeReturn (p : PipeInode α) (puts : List (List α)) (data written : List α) (ret : Int) :
    Section α :=
  ⟨p, [], puts, .writeDone data written (report written.length ret)⟩

def writeSleep (p : PipeInode α) (puts : List (List α)) (call : Call α) : Section α :=
  ⟨{ p with waitingWriters := p.waitingWriters + 1 }, [], puts, call⟩

/-- The loop that writes, up to where it waits or returns. -/
def writeData (env : Env) (p : PipeInode α) (written rest : List α) : Section α :=
  match writeLoop rest.length env.fault rest p with
  | (puts, _, p, .finished) => writeReturn p puts (written ++ rest) (written ++ puts.flatten) (-EFAULT)
  | (puts, _, p, .fault) => writeReturn p puts (written ++ rest) (written ++ puts.flatten) (-EFAULT)
  | (puts, rest', p, .full) =>
    if env.nonblock then
      writeReturn p puts (written ++ rest) (written ++ puts.flatten) (written ++ puts.flatten).length
    else writeSleep p puts (.writeMore (written ++ puts.flatten) rest')

/-- How much room is waited for. -/
def roomFor (data : List α) : Nat := if data.length ≤ pipeBuf then data.length else 1

def writeEnter (env : Env) (p : PipeInode α) (seek : Bool) (data : List α) : Section α :=
  if seek then writeReturn p [] data [] (-ESPIPE)
  else if data = [] then writeReturn p [] data [] 0
  else if env.signal then writeReturn p [] data [] (-ERESTARTSYS)
  else if p.readers = 0 then writeReturn p [] data [] (-EPIPE)
  else if p.free < roomFor data then
    if env.nonblock then writeReturn p [] data [] (-EAGAIN) else writeSleep p [] (.writeRoom data)
  else writeData env p [] data

def writeRoomWake (env : Env) (p : PipeInode α) (data : List α) : Section α :=
  let p := { p with waitingWriters := p.waitingWriters - 1 }
  if env.signal then writeReturn p [] data [] (-ERESTARTSYS)
  else if p.readers = 0 then writeReturn p [] data [] (-EPIPE)
  else if p.free < roomFor data then writeSleep p [] (.writeRoom data)
  else writeData env p [] data

def writeMoreWake (env : Env) (p : PipeInode α) (written rest : List α) : Section α :=
  let p := { p with waitingWriters := p.waitingWriters - 1 }
  if env.signal then writeReturn p [] (written ++ rest) written written.length
  else if p.readers = 0 then writeReturn p [] (written ++ rest) written (-EPIPE)
  else if p.free = 0 then writeSleep p [] (.writeMore written rest)
  else writeData env p written rest

/-- The next section of a call, if it has not returned. -/
def Call.next (env : Env) (p : PipeInode α) : Call α → Option (Section α)
  | .readStart seek count => some (readEnter env p seek count)
  | .readWait count got => some (readWake env p count got)
  | .readDone .. => none
  | .writeStart seek data => some (writeEnter env p seek data)
  | .writeRoom data => some (writeRoomWake env p data)
  | .writeMore written rest => some (writeMoreWake env p written rest)
  | .writeDone .. => none

/-! ## Runs -/

/-- All calls there ever were, and, in the order in which it happened, what each of them took
and put. -/
structure State (α : Type) where
  pipe : PipeInode α
  calls : Nat → Option (Call α)
  taken : List (Nat × List α)
  put : List (Nat × List α)

inductive Event (α : Type) where
  | read (id : Nat) (seek : Bool) (count : Nat)
  | write (id : Nat) (seek : Bool) (data : List α)
  /-- A call gets the semaphore, up to where it releases it. -/
  | sect (id : Nat) (env : Env)
  /-- Ends are opened and closed. -/
  | ends (readers writers : Nat)

def State.call (s : State α) (id : Nat) (c : Call α) : State α :=
  { s with calls := Function.update s.calls id (some c) }

/-- What a section has done is entered. -/
def State.record (s : State α) (id : Nat) (r : Section α) : State α where
  pipe := r.pipe
  calls := Function.update s.calls id (some r.call)
  taken := s.taken ++ r.took.map (id, ·)
  put := s.put ++ r.puts.map (id, ·)

def Step (s : State α) (e : Event α) (s' : State α) : Prop :=
  match e with
  | .read id seek count => s.calls id = none ∧ s' = s.call id (.readStart seek count)
  | .write id seek data => s.calls id = none ∧ s' = s.call id (.writeStart seek data)
  | .sect id env => ∃ c r, s.calls id = some c ∧ c.next env s.pipe = some r ∧ s' = s.record id r
  | .ends readers writers =>
    s' = { s with pipe := { s.pipe with readers := readers, writers := writers } }

/-- An empty pipe, whatever is in its page. -/
def State.new (base : Int → α) (readers writers : Nat) : State α :=
  ⟨⟨base, 0, 0, readers, writers, 0, 0⟩, fun _ => none, [], []⟩

/-- The bytes of a log, one after the other. -/
def stream (log : List (Nat × List α)) : List α := log.flatMap Prod.snd

/-- The bytes of one call. -/
def streamOf (id : Nat) (log : List (Nat × List α)) : List α :=
  stream (log.filter fun e => e.1 == id)

/-- What a call has put is in one piece. -/
def Contiguous (id : Nat) (log : List (Nat × List α)) : Prop :=
  ∃ before block behind, log = before ++ block ++ behind ∧ (∀ e ∈ block, e.1 = id) ∧
    ∀ e ∈ before ++ behind, e.1 ≠ id

end CustomKernel.Fs.Pipe

import Mathlib.Data.List.Basic
import Mathlib.Data.BitVec

/-! # Socket filters

`sk_chk_filter` passes a filter once, when it is attached, and `sk_run_filter` then runs it on
every packet without looking at the bounds of its jumps and of its scratch memory again. An
address is an `Int`, and every access to the filter, to the scratch memory and to the packet is
recorded, so that a read outside is a value of the model and not an error. -/
namespace CustomKernel.Net.Filter

/-! ## Filter blocks -/

def EINVAL : Int := 22
def ENOMEM : Int := 12
def EFAULT : Int := 14

def bpfMaxinsns : Nat := 4096
def bpfMemwords : Nat := 16

structure SockFilter where
  code : BitVec 16
  jt : BitVec 8
  jf : BitVec 8
  k : BitVec 32
deriving DecidableEq, Repr

def bpfClass (code : BitVec 16) : BitVec 16 := code &&& 0x07#16
def bpfOp (code : BitVec 16) : BitVec 16 := code &&& 0xf0#16

def bpfJmp : BitVec 16 := 0x05#16
def bpfRet : BitVec 16 := 0x06#16
def bpfJa : BitVec 16 := 0x00#16

inductive Src where
  | k
  | x
deriving DecidableEq, Repr

inductive Alu where
  | add | sub | mul | div | or | and | lsh | rsh
deriving DecidableEq, Repr

inductive Cond where
  | jeq | jgt | jge | jset
deriving DecidableEq, Repr

inductive Size where
  | w | h | b
deriving DecidableEq, Repr

/-- The instructions that the switch of `sk_run_filter` has a case for. -/
inductive Insn where
  | alu (op : Alu) (src : Src)
  | neg
  | ja
  | jmp (cond : Cond) (src : Src)
  | ldAbs (size : Size)
  | ldInd (size : Size)
  | ldLen
  | ldxLen
  | ldxMsh
  | ldImm
  | ldxImm
  | ldMem
  | ldxMem
  | tax
  | txa
  | retK
  | retA
  | st
  | stx
deriving DecidableEq, Repr

def Src.code : Src → BitVec 16
  | .k => 0x00#16
  | .x => 0x08#16

def Alu.code : Alu → BitVec 16
  | .add => 0x00#16
  | .sub => 0x10#16
  | .mul => 0x20#16
  | .div => 0x30#16
  | .or => 0x40#16
  | .and => 0x50#16
  | .lsh => 0x60#16
  | .rsh => 0x70#16

def Cond.code : Cond → BitVec 16
  | .jeq => 0x10#16
  | .jgt => 0x20#16
  | .jge => 0x30#16
  | .jset => 0x40#16

def Size.code : Size → BitVec 16
  | .w => 0x00#16
  | .h => 0x08#16
  | .b => 0x10#16

/-- The case label, with the classes `LD` 0, `LDX` 1, `ST` 2, `STX` 3, `ALU` 4, `JMP` 5, `RET` 6
and `MISC` 7 and the modes `ABS` 0x20, `IND` 0x40, `MEM` 0x60, `LEN` 0x80 and `MSH` 0xa0. -/
def Insn.code : Insn → BitVec 16
  | .alu op src => 0x04#16 ||| op.code ||| src.code
  | .neg => 0x84#16
  | .ja => bpfJmp ||| bpfJa
  | .jmp cond src => bpfJmp ||| cond.code ||| src.code
  | .ldAbs size => 0x20#16 ||| size.code
  | .ldInd size => 0x40#16 ||| size.code
  | .ldLen => 0x80#16
  | .ldxLen => 0x81#16
  | .ldxMsh => 0xb1#16
  | .ldImm => 0x00#16
  | .ldxImm => 0x01#16
  | .ldMem => 0x60#16
  | .ldxMem => 0x61#16
  | .tax => 0x07#16
  | .txa => 0x87#16
  | .retK => bpfRet
  | .retA => bpfRet ||| 0x10#16
  | .st => 0x02#16
  | .stx => 0x03#16

def Alu.all : List Alu := [.add, .sub, .mul, .div, .or, .and, .lsh, .rsh]
def Cond.all : List Cond := [.jeq, .jgt, .jge, .jset]
def Size.all : List Size := [.w, .h, .b]

def Insn.all : List Insn :=
  Alu.all.flatMap (fun op => [Insn.alu op .k, Insn.alu op .x]) ++
  Cond.all.flatMap (fun cond => [Insn.jmp cond .k, Insn.jmp cond .x]) ++
  Size.all.flatMap (fun size => [Insn.ldAbs size, Insn.ldInd size]) ++
  [.neg, .ja, .ldLen, .ldxLen, .ldxMsh, .ldImm, .ldxImm, .ldMem, .ldxMem, .tax, .txa,
    .retK, .retA, .st, .stx]

/-- The case of the switch, if it is not the default one. -/
def decode (code : BitVec 16) : Option Insn := Insn.all.find? fun i => i.code == code

/-! ## Packets -/

/-- A packet: the linear part lies from `data` to `tail` in a buffer that starts at `head`, and
the bytes after it are in pages. `nh` and `mac` are whatever the protocols left there. -/
structure SkBuff where
  head : Int
  data : Int
  tail : Int
  nh : Int
  mac : Int
  /-- What is at an address, also outside the buffer. -/
  byte : Int → BitVec 8
  paged : List (BitVec 8)
  protocol : BitVec 16
  pktType : BitVec 8
  ifindex : BitVec 32
  head_pos : 0 < head
  head_le_data : head ≤ data
  data_le_tail : data ≤ tail
  tail_lt : tail < 2 ^ 32
  len_lt : tail - data + paged.length < 2 ^ 31

def SkBuff.headlen (skb : SkBuff) : Int := skb.tail - skb.data

def SkBuff.len (skb : SkBuff) : Int := skb.headlen + skb.paged.length

inductive Access where
  /-- `filter[pc]` -/
  | insn (pc : Int)
  /-- `mem[i]` -/
  | mem (i : Nat)
  /-- `n` bytes from an address on -/
  | bytes (addr : Int) (n : Nat)
  /-- `n` bytes of the pages -/
  | pages (offset : Int) (n : Nat)
deriving DecidableEq, Repr

def skfAdOff : Int := -0x1000
def skfNetOff : Int := -0x100000
def skfLlOff : Int := -0x200000

def loadPointer (skb : SkBuff) (k : Int) : Option Int :=
  let ptr :=
    if k ≥ skfNetOff then (skb.nh + k - skfNetOff) % 2 ^ 32
    else if k ≥ skfLlOff then (skb.mac + k - skfLlOff) % 2 ^ 32
    else 0
  if ptr ≥ skb.head ∧ ptr < skb.tail then some ptr else none

def SkBuff.read (skb : SkBuff) (addr : Int) (n : Nat) : List (BitVec 8) :=
  (List.range n).map fun (i : Nat) => skb.byte (addr + i)

/-- A number in network order. -/
def ntoh (bytes : List (BitVec 8)) : BitVec 32 :=
  bytes.foldl (fun v b => v <<< 8 ||| b.setWidth 32) 0

/-- The pages come after the linear part, one after the other. -/
def skbCopyBits (skb : SkBuff) (offset : Int) (n : Nat) : List Access × Option (List (BitVec 8)) :=
  if offset > skb.len - n then ([], none)
  else
    let copy := min (skb.headlen - offset).toNat n
    let linear := if copy = 0 then [] else [.bytes (skb.data + offset) copy]
    if copy = n then (linear, some (skb.read (skb.data + offset) n))
    else
      let start := (offset + copy - skb.headlen).toNat
      (linear ++ [.pages start (n - copy)],
        some (skb.read (skb.data + offset) copy ++ (skb.paged.drop start).take (n - copy)))

/-! ## The interpreter -/

structure Machine where
  pc : Int
  a : BitVec 32
  x : BitVec 32
  mem : Nat → BitVec 32

inductive Outcome where
  | next (m : Machine)
  | ret (v : BitVec 32)

def Size.bytes : Size → Nat
  | .w => 4
  | .h => 2
  | .b => 1

/-- The second switch, for offsets from `SKF_AD_OFF` on. -/
def ancillary (skb : SkBuff) (k : Int) : Option (BitVec 32) :=
  if k - skfAdOff = 0 then
    some ((skb.protocol.setWidth 8 ++ (skb.protocol >>> 8).setWidth 8).setWidth 32)
  else if k - skfAdOff = 4 then some (skb.pktType.setWidth 32)
  else if k - skfAdOff = 8 then some skb.ifindex
  else none

/-- A load through `load_pointer`, which has tested the first byte. -/
def loadFrom (skb : SkBuff) (size : Size) : Option Int → List Access × Option (BitVec 32)
  | some ptr => ([.bytes ptr size.bytes], some (ntoh (skb.read ptr size.bytes)))
  | none => ([], none)

/-- `load_w`, `load_h` and `load_b`. The value is missing where the filter returns 0. -/
def load (skb : SkBuff) (size : Size) (k : Int) : List Access × Option (BitVec 32) :=
  let n := size.bytes
  if 0 ≤ k ∧ k + n ≤ skb.headlen then
    ([.bytes (skb.data + k) n], some (ntoh (skb.read (skb.data + k) n)))
  else if k < 0 then
    if k ≥ skfAdOff then ([], ancillary skb k)
    else loadFrom skb size (loadPointer skb k)
  else
    let (accesses, copied) := skbCopyBits skb k n
    (accesses, copied.map ntoh)

def Machine.src (m : Machine) (f : SockFilter) : Src → BitVec 32
  | .k => f.k
  | .x => m.x

/-- The shift counts are taken modulo 32, as the processor does. -/
def Alu.eval : Alu → BitVec 32 → BitVec 32 → Option (BitVec 32)
  | .add, a, y => some (a + y)
  | .sub, a, y => some (a - y)
  | .mul, a, y => some (a * y)
  | .div, a, y => if y = 0 then none else some (a / y)
  | .or, a, y => some (a ||| y)
  | .and, a, y => some (a &&& y)
  | .lsh, a, y => some (a <<< (y.toNat % 32))
  | .rsh, a, y => some (a >>> (y.toNat % 32))

def Cond.holds : Cond → BitVec 32 → BitVec 32 → Bool
  | .jeq, a, y => a == y
  | .jgt, a, y => y.ult a
  | .jge, a, y => y.ule a
  | .jset, a, y => a &&& y != 0

/-- `pc += n`, and the `pc++` of the loop. -/
def Machine.jump (m : Machine) (n : Nat) : Machine :=
  { m with pc := Int.bmod (Int.bmod (m.pc + n) (2 ^ 32) + 1) (2 ^ 32) }

def Machine.setA (m : Machine) (v : BitVec 32) : Machine := { m with a := v }.jump 0
def Machine.setX (m : Machine) (v : BitVec 32) : Machine := { m with x := v }.jump 0
def Machine.setMem (m : Machine) (i : Nat) (v : BitVec 32) : Machine :=
  { m with mem := Function.update m.mem i v }.jump 0

def Machine.afterLoad (m : Machine) : Option (BitVec 32) → Outcome
  | some v => .next (m.setA v)
  | none => .ret 0

/-- The offset of `BPF_LD|BPF_IND`, an `int`. -/
def Machine.indOff (m : Machine) (f : SockFilter) : Int := (m.x + f.k).toInt

def Insn.exec (skb : SkBuff) (f : SockFilter) (m : Machine) : Insn → List Access × Outcome
  | .alu op src => ([], m.afterLoad (op.eval m.a (m.src f src)))
  | .neg => ([], .next (m.setA (-m.a)))
  | .ja => ([], .next (m.jump f.k.toNat))
  | .jmp cond src =>
    ([], .next (m.jump (if cond.holds m.a (m.src f src) then f.jt.toNat else f.jf.toNat)))
  | .ldAbs size => ((load skb size f.k.toInt).1, m.afterLoad (load skb size f.k.toInt).2)
  | .ldInd size => ((load skb size (m.indOff f)).1, m.afterLoad (load skb size (m.indOff f)).2)
  | .ldLen => ([], .next (m.setA (BitVec.ofInt 32 skb.headlen)))
  | .ldxLen => ([], .next (m.setX (BitVec.ofInt 32 skb.headlen)))
  | .ldxMsh =>
    if 0 ≤ f.k.toInt ∧ f.k.toInt ≥ skb.headlen then ([], .ret 0)
    else
      let addr := (skb.data + f.k.toInt) % 2 ^ 32
      ([.bytes addr 1], .next (m.setX (((skb.byte addr).setWidth 32 &&& 0xf#32) <<< 2)))
  | .ldImm => ([], .next (m.setA f.k))
  | .ldxImm => ([], .next (m.setX f.k))
  | .ldMem => ([.mem f.k.toNat], .next (m.setA (m.mem f.k.toNat)))
  | .ldxMem => ([.mem f.k.toNat], .next (m.setX (m.mem f.k.toNat)))
  | .tax => ([], .next (m.setX m.a))
  | .txa => ([], .next (m.setA m.x))
  | .retK => ([], .ret f.k)
  | .retA => ([], .ret m.a)
  | .st => ([.mem f.k.toNat], .next (m.setMem f.k.toNat m.a))
  | .stx => ([.mem f.k.toNat], .next (m.setMem f.k.toNat m.x))

/-- One turn of the loop. An invalid instruction counts as a return. -/
def turn (skb : SkBuff) (filter : Int → SockFilter) (m : Machine) : List Access × Outcome :=
  let f := filter m.pc
  match decode f.code with
  | some i => (.insn m.pc :: (i.exec skb f m).1, (i.exec skb f m).2)
  | none => ([.insn m.pc], .ret 0)

/-- A turn that was made: the machine before it and what it accessed. -/
structure Turn where
  before : Machine
  accesses : List Access

/-- The scratch memory is what the stack holds. -/
def Machine.start (mem : Nat → BitVec 32) : Machine := ⟨0, 0, 0, mem⟩

/-! ## The check -/

def memCode (code : BitVec 16) : Bool :=
  code == Insn.st.code || code == Insn.stx.code || code == Insn.ldMem.code ||
    code == Insn.ldxMem.code

def chkInsn (flen pc : Nat) (f : SockFilter) : Bool :=
  let jumps :=
    if bpfClass f.code = bpfJmp then
      if bpfOp f.code = bpfJa then decide (f.k.toNat < flen - pc - 1)
      else decide (pc + f.jt.toNat + 1 < flen ∧ pc + f.jf.toNat + 1 < flen)
    else true
  jumps && !(decide (f.k.toNat ≥ bpfMemwords) && memCode f.code)

/-- The loop, with the blocks that it reads. -/
def chkLoop (filter : Int → SockFilter) (flen : Nat) : (left pc : Nat) → List Int × Bool
  | 0, _ => ([], true)
  | left + 1, pc =>
    if chkInsn flen pc (filter pc) then
      ((pc : Int) :: (chkLoop filter flen left (pc + 1)).1, (chkLoop filter flen left (pc + 1)).2)
    else ([(pc : Int)], false)

def skChkFilter (filter : Int → SockFilter) (flen : Nat) : Int × List Int :=
  if flen ≥ (2 ^ 32 - 1) / 8 then (-EINVAL, [])
  else if (chkLoop filter flen flen 0).2 then
    (if bpfClass (filter (flen - 1)).code = bpfRet then 0 else -EINVAL,
      (chkLoop filter flen flen 0).1 ++ [(flen - 1 : Int)])
  else (-EINVAL, (chkLoop filter flen flen 0).1)

/-! ## Attaching -/

/-- A filter in the kernel: `insns` starts right after `refcnt` and `len`. -/
structure SkFilter where
  refcnt : BitVec 32
  len : BitVec 32
  insns : List SockFilter
  /-- What lies before the structure and behind the last block. -/
  around : Int → SockFilter

/-- `insns[i]` as the processor reads it: the block before the first one is made of the two
words there. -/
def SkFilter.at (fp : SkFilter) (i : Int) : SockFilter :=
  if i = -1 then
    ⟨fp.refcnt.setWidth 16, (fp.refcnt >>> 16).setWidth 8, (fp.refcnt >>> 24).setWidth 8, fp.len⟩
  else if 0 ≤ i then fp.insns.getD i.toNat (fp.around i)
  else fp.around i

/-- The copy that is checked and then attached. -/
def SkFilter.copy (len : BitVec 16) (user : Nat → SockFilter) (around : Int → SockFilter) :
    SkFilter :=
  ⟨1, len.setWidth 32, (List.range len.toNat).map user, around⟩

end CustomKernel.Net.Filter

import CustomKernel.Fs.ByteMap
import Mathlib.Data.BitVec

/-! # Requests and accesses

`flock_to_posix_lock` computes the range of a request in an `off_t` of 32 bits, and
`locks_mandatory_area` looks for a lock in the way of an access. -/
namespace CustomKernel.Fs.Ranges
open Lib.Transition Fs.Locks Fs.ByteMap

/-! ## `flock_to_posix_lock` -/

def EOVERFLOW : Int := 75

/-- Arithmetic in an `off_t` -/
def wrap32 (x : Int) : Int := (x + 2 ^ 31) % 2 ^ 32 - 2 ^ 31

structure Flock where
  lType : BitVec 16
  lWhence : BitVec 16
  lStart : BitVec 32
  lLen : BitVec 32
deriving DecidableEq, Repr

/-- An open file, with the size of its inode and the process that asks. -/
structure Asker where
  filp : Nat
  fPos : BitVec 64
  iSize : BitVec 64
  files : Nat
  pid : Nat
deriving DecidableEq, Repr

def assignType (fl : FileLock) (type : BitVec 16) : Int × FileLock :=
  if type = 0 then (0, { fl with flType := .rdlck })
  else if type = 1 then (0, { fl with flType := .wrlck })
  else if type = 2 then (0, { fl with flType := .unlck })
  else (-EINVAL, fl)

/-- What `l_start` is counted from. -/
def Asker.origin (a : Asker) (whence : BitVec 16) : Option Int :=
  if whence = 0 then some 0
  else if whence = 1 then some a.fPos.toInt
  else if whence = 2 then some a.iSize.toInt
  else none

def flockToPosixLock (a : Asker) (fl : FileLock) (l : Flock) : Int × FileLock :=
  match a.origin l.lWhence with
  | none => (-EINVAL, fl)
  | some origin =>
    let len := l.lLen.toInt
    let start := wrap32 (wrap32 origin + l.lStart.toInt)
    let last := if len < 0 then wrap32 (start - 1) else wrap32 (wrap32 (start + len) - 1)
    let start := if len < 0 then wrap32 (start + len) else start
    if start < 0 then (-EINVAL, fl)
    else if 0 < len ∧ last < 0 then (-EOVERFLOW, fl)
    else
      assignType { fl with
        flStart := start
        flEnd := if len = 0 then offsetMax else last
        flOwner := some a.files
        flPid := a.pid
        flFile := a.filp
        flFlags := .posix } l.lType

/-- The bytes a request asks for, counted from the origin. -/
def Flock.first (l : Flock) (origin : Int) : Int :=
  origin + l.lStart.toInt + min l.lLen.toInt 0

def Flock.last (l : Flock) (origin : Int) : Int :=
  if l.lLen.toInt = 0 then offsetMax else origin + l.lStart.toInt + max l.lLen.toInt 0 - 1

/-- The lock is for the bytes that were asked for. -/
def Denotes (a : Asker) (l : Flock) (fl : FileLock) : Prop :=
  ∃ origin, a.origin l.lWhence = some origin ∧ 0 ≤ fl.flStart ∧ fl.flStart ≤ fl.flEnd ∧
    fl.flStart = l.first origin ∧ fl.flEnd = l.last origin

theorem assignType_zero_iff {fl : FileLock} {type : BitVec 16} :
    (assignType fl type).1 = 0 ↔ type = 0 ∨ type = 1 ∨ type = 2 := by
  unfold assignType
  split_ifs with h0 h1 h2 <;> simp_all [EINVAL]

theorem assignType_range (fl : FileLock) (type : BitVec 16) :
    (assignType fl type).2.flStart = fl.flStart ∧ (assignType fl type).2.flEnd = fl.flEnd := by
  unfold assignType
  split_ifs <;> exact ⟨rfl, rfl⟩

theorem wrap32_add (x y : Int) : wrap32 (wrap32 x + y) = wrap32 (x + y) := by
  unfold wrap32
  omega

theorem wrap32_neg_iff (x : Int) : wrap32 x < 0 ↔ 2 ^ 31 ≤ x % 2 ^ 32 := by
  unfold wrap32
  omega

theorem wrap32_eq_iff {x : Int} (h : 0 ≤ wrap32 x) : wrap32 x = x ↔ 0 ≤ x ∧ x < 2 ^ 31 := by
  unfold wrap32 at h ⊢
  omega

/-- `flock_to_posix_lock` with exact arithmetic, cut down at the end. -/
theorem flockToPosixLock_eq (a : Asker) (fl : FileLock) (l : Flock) {origin : Int}
    (ho : a.origin l.lWhence = some origin) : flockToPosixLock a fl l =
      if wrap32 (l.first origin) < 0 then (-EINVAL, fl)
      else if 0 < l.lLen.toInt ∧ wrap32 (l.last origin) < 0 then (-EOVERFLOW, fl)
      else assignType { fl with
        flStart := wrap32 (l.first origin)
        flEnd := if l.lLen.toInt = 0 then offsetMax else wrap32 (l.last origin)
        flOwner := some a.files
        flPid := a.pid
        flFile := a.filp
        flFlags := .posix } l.lType := by
  unfold flockToPosixLock
  rw [ho]
  unfold Flock.first Flock.last
  rcases lt_trichotomy l.lLen.toInt 0 with hneg | hzero | hpos
  · simp [if_pos hneg, wrap32_add, Int.sub_eq_add_neg, min_eq_left hneg.le, max_eq_right hneg.le, if_neg hneg.ne]
  · simp [hzero, wrap32_add]
  · simp [if_neg hpos.not_gt, wrap32_add, Int.sub_eq_add_neg, min_eq_right hpos.le, max_eq_left hpos.le, if_neg hpos.ne']

theorem denotes_iff (l : Flock) (origin : Int) (hfirst : 0 ≤ wrap32 (l.first origin)) :
    (0 ≤ wrap32 (l.first origin) ∧
      wrap32 (l.first origin) ≤ (if l.lLen.toInt = 0 then offsetMax else wrap32 (l.last origin)) ∧
      wrap32 (l.first origin) = l.first origin ∧
      (if l.lLen.toInt = 0 then offsetMax else wrap32 (l.last origin)) = l.last origin) ↔
    0 ≤ l.first origin ∧ l.first origin < 2 ^ 31 ∧
      (l.lLen.toInt ≠ 0 → l.last origin < 2 ^ 31) := by
  have hlast : l.lLen.toInt ≠ 0 → l.first origin ≤ l.last origin := by
    intro hne
    rw [Flock.first, Flock.last, if_neg hne]
    omega
  rw [wrap32_eq_iff hfirst]
  rcases eq_or_ne l.lLen.toInt 0 with hzero | hne
  · have hend : l.last origin = offsetMax := if_pos hzero
    have hmax : wrap32 (l.first origin) ≤ offsetMax := by
      unfold wrap32 offsetMax
      omega
    simp [hfirst, hmax, hend, hzero]
  · unfold wrap32 at hfirst ⊢
    omega

/-- A request is refused, or denotes its bytes, just when its whence or type is unknown, bit 31 of
its first byte is set, or of its last byte where the length is positive, or it lies below 2³¹. -/
theorem flock_range_exact_iff (a : Asker) (fl : FileLock) (l : Flock) :
    (flockToPosixLock a fl l).1 ≠ 0 ∨ Denotes a l (flockToPosixLock a fl l).2 ↔
      ∀ origin, a.origin l.lWhence = some origin → l.lType = 0 ∨ l.lType = 1 ∨ l.lType = 2 →
        2 ^ 31 ≤ l.first origin % 2 ^ 32 ∨ (0 < l.lLen.toInt ∧ 2 ^ 31 ≤ l.last origin % 2 ^ 32) ∨
        0 ≤ l.first origin ∧ l.first origin < 2 ^ 31 ∧
          (l.lLen.toInt ≠ 0 → l.last origin < 2 ^ 31) := by
  cases ho : a.origin l.lWhence with
  | none => simp [flockToPosixLock, ho, EINVAL]
  | some origin =>
    rw [flockToPosixLock_eq a fl l ho, Denotes, ho]
    simp only [Option.some.injEq, forall_eq', exists_eq_left', ← wrap32_neg_iff]
    split
    next hfirst => simp [hfirst, EINVAL]
    next hfirst =>
    split
    next hlast => simp [hlast, EOVERFLOW]
    next hlast =>
    rw [(assignType_range ..).1, (assignType_range ..).2, ne_eq, assignType_zero_iff, ← imp_iff_not_or]
    refine imp_congr_right fun _ => ?_
    rw [or_iff_right hfirst, or_iff_right hlast]
    exact denotes_iff l origin (not_lt.mp hfirst)

/-- A request for the byte at position 2³² locks byte 0. -/
theorem position_cut_down :
    let a : Asker := ⟨1, 2 ^ 32, 0, 1, 1⟩
    let l : Flock := ⟨1, 1, 0, 1⟩
    let r := flockToPosixLock a ⟨none, 0, 0, .posix, .rdlck, 0, 0⟩ l
    (r.2.flStart, r.2.flEnd) = (0, 0) ∧ ¬ (r.1 ≠ 0 ∨ Denotes a l r.2) := by
  refine ⟨by decide, ?_⟩
  rintro (herr | ⟨origin, ho, -, -, hfirst, -⟩)
  · exact herr (by decide)
  · cases ho
    revert hfirst
    decide

/-! ## `locks_mandatory_area` -/

section Mandatory
variable {l : List FileLock} {es : List Call} {a : Asker} {offset : BitVec 64} {count : BitVec 32}

def owned (o : Nat) (type : LockType) (lo hi : Int) : Call :=
  { request type lo hi with caller := ⟨some o, o, o, .posix, type, lo, hi⟩ }

end Mandatory

end CustomKernel.Fs.Ranges

import Mathlib.Logic.Function.Basic

/-! # Kernel memory under the policy system

The policy code reaches everything through pointers: the pid hash leads to a
`task_struct`, its `logArray` to a `log_array`, and that one's `array` to the
records. Memory is a partial map from addresses to live blocks, so a pointer
may dangle and an address may be handed out again after a `kfree`. An access
that misses its block reads an unspecified value or is dropped, and is noted
in `faults`; an access that hits leaves no mark. -/
namespace CustomKernel.Policy.Heap
open Function

/-- A kernel pointer. Address 0 is `NULL` and is never live. -/
abbrev Addr := Nat

structure ForbiddenActivityInfo where
  syscallReqLevel : Int
  procLevel : Int
  time : Int
deriving DecidableEq, Repr, Inhabited

structure LogArray where
  indexWrite : Int
  indexRead : Int
  size : Int
  full : Int
  array : Addr
deriving DecidableEq, Repr, Inhabited

/-- The fields of `struct task_struct` that the policy code uses. -/
structure TaskStruct where
  pid : Int
  policyOn : Int
  policyLevel : Int
  logArray : Addr
deriving DecidableEq, Repr, Inhabited

/-- `sizeof(struct forbidden_activity_info)`, three 32-bit ints. -/
def sizeofInfo : Nat := 12

/-- What a live block holds. A record array knows how many bytes were asked
for, and `elem` is its contents; `temp` is the copy made by
`sys_get_process_log`. -/
inductive Block where
  | task (t : TaskStruct)
  | log (l : LogArray)
  | records (bytes : Nat) (elem : Int → ForbiddenActivityInfo)
  | temp (data : List ForbiddenActivityInfo)

/-- How an access can miss. -/
inductive Fault where
  | freedTask
  | freedLog
  /-- no live record array at the pointer -/
  | freedArray
  /-- an element past the end of the record array -/
  | outOfBounds
  /-- `kfree` of something that is not a live block -/
  | badFree
deriving DecidableEq, Repr

structure Kernel where
  mem : Addr → Option Block
  /-- `find_task_by_pid` -/
  pidhash : Int → Option Addr
  faults : List Fault

namespace Kernel

def set (k : Kernel) (a : Addr) (b : Block) : Kernel :=
  { k with mem := update k.mem a (some b) }

def unset (k : Kernel) (a : Addr) : Kernel :=
  { k with mem := update k.mem a none }

def note (k : Kernel) (f : Fault) : Kernel := { k with faults := f :: k.faults }

section Lookup
variable {k : Kernel} {a b : Addr}

@[simp] theorem set_mem (v : Block) : (k.set a v).mem = update k.mem a (some v) := rfl
@[simp] theorem set_pidhash (v : Block) : (k.set a v).pidhash = k.pidhash := rfl
@[simp] theorem set_faults (v : Block) : (k.set a v).faults = k.faults := rfl
@[simp] theorem unset_mem : (k.unset a).mem = update k.mem a none := rfl
@[simp] theorem unset_pidhash : (k.unset a).pidhash = k.pidhash := rfl
@[simp] theorem unset_faults : (k.unset a).faults = k.faults := rfl
@[simp] theorem note_mem (f : Fault) : (k.note f).mem = k.mem := rfl
@[simp] theorem note_pidhash (f : Fault) : (k.note f).pidhash = k.pidhash := rfl
@[simp] theorem note_faults (f : Fault) : (k.note f).faults = f :: k.faults := rfl

@[simp] theorem set_set (v w : Block) : (k.set a v).set a w = k.set a w := by
  simp [set]

@[simp] theorem unset_set (v : Block) : (k.set a v).unset a = k.unset a := by
  simp [set, unset]

theorem set_comm (v w : Block) (h : a ≠ b) : (k.set a v).set b w = (k.set b w).set a v := by
  simp [set, update_comm h]

theorem unset_comm (v : Block) (h : a ≠ b) : (k.set a v).unset b = (k.unset b).set a v := by
  simp [set, unset, update_comm h]

theorem unset_of_none (h : k.mem a = none) : k.unset a = k := by
  simp only [unset]
  rw [← h, update_eq_self]

theorem mem_of_set {v x : Block} (h : (k.set a v).mem b = some x) :
    b = a ∧ v = x ∨ b ≠ a ∧ k.mem b = some x := by
  rcases eq_or_ne b a with rfl | hne
  · exact .inl ⟨rfl, by simpa using h⟩
  · exact .inr ⟨hne, by simpa [hne] using h⟩

theorem mem_of_unset {x : Block} (h : (k.unset a).mem b = some x) : k.mem b = some x := by
  rcases eq_or_ne b a with rfl | hne
  · simp at h
  · simpa [hne] using h

theorem ne_of_mem {x y : Block} (ha : k.mem a = some x) (hb : k.mem b = some y)
    (hxy : x ≠ y) : a ≠ b := by
  intro he
  rw [he, hb] at ha
  exact hxy (Option.some.inj ha).symm

theorem ne_of_free {x : Block} (ha : k.mem a = some x) (hb : k.mem b = none) : a ≠ b := by
  intro he
  rw [he, hb] at ha
  cases ha

end Lookup
end Kernel

/-! ## Kernel code as state transformers -/

/-- Straight-line kernel code between two points where it may sleep. -/
def KM (α : Type) : Type := Kernel → α × Kernel

instance : Monad KM where
  pure a := fun k => (a, k)
  bind x f := fun k => f (x k).1 (x k).2

def KM.run {α : Type} (x : KM α) (k : Kernel) : α × Kernel := x k

section Run
variable {α β : Type} (k : Kernel)

@[simp] theorem run_pure (a : α) : (pure a : KM α).run k = (a, k) := rfl
@[simp] theorem run_bind (x : KM α) (f : α → KM β) :
    (x >>= f).run k = (f (x.run k).1).run (x.run k).2 := rfl
@[simp] theorem run_ite (c : Prop) [Decidable c] (x y : KM α) :
    (if c then x else y).run k = if c then x.run k else y.run k := by split <;> rfl

end Run

/-! ## Loads and stores -/

def findTaskByPid (pid : Int) : KM (Option Addr) := fun k => (k.pidhash pid, k)

def loadTask (p : Addr) : KM TaskStruct := fun k =>
  match k.mem p with
  | some (.task t) => (t, k)
  | _ => (default, k.note .freedTask)

def storeTask (p : Addr) (f : TaskStruct → TaskStruct) : KM Unit := fun k =>
  match k.mem p with
  | some (.task t) => ((), k.set p (.task (f t)))
  | _ => ((), k.note .freedTask)

def loadLog (a : Addr) : KM LogArray := fun k =>
  match k.mem a with
  | some (.log l) => (l, k)
  | _ => (default, k.note .freedLog)

def storeLog (a : Addr) (f : LogArray → LogArray) : KM Unit := fun k =>
  match k.mem a with
  | some (.log l) => ((), k.set a (.log (f l)))
  | _ => ((), k.note .freedLog)

/-- An index inside a block of `bytes` bytes. -/
def inBlock (bytes : Nat) (idx : Int) : Prop := 0 ≤ idx ∧ idx < (bytes / sizeofInfo : Nat)

instance (bytes : Nat) (idx : Int) : Decidable (inBlock bytes idx) :=
  inferInstanceAs (Decidable (_ ∧ _))

/-- `array[idx]`, checked against the block `array` points to. -/
def loadElem (array : Addr) (idx : Int) : KM ForbiddenActivityInfo := fun k =>
  match k.mem array with
  | some (.records bytes elem) =>
    if inBlock bytes idx then (elem idx, k) else (default, k.note .outOfBounds)
  | _ => (default, k.note .freedArray)

def storeElem (array : Addr) (idx : Int) (r : ForbiddenActivityInfo) : KM Unit := fun k =>
  match k.mem array with
  | some (.records bytes elem) =>
    if inBlock bytes idx then
      ((), k.set array (.records bytes (update elem idx r)))
    else ((), k.note .outOfBounds)
  | _ => ((), k.note .freedArray)

def loadTemp (a : Addr) : KM (List ForbiddenActivityInfo) := fun k =>
  match k.mem a with
  | some (.temp d) => (d, k)
  | _ => (default, k.note .freedArray)

def storeTemp (a : Addr) (f : List ForbiddenActivityInfo → List ForbiddenActivityInfo) :
    KM Unit := fun k =>
  match k.mem a with
  | some (.temp d) => ((), k.set a (.temp (f d)))
  | _ => ((), k.note .freedArray)

/-- The allocator proposes `a`. It never hands out `NULL` or a live block, so
such a proposal stands for an allocation that failed. `b` is whatever the
block holds when it is handed out. -/
def kmalloc (a : Addr) (b : Block) : KM Addr := fun k =>
  if a ≠ 0 ∧ k.mem a = none then (a, k.set a b) else (0, k)

/-- `kfree(NULL)` does nothing. -/
def kfree (a : Addr) : KM Unit := fun k =>
  match k.mem a with
  | some _ => ((), k.unset a)
  | none => if a = 0 then ((), k) else ((), k.note .badFree)

/-! Equations for symbolic execution: with the blocks of the state in the
simp set, a run of straight-line code reduces to the state it leaves. -/
section Execution
variable {k : Kernel} {a : Addr}

@[simp] theorem run_findTaskByPid (pid : Int) :
    (findTaskByPid pid).run k = (k.pidhash pid, k) := rfl

@[simp] theorem run_loadTask : (loadTask a).run k = match k.mem a with
    | some (.task t) => (t, k)
    | _ => (default, k.note .freedTask) := rfl

@[simp] theorem run_storeTask (f : TaskStruct → TaskStruct) :
    (storeTask a f).run k = match k.mem a with
    | some (.task t) => ((), k.set a (.task (f t)))
    | _ => ((), k.note .freedTask) := rfl

@[simp] theorem run_loadLog : (loadLog a).run k = match k.mem a with
    | some (.log l) => (l, k)
    | _ => (default, k.note .freedLog) := rfl

@[simp] theorem run_storeLog (f : LogArray → LogArray) :
    (storeLog a f).run k = match k.mem a with
    | some (.log l) => ((), k.set a (.log (f l)))
    | _ => ((), k.note .freedLog) := rfl

@[simp] theorem run_loadElem (i : Int) : (loadElem a i).run k = match k.mem a with
    | some (.records bytes elem) =>
      if inBlock bytes i then (elem i, k) else (default, k.note .outOfBounds)
    | _ => (default, k.note .freedArray) := rfl

@[simp] theorem run_loadTemp : (loadTemp a).run k = match k.mem a with
    | some (.temp d) => (d, k)
    | _ => (default, k.note .freedArray) := rfl

@[simp] theorem run_storeTemp (f : List ForbiddenActivityInfo → List ForbiddenActivityInfo) :
    (storeTemp a f).run k = match k.mem a with
    | some (.temp d) => ((), k.set a (.temp (f d)))
    | _ => ((), k.note .freedArray) := rfl

@[simp] theorem run_kfree : (kfree a).run k = match k.mem a with
    | some _ => ((), k.unset a)
    | none => if a = 0 then ((), k) else ((), k.note .badFree) := rfl

theorem run_kmalloc (b : Block) (h0 : a ≠ 0) (h : k.mem a = none) :
    (kmalloc a b).run k = (a, k.set a b) := by
  simp [KM.run, kmalloc, h0, h]

theorem run_kmalloc_fail (b : Block) (h : ¬ (a ≠ 0 ∧ k.mem a = none)) :
    (kmalloc a b).run k = (0, k) := by
  simp only [KM.run, kmalloc, if_neg h]

end Execution

end CustomKernel.Policy.Heap

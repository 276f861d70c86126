import CustomKernel.Fs.FilesInv

/-! # A table of open files is copied by `fork`

`copy_files` makes the table of a child while other threads go on using the table of the parent. It
looks at the size of the parent's sets without the lock, counts what is open under the lock, drops
it to allocate an array, and copies when it has the lock again. The blocks that it allocates and the
calls of `get_file` are kept, for what a failure leaves behind. -/
namespace CustomKernel.Fs.CopyFiles
open Lib.Bitmap Lib.Transition Function
open Fs.Files (File FdSet nrOpen grow setStep arrayStep)

def nrOpenDefault : Nat := 32

def fdSetsize : Nat := 1024

/-! ## Counting and copying -/

/-- The loop of `count_open_files`, from the last of some words down. -/
def lastWord (b : FdSet) : Nat → Nat
  | 0 => 0
  | i + 1 => if b i ≠ 0 then i else lastWord b i

def countOpenFiles (b : FdSet) (size : Nat) : Nat := (lastWord b (size / 32) + 1) * 32

/-- `newf`. What is not set yet holds whatever the memory held. -/
structure NewFiles where
  maxFds : Nat
  maxFdset : Nat
  nextFd : Nat
  fd : Nat → Option File
  closeOnExec : FdSet
  openFds : FdSet

/-- `memcpy` of whole words -/
def copyWords (words : Nat) (src dst : FdSet) : FdSet := fun i => if i < words then src i else dst i

/-- `memset` of whole words to 0 -/
def clearWords (start words : Nat) (b : FdSet) : FdSet := fun i =>
  if start ≤ i ∧ i < start + words then 0 else b i

section
variable {n : Nat}

/-- One turn of the loop that copies the pointers: the new array, and the calls of `get_file`. -/
def copyFd (p : Files.State n) (c : (Nat → Option File) × (File → Nat)) (i : Nat) :
    (Nat → Option File) × (File → Nat) :=
  (update c.1 i (p.fd i),
    match p.fd i with
    | some f => update c.2 f (c.2 f + 1)
    | none => c.2)

def copyFds (p : Files.State n) (openFiles : Nat) (fd : Nat → Option File) :
    (Nat → Option File) × (File → Nat) :=
  (List.range openFiles).foldl (copyFd p) (fd, fun _ => 0)

/-- `copy_files` from its first `memcpy` on. -/
def copied (p : Files.State n) (openFiles : Nat) (newf : NewFiles) : NewFiles :=
  let newf :=
    { newf with
      openFds := copyWords (openFiles / 32) p.openFds newf.openFds
      closeOnExec := copyWords (openFiles / 32) p.closeOnExec newf.closeOnExec
      fd := (copyFds p openFiles newf.fd).1 }
  -- the rest of the array, and then of the sets
  let newf := { newf with fd := fun i => if openFiles ≤ i ∧ i < newf.maxFds then none else newf.fd i }
  if newf.maxFdset > openFiles then
    let left := (newf.maxFdset - openFiles) / 8
    let start := openFiles / 32
    { newf with
      openFds := clearWords start (left / 4) newf.openFds
      closeOnExec := clearWords start (left / 4) newf.closeOnExec }
  else newf

/-! ## The call -/

inductive Block where
  | files
  | openset
  | execset
  | array
deriving DecidableEq, Repr

inductive Fork where
  | none
  /-- in `expand_fdset` for the new table, before it allocates -/
  | expandSet (size : Nat) (newf : NewFiles)
  | sized (size : Nat) (newf : NewFiles)
  /-- in `expand_fd_array` for the new table, before it allocates -/
  | expandArray (openFiles : Nat) (newf : NewFiles)
  | expanded (openFiles : Nat) (newf : NewFiles)
  /-- with the lock of the parent, before it copies -/
  | locked (openFiles : Nat) (newf : NewFiles)
  | done (newf : NewFiles)
  | failed

structure State (n : Nat) where
  parent : Files.State n
  fork : Fork
  /-- what the call has allocated and not freed -/
  live : List Block
  gets : File → Nat

def boot : State n := ⟨.init, .none, [], fun _ => 0⟩

/-- `free_fdset` does not free the sets that are part of the structure. -/
def freeFdset (b : Block) (num : Nat) (live : List Block) : List Block :=
  if num ≤ fdSetsize then live else live.erase b

def State.outRelease (s : State n) (newf : NewFiles) : State n :=
  { s with
    fork := .failed
    live := (freeFdset .openset newf.maxFdset (freeFdset .execset newf.maxFdset s.live)).erase .files }

/-- The call up to the first time it takes the lock. `junk` is what the new structure holds, if there
is memory for it. -/
def State.begin (s : State n) (junk : Option NewFiles) : State n :=
  match junk with
  | none => { s with fork := .failed, live := [], gets := fun _ => 0 }
  | some junk =>
    let s := { s with live := [.files], gets := fun _ => 0 }
    let newf := { junk with nextFd := 0, maxFds := nrOpenDefault, maxFdset := fdSetsize }
    let size := s.parent.maxFdset
    if size > fdSetsize then
      let newf := { newf with maxFdset := 0 }
      if nrOpen ≤ size - 1 then s.outRelease newf else { s with fork := .expandSet size newf }
    else { s with fork := .sized size newf }

/-- `expand_fdset` from its allocations on. -/
def State.allocSets (s : State n) (size : Nat) (newf : NewFiles) (openset execset : Option FdSet) :
    State n :=
  let nfds := grow setStep (size - 1) size newf.maxFdset
  match openset, execset with
  | some o, some e =>
    { s with
      fork := .sized size { newf with openFds := o, closeOnExec := e, maxFdset := nfds }
      live := s.live ++ [.openset, .execset] }
  | some _, none =>
    { s with live := freeFdset .openset nfds (s.live ++ [Block.openset]) }.outRelease newf
  | none, some _ =>
    { s with live := freeFdset .execset nfds (s.live ++ [Block.execset]) }.outRelease newf
  | none, none => s.outRelease newf

/-- What is open is counted. The lock is kept if the array of the structure will do. -/
def State.lock (s : State n) (size : Nat) (newf : NewFiles) : State n :=
  let openFiles := countOpenFiles s.parent.openFds size
  if openFiles > nrOpenDefault then
    let newf := { newf with maxFds := 0 }
    if nrOpen ≤ openFiles - 1 then s.outRelease newf
    else { s with fork := .expandArray openFiles newf }
  else { s with fork := .locked openFiles newf }

/-- `expand_fd_array` from its allocation on. -/
def State.allocArray (s : State n) (openFiles : Nat) (newf : NewFiles)
    (array : Option (Nat → Option File)) : State n :=
  match array with
  | none => s.outRelease newf
  | some a =>
    { s with
      fork := .expanded openFiles
        { newf with fd := a, maxFds := grow arrayStep (openFiles - 1) openFiles newf.maxFds }
      live := s.live ++ [.array] }

/-- The table as a process has it that runs with it. -/
def NewFiles.toState (f : NewFiles) : Files.State n where
  maxFds := f.maxFds
  maxFdset := f.maxFdset
  nextFd := f.nextFd
  fd i := if i < f.maxFds then f.fd i else none
  closeOnExec := copyWords (f.maxFdset / 32) f.closeOnExec fun _ => 0
  openFds := copyWords (f.maxFdset / 32) f.openFds fun _ => 0
  phase _ := .idle 0
  reserved := []
  held := (List.range f.maxFdset).filter fun i => testBit f.openFds i
  handouts := []
  bug := false

/-! ## Steps -/

inductive Event (n : Nat) where
  /-- a thread that shares the table of the parent -/
  | thread (e : Files.Event n)
  | begin (junk : Option NewFiles)
  | allocSets (openset execset : Option FdSet)
  | lock
  | allocArray (array : Option (Nat → Option File))
  | relock
  | copy
  /-- The child runs, and the table that is looked at is that of the parent again. -/
  | leave
  /-- The child runs, and from now on the table that is looked at is its own. -/
  | enter

/-- Nobody changes the table of the parent while the call has the lock. -/
def exec (s : State n) : Event n → Option (State n)
  | .thread e =>
    match s.fork with
    | .locked _ _ => none
    | _ => (Files.exec s.parent e).map fun p => { s with parent := p }
  | .begin junk =>
    match s.fork with
    | .none => some (s.begin junk)
    | _ => none
  | .allocSets openset execset =>
    match s.fork with
    | .expandSet size newf => some (s.allocSets size newf openset execset)
    | _ => none
  | .lock =>
    match s.fork with
    | .sized size newf => some (s.lock size newf)
    | _ => none
  | .allocArray array =>
    match s.fork with
    | .expandArray openFiles newf => some (s.allocArray openFiles newf array)
    | _ => none
  | .relock =>
    match s.fork with
    | .expanded openFiles newf => some { s with fork := .locked openFiles newf }
    | _ => none
  | .copy =>
    match s.fork with
    | .locked openFiles newf =>
      some { s with
        fork := .done (copied s.parent openFiles newf)
        gets := (copyFds s.parent openFiles newf.fd).2 }
    | _ => none
  | .leave =>
    match s.fork with
    | .done _ | .failed => some { s with fork := .none }
    | _ => none
  | .enter =>
    match s.fork with
    | .done newf => some { s with parent := newf.toState, fork := .none }
    | _ => none

def Step (s : State n) (e : Event n) (s' : State n) : Prop := exec s e = some s'

/-! ## What a copy is to be -/

/-- What a descriptor stands for. -/
def NewFiles.slot (f : NewFiles) (fd : Nat) : Option File := if fd < f.maxFds then f.fd fd else none

def NewFiles.isOpen (f : NewFiles) (fd : Nat) : Bool := decide (fd < f.maxFdset) && testBit f.openFds fd

def NewFiles.closesOnExec (f : NewFiles) (fd : Nat) : Bool :=
  decide (fd < f.maxFdset) && testBit f.closeOnExec fd

/-- The table is a consistent copy of that of the parent, and holds one reference for each of its
descriptors. -/
structure Exact (p : Files.State n) (f : NewFiles) (gets : File → Nat) : Prop where
  consistent : ∀ fd, f.isOpen fd = true ↔ (f.slot fd).isSome = true
  slots : ∀ fd, f.slot fd = p.fcheck fd
  exec : ∀ fd, (f.slot fd).isSome = true → f.closesOnExec fd = testBit p.closeOnExec fd
  counts : ∀ file, gets file = (List.range f.maxFds).countP fun fd => f.slot fd = some file
  next : ∀ fd, f.isOpen fd = false → f.nextFd ≤ fd

/-- No descriptor below `openFiles` is taken and not installed, and there is none from there on. -/
structure Settled (p : Files.State n) (openFiles : Nat) : Prop where
  installed : ∀ fd < openFiles, testBit p.openFds fd = true → (p.fd fd).isSome = true
  below : ∀ fd, openFiles ≤ fd → p.fd fd = none

/-! ## The table of the parent -/

/-- The table of the parent is as its calls leave it. -/
abbrev Good (p : Files.State n) : Prop := Files.Inv .init p

/-- What another thread does to the table. It never gets smaller. -/
theorem thread_good {p p' : Files.State n} {e : Files.Event n} (hp : Good p) (hstep : Files.Step p e p') :
    Good p' ∧ p.maxFds ≤ p'.maxFds ∧ p.maxFdset ≤ p'.maxFdset := by
  have hfrom : Files.Inv p p := { hp with fds := le_rfl, fdset := le_rfl }
  have hsizes := Files.step_inv hfrom hstep
  exact ⟨Files.step_inv hp hstep, hsizes.fds, hsizes.fdset⟩

/-! ## What is counted -/

section
variable {p : Files.State n} {b : FdSet} {m size : Nat}

theorem lastWord_lt (hm : 0 < m) : lastWord b m < m := by
  induction m with
  | zero => exact hm
  | succ m ih =>
    rw [lastWord]
    split
    · exact Nat.lt_succ_self m
    · rcases Nat.eq_zero_or_pos m with rfl | hpos
      · exact Nat.zero_lt_one
      · exact Nat.lt_succ_of_lt (ih hpos)

theorem lastWord_ne (b : FdSet) (m : Nat) : lastWord b m = 0 ∨ b (lastWord b m) ≠ 0 := by
  induction m with
  | zero => exact .inl rfl
  | succ m ih =>
    rw [lastWord]
    split
    next hne => exact .inr hne
    · exact ih

theorem countOpenFiles_le (hdvd : 32 ∣ size) (hpos : 0 < size) : countOpenFiles b size ≤ size := by
  have hlt := lastWord_lt (b := b) (Nat.div_pos (Nat.le_of_dvd hpos hdvd) (by decide))
  unfold countOpenFiles
  omega

theorem countOpenFiles_fits (hp : Good p) (size : Nat) : countOpenFiles p.openFds size ≤ p.maxFds := by
  unfold countOpenFiles
  rcases lastWord_ne p.openFds (size / 32) with hzero | hword
  · rw [hzero]
    exact hp.fds
  · generalize lastWord p.openFds (size / 32) = w at hword ⊢
    obtain ⟨hlt, hset, -⟩ := ffs_spec hword
    have hbit := (hp.bits (32 * w + ffs (p.openFds w)) (by rw [testBit_word hlt]; exact hset)).2
    have hdvd := hp.fdsSize
    omega

end

/-! ## What is copied -/

section
variable {p : Files.State n} {newf : NewFiles} {openFiles fd : Nat}

theorem copyFds_fst (p : Files.State n) (m : Nat) (array : Nat → Option File) (i : Nat) :
    (copyFds p m array).1 i = if i < m then p.fd i else array i := by
  induction m with
  | zero => rfl
  | succ m ih =>
    unfold copyFds at ih ⊢
    rw [List.range_succ, List.foldl_append, List.foldl_cons, List.foldl_nil, copyFd]
    dsimp only
    rcases eq_or_ne i m with rfl | hne
    · rw [update_self, if_pos (Nat.lt_succ_self i)]
    · rw [update_of_ne hne, ih]
      have : i < m ↔ i < m + 1 := by omega
      simp only [this]

/-- A set of the new table: words of the parent's, and zeroes after them. -/
def filledSet (openFiles maxFdset : Nat) (src dst : FdSet) : FdSet :=
  if maxFdset > openFiles then
    clearWords (openFiles / 32) ((maxFdset - openFiles) / 8 / 4) (copyWords (openFiles / 32) src dst)
  else copyWords (openFiles / 32) src dst

theorem copied_eq (p : Files.State n) (openFiles : Nat) (newf : NewFiles) :
    copied p openFiles newf =
      { newf with
        fd := fun i => if openFiles ≤ i ∧ i < newf.maxFds then none
          else (copyFds p openFiles newf.fd).1 i
        openFds := filledSet openFiles newf.maxFdset p.openFds newf.openFds
        closeOnExec := filledSet openFiles newf.maxFdset p.closeOnExec newf.closeOnExec } := by
  unfold copied filledSet
  dsimp only
  split <;> rfl

/-- The sizes of the new table go with what is counted. -/
structure Room (openFiles : Nat) (newf : NewFiles) : Prop where
  words : 32 ∣ openFiles
  fdset : openFiles ≤ newf.maxFdset
  fdsetDvd : 32 ∣ newf.maxFdset
  fds : openFiles ≤ newf.maxFds
  next : newf.nextFd = 0

theorem filledSet_spec {src dst : FdSet} (h : Room openFiles newf) (fd : Nat) :
    (decide (fd < newf.maxFdset) && testBit (filledSet openFiles newf.maxFdset src dst) fd) =
      (decide (fd < openFiles) && testBit src fd) := by
  obtain ⟨hwords, hle, hdvd, -, -⟩ := h
  by_cases hlt : fd < openFiles
  · have hword : fd / 32 < openFiles / 32 := by omega
    have hclear : ¬ openFiles / 32 ≤ fd / 32 := Nat.not_le.mpr hword
    have hset : filledSet openFiles newf.maxFdset src dst (fd / 32) = src (fd / 32) := by
      unfold filledSet clearWords copyWords
      split <;> simp [hclear, hword]
    simp [testBit, hset, hlt, hlt.trans_le hle]
  · by_cases hfd : fd < newf.maxFdset
    · have hmore : newf.maxFdset > openFiles := (Nat.not_lt.mp hlt).trans_lt hfd
      have hclear : openFiles / 32 ≤ fd / 32 ∧
          fd / 32 < openFiles / 32 + (newf.maxFdset - openFiles) / 8 / 4 := by omega
      have hset : filledSet openFiles newf.maxFdset src dst (fd / 32) = 0 := by
        unfold filledSet clearWords
        rw [if_pos hmore]
        exact if_pos hclear
      simp [testBit, hset, hlt]
    · simp [hfd, hlt]

theorem isOpen_copied (h : Room openFiles newf) (fd : Nat) :
    (copied p openFiles newf).isOpen fd = (decide (fd < openFiles) && testBit p.openFds fd) := by
  rw [copied_eq]
  exact filledSet_spec h fd

theorem slot_copied (h : Room openFiles newf) (fd : Nat) :
    (copied p openFiles newf).slot fd = if fd < openFiles then p.fd fd else none := by
  rw [copied_eq, NewFiles.slot]
  dsimp only
  by_cases hlt : fd < openFiles
  · have hnot : ¬ (openFiles ≤ fd ∧ fd < newf.maxFds) := fun hc => absurd hlt (Nat.not_lt.mpr hc.1)
    rw [if_pos (hlt.trans_le h.fds), if_neg hnot, copyFds_fst, if_pos hlt, if_pos hlt]
  · split
    next hfds => exact if_pos ⟨Nat.not_lt.mp hlt, hfds⟩
    · rfl

end

/-! ## The table of the child -/

section
variable {f : NewFiles}

theorem testBit_toState (hdvd : 32 ∣ f.maxFdset) (i : Nat) :
    testBit (f.toState : Files.State n).openFds i = f.isOpen i := by
  change testBit (copyWords (f.maxFdset / 32) f.openFds fun _ => 0) i =
    (decide (i < f.maxFdset) && testBit f.openFds i)
  unfold testBit copyWords
  by_cases hi : i < f.maxFdset
  · have hword : i / 32 < f.maxFdset / 32 := by omega
    simp [hi, hword]
  · have hword : ¬ i / 32 < f.maxFdset / 32 := by omega
    simp [hi, hword]

/-- A process can run with the table. -/
structure Usable (f : NewFiles) : Prop where
  fds : nrOpenDefault ≤ f.maxFds
  fdsDvd : 32 ∣ f.maxFds
  fdset : fdSetsize ≤ f.maxFdset
  fdsetDvd : 32 ∣ f.maxFdset
  next : f.nextFd = 0
  bits : ∀ i, f.isOpen i = true → i < f.maxFds
  slots : ∀ i file, f.slot i = some file → f.isOpen i = true

theorem Usable.good (h : Usable f) : Good (f.toState : Files.State n) where
  fds := h.fds
  fdset := h.fdset
  fdsSize := h.fdsDvd
  size := h.fdsetDvd
  bits i hi := by
    rw [testBit_toState h.fdsetDvd] at hi
    have hbound := h.bits i hi
    rw [NewFiles.isOpen, Bool.and_eq_true, decide_eq_true_iff] at hi
    exact ⟨hi.1, hbound⟩
  slots i file hi := (testBit_toState h.fdsetDvd i).trans (h.slots i file hi)
  next i hi := by
    rw [show (f.toState : Files.State n).nextFd = 0 from h.next] at hi
    exact absurd hi (Nat.not_lt_zero i)
  held i := by
    rw [testBit_toState h.fdsetDvd]
    simp [NewFiles.toState, NewFiles.isOpen]
  nodup := List.nodup_range.filter _
  handouts := nofun
  pending := by
    rintro i (hi | ⟨_, _, hi⟩) <;> cases hi
  reserved := List.nodup_nil
  apart := nofun
  alone := nofun
  phases _ := trivial
  bug := rfl

end

/-! ## The call as a whole -/

/-- The blocks of the new table but for its array. -/
def blocksOf (newf : NewFiles) : List Block :=
  if newf.maxFdset ≤ fdSetsize then [.files] else [.files, .openset, .execset]

/-- What holds between two steps of the call. The sizes that it has looked at are those of the parent,
or the parent's table has grown since. -/
def ForkOk (p : Files.State n) (live : List Block) (gets : File → Nat) : Fork → Prop
  | .none => True
  | .expandSet size newf =>
    live = [.files] ∧ gets = (fun _ => 0) ∧ newf.nextFd = 0 ∧ newf.maxFds = nrOpenDefault ∧
      newf.maxFdset = 0 ∧ 32 ∣ size ∧ fdSetsize < size ∧ size - 1 < nrOpen ∧ size ≤ p.maxFdset
  | .sized size newf =>
    live = blocksOf newf ∧ gets = (fun _ => 0) ∧ newf.nextFd = 0 ∧ newf.maxFds = nrOpenDefault ∧
      fdSetsize ≤ newf.maxFdset ∧ 32 ∣ newf.maxFdset ∧ size ≤ newf.maxFdset ∧ 32 ∣ size ∧ 0 < size ∧
      size ≤ p.maxFdset
  | .expandArray openFiles newf =>
    live = blocksOf newf ∧ gets = (fun _ => 0) ∧ newf.nextFd = 0 ∧ newf.maxFds = 0 ∧
      fdSetsize ≤ newf.maxFdset ∧ 32 ∣ newf.maxFdset ∧ openFiles ≤ newf.maxFdset ∧ 32 ∣ openFiles ∧
      0 < openFiles ∧ openFiles - 1 < nrOpen ∧ openFiles ≤ p.maxFds ∧ openFiles ≤ p.maxFdset
  | .expanded openFiles newf | .locked openFiles newf =>
    Room openFiles newf ∧ nrOpenDefault ≤ newf.maxFds ∧ 32 ∣ newf.maxFds ∧ fdSetsize ≤ newf.maxFdset ∧
      openFiles ≤ p.maxFds ∧ openFiles ≤ p.maxFdset
  | .done newf => Usable newf
  | .failed => live = [] ∧ gets = fun _ => 0

structure Inv (s : State n) : Prop where
  parent : Good s.parent
  fork : ForkOk s.parent s.live s.gets s.fork

section
variable {s s' : State n} {p p' : Files.State n} {live : List Block} {gets : File → Nat}
  {newf : NewFiles} {size openFiles : Nat}

theorem ForkOk.grow {fork : Fork} (h : ForkOk p live gets fork) (hfds : p.maxFds ≤ p'.maxFds)
    (hset : p.maxFdset ≤ p'.maxFdset) : ForkOk p' live gets fork := by
  cases fork with
  | none => trivial
  | expandSet size newf =>
    obtain ⟨h1, h2, h3, h4, h5, h6, h7, h8, h9⟩ := h
    exact ⟨h1, h2, h3, h4, h5, h6, h7, h8, h9.trans hset⟩
  | sized size newf =>
    obtain ⟨h1, h2, h3, h4, h5, h6, h7, h8, h9, h10⟩ := h
    exact ⟨h1, h2, h3, h4, h5, h6, h7, h8, h9, h10.trans hset⟩
  | expandArray openFiles newf =>
    obtain ⟨h1, h2, h3, h4, h5, h6, h7, h8, h9, h10, h11, h12⟩ := h
    exact ⟨h1, h2, h3, h4, h5, h6, h7, h8, h9, h10, h11.trans hfds, h12.trans hset⟩
  | expanded | locked =>
    obtain ⟨h1, h2, h3, h4, h5, h6⟩ := h
    exact ⟨h1, h2, h3, h4, h5.trans hfds, h6.trans hset⟩
  | done | failed => exact h

theorem Inv.forkOk {fork : Fork} (hi : Inv s) (hfork : s.fork = fork) :
    ForkOk s.parent s.live s.gets fork := hfork ▸ hi.fork

/-- Nothing is left behind that `out_release` does not know of. -/
theorem outRelease_ok (hlive : s.live = blocksOf newf ∨ s.live = [.files] ∧ newf.maxFdset = 0)
    (hgets : s.gets = fun _ => 0) :
    ForkOk (s.outRelease newf).parent (s.outRelease newf).live (s.outRelease newf).gets
      (s.outRelease newf).fork := by
  refine ⟨?_, hgets⟩
  unfold State.outRelease freeFdset
  rcases hlive with hlive | ⟨hlive, hzero⟩
  · rw [hlive, blocksOf]
    split <;> rfl
  · rw [hlive, hzero]
    rfl

theorem begin_inv (hp : Good s.parent) (junk : Option NewFiles) : Inv (s.begin junk) := by
  cases junk with
  | none => exact ⟨hp, rfl, rfl⟩
  | some junk =>
    unfold State.begin
    dsimp only
    have hdvd := hp.size
    split
    next hlarge =>
      split
      · exact ⟨hp, outRelease_ok (.inr ⟨rfl, rfl⟩) rfl⟩
      next hopen =>
        exact ⟨hp, rfl, rfl, rfl, rfl, rfl, hdvd, hlarge, Nat.not_le.mp hopen, le_rfl⟩
    next hsmall =>
      have hsize : s.parent.maxFdset = fdSetsize := le_antisymm (Nat.not_lt.mp hsmall) hp.fdset
      exact ⟨hp, rfl, rfl, rfl, rfl, le_rfl, ⟨32, rfl⟩, hsize.le, hdvd,
        (by decide : 0 < fdSetsize).trans_le hp.fdset, le_rfl⟩

theorem allocSets_inv (hi : Inv s) (hfork : s.fork = .expandSet size newf)
    (openset execset : Option FdSet) : Inv (s.allocSets size newf openset execset) := by
  obtain ⟨hlive, hgets, hnext, hfds, hzero, hdvd, hlarge, hopen, hle⟩ := hi.forkOk hfork
  have hgt : size - 1 < grow setStep (size - 1) size 0 :=
    Files.grow_gt (fun _ => Files.setStep_gt) hopen (by omega) (by omega) (by decide)
  have hbig : ¬ grow setStep (size - 1) size newf.maxFdset ≤ fdSetsize := by
    rw [hzero]
    omega
  unfold State.allocSets
  cases openset with
  | none =>
    cases execset with
    | none => exact ⟨hi.parent, outRelease_ok (.inr ⟨hlive, hzero⟩) hgets⟩
    | some e =>
      refine ⟨hi.parent, outRelease_ok (.inr ⟨?_, hzero⟩) hgets⟩
      rw [freeFdset, if_neg hbig, hlive]
      rfl
  | some o =>
    cases execset with
    | none =>
      refine ⟨hi.parent, outRelease_ok (.inr ⟨?_, hzero⟩) hgets⟩
      rw [freeFdset, if_neg hbig, hlive]
      rfl
    | some e =>
      refine ⟨hi.parent, ?_, hgets, hnext, hfds, (Nat.lt_of_not_le hbig).le, ?_, ?_, hdvd, by omega, hle⟩
      · rw [blocksOf, if_neg hbig, hlive]
        rfl
      · exact Files.grow_dvd (fun _ => Files.setStep_dvd) (hzero ▸ Nat.dvd_zero 32)
      · dsimp only
        rw [hzero]
        omega

theorem lock_inv (hi : Inv s) (hfork : s.fork = .sized size newf) : Inv (s.lock size newf) := by
  obtain ⟨hlive, hgets, hnext, hfds, hset, hsetDvd, hle, hdvd, hpos, hparent⟩ := hi.forkOk hfork
  have hcount : countOpenFiles s.parent.openFds size ≤ size := countOpenFiles_le hdvd hpos
  have hdvd' : 32 ∣ countOpenFiles s.parent.openFds size := Nat.dvd_mul_left ..
  have hfits := countOpenFiles_fits hi.parent size
  unfold State.lock
  dsimp only
  split
  next hmany =>
    split
    · exact ⟨hi.parent, outRelease_ok (.inl hlive) hgets⟩
    next hopen =>
      exact ⟨hi.parent, hlive, hgets, hnext, rfl, hset, hsetDvd, hcount.trans hle, hdvd',
        Nat.zero_lt_of_lt hmany, Nat.not_le.mp hopen, hfits, hcount.trans hparent⟩
  next hfew =>
    exact ⟨hi.parent, ⟨hdvd', hcount.trans hle, hsetDvd, hfds ▸ Nat.not_lt.mp hfew, hnext⟩, hfds.ge,
      hfds ▸ by decide, hset, hfits, hcount.trans hparent⟩

theorem allocArray_inv (hi : Inv s) (hfork : s.fork = .expandArray openFiles newf)
    (array : Option (Nat → Option File)) : Inv (s.allocArray openFiles newf array) := by
  obtain ⟨hlive, hgets, hnext, hzero, hset, hsetDvd, hle, hdvd, hpos, hopen, hfits, hparent⟩ := hi.forkOk hfork
  cases array with
  | none => exact ⟨hi.parent, outRelease_ok (.inl hlive) hgets⟩
  | some a =>
    have hgt : openFiles - 1 < grow arrayStep (openFiles - 1) openFiles newf.maxFds := by
      rw [hzero]
      exact Files.grow_gt (fun _ => Files.arrayStep_gt) hopen (by omega) hpos (by decide)
    have hgrown : 32 ∣ grow arrayStep (openFiles - 1) openFiles newf.maxFds :=
      Files.grow_dvd (fun _ => Files.arrayStep_dvd) (hzero ▸ Nat.dvd_zero 32)
    have hroom : openFiles ≤ grow arrayStep (openFiles - 1) openFiles newf.maxFds := by omega
    exact ⟨hi.parent, ⟨hdvd, hle, hsetDvd, hroom, hnext⟩,
      (Nat.le_of_dvd hpos hdvd).trans hroom, hgrown, hset, hfits, hparent⟩

theorem copied_usable (hp : Good p) (hroom : Room openFiles newf) (hfds : nrOpenDefault ≤ newf.maxFds)
    (hfdsDvd : 32 ∣ newf.maxFds) (hset : fdSetsize ≤ newf.maxFdset) :
    Usable (copied p openFiles newf) := by
  have hsame : (copied p openFiles newf).maxFds = newf.maxFds ∧
      (copied p openFiles newf).maxFdset = newf.maxFdset ∧
      (copied p openFiles newf).nextFd = newf.nextFd := by
    rw [copied_eq]
    exact ⟨rfl, rfl, rfl⟩
  obtain ⟨hsame1, hsame2, hsame3⟩ := hsame
  refine ⟨hsame1 ▸ hfds, hsame1 ▸ hfdsDvd, hsame2 ▸ hset, hsame2 ▸ hroom.fdsetDvd,
    hsame3.trans hroom.next, ?_, ?_⟩
  · intro i hi
    rw [isOpen_copied hroom, Bool.and_eq_true, decide_eq_true_iff] at hi
    rw [hsame1]
    exact hi.1.trans_le hroom.fds
  · intro i file hi
    rw [slot_copied hroom] at hi
    split at hi
    next hlt => rw [isOpen_copied hroom, decide_eq_true hlt, hp.slots i file hi]; rfl
    · cases hi

theorem step_inv {e : Event n} (hi : Inv s) (hstep : Step s e s') : Inv s' := by
  unfold Step at hstep
  cases e with simp only [exec] at hstep
  | thread e =>
    have hmove (h : (Files.exec s.parent e).map (fun p => { s with parent := p }) = some s') : Inv s' := by
      obtain ⟨p', hp', rfl⟩ := Option.map_eq_some_iff.mp h
      obtain ⟨hgood, hfds, hset⟩ := thread_good hi.parent hp'
      exact ⟨hgood, hi.fork.grow hfds hset⟩
    split at hstep
    · cases hstep
    · exact hmove hstep
  | begin junk =>
    split at hstep <;> cases hstep
    exact begin_inv hi.parent junk
  | allocSets openset execset =>
    split at hstep <;> cases hstep
    next hfork => exact allocSets_inv hi hfork openset execset
  | lock =>
    split at hstep <;> cases hstep
    next hfork => exact lock_inv hi hfork
  | allocArray array =>
    split at hstep <;> cases hstep
    next hfork => exact allocArray_inv hi hfork array
  | relock =>
    split at hstep <;> cases hstep
    next hfork =>
      exact ⟨hi.parent, (hi.forkOk hfork :)⟩
  | copy =>
    split at hstep <;> cases hstep
    next hfork =>
      obtain ⟨hroom, hfds, hfdsDvd, hset, -, -⟩ := hi.forkOk hfork
      exact ⟨hi.parent, copied_usable hi.parent hroom hfds hfdsDvd hset⟩
  | leave =>
    split at hstep <;> cases hstep <;> exact ⟨hi.parent, trivial⟩
  | enter =>
    split at hstep <;> cases hstep
    next hfork =>
      have h : Usable _ := hi.forkOk hfork
      exact ⟨h.good, trivial⟩

theorem boot_inv : Inv (boot : State n) where
  parent := Files.inv_init
  fork := trivial

end

/-! ## Runs -/

end

/-- What a new structure may hold. -/
def junkFiles : NewFiles := ⟨7, 7, 7, fun _ => some 99, fun _ => 0xffffffff, fun _ => 0xffffffff⟩

/-- The thread beside the one that forks. -/
def other : Fin 2 := ⟨1, Nat.one_lt_two⟩

/-- One file is open when the table is copied. -/
def quiet : List (Event 2) :=
  [.thread (.getUnusedFd other 1024), .thread (.fdInstall 0 7), .begin (some junkFiles), .lock]

end CustomKernel.Fs.CopyFiles

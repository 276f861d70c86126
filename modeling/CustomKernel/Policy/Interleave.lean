import CustomKernel.Policy.Outcomes

/-! # Overlapping policy calls

`sys_enable_policy` and `sys_get_process_log` look their target up once and
then sleep in `kmalloc(GFP_KERNEL)` and in `copy_to_user`, with neither a lock
nor a reference on it. Here any number of them are in progress at once, each
stopped at one of these points, and between the steps the target may lose its
policy or be reaped.

A call in progress may hold a block that no task answers for yet: the log that
waits for its records, or the temporary array. With these blocks hidden, the
account of `Ownership` holds in the middle of the calls as well, as long as
nobody pulls a target away from under a call that still works on it. -/
namespace CustomKernel.Policy.Interleave
open Lib.Ownership Lib.Transition Function
open Policy.Heap Policy.Syscalls Policy.Log
open Policy.Effects Policy.Ownership Policy.Outcomes

/-! ## Calls in progress -/

/-- A call that sleeps: in which allocation or copy, and what it has on its
stack. `enableArray` also notes where its log is, which the code finds again
through the task. -/
inductive Frame where
  | enableLog (p : Addr) (size : Int)
  | enableArray (p : Addr) (size : Int) (log : Addr)
  | readMem (p : Addr) (size prevIndexRead : Int)
  | readUser (p : Addr) (size prevIndexRead : Int) (temp : Addr)

def Frame.target : Frame → Addr
  | .enableLog p _ | .enableArray p _ _ | .readMem p _ _ | .readUser p _ _ _ => p

/-- The block that only this call knows of. -/
def Frame.holds : Frame → Option Addr
  | .enableArray _ _ log => some log
  | .readUser _ _ _ temp => some temp
  | .enableLog .. | .readMem .. => none

/-- A frame of `sys_get_process_log`. -/
def Frame.reads : Frame → Prop
  | .readMem .. | .readUser .. => True
  | .enableLog .. | .enableArray .. => False

/-- The kernel with its calls in progress. `won p` lists the sizes for which
enables of `p` have returned 0 since its policy was last off. -/
structure Sys where
  k : Kernel
  calls : Nat → Option Frame
  won : Addr → List Int

/-- What a sleeping call wakes up to: the address the allocator found, with the
stale contents of the block, or the outcome of `copy_to_user`. -/
structure Wake where
  addr : Addr
  logJunk : LogArray
  arrayJunk : Int → ForbiddenActivityInfo
  copied : Bool

inductive Event where
  /-- call `i` enters `sys_enable_policy` -/
  | enable (i : Nat) (pid size password : Int)
  /-- call `i` enters `sys_get_process_log` -/
  | getLog (i : Nat) (pid size : Int)
  | wake (i : Nat) (w : Wake)
  | disable (pid password : Int)
  /-- the target exits and is reaped -/
  | exit (pid : Int)

namespace Sys

/-- Call `i` goes to sleep in `f`, or is over. -/
def goesTo (s : Sys) (i : Nat) (k : Kernel) (f : Option Frame) : Sys :=
  { s with k := k, calls := update s.calls i f }

/-- An enable of `p` returns `r`. -/
def returns (s : Sys) (i : Nat) (k : Kernel) (p : Addr) (size r : Int) : Sys :=
  { s.goesTo i k none with
    won := if r = 0 then update s.won p (size :: s.won p) else s.won }

def resume (s : Sys) (i : Nat) (w : Wake) : Frame → Sys
  | .enableLog p size =>
    match (enablePolicyLog p size w.addr w.logJunk).run s.k with
    | (none, k) => s.goesTo i k (some (.enableArray p size w.addr))
    | (some r, k) => s.returns i k p size r
  | .enableArray p size _ =>
    match (enablePolicyArray p size w.addr w.arrayJunk).run s.k with
    | (r, k) => s.returns i k p size r
  | .readMem p size prev =>
    match (getProcessLogCopy p size w.addr).run s.k with
    | (.error _, k) => s.goesTo i k none
    | (.ok temp, k) => s.goesTo i k (some (.readUser p size prev temp))
  | .readUser p size prev temp =>
    match (getProcessLogFinish p size prev temp w.copied).run s.k with
    | (_, k) => s.goesTo i k none

/-- One event. A call enters under a number that is free, and only a call in
progress wakes up. -/
def exec (s : Sys) : Event → Sys
  | .enable i pid size password =>
    match s.calls i with
    | some _ => s
    | none =>
      match (enablePolicyChecks pid size password).run s.k with
      | (.ok p, k) => s.goesTo i k (some (.enableLog p size))
      | (.error _, k) => s.goesTo i k none
  | .getLog i pid size =>
    match s.calls i with
    | some _ => s
    | none =>
      match (getProcessLogChecks pid size).run s.k with
      | (.ok (p, prev), k) => s.goesTo i k (some (.readMem p size prev))
      | (.error _, k) => s.goesTo i k none
  | .wake i w =>
    match s.calls i with
    | some f => s.resume i w f
    | none => s
  | .disable pid password =>
    match s.k.pidhash pid with
    | none => s
    | some p =>
      match (sysDisablePolicy pid password).run s.k with
      | (r, k) => { s with k := k, won := if r = 0 then update s.won p [] else s.won }
  | .exit pid =>
    match s.k.pidhash pid with
    | none => s
    | some p =>
      { s with k := ((releaseTask p).run s.k).2, won := update s.won p [] }

def execAll (s : Sys) (es : List Event) : Sys := es.foldl exec s

end Sys

def SysStep (s : Sys) (e : Event) (s' : Sys) : Prop := s' = s.exec e

theorem run_execAll (s : Sys) (es : List Event) : Run SysStep s es (s.execAll es) := by
  induction es generalizing s with
  | nil => exact .nil s
  | cons e es ih => exact .cons rfl (ih (s.exec e))

/-- The size of the log of a task, if its policy is on. -/
def sizesOf (k : Kernel) (t : TaskStruct) : List Int :=
  if t.policyOn = 1 then
    match k.mem t.logArray with
    | some (.log l) => [l.size]
    | _ => []
  else []

/-- Nothing is in progress yet. A log that is already there counts as won. -/
def Sys.start (k : Kernel) : Sys where
  k := k
  calls _ := none
  won p := match k.mem p with
    | some (.task t) => sizesOf k t
    | _ => []

/-- Nothing is in progress, and no policy is on. -/
def Sys.boot (k : Kernel) : Sys := ⟨k, fun _ => none, fun _ => []⟩

theorem boot_eq_start {k : Kernel} (hb : Boot k) : Sys.boot k = Sys.start k := by
  simp only [Sys.boot, Sys.start, Sys.mk.injEq, true_and]
  funext p
  cases hm : k.mem p with
  | none => rfl
  | some x =>
    obtain ⟨t, rfl, hoff⟩ := hb.tasks p x hm
    simp [sizesOf, hoff]

/-! ## Hidden blocks -/

open Classical in
/-- Memory without the blocks in `H`. -/
noncomputable def hide (H : Set Addr) (k : Kernel) : Kernel :=
  { k with mem := fun a => if a ∈ H then none else k.mem a }

section Hide
variable {H : Set Addr} {k : Kernel} {a : Addr} {x : Block}

theorem hide_mem (h : a ∉ H) : (hide H k).mem a = k.mem a := if_neg h

theorem hide_mem_held (h : a ∈ H) : (hide H k).mem a = none := if_pos h

theorem hide_mem_some : (hide H k).mem a = some x ↔ a ∉ H ∧ k.mem a = some x := by
  by_cases h : a ∈ H
  · simp [hide_mem_held h, h]
  · simp [hide_mem h, h]

theorem hide_mem_none (h : k.mem a = none) : (hide H k).mem a = none := by
  by_cases ha : a ∈ H
  · exact hide_mem_held ha
  · rw [hide_mem ha, h]

theorem hide_empty (k : Kernel) : hide ∅ k = k := by simp [hide]

theorem hide_set (h : a ∉ H) (x : Block) : hide H (k.set a x) = (hide H k).set a x := by
  simp only [hide, Kernel.set, Kernel.mk.injEq, and_true]
  funext b
  by_cases hb : b = a
  · subst hb; simp [h]
  · simp [hb]

theorem hide_unset (H : Set Addr) (k : Kernel) (a : Addr) :
    hide H (k.unset a) = (hide H k).unset a := by
  simp only [hide, Kernel.unset, Kernel.mk.injEq, and_true]
  funext b
  by_cases hb : b = a
  · subst hb; simp
  · simp [hb]

/-- A block that comes in hidden is not seen. -/
theorem hide_freeLog (H : Set Addr) (k : Kernel) (a : Addr) (l : LogArray) :
    hide H (freeLog k a l) = freeLog (hide H k) a l := by
  unfold freeLog
  split
  · exact hide_unset H k a
  · rw [hide_unset, hide_unset]

theorem hide_insert_set (h : k.mem a = none) (x : Block) :
    hide (insert a H) (k.set a x) = hide H k := by
  simp only [hide, Kernel.set, Kernel.mk.injEq, and_true]
  funext b
  by_cases hb : b = a
  · subst hb; simp [h]
  · by_cases hh : b ∈ H <;> simp [hb, hh]

/-- A hidden block comes into view, with new contents, -/
theorem hide_diff_set (H : Set Addr) (k : Kernel) (a : Addr) (x : Block) :
    hide (H \ {a}) (k.set a x) = (hide H k).set a x := by
  simp only [hide, Kernel.set, Kernel.mk.injEq, and_true]
  funext b
  by_cases hb : b = a
  · subst hb; simp
  · by_cases hh : b ∈ H <;> simp [hb, hh]

/-- or goes without having been seen. -/
theorem hide_diff_unset (h : a ∈ H) : hide (H \ {a}) (k.unset a) = hide H k := by
  simp only [hide, Kernel.unset, Kernel.mk.injEq, and_true]
  funext b
  by_cases hb : b = a
  · subst hb; simp [h]
  · by_cases hh : b ∈ H <;> simp [hb, hh]

end Hide

/-! ## The invariant -/

def holder (calls : Nat → Option Frame) (i : Nat) : Option Addr := (calls i).bind Frame.holds

theorem holder_update (calls : Nat → Option Frame) (i : Nat) (f : Option Frame) :
    holder (update calls i f) =
      update (holder calls) i (f.bind Frame.holds) := by
  funext j
  by_cases hj : j = i
  · subst hj; simp [holder]
  · simp [holder, hj]

/-- The call still has what it found before it went to sleep: its task, with
the policy on or off as it was, and the block it holds. -/
def Frame.Live (k : Kernel) (f : Frame) : Prop :=
  ∃ t, k.mem f.target = some (.task t) ∧
    match f with
    | .enableLog _ size => 0 ≤ size
    | .enableArray _ size log => t.policyOn = 0 ∧ t.logArray = log ∧ log ≠ 0 ∧ 0 < size ∧
        ∃ l, k.mem log = some (.log l)
    | .readMem _ size _ => t.policyOn = 1 ∧ ∃ l, k.mem t.logArray = some (.log l) ∧ size ≤ l.size
    | .readUser _ size _ temp =>
        (t.policyOn = 1 ∧ ∃ l, k.mem t.logArray = some (.log l) ∧ size ≤ l.size) ∧
        ∃ d, k.mem temp = some (.temp d)

/-- With the blocks `H` of the calls in progress hidden, every log block is
accounted for, and no access has missed except past the end of a record
array. -/
structure Inv (s : Sys) (H : Set Addr) : Prop where
  sound : Sound (hide H s.k)
  held : Exact (holder s.calls) H
  live : ∀ i f, s.calls i = some f → f.Live s.k
  won : ∀ p t, s.k.mem p = some (.task t) → s.won p = sizesOf s.k t
  faults : ∀ f ∈ s.k.faults, f = .outOfBounds

theorem Inv.start {k : Kernel} (hs : Sound k) (hf : k.faults = []) : Inv (Sys.start k) ∅ := by
  refine ⟨by rw [hide_empty]; exact hs, Exact.empty (fun _ => rfl) (fun _ => id), ?_, ?_, ?_⟩
  · intro i f h; cases h
  · intro p t (ht : k.mem p = some (.task t))
    simp only [Sys.start, ht]
  · intro f h
    rw [show (Sys.start k).k.faults = [] from hf] at h
    cases h

section Change
variable {s : Sys} {H : Set Addr} {k' k : Kernel} {p q a : Addr} {own : Option Addr}
  {t : TaskStruct} {l : LogArray} {x : Block} {f : Frame} {i : Nat}

section
variable (hi : Inv s H)
include hi

theorem Inv.held_mem (ha : a ∈ H) :
    (∃ l, s.k.mem a = some (.log l)) ∨ ∃ d, s.k.mem a = some (.temp d) := by
  obtain ⟨i, hi'⟩ := hi.held.owned a ha
  obtain ⟨f, hf, hfa⟩ := Option.bind_eq_some_iff.mp hi'
  obtain ⟨t, _, hlive⟩ := hi.live i f hf
  cases f with
  | enableLog p size => cases hfa
  | enableArray p size log => cases hfa; exact .inl hlive.2.2.2.2
  | readMem p size prev => cases hfa
  | readUser p size prev temp => cases hfa; exact .inr hlive.2

theorem Inv.task_visible (ht : s.k.mem p = some (.task t)) : p ∉ H := fun hp => by
  simpa [ht] using hi.held_mem hp

theorem Inv.view_task (ht : s.k.mem p = some (.task t)) :
    (hide H s.k).mem p = some (.task t) := hide_mem_some.mpr ⟨hi.task_visible ht, ht⟩

theorem Inv.free_unheld (ha : s.k.mem a = none) : a ∉ H := fun h => by
  simpa [ha] using hi.held_mem h

theorem Inv.target {pid : Int} (hp : s.k.pidhash pid = some p) :
    ∃ t, s.k.mem p = some (.task t) := by
  obtain ⟨t, ht, _⟩ := hi.sound.hash pid p hp
  exact ⟨t, (hide_mem_some.mp ht).2⟩

theorem Inv.log (ht : s.k.mem p = some (.task t)) (hon : t.policyOn = 1) :
    ∃ l, (hide H s.k).mem t.logArray = some (.log l) := by
  obtain ⟨l, hl, _⟩ := hi.sound.log (hi.view_task ht) hon
  exact ⟨l, hl⟩

/-- The log of a task, as its owner sees it and as the calls find it. -/
theorem Inv.someLog (ht : s.k.mem p = some (.task t)) :
    ∃ l, (t.policyOn ≠ 0 → (hide H s.k).mem t.logArray = some (.log l)) ∧
      (t.policyOn ≠ 0 → s.k.mem t.logArray = some (.log l) ∧ 0 ≤ l.size) ∧
      (t.policyOn ≠ 0 → l.size ≠ 0 → ∃ n e, s.k.mem l.array = some (.records n e)) := by
  obtain ⟨l, hlog, hrec⟩ := hi.sound.someLog (hi.view_task ht)
  refine ⟨l, fun h => (hlog h).1, fun h => ⟨(hide_mem_some.mp (hlog h).1).2, (hlog h).2⟩, ?_⟩
  intro h h0
  obtain ⟨n, e, hr⟩ := hrec h h0
  exact ⟨n, e, (hide_mem_some.mp hr).2⟩

theorem Inv.view_log (ht : s.k.mem p = some (.task t)) (hon : t.policyOn = 1)
    (hl : s.k.mem t.logArray = some (.log l)) : (hide H s.k).mem t.logArray = some (.log l) := by
  obtain ⟨l', hl'⟩ := hi.log ht hon
  rw [hl', ← hl, (hide_mem_some.mp hl').2]

end

/-- Memory has changed at `p`, in the blocks of `p`, in the block `own` and
where it was free. Apart from `p` itself, no task comes of it. -/
def Change (H : Set Addr) (k k' : Kernel) (p : Addr) (own : Option Addr) : Prop :=
  ∀ a, k'.mem a = k.mem a ∨ a = p ∨
    ((a ∈ blocksOf (hide H k) p ∨ k.mem a = none ∨ own = some a) ∧ ∀ t, k'.mem a ≠ some (.task t))

theorem Change.refl (H : Set Addr) (k : Kernel) (p : Addr) (own : Option Addr) :
    Change H k k p own := fun _ => .inl rfl

theorem Change.set (h : Change H k k' p own) (hx : a = p ∨ kind x ≠ .task)
    (ha : a = p ∨ a ∈ blocksOf (hide H k) p ∨ k.mem a = none ∨ own = some a) :
    Change H k (k'.set a x) p own := by
  intro b
  by_cases hb : b = a
  · subst hb
    by_cases hp : b = p
    · exact .inr (.inl hp)
    · refine .inr (.inr ⟨ha.resolve_left hp, ?_⟩)
      intro t ht
      rw [Kernel.set_mem, update_self] at ht
      cases ht
      exact hx.resolve_left hp rfl
  · rw [Kernel.set_mem, update_of_ne hb]
    exact h b

theorem Change.unset (h : Change H k k' p own)
    (ha : a = p ∨ a ∈ blocksOf (hide H k) p ∨ k.mem a = none ∨ own = some a) :
    Change H k (k'.unset a) p own := by
  intro b
  by_cases hb : b = a
  · subst hb
    by_cases hp : b = p
    · exact .inr (.inl hp)
    · exact .inr (.inr ⟨ha.resolve_left hp, by simp⟩)
  · rw [Kernel.unset_mem, update_of_ne hb]
    exact h b

theorem Change.freeLog (h : Change H k k' p own)
    (ht : (hide H k).mem p = some (.task t)) (hon : t.policyOn = 1)
    (hl : (hide H k).mem t.logArray = some (.log l)) :
    Change H k (freeLog k' t.logArray l) p own := by
  refine Change.unset ?_ (.inr (.inl (log_mem_blocksOf ht hon)))
  split
  · exact h
  · rename_i h0
    exact h.unset (.inr (.inl (array_mem_blocksOf ht hon hl h0)))

theorem Change.block (hch : Change H s.k k' p own) (hi : Inv s H)
    (hp : s.k.mem p = some (.task t)) (hown : ∀ b, own = some b → b ∈ H) (hne : q ≠ p)
    (ha : a ∈ blocksOf (hide H s.k) q) : k'.mem a = s.k.mem a := by
  have hlive : a ∈ logBlocks (hide H s.k) := hi.sound.mem_logBlocks.mpr ⟨q, ha⟩
  rcases hch a with h | h | ⟨h | h | h, _⟩
  · exact h
  · exact absurd hlive (h ▸ task_not_mem_logBlocks (hi.view_task hp))
  · exact absurd h (Set.disjoint_left.mp (hi.sound.blocksOf_disjoint hne) ha)
  · exact absurd hlive (not_mem_logBlocks (hide_mem_none h))
  · exact absurd hlive (not_mem_logBlocks (hide_mem_held (hown a h)))

/-- Other tasks stay, -/
theorem Change.task (hch : Change H s.k k' p own) (hi : Inv s H)
    (hown : ∀ b, own = some b → b ∈ H) (hne : q ≠ p) (ht : s.k.mem q = some (.task t)) :
    k'.mem q = some (.task t) := by
  rcases hch q with h | h | ⟨h | h | h, _⟩
  · exact h.trans ht
  · exact absurd h hne
  · exact absurd (hi.sound.mem_logBlocks.mpr ⟨p, h⟩) (task_not_mem_logBlocks (hi.view_task ht))
  · rw [ht] at h; cases h
  · exact absurd (hown q h) (hi.task_visible ht)

/-- and none is new. -/
theorem Change.task_old (hch : Change H s.k k' p own) (hne : q ≠ p)
    (ht : k'.mem q = some (.task t)) : s.k.mem q = some (.task t) := by
  rcases hch q with h | h | ⟨_, h⟩
  · exact h.symm.trans ht
  · exact absurd h hne
  · exact absurd ht (h t)

theorem Change.held (hch : Change H s.k k' p own) (hi : Inv s H)
    (hp : s.k.mem p = some (.task t)) (ha : a ∈ H) (hown : own ≠ some a) :
    k'.mem a = s.k.mem a := by
  rcases hch a with h | h | ⟨h | h | h, _⟩
  · exact h
  · exact absurd (h ▸ ha) (hi.task_visible hp)
  · exact absurd (hi.sound.mem_logBlocks.mpr ⟨p, h⟩) (not_mem_logBlocks (hide_mem_held ha))
  · exact absurd ha (hi.free_unheld h)
  · exact absurd h hown

theorem Frame.Live.keep (hi : Inv s H) (hf : s.calls i = some f) (hch : Change H s.k k' p own)
    (hp : s.k.mem p = some (.task t)) (hown : ∀ b, own = some b → b ∈ H)
    (hne : f.target ≠ p) (hoth : ∀ a, f.holds = some a → own ≠ some a) : f.Live k' := by
  obtain ⟨t', ht', hlive⟩ := hi.live i f hf
  have held : ∀ a, f.holds = some a → k'.mem a = s.k.mem a := by
    intro a ha
    refine hch.held hi hp (hi.held.live i a ?_) (hoth a ha)
    rw [holder, hf]; exact ha
  have log : t'.policyOn = 1 → k'.mem t'.logArray = s.k.mem t'.logArray := fun hon =>
    hch.block hi hp hown hne (log_mem_blocksOf (hi.view_task ht') hon)
  refine ⟨t', hch.task hi hown hne ht', ?_⟩
  cases f with
  | enableLog q size => exact hlive
  | enableArray q size a =>
    obtain ⟨h1, h2, h3, h4, l, hl⟩ := hlive
    exact ⟨h1, h2, h3, h4, l, (held a rfl).trans hl⟩
  | readMem q size prev =>
    obtain ⟨h1, l, hl, h2⟩ := hlive
    exact ⟨h1, l, (log h1).trans hl, h2⟩
  | readUser q size prev temp =>
    obtain ⟨⟨h1, l, hl, h2⟩, d, hd⟩ := hlive
    exact ⟨⟨h1, l, (log h1).trans hl, h2⟩, d, (held temp rfl).trans hd⟩

/-- A step on target `p`. Each call it leaves in progress is either shown to
be live, or was there before, works on another target and holds another
block. -/
theorem Inv.move {calls : Nat → Option Frame} {won : Addr → List Int} {H' : Set Addr}
    (hi : Inv s H) (hp : s.k.mem p = some (.task t)) (hch : Change H s.k k' p own)
    (hown : ∀ b, own = some b → b ∈ H) (hsound : Sound (hide H' k'))
    (hheld : Exact (holder calls) H')
    (hcalls : ∀ j f, calls j = some f → f.Live k' ∨
      (s.calls j = some f ∧ f.target ≠ p ∧ ∀ a, f.holds = some a → own ≠ some a))
    (hwon : ∀ q, q ≠ p → won q = s.won q)
    (hwonp : ∀ t, k'.mem p = some (.task t) → won p = sizesOf k' t)
    (hf : ∀ f ∈ k'.faults, f = .outOfBounds) : Inv ⟨k', calls, won⟩ H' := by
  refine ⟨hsound, hheld, ?_, ?_, hf⟩
  · intro j f hj
    rcases hcalls j f hj with h | ⟨h1, h2, h3⟩
    · exact h
    · exact Frame.Live.keep hi h1 hch hp hown h2 h3
  · intro q t' (ht' : k'.mem q = some (.task t'))
    show won q = sizesOf k' t'
    by_cases hq : q = p
    · subst hq; exact hwonp t' ht'
    · have hold := hch.task_old hq ht'
      rw [hwon q hq, hi.won q t' hold]
      unfold sizesOf
      by_cases hon : t'.policyOn = 1
      · rw [if_pos hon, if_pos hon,
          hch.block hi hp hown hq (log_mem_blocksOf (hi.view_task hold) hon)]
      · rw [if_neg hon, if_neg hon]

end Change

/-! ## The steps of the calls -/

section Steps
variable {s : Sys} {H : Set Addr} {k' k : Kernel} {p : Addr} {t t' : TaskStruct} {l : LogArray}
  {f : Frame} {i j : Nat} {size : Int}

theorem sizesOf_off (h : t.policyOn ≠ 1) : sizesOf k t = [] := if_neg h

theorem sizesOf_on (h : t.policyOn = 1) (hl : k.mem t.logArray = some (.log l)) :
    sizesOf k t = [l.size] := by
  simp only [sizesOf, if_pos h, hl]

section
variable (hi : Inv s H) {a : Addr} {prev pid : Int}
include hi

/-- Only a task with its policy on is being read, -/
theorem Inv.reads_on (hj : s.calls j = some f) (hr : f.reads)
    (ht : s.k.mem f.target = some (.task t)) : t.policyOn = 1 := by
  obtain ⟨t', ht', hlive⟩ := hi.live j f hj
  rw [ht] at ht'
  cases ht'
  cases f with
  | enableLog _ _ | enableArray _ _ _ => cases hr
  | readMem q n prev => exact hlive.1
  | readUser q n prev temp => exact hlive.1.1

theorem Inv.no_reader {P : Frame → Prop} (ht : s.k.mem p = some (.task t))
    (hoff : t.policyOn ≠ 1) (j : Nat) (f : Frame) (_ : j ≠ i) (hj : s.calls j = some f)
    (hq : f.target = p) (hr : f.reads) : P f :=
  absurd (hi.reads_on hj hr (hq ▸ ht)) hoff

/-- and only one with its policy off waits for its records. -/
theorem Inv.array_off {n : Int}
    (hj : s.calls j = some (.enableArray p n a)) (ht : s.k.mem p = some (.task t)) :
    t.policyOn = 0 ∧ t.logArray = a := by
  obtain ⟨t', ht', hlive⟩ := hi.live j _ hj
  have he : some (Block.task t) = some (.task t') := ht.symm.trans ht'
  cases he
  exact ⟨hlive.1, hlive.2.1⟩

theorem Inv.no_array (ht : s.k.mem p = some (.task t)) (hon : t.policyOn = 1) (j : Nat) (n : Int)
    (a : Addr) (_ : j ≠ i) : s.calls j ≠ some (.enableArray p n a) := by
  intro hj
  have := (hi.array_off hj ht).1
  omega

theorem Inv.distinct (hji : j ≠ i) (hj : s.calls j = some f)
    (ha : f.holds = some a) : holder s.calls i ≠ some a := by
  intro h
  apply hji
  apply hi.held.unique j i a _ h
  rw [holder, hj]; exact ha

/-- A read goes on over a change of the log that keeps its size. -/
theorem Inv.read_stays {m : LogArray} (ht : s.k.mem p = some (.task t))
    (ht' : k'.mem p = some (.task t)) (hl : s.k.mem t.logArray = some (.log l))
    (hl' : k'.mem t.logArray = some (.log m)) (hsize : m.size = l.size)
    (hch : Change H s.k k' p (holder s.calls i)) (j : Nat) (f : Frame) (hji : j ≠ i)
    (hj : s.calls j = some f) (hq : f.target = p) (hr : f.reads) : f.Live k' := by
  have hheld : ∀ a, f.holds = some a → k'.mem a = s.k.mem a := by
    intro a hfa
    refine hch.held hi ht (hi.held.live j a ?_) (hi.distinct hji hj hfa)
    rw [holder, hj]; exact hfa
  subst hq
  obtain ⟨t0, ht0, hlive⟩ := hi.live j f hj
  rw [ht] at ht0
  cases ht0
  have log : ∀ {n : Int}, (t.policyOn = 1 ∧ ∃ l, s.k.mem t.logArray = some (.log l) ∧ n ≤ l.size) →
      t.policyOn = 1 ∧ ∃ l, k'.mem t.logArray = some (.log l) ∧ n ≤ l.size := by
    rintro n ⟨hon, l0, hl0, hn⟩
    rw [hl] at hl0
    cases hl0
    exact ⟨hon, m, hl', by rw [hsize]; exact hn⟩
  refine ⟨t, ht', ?_⟩
  cases f with
  | enableLog _ _ | enableArray _ _ _ => cases hr
  | readMem q n prev => exact log hlive
  | readUser q n prev temp =>
    obtain ⟨d, hd⟩ := hlive.2
    exact ⟨log hlive.1, d, (hheld temp rfl).trans hd⟩

/-- Call `i` takes a step on `p`, which stays a task, and goes to sleep again
in `g` or is over. -/
theorem Inv.callMove {g : Option Frame} {won : Addr → List Int} {H' : Set Addr} (t' : TaskStruct) (hp : s.k.mem p = some (.task t))
    (hp' : k'.mem p = some (.task t')) (hch : Change H s.k k' p (holder s.calls i)) (hsound : Sound (hide H' k'))
    (hheld : Exact (update (holder s.calls) i (g.bind Frame.holds)) H')
    (hg : ∀ f ∈ g, f.Live k')
    (harr : ∀ j n a, j ≠ i → s.calls j ≠ some (.enableArray p n a))
    (hread : ∀ j f, j ≠ i → s.calls j = some f → f.target = p → f.reads → f.Live k')
    (hwon : ∀ q, q ≠ p → won q = s.won q) (hwonp : won p = sizesOf k' t')
    (hf : ∀ f ∈ k'.faults, f = .outOfBounds) :
    Inv ⟨k', update s.calls i g, won⟩ H' := by
  refine hi.move hp hch (fun b hb => hi.held.live i b hb) hsound ?_ ?_ hwon ?_ hf
  · rw [holder_update]; exact hheld
  · intro j f hj
    rcases eq_of_update hj with ⟨-, hj⟩ | ⟨hji, hj⟩
    · exact .inl (hg f hj)
    · by_cases hq : f.target = p
      · refine .inl ?_
        cases f with
        | enableLog q n =>
          obtain ⟨_, _, hn⟩ := hi.live j _ hj
          exact ⟨t', by rw [hq]; exact hp', hn⟩
        | enableArray q n a =>
          have hq : q = p := hq
          exact absurd (hq ▸ hj) (harr j n a hji)
        | readMem q n prev => exact hread j _ hji hj hq trivial
        | readUser q n prev temp => exact hread j _ hji hj hq trivial
      · exact .inr ⟨hj, hq, fun a ha => hi.distinct hji hj ha⟩
  · intro t0 ht0
    rw [hp'] at ht0
    cases ht0
    exact hwonp

theorem Inv.enter {g : Option Frame} (hfree : s.calls i = none)
    (hg : ∀ f, g = some f → f.Live s.k ∧ f.holds = none) : Inv (s.goesTo i s.k g) H := by
  refine ⟨hi.sound, ?_, ?_, hi.won, hi.faults⟩
  · show Exact (holder (update s.calls i g)) H
    have hnone : g.bind Frame.holds = holder s.calls i := by
      rw [holder, hfree]
      cases g with
      | none => rfl
      | some f => exact (hg f rfl).2
    rw [holder_update, hnone, update_eq_self]
    exact hi.held
  · intro j f hj
    rcases eq_of_update hj with ⟨-, hj⟩ | ⟨-, hj⟩
    · exact (hg f hj).1
    · exact hi.live j f hj

/-- The first `kmalloc` of an enable returns. -/
theorem Inv.wakeLog (hf : s.calls i = some (.enableLog p size)) (w : Wake)
    (hoff : ∀ t, s.k.mem p = some (.task t) → t.policyOn ≠ 1)
    (harr : ∀ j n a, s.calls j ≠ some (.enableArray p n a)) :
    ∃ H', Inv (s.resume i w (.enableLog p size)) H' := by
  obtain ⟨t, ht, hsize⟩ := hi.live i _ hf
  change s.k.mem p = some (.task t) at ht
  have hoff := hoff t ht
  have hpH := hi.task_visible ht
  have hown : holder s.calls i = none := by rw [holder, hf]; rfl
  have hwonp : s.won p = [] := by rw [hi.won p t ht, sizesOf_off hoff]
  have hend : Exact (update (holder s.calls) i none) H := by
    rw [← hown, update_eq_self]; exact hi.held
  have hupd : ∀ q, q ≠ p → update s.won p [0] q = s.won q :=
    fun q hq => update_of_ne hq ..
  by_cases hm : w.addr ≠ 0 ∧ s.k.mem w.addr = none
  · obtain ⟨h0, ha⟩ := hm
    have haH := hi.free_unheld ha
    have hpa := s.k.ne_of_free ht ha
    by_cases hz : size = 0
    · -- no records to wait for: the policy is on at once
      subst hz
      simp only [Sys.resume, run_enablePolicyLog_done ht w.logJunk h0 ha, Sys.returns, if_true,
        Sys.goesTo, hwonp]
      refine ⟨H, hi.callMove (onTask t w.addr) ht (by simp [hpa]) ?_ ?_ hend ?_
        (fun j n a _ => harr j n a) (hi.no_reader ht hoff) hupd ?_ hi.faults⟩
      · exact ((Change.refl _ _ _ _).set (.inl rfl) (.inl rfl)).set (.inr (by simp [kind]))
          (.inr (.inr (.inl ha)))
      · rw [hide_set haH, hide_set hpH]
        exact hi.sound.onTask (hi.view_task ht) hoff h0 (hide_mem_none ha) _
      · intro f hf; cases hf
      · rw [update_self]
        exact (sizesOf_on rfl (l := freshLog 0 w.logJunk.array) (by simp [onTask])).symm
    · simp only [Sys.resume, run_enablePolicyLog_ask ht w.logJunk hz h0 ha, Sys.goesTo]
      refine ⟨insert w.addr H, hi.callMove { t with logArray := w.addr } ht
        (by simp [hpa]) ?_ ?_ ?_ ?_ (fun j n a _ => harr j n a) (hi.no_reader ht hoff) (fun _ _ => rfl) ?_
        hi.faults⟩
      · exact ((Change.refl _ _ _ _).set (.inl rfl) (.inl rfl)).set (.inr (by simp [kind]))
          (.inr (.inr (.inl ha)))
      · rw [hide_insert_set (by simp [hpa.symm, ha]), hide_set hpH]
        exact hi.sound.setTask (hi.view_task ht) rfl rfl fun hon => absurd hon hoff
      · exact hi.held.attach hown haH
      · intro f hf
        cases hf
        have hflag := (hi.sound.flag (hi.view_task ht)).resolve_right hoff
        exact ⟨{ t with logArray := w.addr }, by simp [Frame.target, hpa], hflag, rfl, h0, by omega,
          w.logJunk, by simp⟩
      · rw [hwonp]
        exact (sizesOf_off (t := { t with logArray := w.addr }) hoff).symm
  · simp only [Sys.resume, run_enablePolicyLog_fail ht size w.logJunk hm, Sys.returns,
      if_neg (by decide : ¬ -ENOMEM = 0), Sys.goesTo]
    refine ⟨H, hi.callMove { t with logArray := 0 } ht (by simp) ?_ ?_ hend ?_
      (fun j n a _ => harr j n a) (hi.no_reader ht hoff) (fun _ _ => rfl) ?_ hi.faults⟩
    · exact (Change.refl _ _ _ _).set (.inl rfl) (.inl rfl)
    · rw [hide_set hpH]
      exact hi.sound.setTask (hi.view_task ht) rfl rfl fun hon => absurd hon hoff
    · intro f hf; cases hf
    · rw [hwonp]
      exact (sizesOf_off (t := { t with logArray := 0 }) hoff).symm

/-- The second `kmalloc` of an enable returns. -/
theorem Inv.wakeArray (hf : s.calls i = some (.enableArray p size a))
    (w : Wake) : ∃ H', Inv (s.resume i w (.enableArray p size a)) H' := by
  obtain ⟨t, ht, hoff, rfl, hnz, hsize, l, hl⟩ := hi.live i _ hf
  change s.k.mem p = some (.task t) at ht
  have hoff : t.policyOn ≠ 1 := by rw [hoff]; decide
  have hpH := hi.task_visible ht
  have hown : holder s.calls i = some t.logArray := by rw [holder, hf]; rfl
  have haH : t.logArray ∈ H := hi.held.live i _ hown
  have hpa : p ≠ t.logArray := fun he => hpH (he ▸ haH)
  have harr : ∀ j n a, j ≠ i → s.calls j ≠ some (.enableArray p n a) := by
    intro j n a hji hj
    exact hi.distinct hji hj rfl ((hi.array_off hj ht).2 ▸ hown)
  have hwonp : s.won p = [] := by rw [hi.won p t ht, sizesOf_off hoff]
  have hend : Exact (update (holder s.calls) i none) (H \ {t.logArray}) :=
    hi.held.detach hown
  by_cases hm : w.addr ≠ 0 ∧ s.k.mem w.addr = none
  · obtain ⟨h0, ha⟩ := hm
    have hwH := hi.free_unheld ha
    have hpw := s.k.ne_of_free ht ha
    have haw := s.k.ne_of_free hl ha
    simp only [Sys.resume, run_enablePolicyArray_done ht hl size w.arrayJunk h0 ha, Sys.returns,
      if_true, Sys.goesTo, hwonp]
    refine ⟨H \ {t.logArray}, hi.callMove (onTask t t.logArray) ht (by simp [hpw, hpa]) ?_ ?_
      hend ?_ harr (hi.no_reader ht hoff) (fun q hq => update_of_ne hq ..) ?_ hi.faults⟩
    · exact (((Change.refl _ _ _ _).set (.inl rfl) (.inl rfl)).set (.inr (by simp [kind]))
        (.inr (.inr (.inr hown)))).set (.inr (by simp [kind]))
          (.inr (.inr (.inl ha)))
    · rw [hide_set (fun h => hwH h.1), hide_diff_set, hide_set hpH]
      exact hi.sound.onTask_array (hi.view_task ht) hoff hnz (hide_mem_held haH) h0
        (hide_mem_none ha) haw hsize _ _
    · intro f hf; cases hf
    · rw [update_self]
      exact (sizesOf_on rfl (l := freshLog size w.addr) (by simp [onTask, haw])).symm
  · simp only [Sys.resume, run_enablePolicyArray_fail ht hl size w.arrayJunk hm, Sys.returns,
      if_neg (by decide : ¬ -ENOMEM = 0), Sys.goesTo]
    refine ⟨H \ {t.logArray}, hi.callMove t ht (by simp [hpa, ht]) ?_ ?_ hend ?_ harr
      (hi.no_reader ht hoff) (fun _ _ => rfl) ?_ hi.faults⟩
    · exact (Change.refl _ _ _ _).unset (.inr (.inr (.inr hown)))
    · rw [hide_diff_unset haH]
      exact hi.sound
    · intro f hf; cases hf
    · rw [hwonp, sizesOf_off hoff]

/-- The `kmalloc` of a read returns, and the copy loop runs. -/
theorem Inv.wakeRead (hf : s.calls i = some (.readMem p size prev))
    (w : Wake) : ∃ H', Inv (s.resume i w (.readMem p size prev)) H' := by
  obtain ⟨t, ht, hon, l, hl, hsize⟩ := hi.live i _ hf
  change s.k.mem p = some (.task t) at ht
  have hown : holder s.calls i = none := by rw [holder, hf]; rfl
  have harr := hi.no_array (i := i) ht hon
  have hview := hi.view_log ht hon hl
  have hlH : t.logArray ∉ H := (hide_mem_some.mp hview).1
  have hpl := s.k.ne_of_mem ht hl (by simp)
  have hwonp : s.won p = [l.size] := by rw [hi.won p t ht, sizesOf_on hon hl]
  by_cases hm : w.addr ≠ 0 ∧ s.k.mem w.addr = none
  · obtain ⟨h0, ha⟩ := hm
    have hpa := s.k.ne_of_free ht ha
    have hla := s.k.ne_of_free hl ha
    obtain ⟨data, fs, hrun, hmiss, hhit⟩ := run_getProcessLogCopy ht hl size h0 ha
    have hch : Change H s.k (midRead s.k t l w.addr data fs size.toNat) p (holder s.calls i) :=
      ((Change.refl _ _ _ _).set (.inr (by simp [kind])) (.inr (.inr (.inl ha)))).set
        (.inr (by simp [kind])) (.inr (.inl (log_mem_blocksOf (hi.view_task ht) hon)))
    have ht' : (midRead s.k t l w.addr data fs size.toNat).mem p = some (.task t) := by
      simp [midRead, hpl, hpa, ht]
    have hl' : (midRead s.k t l w.addr data fs size.toNat).mem t.logArray =
        some (.log (afterReads l size.toNat)) := by simp [midRead]
    simp only [Sys.resume, hrun, Sys.goesTo]
    refine ⟨insert w.addr H, hi.callMove t ht ht' hch ?_ ?_ ?_ harr ?_ (fun _ _ => rfl) ?_ ?_⟩
    · have hlI : t.logArray ∉ insert w.addr H := by
        rintro (h | h)
        · exact hla h
        · exact hlH h
      have hs := hi.sound.setLog (m := afterReads l size.toNat) hview (by simp) (by simp)
      rw [← hide_insert_set ha (.temp data), ← hide_set hlI] at hs
      exact hs.faults (fs ++ s.k.faults)
    · exact hi.held.attach hown (hi.free_unheld ha)
    · intro f hf
      cases hf
      refine ⟨t, ht', ⟨hon, _, hl', ?_⟩, data, ?_⟩
      · rw [afterReads_size]; exact hsize
      · simp [midRead, hla.symm]
    · exact hi.read_stays ht ht' hl hl' (by simp) hch
    · rw [hwonp, sizesOf_on hon hl', afterReads_size]
    · intro f hmem
      rcases List.mem_append.mp hmem with h | h
      · -- a record is only asked for when there is an array
        rcases hmiss f h with h1 | ⟨_, hnone⟩
        · exact h1
        · by_cases hz : size.toNat = 0
          · have hnil := (hhit (fun _ => default) (by rw [hz]; intro i hi; omega)).2
            rw [hnil] at h; cases h
          · obtain ⟨n, e, hr⟩ := hi.sound.records hview (by omega)
            exact absurd (hide_mem_some.mp hr).2 (hnone n e)
      · exact hi.faults f h
  · simp only [Sys.resume, run_getProcessLogCopy_fail p size hm, Sys.goesTo]
    refine ⟨H, hi.callMove t ht ht (Change.refl _ _ _ _) hi.sound ?_ ?_ harr ?_
      (fun _ _ => rfl) ?_ hi.faults⟩
    · show Exact (update (holder s.calls) i none) H
      rw [← hown, update_eq_self]; exact hi.held
    · intro f hf; cases hf
    · intro j f _ hj _ _
      exact hi.live j f hj
    · exact hi.won p t ht

/-- `copy_to_user` returns, and the read is completed or undone. -/
theorem Inv.wakeUser {temp : Addr}
    (hf : s.calls i = some (.readUser p size prev temp)) (w : Wake) :
    ∃ H', Inv (s.resume i w (.readUser p size prev temp)) H' := by
  obtain ⟨t, ht, ⟨hon, l, hl, hsize⟩, d, hd⟩ := hi.live i _ hf
  change s.k.mem p = some (.task t) at ht
  have hown : holder s.calls i = some temp := by rw [holder, hf]; rfl
  have htH : temp ∈ H := hi.held.live i _ hown
  have hview := hi.view_log ht hon hl
  have hlH : t.logArray ∉ H := (hide_mem_some.mp hview).1
  have hpl := s.k.ne_of_mem ht hl (by simp)
  have hpt := s.k.ne_of_mem ht hd (by simp)
  -- whatever the outcome, the log keeps its size and its array
  obtain ⟨m, hrun, hms, hma⟩ : ∃ m : LogArray,
      ((getProcessLogFinish p size prev temp w.copied).run s.k).2 =
        (s.k.unset temp).set t.logArray (.log m) ∧ m.size = l.size ∧ m.array = l.array := by
    rw [run_getProcessLogFinish ht hl hd]
    cases w.copied with
    | true => exact ⟨_, rfl, by simp, by simp⟩
    | false => exact ⟨_, rfl, rfl, rfl⟩
  have hch : Change H s.k ((s.k.unset temp).set t.logArray (.log m)) p (holder s.calls i) :=
    ((Change.refl _ _ _ _).unset (.inr (.inr (.inr hown)))).set (.inr (by simp [kind]))
      (.inr (.inl (log_mem_blocksOf (hi.view_task ht) hon)))
  have ht' : ((s.k.unset temp).set t.logArray (.log m)).mem p = some (.task t) := by
    simp [hpl, hpt, ht]
  simp only [Sys.resume, Sys.goesTo, hrun]
  refine ⟨H \ {temp}, hi.callMove t ht ht' hch ?_ (hi.held.detach hown) ?_ ?_ ?_
    (fun _ _ => rfl) ?_ hi.faults⟩
  · rw [hide_set (fun h => hlH h.1), hide_diff_unset htH]
    exact hi.sound.setLog hview hms hma
  · intro f hf; cases hf
  · exact hi.no_array ht hon
  · exact hi.read_stays ht ht' hl (by simp) hms hch
  · rw [hi.won p t ht, sizesOf_on hon hl, sizesOf_on (l := m) hon (by simp), hms]

/-- `sys_disable_policy` on a target that nobody is reading. -/
theorem Inv.disable {password : Int} (hp : s.k.pidhash pid = some p)
    (hquiet : password = policyPassword → ∀ j f, s.calls j = some f → f.target = p → ¬ f.reads) :
    Inv (s.exec (.disable pid password)) H := by
  obtain ⟨t, ht⟩ := hi.target hp
  obtain ⟨l, hview, hlog, hrec⟩ := hi.someLog ht
  have hrun := run_sysDisablePolicy password hp ht (fun h => (hlog h).1) hrec
  by_cases hc : t.policyOn ≠ 0 ∧ password = policyPassword
  · have hon := (hi.sound.flag (hi.view_task ht)).resolve_left hc.1
    have hl := hview hc.1
    have hpH := hi.task_visible ht
    rw [if_pos hc] at hrun
    simp only [Sys.exec, hp, hrun, if_true]
    have hch : Change H s.k (freeLog (s.k.set p (.task (offTask t))) t.logArray l) p none :=
      ((Change.refl _ _ _ _).set (.inl rfl) (.inl rfl)).freeLog (hi.view_task ht) hon hl
    have ht' : (freeLog (s.k.set p (.task (offTask t))) t.logArray l).mem p =
        some (.task (offTask t)) := freeLog_task ht (hlog hc.1).1 (hrec hc.1)
    refine hi.move ht hch (fun b hb => by cases hb) ?_ hi.held ?_
      (fun q hq => update_of_ne hq ..) ?_ ?_
    · rw [hide_freeLog, hide_set hpH]
      exact hi.sound.offTask (hi.view_task ht) hon hl
    · intro j f hj
      by_cases hq : f.target = p
      · refine .inl ?_
        cases f with
        | enableLog q n =>
          obtain ⟨_, _, hn⟩ := hi.live j _ hj
          exact ⟨offTask t, by rw [hq]; exact ht', hn⟩
        | enableArray q n a =>
          have hq : q = p := hq
          exact absurd (hi.array_off (hq ▸ hj) ht).1 hc.1
        | readMem _ _ _ | readUser _ _ _ _ => exact absurd trivial (hquiet hc.2 j _ hj hq)
      · exact .inr ⟨hj, hq, fun _ _ h => by cases h⟩
    · intro t0 ht0
      rw [ht'] at ht0
      cases ht0
      rw [update_self, sizesOf_off (by simp [offTask])]
    · rw [faults_freeLog]
      exact hi.faults
  · rw [if_neg hc] at hrun
    simp only [Sys.exec, hp, hrun, if_neg (by decide : ¬ -EINVAL = 0)]
    exact hi

/-- A target that no call works on is reaped. -/
theorem Inv.exit (hp : s.k.pidhash pid = some p)
    (hquiet : ∀ j f, s.calls j = some f → f.target ≠ p) : Inv (s.exec (.exit pid)) H := by
  obtain ⟨t, ht⟩ := hi.target hp
  obtain ⟨l, hview, hlog, hrec⟩ := hi.someLog ht
  have hrun := run_releaseTask ht hlog hrec
  have hgone : (released s.k p t l).mem p = none := by simp [released]
  have hhide : hide H (released s.k p t l) = released (hide H s.k) p t l := by
    unfold released
    split
    · exact congrArg (fun k => { k with pidhash := update s.k.pidhash t.pid none })
        (hide_unset H s.k p)
    · rw [← hide_freeLog]
      exact congrArg (fun k => { k with pidhash := update s.k.pidhash t.pid none })
        (hide_unset H (freeLog s.k t.logArray l) p)
  simp only [Sys.exec, hp, hrun]
  refine hi.move ht (?_ : Change H s.k _ p none) (fun b hb => by cases hb) ?_ hi.held ?_
    (fun q hq => update_of_ne hq ..) ?_ ?_
  · unfold released
    split
    · exact (Change.refl _ _ _ _).unset (.inl rfl)
    · rename_i hon
      have hon' := (hi.sound.flag (hi.view_task ht)).resolve_left hon
      exact ((Change.refl _ _ _ _).freeLog (hi.view_task ht) hon' (hview hon)).unset (.inl rfl)
  · rw [hhide]
    exact hi.sound.release (hi.view_task ht) fun hon => hview (by omega)
  · intro j f hj
    exact .inr ⟨hj, hquiet j f hj, fun _ _ h => by cases h⟩
  · intro t0 ht0
    rw [hgone] at ht0; cases ht0
  · rw [faults_released]
    exact hi.faults

end

end Steps

end CustomKernel.Policy.Interleave

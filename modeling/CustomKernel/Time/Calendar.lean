import CustomKernel.Time.Timer

/-! # What timers are for

A calendar says of every timer that is set in which tick it is to run, with the ticks
counted from the start and without end. A timer runs in its tick, and a tick ends when no
timer is left for it. What follows for a run of the calendar is what a caller relies on. -/
namespace CustomKernel.Time.Calendar
open Lib.Transition Time.Timer Function

structure State where
  /-- the tick to be processed, or being processed -/
  now : Nat
  running : Bool
  due : TimerId → Option Nat

def blank : State := ⟨0, false, fun _ => none⟩

/-- How many ticks after `base` one that expires then is to run. What looks more than half
the range of the clock ahead is past. -/
def ahead (base expires : Nat) : Nat :=
  if sub32 expires base < 2 ^ 31 then sub32 expires base else 0

/-- The first tick in which a timer can run that is set now. -/
def State.base (c : State) : Nat := if c.running then c.now + 1 else c.now

def State.set (c : State) (t : TimerId) (expires : Nat) : State :=
  { c with due := update c.due t (some (c.base + ahead c.base expires)) }

def State.clear (c : State) (t : TimerId) : State :=
  { c with due := update c.due t none }

def Step (c : State) : Op → State → Prop
  | .interrupt, c' => c' = c
  | .add t expires, c' => c' = if (c.due t).isSome then c else c.set t expires
  | .mod t expires ret, c' => ret = (c.due t).isSome ∧ c' = c.set t expires
  | .del t ret, c' => ret = (c.due t).isSome ∧ c' = c.clear t
  | .start, c' => c.running = false ∧ c' = { c with running := true }
  | .run t, c' => c.running = true ∧ c.due t = some c.now ∧ c' = c.clear t
  | .finish, c' =>
    c.running = true ∧ (∀ t, c.due t ≠ some c.now) ∧
      c' = { c with running := false, now := c.now + 1 }

/-! ## Steps -/

variable {c c' : State} {o : Op} {os : List Op} {t : TimerId}

theorem Step.now (h : Step c o c') : c'.now = c.now + ticks [o] := by
  cases o with
  | interrupt => cases h; rfl
  | add t e => cases h; split <;> rfl
  | mod t e ret => cases h.2; rfl
  | del t ret => cases h.2; rfl
  | start => cases h.2; rfl
  | run t => cases h.2.2; rfl
  | finish => cases h.2.2; rfl

/-- A call for one timer says nothing about another. -/
theorem Step.due_eq (h : Step c o c') (hleft : o.names t = false) (hrun : o ≠ .run t) :
    c'.due t = c.due t := by
  cases o with
  | interrupt => cases h; rfl
  | add u e =>
    have hne : t ≠ u := fun h => by simp [Op.names, h] at hleft
    cases h
    split
    · rfl
    · exact update_of_ne hne _ _
  | mod u e ret =>
    have hne : t ≠ u := fun h => by simp [Op.names, h] at hleft
    cases h.2
    exact update_of_ne hne _ _
  | del u ret =>
    have hne : t ≠ u := fun h => by simp [Op.names, h] at hleft
    cases h.2
    exact update_of_ne hne _ _
  | start => cases h.2; rfl
  | run u =>
    have hne : t ≠ u := fun h => hrun (by rw [h])
    cases h.2.2
    exact update_of_ne hne _ _
  | finish => cases h.2.2; rfl

/-- What a step does to whether a timer is set. -/
theorem Step.isSome (h : Step c o c') (t : TimerId) :
    (c'.due t).isSome = armedBy t (c.due t).isSome o := by
  have hset : ∀ (u : TimerId) (e : Nat),
      ((c.set u e).due t).isSome = (u == t || (c.due t).isSome) := by
    intro u e
    rcases eq_or_ne t u with rfl | hne
    · simp [State.set]
    · simp [State.set, hne, Ne.symm hne]
  have hclear : ∀ u : TimerId, ((c.clear u).due t).isSome = (u != t && (c.due t).isSome) := by
    intro u
    rcases eq_or_ne t u with rfl | hne
    · simp [State.clear]
    · simp [State.clear, hne, Ne.symm hne]
  cases o with
  | interrupt => cases h; rfl
  | add u e =>
    cases h
    split
    · rename_i hu
      rcases eq_or_ne u t with rfl | hne
      · simp [armedBy, hu]
      · simp [armedBy, hne]
    · exact hset u e
  | mod u e ret => cases h.2; exact hset u e
  | del u ret => cases h.2; exact hclear u
  | start => cases h.2; rfl
  | run u => cases h.2.2; exact hclear u
  | finish => cases h.2.2; rfl

/-- No timer is overdue. -/
def Timely (c : State) : Prop := ∀ t d, c.due t = some d → c.now ≤ d

theorem State.base_le (c : State) : c.now ≤ c.base := by
  unfold State.base
  split <;> omega

theorem Timely.set (hc : Timely c) (t : TimerId) (e : Nat) : Timely (c.set t e) := by
  intro u d hu
  rcases eq_of_update hu with ⟨-, hu⟩ | ⟨-, hu⟩
  · cases hu
    exact Nat.le_add_right_of_le c.base_le
  · exact hc u d hu

theorem Timely.clear (hc : Timely c) (t : TimerId) : Timely (c.clear t) := by
  intro u d hu
  rcases eq_of_update hu with ⟨-, hu⟩ | ⟨-, hu⟩
  · cases hu
  · exact hc u d hu

theorem Step.timely (h : Step c o c') (hc : Timely c) : Timely c' := by
  cases o with
  | interrupt => cases h; exact hc
  | add t e =>
    cases h
    split
    · exact hc
    · exact hc.set t e
  | mod t e ret => cases h.2; exact hc.set t e
  | del t ret => cases h.2; exact hc.clear t
  | start => cases h.2; exact hc
  | run t => cases h.2.2; exact hc.clear t
  | finish =>
    obtain ⟨-, hnone, rfl⟩ := h
    intro t d ht
    exact Nat.lt_of_le_of_ne (hc t d ht) fun heq => hnone t (heq ▸ ht)

/-! ## Runs -/

theorem run_now (h : Run Step c os c') : c'.now = c.now + ticks os := by
  induction h with
  | nil => rfl
  | @cons _ _ _ o os h1 _ ih =>
    rw [ih, h1.now, Nat.add_assoc, ticks, ticks, ← List.count_append]
    rfl

theorem run_isSome (h : Run Step c os c') (t : TimerId) :
    (c'.due t).isSome = os.foldl (armedBy t) (c.due t).isSome := by
  induction h with
  | nil => rfl
  | cons h1 _ ih => rw [ih, h1.isSome, List.foldl_cons]

theorem run_timely (h : Run Step c os c') (hc : Timely c) : Timely c' :=
  h.invariant (fun _ _ _ hc h1 => Step.timely h1 hc) hc

theorem run_due_eq (h : Run Step c os c') (hleft : ∀ o ∈ os, o.names t = false)
    (hrun : .run t ∉ os) : c'.due t = c.due t := by
  induction h with
  | nil => rfl
  | cons h1 _ ih =>
    rw [List.forall_mem_cons] at hleft
    rw [List.mem_cons, not_or] at hrun
    rw [ih hleft.2 hrun.2, h1.due_eq hleft.1 (Ne.symm hrun.1)]

theorem run_unset (h : Run Step c os c') (hleft : ∀ o ∈ os, o.names t = false)
    (hdue : c.due t = none) : .run t ∉ os := by
  induction h with
  | nil => simp
  | @cons _ _ _ o _ h1 _ ih =>
    rw [List.forall_mem_cons] at hleft
    have hne : o ≠ .run t := by
      rintro rfl
      rw [h1.2.1] at hdue
      cases hdue
    rw [List.mem_cons, not_or]
    exact ⟨Ne.symm hne, ih hleft.2 (by rw [h1.due_eq hleft.1 hne, hdue])⟩

/-- A timer that has run does not run again by itself. -/
theorem run_once (os₁ os₂ : List Op) (h : Run Step c (os₁ ++ .run t :: os₂) c')
    (hleft : ∀ o ∈ os₂, o.names t = false) : .run t ∉ os₂ := by
  obtain ⟨c₁, -, h2⟩ := h.of_append
  cases h2 with
  | cons h3 h4 =>
    obtain ⟨-, -, rfl⟩ := h3
    exact run_unset h4 hleft (update_self ..)

/-- A timer that is set and then left alone runs once at most, in its tick. -/
theorem runs_in_tick {os₁ os₂ : List Op} {d : Nat} (h : Run Step c (os₁ ++ .run t :: os₂) c')
    (hleft : ∀ o ∈ os₁ ++ .run t :: os₂, o.names t = false) (hdue : c.due t = some d) :
    c.now + ticks os₁ = d ∧ .run t ∉ os₁ ∧ .run t ∉ os₂ := by
  rw [List.forall_mem_append, List.forall_mem_cons] at hleft
  have hfirst : .run t ∉ os₁ := by
    intro hmem
    obtain ⟨as, bs, rfl⟩ := List.append_of_mem hmem
    have hagain : .run t ∉ bs ++ .run t :: os₂ := by
      refine run_once as _ (by simpa using h) ?_
      rw [List.forall_mem_append, List.forall_mem_cons]
      exact ⟨fun o ho => hleft.1 o (by simp [ho]), hleft.2⟩
    exact hagain (by simp)
  refine ⟨?_, hfirst, run_once os₁ os₂ h hleft.2.2⟩
  obtain ⟨c₁, h1, h2⟩ := h.of_append
  cases h2 with
  | cons h3 _ =>
    have hnow := h3.2.1
    rw [run_due_eq h1 hleft.1 hfirst, hdue, run_now h1] at hnow
    exact (Option.some.inj hnow).symm

/-- It has run when its tick is over. -/
theorem runs_by {d : Nat} (h : Run Step c os c') (hc : Timely c)
    (hleft : ∀ o ∈ os, o.names t = false) (hdue : c.due t = some d)
    (hover : d < c.now + ticks os) : .run t ∈ os := by
  by_contra hrun
  have hend := run_timely h hc t d (by rw [run_due_eq h hleft hrun, hdue])
  rw [run_now h] at hend
  omega

end CustomKernel.Time.Calendar

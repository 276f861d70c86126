import CustomKernel.Locking.Rwsem

/-! # Read/write semaphores under a spinlock

`activity` is the number of readers, or -1 for a writer, and every operation is one critical section.
A task that cannot have the semaphore at once queues up, and gets it from a task that releases it:
the last reader wakes the first waiter as a writer, whatever it is, and a writer wakes either the
writer or all the readers in front. -/
namespace CustomKernel.Locking.RwsemSpinlock
open Lib.Transition
open Rwsem (Kind)

structure State where
  activity : BitVec 32
  waitList : List (Nat × Kind)
  /-- Who has the semaphore, and for what. -/
  holders : List (Nat × Kind)
  /-- All that have queued up, and all that were granted the semaphore in the queue. -/
  queued : List (Nat × Kind)
  granted : List (Nat × Kind)
deriving DecidableEq

def State.init : State := ⟨0, [], [], [], []⟩

def State.grant (s : State) (activity : BitVec 32) (woken rest : List (Nat × Kind)) : State :=
  { s with
    activity := activity
    waitList := rest
    holders := woken ++ s.holders
    granted := s.granted ++ woken }

/-- Its caller tests whether somebody waits. -/
def State.wakeOneWriter (s : State) : State :=
  match s.waitList with
  | [] => s
  | waiter :: rest => s.grant (-1) [waiter] rest

def State.doWake (s : State) : State :=
  match s.waitList with
  | [] => s
  | (t, .write) :: rest => s.grant (-1) [(t, .write)] rest
  | (t, .read) :: rest =>
    let woken := (t, .read) :: rest.takeWhile (·.2 = .read)
    s.grant (s.activity + .ofNat 32 woken.length) woken (rest.dropWhile (·.2 = .read))

/-- There is no result when the semaphore is contended. -/
def State.downReadTrylock (s : State) (t : Nat) : Option State :=
  if 0 ≤ s.activity.toInt ∧ s.waitList = [] then
    some { s with activity := s.activity + 1, holders := (t, .read) :: s.holders }
  else none

def State.downWriteTrylock (s : State) (t : Nat) : Option State :=
  if s.activity = 0 ∧ s.waitList = [] then
    some { s with activity := -1, holders := (t, .write) :: s.holders }
  else none

def State.wait (s : State) (waiter : Nat × Kind) : State :=
  { s with waitList := s.waitList ++ [waiter], queued := s.queued ++ [waiter] }

def State.downRead (s : State) (t : Nat) : State :=
  (s.downReadTrylock t).getD (s.wait (t, .read))

def State.downWrite (s : State) (t : Nat) : State :=
  (s.downWriteTrylock t).getD (s.wait (t, .write))

def State.upRead (s : State) (t : Nat) : State :=
  let s := { s with activity := s.activity - 1, holders := s.holders.erase (t, .read) }
  if s.activity = 0 then s.wakeOneWriter else s

def State.upWrite (s : State) (t : Nat) : State :=
  { s with activity := 0, holders := s.holders.erase (t, .write) : State }.doWake

inductive Op
  | down (k : Kind) (t : Nat)
  | trylock (k : Kind) (t : Nat)
  | up (k : Kind) (t : Nat)

def apply (s : State) : Op → State
  | .down .read t => s.downRead t
  | .down .write t => s.downWrite t
  | .trylock .read t => (s.downReadTrylock t).getD s
  | .trylock .write t => (s.downWriteTrylock t).getD s
  | .up .read t => s.upRead t
  | .up .write t => s.upWrite t

/-- A task that waits does nothing else, and only who has the semaphore releases it. -/
def Enabled (s : State) : Op → Prop
  | .down _ t | .trylock _ t => ∀ w ∈ s.waitList, w.1 ≠ t
  | .up k t => (t, k) ∈ s.holders

def Step (s : State) (o : Op) (s' : State) : Prop := Enabled s o ∧ apply s o = s'

/-- There is room for one more reader. -/
def Room (s : State) (_ : Op) : Prop := s.holders.length + s.waitList.length + 1 < 2 ^ 31

/-- Unless a writer has the semaphore, readers have it or nobody waits, and a writer waits first. -/
structure Sound (s : State) : Prop where
  held : s.activity = -1 ∧ (∃ t, s.holders = [(t, .write)]) ∨
    s.activity = .ofNat 32 s.holders.length ∧ (∀ h ∈ s.holders, h.2 = .read) ∧
      ∀ w ∈ s.waitList.head?, s.holders ≠ [] ∧ w.2 = .write
  fits : s.holders.length + s.waitList.length < 2 ^ 31
  order : s.queued = s.granted ++ s.waitList

variable {s s' : State} {o : Op} {t : Nat} {w : Nat × Kind}

theorem Sound.toInt_activity (h : Sound s) (hactivity : s.activity = .ofNat 32 s.holders.length) :
    s.activity.toInt = s.holders.length := by
  have hfits := h.fits
  rw [hactivity, BitVec.toInt_eq_toNat_cond, BitVec.toNat_ofNat]
  omega

theorem eq_nil_of_ofNat {l : List (Nat × Kind)} {n : Nat} (hfits : l.length + n < 2 ^ 31)
    (hzero : BitVec.ofNat 32 l.length = 0) : l = [] := by
  have hmod := congrArg BitVec.toNat hzero
  rw [BitVec.toNat_ofNat, Nat.mod_eq_of_lt (by omega)] at hmod
  exact List.length_eq_zero_iff.mp hmod

theorem Sound.downReadTrylock (h : Sound s) (hroom : Room s o)
    (hs : s.downReadTrylock t = some s') : Sound s' := by
  obtain ⟨hfree, hs⟩ := Option.ite_none_right_eq_some.mp hs
  cases hs
  obtain ⟨hactivity, -⟩ | ⟨hactivity, hread, -⟩ := h.held
  · rw [hactivity] at hfree
    exact absurd hfree.1 (by decide)
  · refine ⟨.inr ⟨?_, List.forall_mem_cons.mpr ⟨rfl, hread⟩, by simp [hfree.2]⟩, ?_, h.order⟩
    · rw [List.length_cons, BitVec.ofNat_add, ← hactivity]
      rfl
    · simpa [Room, Nat.add_right_comm] using hroom

theorem Sound.downWriteTrylock (h : Sound s) (hroom : Room s o)
    (hs : s.downWriteTrylock t = some s') : Sound s' := by
  obtain ⟨hfree, hs⟩ := Option.ite_none_right_eq_some.mp hs
  cases hs
  obtain ⟨hactivity, -⟩ | ⟨hactivity, -⟩ := h.held
  · rw [hactivity] at hfree
    exact absurd hfree.1 (by decide)
  · have hnone := eq_nil_of_ofNat h.fits (hactivity ▸ hfree.1)
    refine ⟨.inl ⟨rfl, t, by rw [hnone]⟩, ?_, h.order⟩
    simpa [Room, Nat.add_right_comm] using hroom

/-- A task waits behind others, or behind who has the semaphore. -/
theorem Sound.wait (h : Sound s) (hroom : Room s o)
    (hbusy : s.waitList = [] → s.activity.toInt = s.holders.length →
      s.holders ≠ [] ∧ w.2 = .write) : Sound (s.wait w) := by
  refine ⟨h.held.imp_right fun hheld => ⟨hheld.1, hheld.2.1, ?_⟩, ?_, ?_⟩
  · obtain ⟨hactivity, -, hfront⟩ := hheld
    unfold State.wait
    cases hwait : s.waitList with
    | nil =>
      rintro w ⟨⟩
      exact hbusy hwait (h.toInt_activity hactivity)
    | cons first rest =>
      rw [hwait] at hfront
      exact hfront
  · simpa [Room, State.wait, Nat.add_assoc] using hroom
  · simp [State.wait, h.order]

theorem getD_sound {o : Option State} (hsome : ∀ s', o = some s' → Sound s')
    (hnone : o = none → Sound s) : Sound (o.getD s) := by
  cases o with
  | none => exact hnone rfl
  | some s' => exact hsome s' rfl

theorem Sound.downRead (h : Sound s) (hroom : Room s o) : Sound (s.downRead t) := by
  refine getD_sound (fun _ => h.downReadTrylock hroom) fun hs => ?_
  refine h.wait hroom fun hwait hactivity => ?_
  have hnonneg : 0 ≤ s.activity.toInt := by omega
  rw [State.downReadTrylock, if_pos ⟨hnonneg, hwait⟩] at hs
  cases hs

theorem Sound.downWrite (h : Sound s) (hroom : Room s o) : Sound (s.downWrite t) := by
  refine getD_sound (fun _ => h.downWriteTrylock hroom) fun hs => ?_
  refine h.wait hroom fun hwait hactivity => ⟨fun hnone => ?_, rfl⟩
  rw [hnone] at hactivity
  rw [State.downWriteTrylock, if_pos ⟨BitVec.eq_of_toInt_eq hactivity, hwait⟩] at hs
  cases hs

theorem doWake_sound (hactivity : s.activity = 0) (hnone : s.holders = [])
    (hfits : s.waitList.length < 2 ^ 31) (horder : s.queued = s.granted ++ s.waitList) :
    Sound s.doWake := by
  unfold State.doWake
  split
  next hwait =>
    exact ⟨.inr ⟨by rw [hactivity, hnone]; rfl, by simp [hnone], by simp [hwait]⟩,
      by simp [hnone, hwait], horder⟩
  next t rest hwait =>
    rw [hwait] at hfits
    refine ⟨.inl ⟨rfl, t, by simp [State.grant, hnone]⟩, ?_, by simp [State.grant, horder, hwait]⟩
    simpa [State.grant, hnone, Nat.add_comm] using hfits
  next t rest hwait =>
    have hread : ∀ w ∈ rest.takeWhile (·.2 = .read), w.2 = .read :=
      fun w hw => of_decide_eq_true (List.all_eq_true.mp List.all_takeWhile w hw)
    have hnext := List.head?_dropWhile_not (·.2 = .read) rest
    have hsplit : rest.takeWhile (·.2 = .read) ++ rest.dropWhile (·.2 = .read) = rest :=
      List.takeWhile_append_dropWhile
    refine ⟨.inr ⟨?_, ?_, fun w hw => ⟨by simp [State.grant], ?_⟩⟩, ?_, ?_⟩
    · simp [State.grant, hactivity, hnone]
    · simpa [State.grant, hnone] using hread
    · change w ∈ (rest.dropWhile (·.2 = .read)).head? at hw
      rw [hw] at hnext
      cases hk : w.2 with
      | read => simp [hk] at hnext
      | write => rfl
    · have hlength := congrArg List.length hsplit
      rw [hwait, List.length_cons] at hfits
      rw [List.length_append] at hlength
      simp only [State.grant, hnone, List.append_nil, List.length_cons]
      omega
    · simp [State.grant, horder, hwait, hsplit]

/-- A first waiter that is a writer may be taken for one. -/
theorem wakeOneWriter_eq (hfront : ∀ w ∈ s.waitList.head?, w.2 = .write) :
    s.wakeOneWriter = s.doWake := by
  unfold State.wakeOneWriter State.doWake
  cases hwait : s.waitList with
  | nil => rfl
  | cons waiter rest =>
    obtain ⟨t, k⟩ := waiter
    rw [hwait] at hfront
    obtain rfl : k = .write := hfront (t, k) rfl
    rfl

theorem Sound.upRead (h : Sound s) (hheld : (t, .read) ∈ s.holders) : Sound (s.upRead t) := by
  obtain ⟨-, t', hwriter⟩ | ⟨hactivity, hread, hfront⟩ := h.held
  · rw [hwriter, List.mem_singleton] at hheld
    cases hheld
  have hlength := List.length_erase_add_one hheld
  have hfits := h.fits
  have hless : s.activity - 1 = .ofNat 32 (s.holders.erase (t, .read)).length := by
    rw [hactivity, ← hlength, BitVec.ofNat_add]
    exact BitVec.add_sub_cancel ..
  unfold State.upRead
  dsimp only
  split
  next hlast =>
    rw [wakeOneWriter_eq]
    · refine doWake_sound hlast (eq_nil_of_ofNat (n := s.waitList.length) ?_ (hless ▸ hlast)) ?_ h.order
      all_goals
        dsimp only
        omega
    · exact fun w hw => (hfront w hw).2
  next hmore =>
    refine ⟨.inr ⟨hless, fun h hmem => hread h (List.mem_of_mem_erase hmem), fun w hw =>
      ⟨fun hnone => hmore ?_, (hfront w hw).2⟩⟩, ?_, h.order⟩
    · dsimp only at hnone
      rw [hless, hnone]
      rfl
    · dsimp only
      omega

theorem Sound.upWrite (h : Sound s) (hheld : (t, .write) ∈ s.holders) : Sound (s.upWrite t) := by
  obtain ⟨-, t', hwriter⟩ | ⟨-, hread, -⟩ := h.held
  case inr => cases hread _ hheld
  have hnone : s.holders.erase (t, .write) = [] := by
    rw [hwriter, List.mem_singleton] at hheld
    simp [hwriter, hheld]
  exact doWake_sound rfl hnone (Nat.lt_of_le_of_lt (Nat.le_add_left _ _) h.fits) h.order

theorem Sound.step (h : Sound s) (hstep : Meeting Room Step s o s') : Sound s' := by
  obtain ⟨hroom, henabled, rfl⟩ := hstep
  cases o with
  | down k t =>
    cases k with
    | read => exact h.downRead hroom
    | write => exact h.downWrite hroom
  | trylock k t =>
    cases k with
    | read => exact getD_sound (fun _ => h.downReadTrylock hroom) fun _ => h
    | write => exact getD_sound (fun _ => h.downWriteTrylock hroom) fun _ => h
  | up k t =>
    cases k with
    | read => exact h.upRead henabled
    | write => exact h.upWrite henabled

/-- In every run the semaphore is held as `activity` says, readers let only writers wait in front,
nobody waits for a free semaphore, and those who queue up are served in that order. -/
theorem rwsem_granted_in_order {ops : List Op} (hrun : Run (Meeting Room Step) .init ops s) :
    (s.activity = -1 ↔ ∃ t, s.holders = [(t, .write)]) ∧
    (s.activity ≠ -1 → (∀ h ∈ s.holders, h.2 = .read) ∧ s.activity.toInt = s.holders.length) ∧
    (0 < s.activity.toInt → ∀ w ∈ s.waitList.head?, w.2 = .write) ∧
    (s.activity = 0 → s.waitList = []) ∧
    s.queued = s.granted ++ s.waitList := by
  have h : Sound s :=
    hrun.invariant (I := Sound) (fun _ _ _ => Sound.step)
      ⟨.inr ⟨rfl, by simp [State.init], by simp [State.init]⟩, by decide, rfl⟩
  obtain ⟨hactivity, hwriter⟩ | ⟨hactivity, hread, hfront⟩ := h.held
  · simp [hactivity, hwriter, h.order]
  · have hlength := h.toInt_activity hactivity
    have hnot : s.activity ≠ -1 := by
      intro hwrite
      rw [hwrite] at hlength
      cases hlength
    refine ⟨iff_of_false hnot ?_, fun _ => ⟨hread, hlength⟩, fun _ w hw => (hfront w hw).2, ?_, h.order⟩
    · rintro ⟨t, hwriter⟩
      cases hread (t, .write) (by simp [hwriter])
    · intro hzero
      have hnone := eq_nil_of_ofNat h.fits (hactivity ▸ hzero)
      exact List.head?_eq_none_iff.mp (Option.eq_none_iff_forall_not_mem.mpr fun w hw =>
        (hfront w hw).1 hnone)

/-- A writer that waits for a reader. -/
theorem rwsem_granted_in_order_writer :
    let s : State := ⟨-1, [], [(2, .write)], [(2, .write)], [(2, .write)]⟩
    Run (Meeting Room Step) .init [.down .read 1, .down .write 2, .up .read 1] s ∧
      s.queued = s.granted ++ s.waitList := by
  have hrun : Run (Meeting Room Step) .init [.down .read 1, .down .write 2, .up .read 1]
      ⟨-1, [], [(2, .write)], [(2, .write)], [(2, .write)]⟩ :=
    .cons ⟨by unfold Room; decide, by simp [Enabled, State.init], rfl⟩ <|
    .cons ⟨by unfold Room; decide, by unfold Enabled; decide, rfl⟩ <|
    .cons ⟨by unfold Room; decide, by unfold Enabled; decide, rfl⟩ (.nil _)
  exact ⟨hrun, (rwsem_granted_in_order hrun).2.2.2.2⟩

theorem readers_run {n : Nat} (hn : n ≤ 2 ^ 31) :
    Run Step .init (List.replicate n (.down .read 0))
      ⟨.ofNat 32 n, [], List.replicate n (0, .read), [], []⟩ := by
  induction n with
  | zero => exact .nil _
  | succ n ih =>
    have hnonneg : 0 ≤ (BitVec.ofNat 32 n).toInt := by
      rw [BitVec.toInt_eq_toNat_cond, BitVec.toNat_ofNat]
      omega
    rw [List.replicate_succ']
    refine (ih (by omega)).append (.cons ⟨by simp [Enabled], ?_⟩ (.nil _))
    simp [apply, State.downRead, State.downReadTrylock, hnonneg, BitVec.ofNat_add, List.replicate_succ]

/-- The number of readers wraps around. -/
theorem readers_overflow : ∃ s, Run Step .init (List.replicate (2 ^ 31) (.down .read 0)) s ∧
    s.holders.length = 2 ^ 31 ∧ s.activity.toInt = -2 ^ 31 :=
  ⟨_, readers_run (Nat.le_refl _), List.length_replicate, by decide⟩

end CustomKernel.Locking.RwsemSpinlock

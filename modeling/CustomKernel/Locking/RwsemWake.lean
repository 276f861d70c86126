import CustomKernel.Locking.RwsemInv

/-! # Nobody is left asleep

While somebody is on the list there is an active unit, or somebody is on the way to look at the
list. A step that takes away the last active unit sees it, except for the undo of a waker: it looks
at the whole count, which is not 0 as long as somebody waits. -/
namespace CustomKernel.Locking.Rwsem
open Lib.Transition Lib.Census Function

variable {n : Nat} {s s' : State n} {t : Fin n} {k : Kind}

def Watched (s : State n) : Prop :=
  s.waitList ≠ [] →
    0 < s.units ∨ (∃ t, s.phase t = .waking) ∨ ∃ t, s.lock = some (t, .tryAgain)

theorem watched_init : Watched (State.init : State n) := fun h => absurd rfl h

/-- A fast path that adds a unit, or leaves everything as it is. -/
theorem Watched.of_le (h : Watched s) (hlist : s'.waitList = s.waitList)
    (hunits : s.units ≤ s'.units) (hphase : ∀ t, s.phase t = .waking → s'.phase t = .waking)
    (hlock : s'.lock = s.lock) : Watched s' := by
  intro hne
  rw [hlist] at hne
  rcases h hne with hpos | ⟨t, ht⟩ | ⟨t, ht⟩
  · exact .inl (by omega)
  · exact .inr (.inl ⟨t, hphase t ht⟩)
  · exact .inr (.inr ⟨t, hlock.trans ht⟩)

theorem units_set (s : State n) (d : Int) (t : Fin n) (p : Phase) :
    ((s.add d).set t p).units = s.units - (s.phase t).unit + p.unit := by
  simp only [State.units, State.stage, State.set, State.add, census_update]
  omega

theorem set_keeps_waking {p : Phase} {d : Int} (ht : s.phase t ≠ .waking) (t' : Fin n)
    (h : s.phase t' = .waking) : ((s.add d).set t p).phase t' = .waking := by
  have hne : t' ≠ t := by
    rintro rfl
    exact ht h
  exact (update_of_ne hne _ _).trans h

theorem set_watched (h : Watched s) (ht : s.phase t = .outside) (d : Int) (p : Phase) :
    Watched ((s.add d).set t p) := by
  refine h.of_le rfl ?_ (set_keeps_waking (by rw [ht]; simp)) rfl
  have hzero : Phase.outside.unit = 0 := rfl
  have hpos := unit_nonneg p
  rw [units_set, ht]
  omega

theorem down_watched (h : Watched s) (ht : s.phase t = .outside) (k : Kind) :
    Watched (s.down t k) := by
  cases k <;> exact set_watched h ht _ _

theorem downTrylock_watched (h : Watched s) (ht : s.phase t = .outside) (k : Kind) :
    Watched (s.downTrylock t k) := by
  cases k with
  | read =>
    change Watched (if s.count.msb then s else (s.add activeBias).set t (.holds .read))
    split
    · exact h
    · exact set_watched h ht _ _
  | write =>
    change Watched (if s.count = 0 then (s.add activeWriteBias).set t (.holds .write) else s)
    split
    · exact set_watched h ht _ _
    · exact h

theorem units_up (ht : s.phase t = .holds k) : (s.up t k).units = s.units - 1 := by
  obtain ⟨p, hp, heq⟩ := up_eq s t k
  rw [heq, units_set, ht]
  rcases hp with rfl | rfl <;> exact Int.add_zero _

/-- Whoever releases the last unit while somebody is on the list goes to wake. -/
theorem up_watched (hinv : Inv s) (hn : n < 32766) (ht : s.phase t = .holds k)
    (hown : s.owner ≠ some t) : Watched (s.up t k) := by
  have hsmall := hinv.small hn
  have hinv' := up_inv hinv ht hown
  have hsmall' := hinv'.small hn
  intro hne
  by_cases hpos : 0 < (s.up t k).units
  · exact .inl hpos
  -- no unit is left: there was one, and the task on the list still counts
  have hunits : s.units = 1 := by
    have := units_up ht
    have := hsmall'.units_nonneg
    omega
  have hlast : lastActive s.count = true := by
    rw [hinv.count]
    exact (lastActive_word hsmall).mpr hunits
  have hwaits : 0 < (s.up t k).waits := by
    refine hinv'.waits_pos hne ?_
    have := hinv'.stage_bounds
    have hpos' := census_nonneg unit_nonneg (p := (s.up t k).phase)
    have hu : (s.up t k).units = census Phase.unit (s.up t k).phase + (s.up t k).stage Stage.units :=
      rfl
    omega
  refine .inr (.inl ⟨t, ?_⟩)
  cases k with
  | read =>
    have hmsb : (s.up t .read).count.msb = true := by
      rw [hinv'.count]
      exact (msb_word hsmall').mpr hwaits
    change (s.add (-activeBias)).count.msb = true at hmsb
    unfold State.up
    dsimp only
    rw [hmsb, hlast]
    exact update_self _ _ _
  | write =>
    have hcount : (s.up t .write).count ≠ 0 := by
      rw [hinv'.count, Ne, word_eq_zero hsmall']
      omega
    change (s.add (-activeWriteBias)).count ≠ 0 at hcount
    unfold State.up
    dsimp only
    rw [bne_iff_ne.mpr hcount, hlast]
    exact update_self _ _ _

theorem wake_watched : Watched (s.wake t) := by
  unfold State.wake
  dsimp only
  split
  case isTrue hnil => exact fun hne => absurd hnil hne
  case isFalse => exact fun _ => .inr (.inr ⟨t, rfl⟩)

theorem goto_joins_watched (h : Watched s) (hlock : s.lock = none) (k : Kind) :
    Watched (s.goto t (.joins k)) := by
  intro hne
  rcases h hne with hpos | hwaking | ⟨t', ht'⟩
  · left
    rw [units_of_unlocked hlock] at hpos
    exact hpos.trans_eq (Int.add_zero _).symm
  · exact .inr (.inl hwaking)
  · rw [hlock] at ht'
    cases ht'

/-- Whoever joins the list looks at the active units that are left. -/
theorem join_watched (hinv : Inv s) (hn : n < 32766)
    (hlock : s.lock = some (t, .joins k)) : Watched (s.join t k) := by
  have hinv' := join_inv hinv hlock
  have hsmall' := hinv'.small hn
  intro _
  by_cases hpos : 0 < (s.join t k).units
  · exact .inl hpos
  have hactive : active (s.join t k).count = 0 := by
    have := hsmall'.units_nonneg
    rw [hinv'.count]
    exact (active_word_eq hsmall' (by decide)).mpr (by push_cast; omega)
  refine .inr (.inr ⟨t, ?_⟩)
  unfold State.join at hactive ⊢
  dsimp only at hactive ⊢
  split
  · rfl
  case isFalse hne =>
    rw [if_neg hne] at hactive
    exact absurd hactive hne

theorem units_unlock (s : State n) (d : Int) :
    (s.add d).unlock.units = census Phase.unit s.phase := Int.add_zero _

/-- After the update of a waker there is a unit. -/
theorem watched_of_units {l : Option (Fin n × Stage)} {c : BitVec 32} {w : List (Fin n × Kind)}
    (h : 0 < (l.map fun l => l.2.units).getD 0) : Watched ⟨c, w, l, s.phase⟩ := by
  intro _
  left
  have hpos := census_nonneg unit_nonneg (p := s.phase)
  change 0 < census Phase.unit s.phase + (l.map fun l => l.2.units).getD 0
  omega

theorem tryAgain_watched : Watched (s.tryAgain t) := by
  unfold State.tryAgain
  split
  · exact watched_of_units Int.zero_lt_one
  · split
    · exact watched_of_units Int.zero_lt_one
    · exact watched_of_units Int.zero_lt_one

theorem undo_watched (hinv : Inv s) (hn : n < 32766) (hlock : s.lock = some (t, .undo))
    (hseen : active s.count ≠ 1) : Watched (s.undo t) := by
  have hsmall := hinv.small hn
  have hunits : s.units ≠ 1 := by
    intro heq
    rw [hinv.count] at hseen
    exact hseen ((active_word_eq hsmall (by decide)).mpr heq)
  unfold State.undo
  dsimp only
  split
  · intro _
    left
    have hu := units_of_lock hlock
    have hpos := census_nonneg unit_nonneg (p := s.phase)
    rw [units_unlock]
    simp only [Stage.units] at hu
    omega
  · exact fun _ => .inr (.inr ⟨t, rfl⟩)

theorem watched_of_holds {c : BitVec 32} {w : List (Fin n × Kind)} {l : Option (Fin n × Stage)}
    {t' : Fin n} (hl : 0 ≤ (l.map fun l => l.2.units).getD 0) :
    Watched ⟨c, w, l, update s.phase t' (.holds k)⟩ := by
  intro _
  left
  have hle := le_census unit_nonneg (p := update s.phase t' (.holds k)) t'
  rw [update_self] at hle
  change 0 < census Phase.unit (update s.phase t' (.holds k)) +
    (l.map fun l => l.2.units).getD 0
  simp only [Phase.unit] at hle
  omega

theorem grantWriter_watched (hinv : Inv s) (hlock : s.lock = some (t, .grantWriter)) :
    Watched s.grantWriter := by
  obtain ⟨⟨t', rest, hlist⟩, -⟩ : (∃ t' rest, s.waitList = (t', .write) :: rest) ∧ s.Free :=
    hinv.stage t _ hlock
  unfold State.grantWriter
  rw [hlist]
  exact watched_of_holds (le_refl 0)

theorem countReaders_watched (hinv : Inv s) (hlock : s.lock = some (t, .countReaders)) :
    Watched (s.countReaders t) := by
  obtain ⟨⟨t', rest, hlist⟩, -⟩ : (∃ t' rest, s.waitList = (t', .read) :: rest) ∧ s.Free :=
    hinv.stage t _ hlock
  have hpos : 0 < woken s.waitList := by
    rw [hlist]
    exact Nat.succ_pos _
  refine watched_of_units ?_
  simp only [Option.map_some, Option.getD_some, Stage.units]
  omega

theorem grant_watched (hinv : Inv s) (h : Watched s) {k : Nat}
    (hlock : s.lock = some (t, .grants k)) : Watched (s.grant t k) := by
  obtain ⟨hle, -⟩ : k ≤ s.waitList.length ∧ _ := hinv.stage t _ hlock
  cases k with
  | zero =>
    intro hne
    rcases h hne with hpos | hwaking | ⟨t', ht'⟩
    · left
      rw [units_of_lock hlock] at hpos
      exact hpos
    · exact .inr (.inl hwaking)
    · rw [hlock] at ht'
      cases ht'
  | succ k =>
    unfold State.grant
    cases hlist : s.waitList with
    | nil =>
      rw [hlist] at hle
      cases hle
    | cons e rest =>
      refine watched_of_holds ?_
      simp only [Option.map_some, Option.getD_some, Stage.units]
      omega

theorem step_watched {e : Event n} (hn : n < 32766) (hinv : Inv s) (h : Watched s)
    (hseen : UndoSeen s e) (hstep : Step s e s') : Watched s' := by
  cases e with simp only [Step, exec] at hstep
  | down t k =>
    split at hstep <;> cases hstep
    next hok => exact down_watched h hok.1 k
  | downTrylock t k =>
    split at hstep <;> cases hstep
    next hok => exact downTrylock_watched h hok.1 k
  | up t =>
    split at hstep
    case h_1 k ht =>
      split at hstep <;> cases hstep
      case isTrue hown => exact up_watched hinv hn ht hown
    · cases hstep
  | lock t =>
    split at hstep
    · cases hstep
    case isFalse hlock =>
      rw [Option.not_isSome_iff_eq_none] at hlock
      split at hstep <;> cases hstep
      case h_1 k ht => exact goto_joins_watched h hlock k
      case h_2 ht => exact wake_watched
  | go =>
    obtain ⟨⟨t, stage⟩, hlock, rfl⟩ := Option.map_eq_some_iff.mp hstep
    cases stage with
    | joins k => exact join_watched hinv hn hlock
    | tryAgain => exact tryAgain_watched
    | undo =>
      change Watched (s.undo t)
      exact undo_watched hinv hn hlock (hseen rfl t hlock)
    | grantWriter => exact grantWriter_watched hinv hlock
    | countReaders => exact countReaders_watched hinv hlock
    | grants k => exact grant_watched hinv h hlock

/-! ## Runs -/

/-- A writer is alone in every run. In a run in which every undo leaves an active unit, somebody
holds the semaphore whenever somebody waits for it and no task is between two of its steps. -/
theorem rwsem_sound (hn : n < 32766) :
    (∀ es (s : State n), Run Step State.init es s →
      ∀ t t' k, s.phase t = .holds .write → s.phase t' = .holds k → t' = t) ∧
    ∀ es (s : State n), Run (Meeting UndoSeen Step) State.init es s → Quiet s →
      s.waitList ≠ [] → ∃ t k, s.phase t = .holds k := by
  constructor
  · intro es s hrun
    exact (hrun.invariant (fun _ _ _ hi hstep => step_inv hn hi hstep) inv_init).excl
  · intro es s hrun hquiet hne
    obtain ⟨-, hwatched⟩ : Inv s ∧ Watched s :=
      hrun.invariant (I := fun s => Inv s ∧ Watched s)
        (fun _ _ _ hi hstep => ⟨step_inv hn hi.1 hstep.2, step_watched hn hi.1 hi.2 hstep.1 hstep.2⟩)
        ⟨inv_init, watched_init⟩
    obtain ⟨hlock, hphases⟩ := hquiet
    rcases hwatched hne with hpos | ⟨t, ht⟩ | ⟨t, ht⟩
    · rw [units_of_unlocked hlock] at hpos
      obtain ⟨t, hunit⟩ := exists_of_census_pos hpos
      refine ⟨t, ?_⟩
      rcases hphases t with hout | ⟨k, hwait | hholds⟩
      · rw [hout] at hunit
        cases hunit
      · rw [hwait] at hunit
        cases hunit
      · exact ⟨k, hholds⟩
    · have := hphases t
      simp [ht] at this
    · rw [hlock] at ht
      cases ht

/-- A reader has the semaphore, and a writer waits for it. -/
def writerWaits : List (Event 3) := [.down 0 .read, .down 1 .write, .lock 1, .go]

/-- A step whose condition is checked. -/
def execSeen (s : State n) (e : Event n) : Option (State n) :=
  if UndoSeen s e then exec s e else none

theorem step_of_execSeen (s : State n) (e : Event n) (s' : State n) (h : execSeen s e = some s') :
    Meeting UndoSeen Step s e s' := by
  unfold execSeen at h
  split at h
  case isTrue hseen => exact ⟨hseen, h⟩
  · cases h

theorem rwsem_sound_writer_waits :
    ∃ s, execAll execSeen State.init writerWaits = some s ∧ s.waitList = [(1, .write)] ∧
      ∃ t k, s.phase t = .holds k := by
  obtain ⟨s, hs, hquiet, hlist⟩ : ∃ s, execAll execSeen State.init writerWaits = some s ∧
      (s.lock = none ∧ ∀ t, s.phase t ∈ [Phase.outside, .waiting .write, .holds .read]) ∧
      s.waitList = [(1, .write)] :=
    ⟨_, rfl, by decide, by decide⟩
  refine ⟨s, hs, hlist, (rwsem_sound (by decide)).2 writerWaits s
    (Run.of_execAll step_of_execSeen hs) ⟨hquiet.1, fun t => ?_⟩ (by rw [hlist]; simp)⟩
  have ht := hquiet.2 t
  simp only [List.mem_cons, List.not_mem_nil, or_false] at ht
  rcases ht with ht | ht | ht
  · exact .inl ht
  · exact .inr ⟨_, .inl ht⟩
  · exact .inr ⟨_, .inr ht⟩

/-- A reader releases the semaphore to a writer that waits, and goes to wake. Before it gets the
lock, another reader joins the list and wakes the writer. The first one adds its unit, sees that of
the writer, and only takes its own back when the writer has released the semaphore. -/
def lostWakeup : List (Event 3) :=
  [.down 0 .read, .down 1 .write, .lock 1, .go, .up 0, .down 2 .read, .lock 2, .go, .go, .go,
    .lock 0, .go, .up 1, .go]

theorem rwsem_wakeup_lost :
    ∃ s : State 3, Run Step State.init lostWakeup s ∧ s.lock = none ∧
      s.waitList = [(2, .read)] ∧ s.phase 0 = .outside ∧ s.phase 1 = .outside ∧
      s.phase 2 = .waiting .read := by
  obtain ⟨s, hs, hrest⟩ : ∃ s : State 3, execAll exec State.init lostWakeup = some s ∧
      (s.lock = none ∧ s.waitList = [(2, .read)] ∧ s.phase 0 = .outside ∧
        s.phase 1 = .outside ∧ s.phase 2 = .waiting .read) :=
    ⟨_, rfl, by decide⟩
  exact ⟨s, Run.of_execAll (fun _ _ _ h => h) hs, hrest⟩

end CustomKernel.Locking.Rwsem

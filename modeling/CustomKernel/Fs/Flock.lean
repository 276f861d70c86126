import Mathlib.Data.List.Basic
import CustomKernel.Fs.Locks

/-! # Locks of `flock` beside the others

`flock_lock_file` looks at the front of the list only, up to the first lock of another
kind, and inserts at the head. Record locks are inserted behind those of their owner or at
the end, so they never hide a lock of `flock`. A lease is inserted at the head, so it does:
the result is about runs in which no lease is taken while there are locks of `flock`. -/
namespace CustomKernel.Fs.Flock
open Lib.Transition Fs.Locks

/-! ## Operations -/

/-- The list, and the calls of `flock_lock_file` that are between two of their steps. -/
structure State where
  list : List FileLock
  searching : List FlockCall
  waiting : List FlockCall
deriving DecidableEq, Repr

inductive Op where
  | flock (c : FlockCall)
  | search (c : FlockCall)
  /-- one who slept goes to `repeat` -/
  | wake (c : FlockCall)
  /-- one who slept has a signal -/
  | interrupt (c : FlockCall)
  | posix (deadlock : Bool) (allocated wait : Bool) (caller : FileLock)
  | setlease (c : LeaseCall)
  | closeFiles (owner : Nat)
  | closeFile (filp : Nat)

def State.goesOn (s : State) (c : FlockCall) (next : Next × List FileLock) : State :=
  match next with
  | (.returned _, l) => { s with list := l }
  | (.search, l) => { s with list := l, searching := c :: s.searching }
  | (.blocked, l) => { s with list := l, waiting := c :: s.waiting }

def Op.exec (s : State) : Op → State
  | .flock c => s.goesOn c (flockSearch c s.list)
  | .search c => { s with searching := s.searching.erase c }.goesOn c (flockSearch c s.list)
  | .wake c => { s with waiting := s.waiting.erase c }.goesOn c (flockRepeat c s.list)
  | .interrupt c => { s with waiting := s.waiting.erase c }
  | .posix deadlock allocated wait caller =>
    match posixLockFile (fun _ _ => deadlock) allocated wait caller s.list with
    | .returned _ l => { s with list := l }
    | .blocked _ => s
  | .setlease c => { s with list := (fcntlSetlease c s.list).2 }
  | .closeFiles owner => { s with list := locksRemovePosix owner s.list }
  | .closeFile filp => { s with list := locksRemoveFlock filp s.list }

/-- A record lock is asked for by a process, which has a `files_struct`. -/
def Op.Allowed (s : State) : Op → Prop
  | .search c => c ∈ s.searching
  | .wake c | .interrupt c => c ∈ s.waiting
  | .posix _ _ _ caller => caller.flFlags = .posix ∧ caller.flOwner ≠ none
  | _ => True

instance (s : State) : (o : Op) → Decidable (o.Allowed s)
  | .search c => inferInstanceAs (Decidable (c ∈ s.searching))
  | .wake c | .interrupt c => inferInstanceAs (Decidable (c ∈ s.waiting))
  | .posix .. => inferInstanceAs (Decidable (_ ∧ _))
  | .flock _ | .setlease _ | .closeFiles _ | .closeFile _ => inferInstanceAs (Decidable True)

def Step (s : State) (o : Op) (s' : State) : Prop := o.Allowed s ∧ s' = o.exec s

def free : State := ⟨[], [], []⟩

/-! ## The list -/

theorem mem_modify {l : List FileLock} {f : FileLock → FileLock} {i : Nat} {fl : FileLock}
    (h : fl ∈ l.modify i f) : ∃ fl' ∈ l, fl = fl' ∨ fl = f fl' := by
  obtain ⟨j, hj, rfl⟩ := List.mem_iff_getElem.mp h
  rw [List.length_modify] at hj
  refine ⟨l[j], List.getElem_mem hj, ?_⟩
  rw [List.getElem_modify]
  split
  · exact .inr rfl
  · exact .inl rfl

section List
variable {l F R : List FileLock} {c : FlockCall}

/-- The locks of `flock` are at the front, one a file, and shared if there are two. -/
structure Guarded (l F R : List FileLock) : Prop where
  eq : l = F ++ R
  front : ∀ fl ∈ F, fl.flFlags = .flock
  others : ∀ fl ∈ R, fl.flFlags ≠ .flock
  files : (F.map FileLock.flFile).Nodup
  types : ∀ fl ∈ F, fl.flType = .rdlck ∨ fl.flType = .wrlck
  shared : F.Pairwise fun a b => a.flType = .rdlck ∧ b.flType = .rdlck

theorem Guarded.takeWhile_eq (h : Guarded l F R) :
    l.takeWhile (fun fl => fl.flFlags = .flock) = F := by
  rw [h.eq, List.takeWhile_append_of_pos (fun fl hfl => by simp [h.front fl hfl])]
  have hR : R.takeWhile (fun fl => decide (fl.flFlags = .flock)) = [] := by
    cases hR : R with
    | nil => rfl
    | cons r R' =>
      have hr := h.others r (hR ▸ List.mem_cons_self)
      simp [hr]
  rw [hR, List.append_nil]

/-- Locks of `flock` may go, and the others may change. -/
theorem Guarded.sublist (h : Guarded l F R) {F' R' : List FileLock} (hF : F'.Sublist F)
    (hR : ∀ fl ∈ R', fl.flFlags ≠ .flock) : Guarded (F' ++ R') F' R' where
  eq := rfl
  front := fun fl hfl => h.front fl (hF.subset hfl)
  others := hR
  files := h.files.sublist (hF.map _)
  types := fun fl hfl => h.types fl (hF.subset hfl)
  shared := h.shared.sublist hF

theorem Guarded.filter (h : Guarded l F R) (p : FileLock → Bool) :
    Guarded (l.filter p) (F.filter p) (R.filter p) := by
  rw [h.eq, List.filter_append]
  exact h.sublist List.filter_sublist fun fl hfl => h.others fl (List.mem_filter.mp hfl).1

theorem Guarded.insert (h : Guarded l F R) (htype : c.lockType = .rdlck ∨ c.lockType = .wrlck)
    (hfile : ∀ fl ∈ F, fl.flFile ≠ c.filp)
    (hno : ∀ fl ∈ F, ¬flockLocksConflict (flockMakeLock c) fl) :
    Guarded (flockMakeLock c :: l) (flockMakeLock c :: F) R := by
  have hmand {t : LockType} (ht : t = .rdlck ∨ t = .wrlck) : t.isMand = false := by
    rcases ht with rfl | rfl <;> rfl
  refine ⟨by rw [h.eq, List.cons_append], ?_, h.others, ?_, ?_, ?_⟩
  · exact List.forall_mem_cons.mpr ⟨rfl, h.front⟩
  · rw [List.map_cons, List.nodup_cons]
    refine ⟨fun hmem => ?_, h.files⟩
    obtain ⟨fl, hfl, heq⟩ := List.mem_map.mp hmem
    exact hfile fl hfl heq
  · exact List.forall_mem_cons.mpr ⟨htype, h.types⟩
  · refine List.pairwise_cons.mpr ⟨fun fl hfl => ?_, h.shared⟩
    have hconf : ¬locksConflict (flockMakeLock c) fl := by
      intro hconf
      refine hno fl hfl ⟨h.front fl hfl, (hfile fl hfl).symm, ?_, hconf⟩
      simp [flockMakeLock, hmand htype, hmand (h.types fl hfl)]
    rcases htype with ht | ht
    · refine ⟨ht, (h.types fl hfl).resolve_right fun hw => hconf ?_⟩
      simp [locksConflict, flockMakeLock, ht, hw]
    · exact absurd (by simp [locksConflict, flockMakeLock, ht]) hconf

theorem Guarded.flockRepeat (h : Guarded l F R) (htype : c.lockType = .rdlck ∨ c.lockType = .wrlck)
    (hfile : ∀ fl ∈ F, fl.flFile ≠ c.filp) : ∃ F', Guarded (flockRepeat c l).2 F' R := by
  unfold Locks.flockRepeat
  rw [h.takeWhile_eq]
  dsimp only
  split
  · split
    · exact ⟨F, h⟩
    · exact ⟨F, h⟩
  next hno =>
    refine ⟨_, h.insert htype hfile fun fl hfl hconf => hno ⟨fl, hfl, hconf⟩⟩

theorem Guarded.flockSearch (h : Guarded l F R) (hmand : c.lockType.isMand = false) :
    ∃ F', Guarded (flockSearch c l).2 F' R := by
  unfold Locks.flockSearch
  rw [h.takeWhile_eq]
  dsimp only
  have herase {fl : FileLock} (hfl : fl ∈ F) : Guarded (l.erase fl) (F.erase fl) R := by
    rw [h.eq, List.erase_append_left _ hfl]
    exact h.sublist List.erase_sublist h.others
  split
  next fl hfind =>
    have hfl := List.mem_of_find?_eq_some hfind
    split
    · exact ⟨F, h⟩
    · split
      · exact ⟨_, herase hfl⟩
      · exact ⟨_, herase hfl⟩
  next hfind =>
    have hfile : ∀ fl ∈ F, fl.flFile ≠ c.filp := by simpa using List.find?_eq_none.mp hfind
    split
    · exact ⟨F, h⟩
    next hne =>
      refine h.flockRepeat ?_ hfile
      cases ht : c.lockType with
      | rdlck => exact .inl rfl
      | wrlck => exact .inr rfl
      | unlck => exact absurd ht hne
      | mand r w => rw [ht] at hmand; cases hmand

end List

/-! ## Record locks -/

section Posix
variable {l F R : List FileLock} {caller : FileLock}

/-- No lock of `flock` is in sight of the pass. -/
structure Pass.Other (p : Pass) : Prop where
  skipped : ∀ fl ∈ p.skipped, fl.flFlags ≠ .flock
  rest : ∀ fl ∈ p.rest, fl.flFlags ≠ .flock
  caller : p.caller.flFlags ≠ .flock

theorem pass_other {added : Bool} {self left : Option Nat} {skipped rest : List FileLock}
    (hs : ∀ fl ∈ skipped, fl.flFlags ≠ .flock) (hr : ∀ fl ∈ rest, fl.flFlags ≠ .flock)
    (hc : caller.flFlags ≠ .flock) : Pass.Other (pass caller added self left skipped rest) := by
  have hsnoc {skipped : List FileLock} {fl : FileLock} (hs : ∀ fl ∈ skipped, fl.flFlags ≠ .flock)
      (hfl : fl.flFlags ≠ .flock) : ∀ fl' ∈ skipped ++ [fl], fl'.flFlags ≠ .flock :=
    List.forall_mem_append.mpr ⟨hs, List.forall_mem_singleton.mpr hfl⟩
  fun_induction pass caller added self left skipped rest
  case case1 => exact ⟨hs, hr, hc⟩
  all_goals
    obtain ⟨hfl, hrest⟩ := List.forall_mem_cons.mp hr
    first
      | exact ⟨hs, hr, hc⟩
      | rename_i ih
        first
          | exact ih hs hrest hc
          | exact ih (hsnoc hs hfl) hrest hc
          | exact ih (hsnoc hs hfl) hrest hfl

/-- The locks behind the pass, with the one that stands for the request as it is at the end. -/
def Pass.behind (p : Pass) : List FileLock :=
  match p.self with
  | some i => p.skipped.set i p.caller
  | none => p.skipped

theorem Pass.Other.finish {p : Pass} (h : Pass.Other p) : ∀ fl ∈ p.finish, fl.flFlags ≠ .flock := by
  have hself : ∀ fl ∈ Pass.behind p, fl.flFlags ≠ .flock := by
    intro fl hfl
    unfold Pass.behind at hfl
    split at hfl
    · rcases List.mem_or_eq_of_mem_set hfl with hfl | rfl
      · exact h.skipped fl hfl
      · exact h.caller
    · exact h.skipped fl hfl
  unfold Pass.finish
  dsimp only
  split
  · intro fl hfl
    exact (List.mem_append.mp hfl).elim (hself fl) (h.rest fl)
  · intro fl hfl
    simp only [List.mem_append] at hfl
    rcases hfl with ((hfl | hfl) | hfl) | hfl
    · split at hfl
      · obtain ⟨fl', hfl', heq⟩ := mem_modify hfl
        rcases heq with rfl | rfl
        · exact hself fl hfl'
        · exact hself fl' hfl'
      · exact hself fl hfl
    · split at hfl
      · obtain ⟨fl', hfl', rfl⟩ := List.mem_map.mp hfl
        exact h.rest fl' (List.mem_of_mem_head? (by simpa using hfl'))
      · cases hfl
    · split at hfl
      · cases hfl
      · exact List.mem_singleton.mp hfl ▸ h.caller
    · split at hfl
      · cases hrest : p.rest with
        | nil => simp [hrest] at hfl
        | cons r rest =>
          rw [hrest, List.modifyHead_cons] at hfl
          have hr := fun fl hmem => h.rest fl (hrest ▸ hmem)
          rcases List.mem_cons.mp hfl with rfl | hfl
          · exact hr r List.mem_cons_self
          · exact hr fl (List.mem_cons_of_mem _ hfl)
      · exact h.rest fl hfl

theorem Guarded.setLock (h : Guarded l F R) (hc : caller.flFlags ≠ .flock) :
    ∃ R', Guarded (setLock caller l) F R' := by
  have hF : ∀ fl ∈ F, decide (fl.flFlags ≠ .posix ∨ ¬locksSameOwner caller fl) = true := by
    intro fl hfl
    simp [h.front fl hfl]
  unfold Locks.setLock
  dsimp only
  rw [h.eq, List.takeWhile_append_of_pos hF, List.dropWhile_append_of_pos hF, List.append_assoc]
  refine ⟨_, h.sublist (List.Sublist.refl F) fun fl hfl => ?_⟩
  rcases List.mem_append.mp hfl with hfl | hfl
  · exact h.others fl (List.takeWhile_subset _ hfl)
  · refine (pass_other ?_ ?_ hc).finish fl hfl
    · simp
    · intro fl' hfl'
      exact h.others fl' ((List.dropWhile_sublist _).subset hfl')

end Posix

/-! ## Leases -/

section Lease
variable {l F R : List FileLock} {c : LeaseCall}

theorem ite_keeps {α : Type} {P : α → Prop} {q : Prop} [Decidable q] {x y : α} (hx : q → P x)
    (hy : ¬q → P y) : P (if q then x else y) := by
  split
  next hq => exact hx hq
  next hq => exact hy hq

/-- The list changes only where there is a lease of the file at the front, or where there
is none and one is taken. -/
theorem fcntlSetlease_cases (c : LeaseCall) (l : List FileLock) :
    (fcntlSetlease c l).2 = l ∨
    (∃ i, (leases c.filp l).1 = some i ∧ (fcntlSetlease c l).2 = (leaseModify i c.arg l).2) ∨
    c.arg ≠ .unlck ∧ (fcntlSetlease c l).2 =
      l.takeWhile (fun fl => fl.flFlags = .lease) ++
        leaseAlloc c :: l.dropWhile (fun fl => fl.flFlags = .lease) := by
  rcases hl : leases c.filp l with ⟨mine, others⟩
  let Q (r : Int × List FileLock) : Prop := r.2 = l ∨
    (∃ i, mine = some i ∧ r.2 = (leaseModify i c.arg l).2) ∨
    c.arg ≠ .unlck ∧ r.2 = l.takeWhile (fun fl => fl.flFlags = .lease) ++
      leaseAlloc c :: l.dropWhile (fun fl => fl.flFlags = .lease)
  have hskip {p : Prop} [Decidable p] {e : Int} {r : Int × List FileLock} (hr : ¬p → Q r) :
      Q (if p then (e, l) else r) := ite_keeps (fun _ => .inl rfl) hr
  unfold fcntlSetlease
  rw [hl]
  refine hskip fun _ => hskip fun _ => hskip fun _ => hskip fun _ => ?_
  cases mine with
  | some i => exact .inr (.inl ⟨i, rfl, rfl⟩)
  | none =>
    refine hskip fun harg => hskip fun _ => hskip fun _ => hskip fun _ => hskip fun _ => ?_
    exact .inr (.inr ⟨harg, rfl⟩)

theorem setlease_other (h : ∀ fl ∈ l, fl.flFlags ≠ .flock) :
    ∀ fl ∈ (fcntlSetlease c l).2, fl.flFlags ≠ .flock := by
  rcases fcntlSetlease_cases c l with heq | ⟨i, _, heq⟩ | ⟨_, heq⟩
  · rw [heq]
    exact h
  · rw [heq]
    unfold leaseModify
    split
    · exact h
    · split
      · exact fun fl hfl => h fl (List.mem_of_mem_eraseIdx hfl)
      · intro fl hfl
        obtain ⟨fl', hfl', rfl | rfl⟩ := mem_modify hfl
        · exact h fl hfl'
        · exact h fl' hfl'
  · rw [heq]
    intro fl hfl
    rcases List.mem_append.mp hfl with hfl | hfl
    · exact h fl (List.takeWhile_subset _ hfl)
    · rcases List.mem_cons.mp hfl with rfl | hfl
      · simp [leaseAlloc]
      · exact h fl ((List.dropWhile_sublist _).subset hfl)

/-- Behind a lock of `flock` there is no lease to take away. -/
theorem setlease_unlock {fl : FileLock} (hfl : fl.flFlags = .flock) (harg : c.arg = .unlck) :
    (fcntlSetlease c (fl :: l)).2 = fl :: l := by
  have hnone : (leases c.filp (fl :: l)).1 = none := by simp [leases, hfl]
  rcases fcntlSetlease_cases c (fl :: l) with heq | ⟨i, hsome, _⟩ | ⟨hne, _⟩
  · exact heq
  · rw [hnone] at hsome
    cases hsome
  · exact absurd harg hne

theorem Guarded.setlease (h : Guarded l F R)
    (hno : c.arg = .unlck ∨ ∀ fl ∈ l, fl.flFlags ≠ .flock) :
    ∃ F' R', Guarded (fcntlSetlease c l).2 F' R' := by
  cases hF : F with
  | nil =>
    have hl : ∀ fl ∈ l, fl.flFlags ≠ .flock := by
      rw [h.eq, hF]
      exact h.others
    exact ⟨[], _, h.sublist (List.nil_sublist F) (setlease_other hl)⟩
  | cons fl F' =>
    have heq : l = fl :: (F' ++ R) := by rw [h.eq, hF, List.cons_append]
    have hfl := h.front fl (hF ▸ List.mem_cons_self)
    have harg := hno.resolve_right fun hno => hno fl (heq ▸ List.mem_cons_self) hfl
    rw [heq, setlease_unlock hfl harg, ← heq]
    exact ⟨F, R, h⟩

end Lease

/-! ## Runs -/

section Runs
variable {s s' : State} {o : Op} {es : List Op}

/-- A lease is taken while there is no lock of `flock`; who has slept in `flock` finds no
lock of its own open file; and nobody asks for `LOCK_MAND`. -/
def Visible (s : State) : Op → Prop
  | .flock c | .search c => c.lockType.isMand = false
  | .wake c => c.lockType.isMand = false ∧
      ∀ fl ∈ s.list, fl.flFlags = .flock → fl.flFile ≠ c.filp
  | .setlease c => c.arg = .unlck ∨ ∀ fl ∈ s.list, fl.flFlags ≠ .flock
  | _ => True

/-- The list is in order, and nobody waits to unlock. -/
structure Good (s : State) : Prop where
  list : ∃ F R, Guarded s.list F R
  waiting : ∀ c ∈ s.waiting, c.lockType ≠ .unlck

theorem Good.goesOn {c : FlockCall} {next : Next × List FileLock} (hlist : ∃ F R, Guarded next.2 F R)
    (hwaiting : ∀ c ∈ s.waiting, c.lockType ≠ .unlck)
    (hnext : next.1 = .blocked → c.lockType ≠ .unlck) : Good (s.goesOn c next) := by
  unfold State.goesOn
  split
  · exact ⟨hlist, hwaiting⟩
  · exact ⟨hlist, hwaiting⟩
  · refine ⟨hlist, fun c' hc' => ?_⟩
    rcases List.mem_cons.mp hc' with rfl | hc'
    · exact hnext rfl
    · exact hwaiting c' hc'

theorem flockSearch_blocked {c : FlockCall} {l : List FileLock}
    (h : (flockSearch c l).1 = .blocked) : c.lockType ≠ .unlck := by
  intro hunlck
  unfold flockSearch at h
  dsimp only at h
  split at h
  · split at h
    · cases h
    · cases h
  · rw [if_pos hunlck] at h
    cases h

theorem step_good (h : Good s) (hv : Visible s o) (hstep : Step s o s') : Good s' := by
  obtain ⟨⟨F, R, hg⟩, hwaiting⟩ := h
  obtain ⟨hok, rfl⟩ := hstep
  have herase (c : FlockCall) : ∀ c' ∈ s.waiting.erase c, c'.lockType ≠ .unlck :=
    fun c' hc' => hwaiting c' (List.mem_of_mem_erase hc')
  cases o with
  | flock c =>
    obtain ⟨F', h'⟩ := hg.flockSearch hv
    exact Good.goesOn ⟨F', R, h'⟩ hwaiting flockSearch_blocked
  | search c =>
    obtain ⟨F', h'⟩ := hg.flockSearch hv
    exact Good.goesOn ⟨F', R, h'⟩ hwaiting flockSearch_blocked
  | wake c =>
    obtain ⟨hmand, hfile⟩ := hv
    have hunlck := hwaiting c hok
    have htype : c.lockType = .rdlck ∨ c.lockType = .wrlck := by
      cases ht : c.lockType with
      | rdlck => exact .inl rfl
      | wrlck => exact .inr rfl
      | unlck => exact absurd ht hunlck
      | mand r w => rw [ht] at hmand; cases hmand
    have hF : ∀ fl ∈ F, fl.flFile ≠ c.filp := fun fl hfl =>
      hfile fl (hg.eq ▸ List.mem_append_left R hfl) (hg.front fl hfl)
    obtain ⟨F', h'⟩ := hg.flockRepeat htype hF
    exact Good.goesOn ⟨F', R, h'⟩ (herase c) fun _ => hunlck
  | interrupt c => exact ⟨⟨F, R, hg⟩, herase c⟩
  | posix deadlock allocated wait caller =>
    have hc : caller.flFlags ≠ .flock := by rw [hok.1]; decide
    obtain ⟨R', h'⟩ := hg.setLock hc
    unfold Op.exec
    dsimp only
    split
    next hret =>
      rcases posixLockFile_returned hret with ⟨_, rfl⟩ | ⟨_, rfl⟩
      · exact ⟨⟨F, R, hg⟩, hwaiting⟩
      · exact ⟨⟨F, R', h'⟩, hwaiting⟩
    · exact ⟨⟨F, R, hg⟩, hwaiting⟩
  | setlease c => exact ⟨hg.setlease hv, hwaiting⟩
  | closeFiles owner => exact ⟨⟨_, _, hg.filter _⟩, hwaiting⟩
  | closeFile filp => exact ⟨⟨_, _, hg.filter _⟩, hwaiting⟩

/-- In a run whose steps all meet the condition, no open file has two locks of `flock`,
and two open files only have them if they are shared. -/
theorem flock_exclusion (h : Run (Meeting Visible Step) free es s) :
    s.list.Pairwise fun a b => a.flFlags = .flock → b.flFlags = .flock →
      a.flFile ≠ b.flFile ∧ a.flType = .rdlck ∧ b.flType = .rdlck := by
  have hfree : Good free :=
    ⟨⟨[], [], rfl, by simp, by simp, by simp, by simp, by simp⟩, by simp [free]⟩
  have hgood : Good s := h.invariant (fun _ _ _ hi h1 => step_good hi h1.1 h1.2) hfree
  obtain ⟨F, R, hg⟩ := hgood.list
  have hfiles := List.pairwise_map.mp hg.files
  rw [hg.eq, List.pairwise_append]
  refine ⟨(hfiles.and hg.shared).imp fun hab _ _ => hab, ?_, ?_⟩
  · refine List.pairwise_of_forall_mem_list fun a ha b _ hflock _ => ?_
    exact absurd hflock (hg.others a ha)
  · intro a _ b hb _ hflock
    exact absurd hflock (hg.others b hb)

/-! ### Two runs -/

def after : State → List Op → State := List.foldl fun s o => o.exec s

/-- All operations of a run can happen. -/
def Happens (s : State) : List Op → Prop
  | [] => True
  | o :: os => o.Allowed s ∧ Happens (o.exec s) os

instance : (s : State) → (os : List Op) → Decidable (Happens s os)
  | _, [] => inferInstanceAs (Decidable True)
  | s, o :: os =>
    have := instDecidableHappens (o.exec s) os
    inferInstanceAs (Decidable (_ ∧ _))

theorem run_after {os : List Op} (h : Happens s os) : Run Step s os (after s os) := by
  induction os generalizing s with
  | nil => exact .nil s
  | cons o os ih => exact .cons ⟨h.1, rfl⟩ (ih h.2)

def shared (filp : Nat) : Op := .flock ⟨filp, .rdlck, true, 1⟩

def exclusive (filp pid : Nat) : Op := .flock ⟨filp, .wrlck, true, pid⟩

/-- A process asks for a read lease on a file that it owns. -/
def readLease (filp : Nat) : Op := .setlease ⟨filp, 1, 1, .rdlck, true, true, true, true, true, true⟩

/-- A lease, and two shared locks in front of it. -/
theorem flock_exclusion_shared :
    let s := after free [readLease 1, shared 2, shared 3]
    s.list.map FileLock.flFlags = [.flock, .flock, .lease] ∧
      s.list.Pairwise fun a b => a.flFlags = .flock → b.flFlags = .flock →
        a.flFile ≠ b.flFile ∧ a.flType = .rdlck ∧ b.flType = .rdlck := by
  have hrun : Run (Meeting Visible Step) free [readLease 1, shared 2, shared 3]
      (after free [readLease 1, shared 2, shared 3]) := by
    refine .cons ⟨.inr ?_, trivial, rfl⟩ (.cons ⟨rfl, trivial, rfl⟩ (.cons ⟨rfl, trivial, rfl⟩ (.nil _)))
    exact fun fl hfl => by cases hfl
  exact ⟨by decide, flock_exclusion hrun⟩

/-- A lease that is taken between two exclusive locks hides the first one; and two
processes that wait for a lock with the same open file both get one. -/
theorem flock_hidden :
    (∃ s, Run Step free [exclusive 1 1, readLease 2, exclusive 3 3] s ∧
      s.list.map (fun fl => (fl.flFlags, fl.flFile, fl.flType)) =
        [(.flock, 3, .wrlck), (.lease, 2, .rdlck), (.flock, 1, .wrlck)]) ∧
    ∃ s, Run Step free [exclusive 1 1, exclusive 2 2, exclusive 2 3, .flock ⟨1, .unlck, false, 1⟩,
        .wake ⟨2, .wrlck, true, 2⟩, .wake ⟨2, .wrlck, true, 3⟩] s ∧
      s.list.map (fun fl => (fl.flFlags, fl.flFile)) = [(.flock, 2), (.flock, 2)] :=
  ⟨⟨_, run_after (by decide), by decide⟩, _, run_after (by decide), by decide⟩

end Runs

end CustomKernel.Fs.Flock

import CustomKernel.Fs.ByteMap

/-! # Deadlock detection

`posix_locks_deadlock` follows the requests on `blocked_list` from one owner to the next until it
comes to the caller or to an owner that is not blocked. It ends because no request may close a
circle. A wait for a lease is on the list too, and nothing keeps those from going round. -/
namespace CustomKernel.Fs.Deadlock
open Lib.Transition Fs.Locks Fs.ByteMap Relation

/-- An entry of `blocked_list`: `blocker` is its `fl_next`. -/
structure Waiter where
  lock : FileLock
  blocker : FileLock
deriving DecidableEq, Repr

/-- `none` if the search has not ended. -/
def posixLocksDeadlock (blockedList : List Waiter) (caller : Owner) : Nat → Owner → Option Bool
  | 0, _ => none
  | fuel + 1, blocked =>
    if caller = blocked then some true
    else
      match blockedList.find? fun w => ownerOf w.lock = blocked with
      | none => some false
      | some w => posixLocksDeadlock blockedList caller fuel (ownerOf w.blocker)

inductive Event where
  /-- `posix_lock_file` or `locks_mandatory_area` blocks -/
  | record (caller blocker : FileLock)
  /-- `flock_lock_file` blocks -/
  | flock (newFl blocker : FileLock)
  /-- `__get_lease` blocks -/
  | lease (newFl blocker : FileLock)
  /-- a waiter leaves the list -/
  | leave (w : Waiter)

/-- What is known when a process blocks. A process that is on the list sleeps. -/
def Event.Allowed (l : List Waiter) : Event → Prop
  | .record caller blocker =>
    caller.flFlags = .posix ∧ caller.flOwner ≠ none ∧ blocker.flOwner ≠ none ∧
      posixLocksConflict caller blocker ∧ (∀ w ∈ l, w.lock.flPid ≠ caller.flPid) ∧
      ∃ fuel, posixLocksDeadlock l (ownerOf caller) fuel (ownerOf blocker) = some false
  | .flock newFl blocker =>
    newFl.flFlags = .flock ∧ newFl.flOwner = none ∧ blocker.flOwner = none ∧
      flockLocksConflict newFl blocker ∧ ∀ w ∈ l, w.lock.flPid ≠ newFl.flPid
  | .lease newFl blocker =>
    newFl.flFlags = .lease ∧ blocker.flFlags = .lease ∧ newFl.flOwner ≠ none ∧
      blocker.flOwner ≠ none ∧ newFl.flOwner ≠ blocker.flOwner ∧ ∀ w ∈ l, w.lock.flPid ≠ newFl.flPid
  | .leave w => w ∈ l

def Event.exec (l : List Waiter) : Event → List Waiter
  | .record lock blocker | .flock lock blocker | .lease lock blocker => ⟨lock, blocker⟩ :: l
  | .leave w => l.erase w

def Step (l : List Waiter) (e : Event) (l' : List Waiter) : Prop := e.Allowed l ∧ l' = e.exec l

/-- The owner of a blocked record lock waits for the owner of the lock in its way. -/
def WaitsFor (l : List Waiter) (o o' : Owner) : Prop :=
  ∃ w ∈ l, w.lock.flFlags = .posix ∧ ownerOf w.lock = o ∧ ownerOf w.blocker = o'

section Search
variable {l l' : List Waiter} {w w' : Waiter} {o o' caller : Owner} {rank : Owner → Nat} {fuel : Nat}
  {e : Event} {es : List Event}

/-- Nobody waits twice, and the record locks wait in the order of `rank`. -/
structure Ranked (l : List Waiter) (rank : Owner → Nat) : Prop where
  once : (l.map fun w => w.lock.flPid).Nodup
  kind : ∀ w ∈ l, w.lock.flFlags ≠ .posix → w.lock.flOwner = none
  owner : ∀ w ∈ l, w.lock.flFlags = .posix → w.blocker.flOwner ≠ none
  down : ∀ o o', WaitsFor l o o' → rank o' < rank o

theorem Ranked.unique (h : Ranked l rank) (hw : w ∈ l) (hw' : w' ∈ l)
    (heq : ownerOf w.lock = ownerOf w'.lock) : w = w' :=
  List.inj_on_of_nodup_map h.once hw hw' (congrArg Prod.snd heq)

theorem Ranked.reach_iff (h : Ranked l rank) (hw : w ∈ l) (hposix : w.lock.flFlags = .posix)
    (hne : ownerOf w.lock ≠ caller) : ReflTransGen (WaitsFor l) (ownerOf w.lock) caller ↔
      ReflTransGen (WaitsFor l) (ownerOf w.blocker) caller := by
  refine ⟨fun hreach => ?_, fun hreach => hreach.head ⟨w, hw, hposix, rfl, rfl⟩⟩
  rcases hreach.cases_head with heq | ⟨o, ⟨w', hw', _, heq, rfl⟩, hrest⟩
  · exact absurd heq hne
  · rwa [h.unique hw hw' heq.symm]

/-- A search that ends is exact, and it ends within the rank of the owner it starts from. -/
theorem Ranked.search (h : Ranked l rank) (ho : o.1 ≠ none) :
    (∃ b, posixLocksDeadlock l caller fuel o = some b ∧
      (b = true ↔ ReflTransGen (WaitsFor l) o caller)) ∨
    posixLocksDeadlock l caller fuel o = none ∧ fuel ≤ rank o := by
  induction fuel generalizing o with
  | zero => exact .inr ⟨rfl, Nat.zero_le _⟩
  | succ fuel ih =>
    rw [posixLocksDeadlock]
    split
    next heq => exact .inl ⟨true, rfl, iff_of_true rfl (heq ▸ .refl)⟩
    next hne =>
    split
    next hnone =>
      refine .inl ⟨false, rfl, iff_of_false Bool.false_ne_true fun hreach => ?_⟩
      rcases hreach.cases_head with heq | ⟨o', ⟨w, hw, _, hlock, _⟩, _⟩
      · exact hne heq.symm
      · exact List.find?_eq_none.mp hnone w hw (decide_eq_true hlock)
    next w hfind =>
      have hw := List.mem_of_find?_eq_some hfind
      have hlock : ownerOf w.lock = o := by simpa using List.find?_some hfind
      subst hlock
      have hposix : w.lock.flFlags = .posix := by
        by_contra hother
        exact ho (h.kind w hw hother)
      have hdown := h.down _ _ ⟨w, hw, hposix, rfl, rfl⟩
      rw [h.reach_iff hw hposix (Ne.symm hne)]
      exact (ih (h.owner w hw hposix)).imp_right fun hmore => ⟨hmore.1, by omega⟩

open Classical in
/-- The ranks with a new edge from `o` to `o'`. -/
noncomputable def raised (l : List Waiter) (rank : Owner → Nat) (o o' k : Owner) : Nat :=
  rank k + if ReflTransGen (WaitsFor l) k o then rank o' + 1 else 0

theorem waitsFor_cons : WaitsFor (w :: l) o o' ↔
    w.lock.flFlags = .posix ∧ ownerOf w.lock = o ∧ ownerOf w.blocker = o' ∨ WaitsFor l o o' := by
  simp [WaitsFor]

theorem Ranked.once_cons (h : Ranked l rank) (hawake : ∀ v ∈ l, v.lock.flPid ≠ w.lock.flPid) :
    ((w :: l).map fun w => w.lock.flPid).Nodup := by
  rw [List.map_cons, List.nodup_cons, List.mem_map]
  exact ⟨fun ⟨v, hv, heq⟩ => hawake v hv heq, h.once⟩

theorem Ranked.record (h : Ranked l rank) (hposix : w.lock.flFlags = .posix)
    (howner : w.blocker.flOwner ≠ none) (hawake : ∀ v ∈ l, v.lock.flPid ≠ w.lock.flPid)
    (hfree : ¬ ReflTransGen (WaitsFor l) (ownerOf w.blocker) (ownerOf w.lock)) :
    Ranked (w :: l) (raised l rank (ownerOf w.lock) (ownerOf w.blocker)) := by
  refine ⟨h.once_cons hawake, ?_, ?_, fun o o' hwait => ?_⟩
  · exact List.forall_mem_cons.mpr ⟨fun hkind => absurd hposix hkind, h.kind⟩
  · exact List.forall_mem_cons.mpr ⟨fun _ => howner, h.owner⟩
  · unfold raised
    rcases waitsFor_cons.mp hwait with ⟨_, rfl, rfl⟩ | hold
    · rw [if_neg hfree, if_pos .refl]
      omega
    · have hdown := h.down _ _ hold
      obtain ⟨v, hv, hkind, rfl, rfl⟩ := hold
      have hne : ownerOf v.lock ≠ ownerOf w.lock := fun heq => hawake v hv (congrArg Prod.snd heq)
      have hreach := h.reach_iff hv hkind hne
      split <;> split <;> first | omega | tauto

theorem Ranked.flock (h : Ranked l rank) (hkind : w.lock.flFlags = .flock)
    (howner : w.lock.flOwner = none) (hawake : ∀ v ∈ l, v.lock.flPid ≠ w.lock.flPid) :
    Ranked (w :: l) rank := by
  have hother : w.lock.flFlags ≠ .posix := by simp [hkind]
  refine ⟨h.once_cons hawake, ?_, ?_, fun o o' hwait => ?_⟩
  · exact List.forall_mem_cons.mpr ⟨fun _ => howner, h.kind⟩
  · exact List.forall_mem_cons.mpr ⟨fun heq => absurd heq hother, h.owner⟩
  · exact h.down o o' ((waitsFor_cons.mp hwait).resolve_left fun hnew => hother hnew.1)

theorem Ranked.leave (h : Ranked l rank) (hsub : l'.Sublist l) : Ranked l' rank :=
  ⟨h.once.sublist (hsub.map _), fun v hv => h.kind v (hsub.subset hv),
    fun v hv => h.owner v (hsub.subset hv),
    fun o o' ⟨v, hv, hrest⟩ => h.down o o' ⟨v, hsub.subset hv, hrest⟩⟩

/-- No process waits for a lease to be broken. -/
def NoLease (_ : List Waiter) : Event → Prop
  | .lease _ _ => False
  | _ => True

theorem step_ranked (h : ∃ rank, Ranked l rank) (hc : NoLease l e) (hs : Step l e l') :
    ∃ rank, Ranked l' rank := by
  obtain ⟨rank, h⟩ := h
  obtain ⟨hok, rfl⟩ := hs
  cases e with
  | record caller blocker =>
    obtain ⟨hposix, _, hblocker, _, hawake, fuel, hsearch⟩ := hok
    have hstart : (ownerOf blocker).1 ≠ none := hblocker
    refine ⟨_, h.record hposix hblocker hawake fun hreach => ?_⟩
    rcases h.search hstart with ⟨b, heq, hexact⟩ | ⟨hnone, _⟩
    · rw [hsearch, Option.some.injEq] at heq
      exact Bool.false_ne_true (heq.trans (hexact.mpr hreach))
    · rw [hsearch] at hnone
      cases hnone
  | flock newFl blocker => exact ⟨rank, h.flock hok.1 hok.2.1 hok.2.2.2.2⟩
  | lease newFl blocker => exact hc.elim
  | leave w => exact ⟨rank, h.leave List.erase_sublist⟩

/-- In a run in which nobody waits for a lease, the search from the owner of a record lock ends, and
finds just the callers that this owner waits for. -/
theorem deadlock_search_exact (h : Run (Meeting NoLease Step) [] es l) (caller : Owner)
    (ho : o.1 ≠ none) : ∃ fuel b, posixLocksDeadlock l caller fuel o = some b ∧
      (b = true ↔ ReflTransGen (WaitsFor l) o caller) := by
  obtain ⟨rank, hrank⟩ : ∃ rank, Ranked l rank := by
    refine h.invariant (I := fun l => ∃ rank, Ranked l rank)
      (fun _ _ _ hi h1 => step_ranked hi h1.1 h1.2) ⟨fun _ => 0, List.nodup_nil, ?_, ?_, ?_⟩
    · simp
    · simp
    · simp [WaitsFor]
  refine ⟨rank o + 1, (hrank.search ho).resolve_right fun hmore => ?_⟩
  exact Nat.not_succ_le_self _ hmore.2

/-- A lock of process `p`. -/
def lockOf (p : Nat) (kind : LockKind) : FileLock := ⟨some p, p, p, kind, .wrlck, 0, 0⟩

/-- Process 1 waits for process 2. -/
theorem deadlock_search_exact_one :
    ∃ fuel b, posixLocksDeadlock [⟨lockOf 1 .posix, lockOf 2 .posix⟩] (some 2, 2) fuel (some 1, 1) =
      some b ∧ (b = true ↔ ReflTransGen
        (WaitsFor [⟨lockOf 1 .posix, lockOf 2 .posix⟩]) (some 1, 1) (some 2, 2)) := by
  have hrun : Run (Meeting NoLease Step) [] [.record (lockOf 1 .posix) (lockOf 2 .posix)]
      [⟨lockOf 1 .posix, lockOf 2 .posix⟩] :=
    .cons ⟨trivial, ⟨rfl, by decide, by decide, by decide, by simp, 1, rfl⟩, rfl⟩ (.nil _)
  exact deadlock_search_exact hrun _ (by decide)

/-- Two processes wait for a lease of each other, -/
def circle : List Waiter := [⟨lockOf 2 .lease, lockOf 1 .lease⟩, ⟨lockOf 1 .lease, lockOf 2 .lease⟩]

/-- and the search from either of them for a third one does not end. -/
theorem deadlock_search_endless : ∃ es, Run Step [] es circle ∧
    ∀ fuel, posixLocksDeadlock circle (some 3, 3) fuel (some 1, 1) = none := by
  refine ⟨[.lease (lockOf 1 .lease) (lockOf 2 .lease), .lease (lockOf 2 .lease) (lockOf 1 .lease)],
    .cons ⟨⟨rfl, rfl, by decide, by decide, by decide, by simp⟩, rfl⟩
      (.cons ⟨⟨rfl, rfl, by decide, by decide, by decide, by decide⟩, rfl⟩ (.nil _)), ?_⟩
  have hround (fuel : Nat) : posixLocksDeadlock circle (some 3, 3) fuel (some 1, 1) = none ∧
      posixLocksDeadlock circle (some 3, 3) fuel (some 2, 2) = none := by
    induction fuel with
    | zero => exact ⟨rfl, rfl⟩
    | succ fuel ih => exact ⟨ih.2, ih.1⟩
  exact fun fuel => (hround fuel).1

end Search

end CustomKernel.Fs.Deadlock

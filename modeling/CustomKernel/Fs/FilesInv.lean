import CustomKernel.Fs.Files
import CustomKernel.Lib.Transition

/-! # Descriptors are handed out lowest first, and once

The bitmap says what is in use, and everything below `next_fd` is. A descriptor that is taken but
not installed yet has its bit set and an empty slot, which is what keeps `close` and `dup2` off
it. -/
namespace CustomKernel.Fs.Files
open Lib.Bitmap Lib.Transition Function

variable {n : Nat}

/-! ## Growing -/

section
variable {nr fuel nfds : Nat}

theorem arrayStep_gt (h : nfds < nrOpen) : nfds < arrayStep nfds := by
  unfold arrayStep pageSize
  split
  · assumption
  · split
    · assumption
    · exact lt_min (by omega) h

theorem setStep_gt (h : nfds < nrOpen) : nfds < setStep nfds := by
  unfold setStep pageSize
  split
  · assumption
  · exact lt_min (by omega) h

theorem setStep_dvd (h : 32 ∣ nfds) : 32 ∣ setStep nfds := by
  unfold setStep pageSize nrOpen
  split
  · decide
  · omega

theorem arrayStep_dvd (h : 32 ∣ nfds) : 32 ∣ arrayStep nfds := by
  unfold arrayStep pageSize nrOpen
  split
  · decide
  · split
    · decide
    · omega

/-- With enough turns, a loop that makes progress below `NR_OPEN` gets past `nr`. -/
theorem grow_gt {step : Nat → Nat} (hstep : ∀ m, m < nrOpen → m < step m) (hnr : nr < nrOpen)
    (hfuel : nr < nfds + fuel) (hpos : 0 < fuel) (hlt : nfds < nrOpen) :
    nr < grow step nr fuel nfds := by
  induction fuel generalizing nfds with
  | zero => exact absurd hpos (Nat.lt_irrefl 0)
  | succ fuel ih =>
    rw [grow]
    split
    case isTrue hle =>
      have := hstep nfds hlt
      exact ih (by omega) (by omega) (by omega)
    case isFalse hgt => exact Nat.lt_of_not_le hgt

theorem grow_dvd {step : Nat → Nat} (hstep : ∀ m, 32 ∣ m → 32 ∣ step m) (h : 32 ∣ nfds) :
    32 ∣ grow step nr fuel nfds := by
  induction fuel generalizing nfds with
  | zero => exact h
  | succ fuel ih =>
    rw [grow]
    split
    · exact ih (hstep nfds h)
    · exact hstep nfds h

end

/-! ## The table -/

/-- What the table is like, which was once that of `o` and has not become smaller. -/
structure Table (o s : State n) : Prop where
  fds : o.maxFds ≤ s.maxFds
  fdset : o.maxFdset ≤ s.maxFdset
  fdsSize : 32 ∣ s.maxFds
  size : 32 ∣ s.maxFdset
  bits : ∀ i, testBit s.openFds i = true → i < s.maxFdset ∧ i < s.maxFds
  slots : ∀ i f, s.fd i = some f → testBit s.openFds i = true
  next : ∀ i < s.nextFd, testBit s.openFds i = true
  held : ∀ i, i ∈ s.held ↔ testBit s.openFds i = true
  nodup : s.held.Nodup
  handouts : ∀ h ∈ s.handouts, h.Right

theorem testBit_set (b : FdSet) (i j : Nat) :
    testBit (setBit b j) i = (decide (i = j) || testBit b i) := testBit_setBit (by decide)

theorem testBit_clear (b : FdSet) (i j : Nat) :
    testBit (clearBit b j) i = (!decide (i = j) && testBit b i) := testBit_clearBit (by decide)

theorem testBit_set_of_true {b : FdSet} {i j : Nat} (h : testBit b i = true) :
    testBit (setBit b j) i = true := by
  rw [testBit_set, h, Bool.or_true]

theorem testBit_clear_of_ne {b : FdSet} {i j : Nat} (h : i ≠ j) :
    testBit (clearBit b j) i = testBit b i := by
  rw [testBit_clear, decide_eq_false h]
  rfl

section
variable {o s : State n} {start limit fd nfds : Nat}

section
variable (h : Table o s)
include h

theorem Table.next_le : s.nextFd ≤ s.maxFdset := by
  by_contra hgt
  have := (h.bits s.maxFdset (h.next _ (Nat.lt_of_not_le hgt))).1
  omega

/-- The search finds the first free descriptor, if there is one in the set. -/
theorem Table.nextZero_spec (hstart : start ≤ s.maxFdset) :
    start ≤ nextZero s.openFds s.maxFdset start ∧
      (∀ j, start ≤ j → j < nextZero s.openFds s.maxFdset start → testBit s.openFds j = true) ∧
      (nextZero s.openFds s.maxFdset start < s.maxFdset →
        testBit s.openFds (nextZero s.openFds s.maxFdset start) = false) := by
  obtain ⟨hle, _, hset, hclear⟩ :=
    Lib.Bitmap.nextZero_spec (by decide) h.size hstart
  exact ⟨hle, hset, hclear⟩

theorem Table.take (hleast : IsLeast {i | start ≤ i ∧ testBit s.openFds i = false} fd)
    (hlimit : fd < limit) (hfds : fd < s.maxFds) (hset : fd < s.maxFdset) :
    Table o (s.take start limit fd) := by
  have hnot : fd ∉ s.held := by
    rw [h.held, hleast.1.2]
    exact Bool.false_ne_true
  refine ⟨h.fds, h.fdset, h.fdsSize, h.size, fun i hi => ?_, fun i f hi => ?_, fun i hi => ?_,
    fun i => ?_, ?_, ?_⟩
  · change testBit (setBit s.openFds fd) i = true at hi
    rw [testBit_set, Bool.or_eq_true, decide_eq_true_iff] at hi
    rcases hi with rfl | hi
    · exact ⟨hset, hfds⟩
    · exact h.bits i hi
  · exact testBit_set_of_true (h.slots i f hi)
  · exact testBit_set_of_true (h.next i hi)
  · change i ∈ s.held ++ [fd] ↔ testBit (setBit s.openFds fd) i = true
    rw [testBit_set, List.mem_append, List.mem_singleton, h.held, Bool.or_eq_true, decide_eq_true_iff,
      or_comm]
  · exact h.nodup.append (List.nodup_singleton fd) (List.disjoint_singleton.mpr hnot)
  · exact List.forall_mem_append.mpr
      ⟨h.handouts, List.forall_mem_singleton.mpr ⟨hleast, hlimit, hfds, hset, hnot⟩⟩

/-- `next_fd` moves, over descriptors that are in use. -/
theorem Table.setNext (hnext : ∀ i < fd, testBit s.openFds i = true) :
    Table o { s with nextFd := fd } :=
  { h with next := hnext }

theorem Table.fill (file : File) (hbit : testBit s.openFds fd = true) :
    Table o { s with fd := update s.fd fd (some file) } where
  __ := h
  slots i f hi := by
    rcases eq_of_update hi with ⟨rfl, -⟩ | ⟨-, hi⟩
    · exact hbit
    · exact h.slots i f hi

theorem Table.empty (fd : Nat) : Table o { s with fd := update s.fd fd none } where
  __ := h
  slots i f hi := by
    rcases eq_of_update hi with ⟨-, hi⟩ | ⟨-, hi⟩
    · cases hi
    · exact h.slots i f hi

theorem Table.mark (hbit : testBit s.openFds fd = true) : Table o (s.mark fd) := by
  have hsame : ∀ i, testBit (s.mark fd).openFds i = testBit s.openFds i := by
    intro i
    change testBit (setBit s.openFds fd) i = _
    rw [testBit_set]
    by_cases hi : i = fd
    · rw [hi, hbit, Bool.or_true]
    · rw [decide_eq_false hi, Bool.false_or]
  refine { h with bits := fun i hi => ?_, slots := fun i f hi => ?_, next := fun i hi => ?_, held := fun i => ?_ }
  · exact h.bits i (hsame i ▸ hi)
  · exact hsame i ▸ h.slots i f hi
  · exact (hsame i).trans (h.next i hi)
  · exact hsame i ▸ h.held i

theorem Table.release (hslot : s.fd fd = none) : Table o (s.release fd) where
  fds := h.fds
  fdset := h.fdset
  fdsSize := h.fdsSize
  size := h.size
  bits i hi := by
    change testBit (clearBit s.openFds fd) i = true at hi
    rw [testBit_clear, Bool.and_eq_true] at hi
    exact h.bits i hi.2
  slots i f hi := by
    refine (testBit_clear_of_ne ?_).trans (h.slots i f hi)
    rintro rfl
    change s.fd i = some f at hi
    rw [hslot] at hi
    cases hi
  next i hi := by
    change i < (if fd < s.nextFd then fd else s.nextFd) at hi
    have hlt : i < s.nextFd ∧ i ≠ fd := by
      split at hi <;> constructor <;> omega
    exact (testBit_clear_of_ne hlt.2).trans (h.next i hlt.1)
  held i := by
    change i ∈ s.held.erase fd ↔ testBit (clearBit s.openFds fd) i = true
    rw [testBit_clear, h.nodup.mem_erase_iff, h.held, Bool.and_eq_true, Bool.not_eq_true',
      decide_eq_false_iff_not]
  nodup := h.nodup.erase fd
  handouts := h.handouts

/-- The copy has the bits of the set, which has none outside. -/
theorem Table.testBit_copySet (i : Nat) :
    testBit (copySet (s.maxFdset / 32) s.openFds) i = testBit s.openFds i := by
  obtain ⟨k, hk⟩ := h.size
  unfold testBit copySet
  split
  · rfl
  case isFalse hge =>
    cases hbit : testBit s.openFds i with
    | false =>
      rw [testBit] at hbit
      rw [hbit]
      exact BitVec.getLsbD_zero
    | true =>
      have := (h.bits i hbit).1
      omega

theorem Table.installSet (hdvd : 32 ∣ nfds) : Table o (s.installSet nfds) := by
  unfold State.installSet
  split
  case isTrue hlt =>
    have hsame := h.testBit_copySet
    refine ⟨h.fds, h.fdset.trans hlt.le, h.fdsSize, hdvd, fun i hi => ?_, fun i f hi => ?_,
      fun i hi => ?_, fun i => ?_, h.nodup, h.handouts⟩
    · exact (h.bits i (hsame i ▸ hi)).imp_left fun hlt' => hlt'.trans hlt
    · exact (hsame i).trans (h.slots i f hi)
    · exact (hsame i).trans (h.next i hi)
    · rw [hsame i]
      exact h.held i
  · exact h

theorem Table.installArray (hdvd : 32 ∣ nfds) : Table o (s.installArray nfds) := by
  unfold State.installArray
  split
  case isTrue hlt =>
    refine ⟨h.fds.trans hlt.le, h.fdset, hdvd, h.size, fun i hi => ?_, fun i f hi => ?_, h.next, h.held,
      h.nodup, h.handouts⟩
    · exact (h.bits i hi).imp_right fun hlt' => hlt'.trans hlt
    · dsimp only at hi
      split at hi
      · exact h.slots i f hi
      · cases hi
  · exact h

end

end

/-! ## The threads -/

/-- What `dup2` has asked for is what the table is expanded for. -/
def Call.Wants (nr : Nat) : Call → Prop
  | .dup2 _ newfd limit => nr = newfd ∧ newfd < limit
  | _ => True

def PhaseOk (maxFds maxFdset : Nat) : Phase → Prop
  | .growSet c nr nfds => nr < nfds ∧ 32 ∣ nfds ∧ c.Wants nr
  | .grownSet c nr => nr < maxFdset ∧ c.Wants nr
  | .growArray c nr nfds => nr < nfds ∧ 32 ∣ nfds ∧ nr < maxFdset ∧ c.Wants nr
  | .grownArray c nr => nr < maxFds ∧ nr < maxFdset ∧ c.Wants nr
  | _ => True

/-- Taken, but not installed. -/
def Pending (s : State n) (fd : Nat) : Prop :=
  fd ∈ s.reserved ∨ ∃ t file, s.phase t = .installing fd file

structure Inv (o s : State n) : Prop extends Table o s where
  pending : ∀ fd, Pending s fd → testBit s.openFds fd = true ∧ s.fd fd = none
  reserved : s.reserved.Nodup
  apart : ∀ t fd file, s.phase t = .installing fd file → fd ∉ s.reserved
  alone : ∀ t u fd file file', s.phase t = .installing fd file → s.phase u = .installing fd file' →
    t = u
  phases : ∀ t, PhaseOk s.maxFds s.maxFdset (s.phase t)
  bug : s.bug = false

def Phase.installs : Phase → Bool
  | .installing _ _ => true
  | _ => false

section
variable {o s s' : State n} {t : Fin n} {p : Phase} {start limit fd nr nfds origStart newfd : Nat}
  {file : File} {c : Call}

theorem PhaseOk.mono {maxFds maxFdset maxFds' maxFdset' : Nat} (h : PhaseOk maxFds maxFdset p)
    (hfds : maxFds ≤ maxFds') (hset : maxFdset ≤ maxFdset') : PhaseOk maxFds' maxFdset' p := by
  cases p with
  | idle | enter | installing => trivial
  | growSet => exact h
  | grownSet => exact ⟨h.1.trans_le hset, h.2⟩
  | growArray => exact ⟨h.1, h.2.1, h.2.2.1.trans_le hset, h.2.2.2⟩
  | grownArray => exact ⟨h.1.trans_le hfds, h.2.1.trans_le hset, h.2.2⟩

/-- An update of the phases that adds no thread at `fd_install`. -/
theorem installing_of_update {u : Fin n} (hp : p.installs = false)
    (hu : update s.phase t p u = .installing fd file) : s.phase u = .installing fd file := by
  rcases eq_of_update hu with ⟨-, rfl⟩ | ⟨-, hu⟩
  · cases hp
  · exact hu

theorem Inv.phases_update (h : Inv o s) (hp : PhaseOk s.maxFds s.maxFdset p) :
    ∀ u, PhaseOk s.maxFds s.maxFdset (update s.phase t p u) :=
  (forall_update_iff _ fun _ => PhaseOk _ _).mpr ⟨hp, fun u _ => h.phases u⟩

theorem Inv.set (h : Inv o s) (hp : p.installs = false) (hok : PhaseOk s.maxFds s.maxFdset p) :
    Inv o (s.set t p) where
  toTable := { h.toTable with }
  pending fd hfd := by
    refine h.pending fd (hfd.imp id ?_)
    rintro ⟨u, file, hu⟩
    exact ⟨u, file, installing_of_update hp hu⟩
  reserved := h.reserved
  apart u fd file hu := h.apart u fd file (installing_of_update hp hu)
  alone u v fd file file' hu hv :=
    h.alone u v fd file file' (installing_of_update hp hu) (installing_of_update hp hv)
  phases := h.phases_update hok
  bug := h.bug

/-- The table changes in a way that leaves the descriptors alone that are taken but not
installed. -/
theorem Inv.retable (h : Inv o s) (htable : Table o s') (hfds : s.maxFds ≤ s'.maxFds)
    (hset : s.maxFdset ≤ s'.maxFdset) (hphase : s'.phase = s.phase)
    (hreserved : s'.reserved = s.reserved) (hbug : s'.bug = s.bug)
    (hkeep : ∀ fd, Pending s fd → testBit s'.openFds fd = testBit s.openFds fd ∧ s'.fd fd = s.fd fd) :
    Inv o s' := by
  have hpending : ∀ fd, Pending s' fd → Pending s fd := by
    intro fd hfd
    unfold Pending at hfd
    rwa [hphase, hreserved] at hfd
  refine ⟨htable, fun fd hfd => ?_, hreserved ▸ h.reserved, ?_, ?_, fun u => ?_, hbug.trans h.bug⟩
  · obtain ⟨hbit, hslot⟩ := h.pending fd (hpending fd hfd)
    obtain ⟨hsame, hsame'⟩ := hkeep fd (hpending fd hfd)
    exact ⟨hsame.trans hbit, hsame'.trans hslot⟩
  · rw [hphase, hreserved]
    exact h.apart
  · rw [hphase]
    exact h.alone
  · rw [hphase]
    exact (h.phases u).mono hfds hset

theorem Inv.installSet (h : Inv o s) (hdvd : 32 ∣ nfds) : Inv o (s.installSet nfds) := by
  have htable := h.toTable.installSet hdvd
  unfold State.installSet at htable ⊢
  split at htable
  case isTrue hlt =>
    rw [if_pos hlt]
    exact h.retable htable le_rfl hlt.le rfl rfl rfl fun fd _ => ⟨h.toTable.testBit_copySet fd, rfl⟩
  case isFalse hge =>
    rw [if_neg hge]
    exact h

theorem Inv.installArray (h : Inv o s) (hdvd : 32 ∣ nfds) : Inv o (s.installArray nfds) := by
  have htable := h.toTable.installArray hdvd
  unfold State.installArray at htable ⊢
  split at htable
  case isTrue hlt =>
    rw [if_pos hlt]
    exact h.retable htable hlt.le le_rfl rfl rfl rfl fun fd hfd =>
      ⟨rfl, if_pos (h.bits fd (h.pending fd hfd).1).2⟩
  case isFalse hge =>
    rw [if_neg hge]
    exact h

theorem not_pending_of_clear (h : Inv o s) (hbit : testBit s.openFds fd = false) : ¬ Pending s fd := by
  intro hfd
  rw [(h.pending fd hfd).1] at hbit
  cases hbit

theorem not_pending_of_some (h : Inv o s) (hslot : s.fd fd = some file) : ¬ Pending s fd := by
  intro hfd
  rw [(h.pending fd hfd).2] at hslot
  cases hslot

theorem Pending.ne {i : Nat} (hi : Pending s i) (hfd : ¬ Pending s fd) : i ≠ fd :=
  fun heq => hfd (heq ▸ hi)

/-! ## Taking -/

theorem beginSet_inv (h : Inv o s) (hwants : c.Wants nr) : Inv o (s.beginSet t c nr) := by
  unfold State.beginSet
  split
  · exact h.set rfl trivial
  case isFalse hroom =>
    rw [not_or, Nat.not_le, Nat.not_le] at hroom
    refine h.set rfl ⟨?_, grow_dvd (fun _ => setStep_dvd) h.size, hwants⟩
    exact grow_gt (fun _ => setStep_gt) hroom.2 (by omega) (Nat.succ_pos nr) hroom.1

theorem beginArray_inv (h : Inv o s) (hset : nr < s.maxFdset) (hwants : c.Wants nr) :
    Inv o (s.beginArray t c nr) := by
  unfold State.beginArray
  split
  · exact h.set rfl trivial
  case isFalse hroom =>
    rw [not_or, Nat.not_le, Nat.not_le] at hroom
    refine h.set rfl ⟨?_, grow_dvd (fun _ => arrayStep_dvd) h.fdsSize, hset, hwants⟩
    exact grow_gt (fun _ => arrayStep_gt) hroom.2 (by omega) (Nat.succ_pos nr) hroom.1

/-- A free descriptor is taken. Those that are taken already have their bits set. -/
theorem Inv.take (h : Inv o s) (hleast : IsLeast {i | start ≤ i ∧ testBit s.openFds i = false} fd)
    (hlimit : fd < limit) (hfds : fd < s.maxFds) (hset : fd < s.maxFdset) :
    Inv o (s.take start limit fd) :=
  h.retable (h.toTable.take hleast hlimit hfds hset) le_rfl le_rfl rfl rfl rfl fun i hi =>
    ⟨(testBit_set_of_true (h.pending i hi).1).trans (h.pending i hi).1.symm, rfl⟩

theorem Inv.setNext (h : Inv o s) (hnext : ∀ i < fd, testBit s.openFds i = true) :
    Inv o { s with nextFd := fd } :=
  h.retable (h.toTable.setNext hnext) le_rfl le_rfl rfl rfl rfl fun _ _ => ⟨rfl, rfl⟩

theorem Inv.reserve (h : Inv o s) (hbit : testBit s.openFds fd = true) (hslot : s.fd fd = none)
    (hnot : ¬ Pending s fd) : Inv o { s with reserved := s.reserved ++ [fd] } where
  toTable := { h.toTable with }
  pending i hi := by
    rcases hi with hi | hi
    · rcases List.mem_append.mp hi with hi | hi
      · exact h.pending i (.inl hi)
      · rw [List.mem_singleton.mp hi]
        exact ⟨hbit, hslot⟩
    · exact h.pending i (.inr hi)
  reserved := h.reserved.append (List.nodup_singleton fd)
    (List.disjoint_singleton.mpr fun hmem => hnot (.inl hmem))
  apart u i file hu := by
    rw [List.mem_append, List.mem_singleton, not_or]
    refine ⟨h.apart u i file hu, ?_⟩
    rintro rfl
    exact hnot (.inr ⟨u, file, hu⟩)
  alone := h.alone
  phases := h.phases
  bug := h.bug

theorem Inv.setInstalling (h : Inv o s) (hbit : testBit s.openFds fd = true) (hslot : s.fd fd = none)
    (hnot : ¬ Pending s fd) : Inv o (s.set t (.installing fd file)) := by
  have hcases : ∀ u i file', update s.phase t (.installing fd file) u = .installing i file' →
      u = t ∧ i = fd ∨ u ≠ t ∧ s.phase u = .installing i file' := by
    intro u i file' hu
    refine (eq_of_update hu).imp_left fun hself => ⟨hself.1, ?_⟩
    cases hself.2
    rfl
  refine ⟨{ h.toTable with }, ?_, h.reserved, ?_, ?_, h.phases_update trivial, h.bug⟩
  · rintro i (hi | ⟨u, file', hu⟩)
    · exact h.pending i (.inl hi)
    · rcases hcases u i file' hu with ⟨_, rfl⟩ | ⟨_, hu⟩
      · exact ⟨hbit, hslot⟩
      · exact h.pending i (.inr ⟨u, file', hu⟩)
  · intro u i file' hu
    rcases hcases u i file' hu with ⟨_, rfl⟩ | ⟨_, hu⟩
    · exact fun hmem => hnot (.inl hmem)
    · exact h.apart u i file' hu
  · intro u v i file' file'' hu hv
    rcases hcases u i file' hu with ⟨rfl, rfl⟩ | ⟨_, hu'⟩ <;>
      rcases hcases v i file'' hv with ⟨rfl, hi⟩ | ⟨_, hv'⟩
    · rfl
    · exact absurd (.inr ⟨v, file'', hv'⟩) hnot
    · exact absurd (.inr ⟨u, file', hi ▸ hu'⟩) hnot
    · exact h.alone u v i file' file'' hu' hv'

/-- What a search from `start` on finds, if everything from `origStart` up to there is in use. -/
theorem least_of_search (hle : origStart ≤ fd)
    (hbelow : ∀ i, origStart ≤ i → i < fd → testBit s.openFds i = true)
    (hclear : testBit s.openFds fd = false) :
    IsLeast {i | origStart ≤ i ∧ testBit s.openFds i = false} fd := by
  refine ⟨⟨hle, hclear⟩, fun i hi => ?_⟩
  by_contra hlt
  have := hbelow i hi.1 (Nat.lt_of_not_le hlt)
  rw [hi.2] at this
  cases this

theorem slot_of_clear (h : Inv o s) (hclear : testBit s.openFds fd = false) : s.fd fd = none := by
  cases hslot : s.fd fd with
  | none => rfl
  | some file =>
    rw [h.slots fd file hslot] at hclear
    cases hclear

theorem testBit_mark (s : State n) (fd : Nat) : testBit (s.mark fd).openFds fd = true := by
  change testBit (setBit s.openFds fd) fd = true
  rw [testBit_set, decide_eq_true rfl, Bool.true_or]

/-- Everything below a descriptor is in use, and so is the descriptor. -/
theorem mark_next (hbelow : ∀ i < fd, testBit s.openFds i = true) :
    ∀ i < fd + 1, testBit (s.mark fd).openFds i = true := by
  intro i hi
  change testBit (setBit s.openFds fd) i = true
  rw [testBit_set, Bool.or_eq_true, decide_eq_true_iff]
  rcases Nat.lt_or_eq_of_le (Nat.le_of_lt_succ hi) with hlt | rfl
  · exact .inr (hbelow i hlt)
  · exact .inl rfl

theorem getUnusedFd_inv (h : Inv o s) : Inv o (s.getUnusedFd t limit) := by
  obtain ⟨hle, hset, hclear⟩ := h.toTable.nextZero_spec h.toTable.next_le
  unfold State.getUnusedFd
  dsimp only
  generalize nextZero s.openFds s.maxFdset s.nextFd = fd at *
  split
  · exact h.set rfl trivial
  · split
    · exact beginSet_inv h trivial
    · split
      · exact beginArray_inv h (by omega) trivial
      case isFalse hlimit hfdset hfds =>
        have hbit := hclear (by omega)
        have hbelow : ∀ i < fd, testBit s.openFds i = true := by
          intro i hi
          by_cases hnext : i < s.nextFd
          · exact h.next i hnext
          · exact hset i (by omega) hi
        have hleast := least_of_search (Nat.zero_le fd) (fun i _ => hbelow i) hbit
        have htake : Inv o (s.take 0 limit fd) := h.take hleast (by omega) (by omega) (by omega)
        have hslot := slot_of_clear h hbit
        have hnot := not_pending_of_clear h hbit
        rw [update_eq_self_iff.mpr hslot.symm]
        exact ((htake.setNext (mark_next hbelow)).reserve (testBit_mark s fd) hslot
          hnot).set rfl trivial

theorem locateFd_inv (h : Inv o s) : Inv o (s.locateFd t file origStart limit) := by
  unfold State.locateFd
  dsimp only
  generalize hstart : (if origStart < s.nextFd then s.nextFd else origStart) = start
  have horig : origStart ≤ start ∧ s.nextFd ≤ start ∧ (start ≤ s.nextFd → start = s.nextFd) := by
    split at hstart <;> omega
  generalize hnewfd : (if start < s.maxFdset then nextZero s.openFds s.maxFdset start else start) = newfd
  split
  · exact h.set rfl trivial
  · split
    · exact beginSet_inv h trivial
    · split
      · exact beginArray_inv h (by omega) trivial
      case isFalse hlimit hfdset hfds =>
        have hstartset : start < s.maxFdset := by
          by_contra hge
          rw [if_neg hge] at hnewfd
          omega
        obtain ⟨hle, hset, hclear⟩ := h.toTable.nextZero_spec (Nat.le_of_lt hstartset)
        rw [if_pos hstartset] at hnewfd
        rw [hnewfd] at hle hset hclear
        have hbit := hclear (by omega)
        have hbelow : ∀ i, i < s.nextFd ∨ start ≤ i → i < newfd → testBit s.openFds i = true := by
          intro i hi hlt
          rcases hi with hi | hi
          · exact h.next i hi
          · exact hset i hi hlt
        have hgap : ∀ i, origStart ≤ i → i < s.nextFd ∨ start ≤ i := by
          intro i hi
          split at hstart <;> omega
        have hleast := least_of_search (by omega) (fun i hi => hbelow i (hgap i hi)) hbit
        have htake : Inv o (s.take origStart limit newfd) :=
          h.take hleast (by omega) (by omega) (by omega)
        have hslot := slot_of_clear h hbit
        have hnot := not_pending_of_clear h hbit
        refine Inv.setInstalling
          (htake.setNext ?_) (testBit_mark s newfd) hslot hnot
        -- if the search began at `next_fd`, nothing is free below what it found
        split
        case isTrue hnext =>
          refine mark_next fun i hi => hbelow i ?_ hi
          omega
        · exact htake.next

theorem dup2Tail_inv (h : Inv o s) (hlimit : newfd < limit) (hfds : newfd < s.maxFds)
    (hset : newfd < s.maxFdset) : Inv o (s.dup2Tail t file newfd limit) := by
  unfold State.dup2Tail
  split
  · split
    · exact h.set rfl trivial
    case isFalse hbit =>
      have hclear := Bool.eq_false_iff.mpr hbit
      have hleast := least_of_search (le_refl newfd) (fun i hi hlt => absurd hlt (Nat.not_lt.mpr hi)) hclear
      have htake : Inv o (s.take newfd limit newfd) := h.take hleast hlimit hfds hset
      have hfill := htake.toTable.fill file (testBit_mark s newfd)
      have hnot := not_pending_of_clear h hclear
      exact Inv.set (htake.retable hfill le_rfl le_rfl rfl rfl rfl fun i hi =>
        ⟨rfl, update_of_ne (Pending.ne hi hnot) _ _⟩) rfl trivial
  case h_2 old hslot =>
    have hmark := h.toTable.mark (h.slots newfd old hslot)
    have hfill := hmark.fill file (testBit_mark s newfd)
    have hnot := not_pending_of_some h hslot
    refine Inv.set (h.retable hfill le_rfl le_rfl rfl rfl rfl fun i hi =>
      ⟨?_, update_of_ne (hi.ne hnot) _ _⟩) rfl trivial
    exact (testBit_set_of_true (h.pending i hi).1).trans (h.pending i hi).1.symm

theorem resume_inv (h : Inv o s) (hwants : c.Wants nr) (hfds : nr < s.maxFds) (hset : nr < s.maxFdset) :
    Inv o (s.resume t c) := by
  cases c with
  | getUnusedFd limit => exact getUnusedFd_inv h
  | locateFd file origStart limit => exact locateFd_inv h
  | dup2 file newfd limit =>
    obtain ⟨rfl, hlimit⟩ := hwants
    exact dup2Tail_inv h hlimit hfds hset

theorem expandArray_inv (h : Inv o s) (hwants : c.Wants nr) (hset : nr < s.maxFdset) :
    Inv o (s.expandArray t c nr) := by
  unfold State.expandArray
  split
  · exact beginArray_inv h hset hwants
  case isFalse hfds => exact resume_inv h hwants (Nat.lt_of_not_le hfds) hset

theorem sysDup2_inv {oldfd : Nat} (h : Inv o s) : Inv o (s.sysDup2 t oldfd newfd limit) := by
  unfold State.sysDup2
  split
  · exact h.set rfl trivial
  · split
    · exact h.set rfl trivial
    · split
      · exact h.set rfl trivial
      case isFalse hlimit =>
        have hwants : ∀ file, (Call.dup2 file newfd limit).Wants newfd :=
          fun _ => ⟨rfl, Nat.lt_of_not_le hlimit⟩
        split
        · exact beginSet_inv h (hwants _)
        case isFalse hset => exact expandArray_inv h (hwants _) (Nat.lt_of_not_le hset)

/-! ## Giving back and installing -/

theorem sysClose_inv (h : Inv o s) : Inv o (s.sysClose fd) := by
  unfold State.sysClose State.fcheck
  split
  · exact h
  case h_2 file hslot =>
    split at hslot
    · have hnot := not_pending_of_some h hslot
      have hempty := h.toTable.empty fd
      have hexec : Table o { s with
          fd := update s.fd fd none
          closeOnExec := clearBit s.closeOnExec fd } := { hempty with }
      exact h.retable (hexec.release (update_self ..)) le_rfl le_rfl rfl rfl rfl fun i hi =>
        ⟨testBit_clear_of_ne (hi.ne hnot), update_of_ne (hi.ne hnot) _ _⟩
    · cases hslot

theorem Inv.unreserve (h : Inv o s) (hfd : fd ∈ s.reserved) :
    Inv o { s with reserved := s.reserved.erase fd } ∧
      ¬ Pending { s with reserved := s.reserved.erase fd } fd := by
  refine ⟨⟨{ h.toTable with }, ?_, h.reserved.erase fd, ?_, h.alone, h.phases, h.bug⟩, ?_⟩
  · intro i hi
    exact h.pending i (hi.imp List.mem_of_mem_erase id)
  · intro u i file hu hmem
    exact h.apart u i file hu (List.mem_of_mem_erase hmem)
  · rintro (hmem | ⟨u, file, hu⟩)
    · exact h.reserved.not_mem_erase hmem
    · exact h.apart u fd file hu hfd

theorem fdInstall_inv (h : Inv o s) (hnot : ¬ Pending s fd) (hbit : testBit s.openFds fd = true)
    (hslot : s.fd fd = none) (file : File) : Inv o (s.fdInstall fd file) := by
  unfold State.fdInstall
  rw [hslot]
  exact h.retable (h.toTable.fill file hbit) le_rfl le_rfl rfl rfl rfl fun i hi =>
    ⟨rfl, update_of_ne (hi.ne hnot) _ _⟩

theorem release_inv (h : Inv o s) (hnot : ¬ Pending s fd) (hslot : s.fd fd = none) :
    Inv o (s.release fd) :=
  h.retable (h.toTable.release hslot) le_rfl le_rfl rfl rfl rfl fun _ hi =>
    ⟨testBit_clear_of_ne (hi.ne hnot), rfl⟩

/-! ## Steps and runs -/

theorem installSet_gt (s : State n) (h : nr < nfds) : nr < (s.installSet nfds).maxFdset := by
  unfold State.installSet
  split
  · exact h
  case isFalse hge => exact h.trans_le (Nat.le_of_not_lt hge)

theorem installArray_gt (s : State n) (h : nr < nfds) :
    nr < (s.installArray nfds).maxFds ∧ (s.installArray nfds).maxFdset = s.maxFdset := by
  unfold State.installArray
  split
  · exact ⟨h, rfl⟩
  case isFalse hge => exact ⟨h.trans_le (Nat.le_of_not_lt hge), rfl⟩

theorem allocated_inv {ok : Bool} (h : Inv o s) (hstep : exec s (.allocated t ok) = some s') : Inv o s' := by
  have hok := h.phases t
  simp only [exec] at hstep
  split at hstep
  case h_1 c nr nfds ht =>
    rw [ht] at hok
    obtain ⟨hgt, hdvd, hwants⟩ := hok
    split at hstep <;> cases hstep
    · exact (h.installSet hdvd).set rfl ⟨installSet_gt s hgt, hwants⟩
    · exact h.set rfl trivial
  case h_2 c nr nfds ht =>
    rw [ht] at hok
    obtain ⟨hgt, hdvd, hset, hwants⟩ := hok
    obtain ⟨hfds, hsame⟩ := installArray_gt s hgt
    split at hstep <;> cases hstep
    · exact (h.installArray hdvd).set rfl ⟨hfds, hsame ▸ hset, hwants⟩
    · exact h.set rfl trivial
  · cases hstep

theorem relock_inv (h : Inv o s) (hstep : exec s (.relock t) = some s') : Inv o s' := by
  have hok := h.phases t
  simp only [exec] at hstep
  split at hstep <;> cases hstep
  · exact getUnusedFd_inv h
  case h_2 c nr _ ht =>
    rw [ht] at hok
    exact expandArray_inv h hok.2 hok.1
  case h_3 ht =>
    rw [ht] at hok
    exact resume_inv h hok.2.2 hok.1 hok.2.1

theorem step_inv {e : Event n} (h : Inv o s) (hstep : Step s e s') : Inv o s' := by
  cases e with simp only [Step, exec] at hstep
  | getUnusedFd t limit =>
    split at hstep
    · split at hstep <;> cases hstep
      exact getUnusedFd_inv h
    · cases hstep
  | fdInstall fd file =>
    split at hstep <;> cases hstep
    next hmem =>
      obtain ⟨hbit, hslot⟩ := h.pending fd (.inl hmem)
      obtain ⟨hinv, hnot⟩ := h.unreserve hmem
      exact fdInstall_inv hinv hnot hbit hslot file
  | putUnusedFd fd =>
    split at hstep <;> cases hstep
    next hmem =>
      obtain ⟨hinv, hnot⟩ := h.unreserve hmem
      exact release_inv hinv hnot (h.pending fd (.inl hmem)).2
  | dup t oldfd start limit =>
    split at hstep
    · split at hstep
      · split at hstep
        · cases hstep
          exact h.set rfl trivial
        · split at hstep <;> cases hstep <;> exact h.set rfl trivial
      · cases hstep
    · cases hstep
  | locateFd t =>
    split at hstep
    · split at hstep <;> cases hstep
      · exact h.set rfl trivial
      · exact locateFd_inv h
    · cases hstep
  | install t =>
    split at hstep <;> cases hstep
    case h_1 fd file ht =>
      obtain ⟨hbit, hslot⟩ := h.pending fd (.inr ⟨t, file, ht⟩)
      have hidle : Inv o (s.set t (.idle fd)) := h.set rfl trivial
      refine fdInstall_inv hidle ?_ hbit hslot file
      rintro (hmem | ⟨u, file', hu⟩)
      · exact h.apart t fd file ht hmem
      · -- the only thread that was at `fd_install` for it is this one
        have hsame := h.alone u t fd file' file (installing_of_update rfl hu) ht
        rw [hsame] at hu
        change update s.phase t _ t = _ at hu
        rw [update_self] at hu
        cases hu
  | dup2 t oldfd newfd limit =>
    split at hstep
    · split at hstep <;> cases hstep
      exact sysDup2_inv h
    · cases hstep
  | close fd =>
    cases hstep
    exact sysClose_inv h
  | allocated t ok => exact allocated_inv h hstep
  | relock t => exact relock_inv h hstep

theorem inv_init : Inv (State.init : State n) State.init where
  fds := le_rfl
  fdset := le_rfl
  fdsSize := ⟨1, rfl⟩
  size := ⟨32, rfl⟩
  bits i hi := by
    simp [State.init, testBit] at hi
  slots _ _ hi := by cases hi
  next i hi := absurd hi (Nat.not_lt_zero i)
  held i := by simp [State.init, testBit]
  nodup := List.nodup_nil
  handouts _ hx := by cases hx
  pending i hi := by
    rcases hi with hi | ⟨_, _, hi⟩
    · cases hi
    · cases hi
  reserved := List.nodup_nil
  apart _ _ _ hu := by cases hu
  alone _ _ _ _ _ hu := by cases hu
  phases _ := trivial
  bug := rfl

end

end CustomKernel.Fs.Files

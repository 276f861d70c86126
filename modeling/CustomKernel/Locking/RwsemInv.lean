import Mathlib.Data.List.TakeWhile
import CustomKernel.Lib.Census
import CustomKernel.Locking.Rwsem

/-! # What `count` says about the tasks

`count` is the number of active units less 0x10000 times the number of tasks that wait or write,
where the waker has units of its own. With fewer than 32766 tasks both halves can be read off.
Exclusion holds in every run. That nobody sleeps while nobody holds the semaphore needs that no
waker takes back the last active unit without seeing it. -/
namespace CustomKernel.Locking.Rwsem
open Lib.Transition Lib.Census Function

/-! ## Words -/

/-- A count of `u` active units and `v` waiting ones. -/
def word (u v : Int) : BitVec 32 := BitVec.ofInt 32 (u - 0x10000 * v)

/-- Both parts can be read off. -/
structure Small (u v : Int) : Prop where
  units_nonneg : 0 ≤ u
  units_lt : u < 0x10000
  waits_nonneg : 0 ≤ v
  waits_lt : v < 0x8000

theorem word_add {u v u' v' d : Int} (h : u - 0x10000 * v + d = u' - 0x10000 * v') :
    word u v + BitVec.ofInt 32 d = word u' v' := by
  rw [word, word, ← BitVec.ofInt_add, h]

section
variable {u v : Int}

theorem toNat_word (u v : Int) : ((word u v).toNat : Int) = (u - 0x10000 * v) % 2 ^ 32 := by
  rw [word, BitVec.toNat_ofInt]
  omega

theorem toNat_active_word (h : Small u v) : ((active (word u v)).toNat : Int) = u := by
  have hmask : (active (word u v)).toNat = (word u v).toNat % 2 ^ 16 :=
    (BitVec.toNat_and ..).trans (Nat.and_two_pow_sub_one_eq_mod _ 16)
  have hword := toNat_word u v
  have := h.units_nonneg
  have := h.units_lt
  omega

theorem active_word_eq {i : Nat} (h : Small u v) (hi : i < 2 ^ 32) :
    active (word u v) = BitVec.ofNat 32 i ↔ u = i := by
  have hactive := toNat_active_word h
  rw [← BitVec.toNat_inj, BitVec.toNat_ofNat, Nat.mod_eq_of_lt hi]
  omega

theorem msb_word (h : Small u v) : (word u v).msb = true ↔ 0 < v := by
  have hword := toNat_word u v
  have := h.units_nonneg
  have := h.units_lt
  have := h.waits_nonneg
  have := h.waits_lt
  rw [BitVec.msb_eq_decide, decide_eq_true_eq]
  omega

theorem word_eq_zero (h : Small u v) : word u v = 0 ↔ u = 0 ∧ v = 0 := by
  have hword := toNat_word u v
  have := h.units_nonneg
  have := h.units_lt
  have := h.waits_nonneg
  have := h.waits_lt
  rw [← BitVec.toNat_inj]
  change (word u v).toNat = 0 ↔ _
  omega

theorem lastActive_word (h : Small u v) : lastActive (word u v) = true ↔ u = 1 := by
  have hword := toNat_word u v
  have := h.units_nonneg
  have := h.units_lt
  rw [lastActive, beq_iff_eq, ← BitVec.toNat_inj, BitVec.toNat_sub, BitVec.toNat_setWidth]
  change (2 ^ 16 - 1 + (word u v).toNat % 2 ^ 16) % 2 ^ 16 = 0 ↔ _
  omega

end

/-! ## The invariant -/

/-- The active units that a task has. -/
def Phase.unit : Phase → Int
  | .failed _ => 1
  | .holds _ => 1
  | _ => 0

def Phase.waits : Phase → Int
  | .failed .write => 1
  | .waiting _ => 1
  | .holds .write => 1
  | _ => 0

/-- The active units that the waker has, for itself or for those it wakes. -/
def Stage.units : Stage → Int
  | .undo => 1
  | .grantWriter => 1
  | .countReaders => 1
  | .grants k => k
  | _ => 0

/-- The tasks on the list that no longer count as waiting. -/
def Stage.granted : Stage → Int
  | .grants k => k
  | _ => 0

variable {n : Nat}

def State.stage (s : State n) (f : Stage → Int) : Int := (s.lock.map fun l => f l.2).getD 0

def State.units (s : State n) : Int := census Phase.unit s.phase + s.stage Stage.units

def State.waits (s : State n) : Int := census Phase.waits s.phase - s.stage Stage.granted

/-- Nobody holds the semaphore. -/
def State.Free (s : State n) : Prop := ∀ t k, s.phase t ≠ .holds k

def State.NoWriter (s : State n) : Prop := ∀ t, s.phase t ≠ .holds .write

/-- What the stages rely on. -/
def Stage.Fits (s : State n) (t : Fin n) : Stage → Prop
  | .joins k => s.phase t = .failed k
  | .tryAgain => s.waitList ≠ []
  | .undo => s.waitList ≠ []
  | .grantWriter => (∃ t' rest, s.waitList = (t', .write) :: rest) ∧ s.Free
  | .countReaders => (∃ t' rest, s.waitList = (t', .read) :: rest) ∧ s.Free
  | .grants k =>
    k ≤ s.waitList.length ∧ (∀ e ∈ s.waitList.take k, e.2 = .read) ∧ (0 < k → s.NoWriter)

structure Inv (s : State n) : Prop where
  count : s.count = word s.units s.waits
  nodup : (s.waitList.map Prod.fst).Nodup
  mem : ∀ t k, (t, k) ∈ s.waitList ↔ s.phase t = .waiting k
  stage : ∀ t stage, s.lock = some (t, stage) → stage.Fits s t
  excl : ∀ t t' k, s.phase t = .holds .write → s.phase t' = .holds k → t' = t

theorem inv_init : Inv (State.init : State n) where
  count := by simp [State.init, State.units, State.waits, State.stage, census, Phase.unit,
    Phase.waits, word]
  nodup := List.nodup_nil
  mem := fun t k => by simp [State.init]
  stage := fun _ _ h => by cases h
  excl := fun _ _ _ h => by cases h

theorem unit_nonneg (p : Phase) : 0 ≤ p.unit := by
  unfold Phase.unit
  split <;> decide

theorem unit_le (p : Phase) : p.unit ≤ 1 := by
  unfold Phase.unit
  split <;> decide

theorem waits_nonneg (p : Phase) : 0 ≤ p.waits := by
  unfold Phase.waits
  split <;> decide

theorem waits_le (p : Phase) : p.waits ≤ 1 := by
  unfold Phase.waits
  split <;> decide

section
variable {s : State n} {t : Fin n} {k : Kind}

theorem add_zero_eq (s : State n) : s.add 0 = s := by
  simp [State.add]

theorem stage_of_lock {stage : Stage} (f : Stage → Int) (h : s.lock = some (t, stage)) :
    s.stage f = f stage := by
  rw [State.stage, h]
  rfl

theorem stage_of_unlocked (f : Stage → Int) (h : s.lock = none) : s.stage f = 0 := by
  rw [State.stage, h]
  rfl

theorem units_of_lock {stage : Stage} (h : s.lock = some (t, stage)) :
    s.units = census Phase.unit s.phase + stage.units := by
  rw [State.units, stage_of_lock _ h]

theorem units_of_unlocked (h : s.lock = none) : s.units = census Phase.unit s.phase := by
  rw [State.units, stage_of_unlocked _ h, Int.add_zero]

theorem Inv.length_le (h : Inv s) : (s.waitList.length : Int) ≤ census Phase.waits s.phase := by
  have hlen := length_le_census waits_nonneg (p := s.phase) h.nodup (fun t ht => by
    obtain ⟨⟨t, k⟩, hmem, rfl⟩ := List.mem_map.mp ht
    rw [(h.mem t k).mp hmem]
    exact le_refl 1)
  rwa [List.length_map] at hlen

/-- The units of the waker and those it has granted. -/
theorem Inv.stage_bounds (h : Inv s) :
    0 ≤ s.stage Stage.units ∧ s.stage Stage.units ≤ max 1 s.waitList.length ∧
      0 ≤ s.stage Stage.granted ∧ s.stage Stage.granted ≤ s.waitList.length ∧
      s.stage Stage.granted ≤ s.stage Stage.units := by
  cases hlock : s.lock with
  | none =>
    rw [stage_of_unlocked _ hlock, stage_of_unlocked _ hlock]
    omega
  | some l =>
    obtain ⟨t, stage⟩ := l
    have hfits := h.stage t stage hlock
    rw [stage_of_lock _ hlock, stage_of_lock _ hlock]
    cases stage with
    | grants k =>
      have hk := hfits.1
      simp only [Stage.units, Stage.granted]
      omega
    | joins | tryAgain | undo | grantWriter | countReaders =>
      simp only [Stage.units, Stage.granted]
      omega

theorem Inv.small (h : Inv s) (hn : n < 32766) : Small s.units s.waits := by
  have hlen := h.length_le
  have hbounds := h.stage_bounds
  have hunits := census_le_card unit_le (p := s.phase)
  have hwaits := census_le_card waits_le (p := s.phase)
  have hpos := census_nonneg unit_nonneg (p := s.phase)
  rw [Fintype.card_fin] at hunits hwaits
  have hu : s.units = census Phase.unit s.phase + s.stage Stage.units := rfl
  have hv : s.waits = census Phase.waits s.phase - s.stage Stage.granted := rfl
  exact ⟨by omega, by omega, by omega, by omega⟩

theorem Inv.free (h : Inv s) (hunits : s.units = 0) : s.Free := by
  intro t k hphase
  have hle := le_census unit_nonneg (p := s.phase) t
  have hstage := h.stage_bounds.1
  have hu : s.units = census Phase.unit s.phase + s.stage Stage.units := rfl
  rw [hphase] at hle
  have hone : (Phase.holds k).unit = 1 := rfl
  omega

theorem Inv.noWriter (h : Inv s) (hwaits : s.waits = 0) : s.NoWriter := by
  intro t hphase
  have hle := le_census waits_nonneg (p := s.phase) t
  rw [hphase] at hle
  have hone : (Phase.holds .write).waits = 1 := rfl
  have hv : s.waits = census Phase.waits s.phase - s.stage Stage.granted := rfl
  cases hlock : s.lock with
  | none =>
    rw [stage_of_unlocked _ hlock] at hv
    omega
  | some l =>
    obtain ⟨t', stage⟩ := l
    have hfits := h.stage t' stage hlock
    rw [stage_of_lock _ hlock] at hv
    cases stage with
    | grants k =>
      rcases Nat.eq_zero_or_pos k with rfl | hk
      · have hzero : (Stage.grants 0).granted = 0 := rfl
        omega
      · exact hfits.2.2 hk t hphase
    | joins | tryAgain | undo | grantWriter | countReaders =>
      simp only [Stage.granted] at hv
      omega

/-- Some task on the list counts as waiting, unless the waker is granting. -/
theorem Inv.waits_pos (h : Inv s) (hne : s.waitList ≠ []) (hgranted : s.stage Stage.granted = 0) :
    0 < s.waits := by
  have hlen := h.length_le
  have hpos := List.length_pos_of_ne_nil hne
  have hv : s.waits = census Phase.waits s.phase - s.stage Stage.granted := rfl
  omega

/-! ## Fast paths -/

/-- A lock of this kind may be taken now. -/
structure Admits (s : State n) (k : Kind) : Prop where
  noWriter : s.NoWriter
  free : k = .write → s.Free
  stage : ∀ t stage, s.lock = some (t, stage) → stage ≠ .grantWriter ∧ stage ≠ .countReaders ∧
    (k = .write → ∀ m, stage = .grants m → m = 0)

theorem Inv.admits_read (h : Inv s) (hwaits : s.waits = 0) : Admits s .read where
  noWriter := h.noWriter hwaits
  free := fun h => by cases h
  stage := by
    intro t stage hlock
    have hfits := h.stage t stage hlock
    have hnil (hgranted : stage.granted = 0) : s.waitList = [] := by
      by_contra hne
      have := h.waits_pos hne ((stage_of_lock _ hlock).trans hgranted)
      omega
    refine ⟨?_, ?_, fun h => by cases h⟩
    all_goals
      rintro rfl
      obtain ⟨⟨t', rest, hlist⟩, -⟩ := hfits
      rw [hnil rfl] at hlist
      cases hlist

theorem Inv.admits_write (h : Inv s) (hunits : s.units = 0) : Admits s .write where
  noWriter := fun t => h.free hunits t .write
  free := fun _ => h.free hunits
  stage := by
    intro t stage hlock
    have hpos := census_nonneg unit_nonneg (p := s.phase)
    have hu := units_of_lock hlock
    refine ⟨?_, ?_, fun _ m => ?_⟩
    all_goals
      rintro rfl
      simp only [Stage.units] at hu
      omega

/-- A task that is not on the list changes its phase, and `count` with it. -/
theorem Inv.rephase (h : Inv s) {a b : Phase} {d : Int} (ha : s.phase t = a)
    (hwa : ∀ k, a ≠ .waiting k) (hwb : ∀ k, b ≠ .waiting k) (hown : s.owner ≠ some t)
    (hd : d = b.unit - a.unit - 0x10000 * (b.waits - a.waits))
    (hmay : ∀ k, b = .holds k → Admits s k) :
    Inv ((s.add d).set t b) := by
  have hself : update s.phase t b t = b := update_self _ _ _
  have hother : ∀ t', t' ≠ t → update s.phase t b t' = s.phase t' :=
    fun t' hne => update_of_ne hne _ _
  have hcases : ∀ t' p, update s.phase t b t' = p → t' = t ∧ b = p ∨ s.phase t' = p :=
    fun _ _ hp => (eq_of_update hp).imp_right And.right
  constructor
  case count =>
    change s.count + BitVec.ofInt 32 d = _
    rw [h.count]
    apply word_add
    simp only [State.units, State.waits, State.stage, State.set, State.add, census_update, ha]
    omega
  case nodup => exact h.nodup
  case mem =>
    intro t' k
    refine (h.mem t' k).trans ?_
    change _ ↔ update s.phase t b t' = _
    rcases eq_or_ne t' t with rfl | hne
    · exact iff_of_false (fun hp => hwa k (ha.symm.trans hp)) (fun hp => hwb k (hself.symm.trans hp))
    · rw [hother t' hne]
  case stage =>
    intro t' stage hlock
    change s.lock = some (t', stage) at hlock
    have hfits := h.stage t' stage hlock
    have hne : t' ≠ t := by
      rintro rfl
      exact hown (by rw [State.owner, hlock]; rfl)
    have hadm : ∀ k, b = .holds k → stage ≠ .grantWriter ∧ stage ≠ .countReaders ∧
        (k = .write → ∀ m, stage = .grants m → m = 0) :=
      fun k hb => (hmay k hb).stage t' stage hlock
    cases stage with
    | joins k => exact (hother t' hne).trans hfits
    | tryAgain | undo => exact hfits
    | grantWriter | countReaders =>
      refine ⟨hfits.1, fun t'' k hp => ?_⟩
      rcases hcases t'' _ hp with ⟨rfl, hb⟩ | hp
      · simpa using hadm k hb
      · exact hfits.2 t'' k hp
    | grants m =>
      refine ⟨hfits.1, hfits.2.1, fun hm t'' hp => ?_⟩
      rcases hcases t'' _ hp with ⟨rfl, hb⟩ | hp
      · exact absurd ((hadm .write hb).2.2 rfl m rfl) (by omega)
      · exact hfits.2.2 hm t'' hp
  case excl =>
    intro t1 t2 k h1 h2
    rcases hcases t1 _ h1 with ⟨rfl, hb1⟩ | hp1
    · rcases hcases t2 _ h2 with ⟨rfl, -⟩ | hp2
      · rfl
      · exact absurd hp2 ((hmay .write hb1).free rfl t2 k)
    · rcases hcases t2 _ h2 with ⟨rfl, hb2⟩ | hp2
      · exact absurd hp1 ((hmay k hb2).noWriter t1)
      · exact h.excl t1 t2 k hp1 hp2

theorem down_inv (h : Inv s) (hn : n < 32766) (ht : s.phase t = .outside)
    (hown : s.owner ≠ some t) (k : Kind) : Inv (s.down t k) := by
  have hsmall := h.small hn
  cases k with
  | read =>
    have hnew : Small (s.units + 1) s.waits := by
      have hle := census_le_card unit_le (p := s.phase)
      have hbounds := h.stage_bounds
      have hlen := h.length_le
      have hwaits := census_le_card waits_le (p := s.phase)
      have hu : s.units = census Phase.unit s.phase + s.stage Stage.units := rfl
      rw [Fintype.card_fin] at hle hwaits
      exact ⟨by have := hsmall.1; omega, by omega, hsmall.3, hsmall.4⟩
    have hcount : s.count + BitVec.ofInt 32 activeBias = word (s.units + 1) s.waits := by
      rw [h.count]
      exact word_add (by simp only [activeBias]; omega)
    refine h.rephase ht (by simp) ?_ hown ?_ ?_
    · intro k
      split <;> simp
    · split <;> decide
    · intro k hk
      split at hk
      · cases hk
      case isFalse hmsb =>
        cases hk
        change ¬ (s.count + BitVec.ofInt 32 activeBias).msb = true at hmsb
        rw [hcount, msb_word hnew] at hmsb
        exact h.admits_read (by have := hsmall.waits_nonneg; omega)
  | write =>
    refine h.rephase ht (by simp) ?_ hown ?_ ?_
    · intro k
      split <;> simp
    · split <;> simp [activeWriteBias, waitingBias, activeBias, Phase.unit, Phase.waits]
    · intro k hk
      split at hk
      case isTrue hzero =>
        cases hk
        rw [h.count, word_eq_zero hsmall] at hzero
        exact h.admits_write hzero.1
      · cases hk

theorem downTrylock_inv (h : Inv s) (hn : n < 32766) (ht : s.phase t = .outside)
    (hown : s.owner ≠ some t) (k : Kind) : Inv (s.downTrylock t k) := by
  have hsmall := h.small hn
  cases k with
  | read =>
    change Inv (if s.count.msb then s else (s.add activeBias).set t (.holds .read))
    split
    · exact h
    case isFalse hmsb =>
      rw [h.count, msb_word hsmall] at hmsb
      have hmay := h.admits_read (by have := hsmall.waits_nonneg; omega)
      exact h.rephase ht (by simp) (by simp) hown (by decide)
        fun k hk => by cases hk; exact hmay
  | write =>
    change Inv (if s.count = 0 then (s.add activeWriteBias).set t (.holds .write) else s)
    split
    case isTrue hzero =>
      rw [h.count, word_eq_zero hsmall] at hzero
      have hmay := h.admits_write hzero.1
      exact h.rephase ht (by simp) (by simp) hown
        (by simp [activeWriteBias, waitingBias, activeBias, Phase.unit, Phase.waits])
        fun k hk => by cases hk; exact hmay
    · exact h

theorem up_eq (s : State n) (t : Fin n) (k : Kind) : ∃ p, (p = .waking ∨ p = .outside) ∧
    s.up t k = (s.add (0x10000 * (Phase.holds k).waits - 1)).set t p := by
  cases k with
  | read | write =>
    refine ⟨_, ?_, rfl⟩
    split
    · exact .inl rfl
    · exact .inr rfl

theorem up_inv (h : Inv s) (ht : s.phase t = .holds k) (hown : s.owner ≠ some t) :
    Inv (s.up t k) := by
  obtain ⟨p, hp, heq⟩ := up_eq s t k
  have hzero : p.unit = 0 ∧ p.waits = 0 := by rcases hp with rfl | rfl <;> exact ⟨rfl, rfl⟩
  have hone : (Phase.holds k).unit = 1 := rfl
  rw [heq]
  refine h.rephase ht (by simp) ?_ hown (by omega) ?_
  · rintro k rfl
    simp at hp
  · rintro k rfl
    simp at hp

/-! ## Under the lock -/

/-- Another stage, with `count` as it then has to be. -/
theorem Inv.relock (h : Inv s) {l : Option (Fin n × Stage)} {d : Int}
    (hd : d = (l.map fun l => l.2.units).getD 0 - s.stage Stage.units -
      0x10000 * (s.stage Stage.granted - (l.map fun l => l.2.granted).getD 0))
    (hfits : ∀ t stage, l = some (t, stage) → stage.Fits s t) :
    Inv { s.add d with lock := l } := by
  refine { h with count := ?_, stage := hfits }
  change s.count + BitVec.ofInt 32 d = _
  rw [h.count]
  apply word_add
  simp only [State.units, State.waits, State.stage, State.add] at hd ⊢
  omega

/-- The front of the list gets the lock that the waker has counted for it. -/
theorem Inv.grant (h : Inv s) {t' : Fin n} {rest : List (Fin n × Kind)}
    {l : Option (Fin n × Stage)} (hlist : s.waitList = (t', k) :: rest)
    (hunits : (l.map fun l => l.2.units).getD 0 = s.stage Stage.units - 1)
    (hgranted : (l.map fun l => l.2.granted).getD 0 =
      s.stage Stage.granted + (Phase.holds k).waits - 1)
    (hnoWriter : s.NoWriter) (hfree : k = .write → s.Free)
    (hfits : ∀ t stage, l = some (t, stage) → stage.Fits
      { s with waitList := rest, phase := update s.phase t' (.holds k), lock := l } t) :
    Inv { s with waitList := rest, phase := update s.phase t' (.holds k), lock := l } := by
  have hwaiting : s.phase t' = .waiting k := (h.mem t' k).mp (by rw [hlist]; exact List.mem_cons_self)
  have hnodup := h.nodup
  rw [hlist, List.map_cons, List.nodup_cons] at hnodup
  constructor
  case count =>
    have hu : (Phase.waiting k).unit = 0 ∧ (Phase.holds k).unit = 1 ∧ (Phase.waiting k).waits = 1 :=
      ⟨rfl, rfl, rfl⟩
    refine h.count.trans (congrArg₂ word ?_ ?_)
    · simp only [State.units, State.stage, census_update, hwaiting] at hunits ⊢
      omega
    · simp only [State.waits, State.stage, census_update, hwaiting] at hgranted ⊢
      omega
  case nodup => exact hnodup.2
  case mem =>
    intro t'' k'
    dsimp only
    rcases eq_or_ne t'' t' with rfl | hne
    · refine iff_of_false (fun hmem => hnodup.1 (List.mem_map.mpr ⟨_, hmem, rfl⟩)) ?_
      simp
    · rw [update_of_ne hne, ← h.mem t'' k', hlist, List.mem_cons]
      refine ⟨.inr, fun hor => hor.resolve_left ?_⟩
      rintro heq
      cases heq
      exact hne rfl
  case stage => exact hfits
  case excl =>
    intro t1 t2 k' h1 h2
    rcases eq_of_update h1 with ⟨rfl, hself⟩ | ⟨-, h1⟩
    · rcases eq_of_update h2 with ⟨rfl, -⟩ | ⟨-, h2⟩
      · rfl
      · exact absurd h2 (hfree (Phase.holds.inj hself) t2 k')
    · exact absurd h1 (hnoWriter t1)

theorem join_inv (h : Inv s) (hlock : s.lock = some (t, .joins k)) :
    Inv (s.join t k) := by
  have hphase : s.phase t = .failed k := h.stage t _ hlock
  have habsent : ∀ k', (t, k') ∉ s.waitList := by
    intro k' hmem
    have := (h.mem t k').mp hmem
    rw [hphase] at this
    cases this
  have hinv : ∀ l : Option (Fin n × Stage), (l = none ∨ l = some (t, .tryAgain)) →
      Inv { s with
        count := s.count + BitVec.ofInt 32 (adjustment k)
        waitList := s.waitList ++ [(t, k)]
        phase := update s.phase t (.waiting k)
        lock := l } := by
    intro l hl
    have hstage : (l.map fun l => l.2.units).getD 0 = 0 ∧ (l.map fun l => l.2.granted).getD 0 = 0 := by
      rcases hl with rfl | rfl <;> exact ⟨rfl, rfl⟩
    constructor
    case count =>
      have hu : s.stage Stage.units = 0 := stage_of_lock _ hlock
      have hg : s.stage Stage.granted = 0 := stage_of_lock _ hlock
      rw [h.count]
      apply word_add
      simp only [State.units, State.waits, State.stage, census_update, hphase, hstage.1,
        hstage.2] at hu hg ⊢
      cases k with
      | read =>
        simp only [Phase.unit, Phase.waits, adjustment, waitingBias, activeBias]
        omega
      | write =>
        simp only [Phase.unit, Phase.waits, adjustment, activeBias]
        omega
    case nodup =>
      rw [List.map_append, List.map_singleton, List.nodup_append]
      refine ⟨h.nodup, List.nodup_singleton _, ?_⟩
      intro t1 h1 t2 h2
      rw [List.mem_singleton.mp h2]
      rintro rfl
      obtain ⟨⟨t', k'⟩, hmem, rfl⟩ := List.mem_map.mp h1
      exact habsent k' hmem
    case mem =>
      intro t' k'
      dsimp only
      rcases eq_or_ne t' t with rfl | hne
      · simp [habsent k', eq_comm]
      · rw [update_of_ne hne, ← h.mem t' k']
        simp [hne]
    case stage =>
      rintro t' stage rfl
      rcases hl with hl | hl
      · cases hl
      · cases hl
        exact List.append_ne_nil_of_right_ne_nil _ (by simp)
    case excl =>
      intro t1 t2 k' h1 h2
      have hold {t' k'} (hp : update s.phase t (.waiting k) t' = .holds k') :
          s.phase t' = .holds k' := by
        rcases eq_of_update hp with ⟨-, hp⟩ | ⟨-, hp⟩
        · cases hp
        · exact hp
      exact h.excl t1 t2 k' (hold h1) (hold h2)
  unfold State.join
  dsimp only
  split
  · exact hinv _ (.inr rfl)
  · exact hinv _ (.inl rfl)

theorem tryAgain_inv (h : Inv s) (hn : n < 32766) (hlock : s.lock = some (t, .tryAgain)) :
    Inv (s.tryAgain t) := by
  have hne : s.waitList ≠ [] := h.stage t _ hlock
  have hsmall := h.small hn
  have hu : s.stage Stage.units = 0 := stage_of_lock _ hlock
  have hg : s.stage Stage.granted = 0 := stage_of_lock _ hlock
  have hrelock : ∀ stage : Stage, stage.units = 1 → stage.granted = 0 → stage.Fits s t →
      Inv { s.add activeBias with lock := some (t, stage) } := by
    intro stage hunits hgranted hfits
    refine h.relock ?_ ?_
    · simp only [Option.map_some, Option.getD_some, hunits, hgranted, hu, hg, activeBias]
      omega
    · rintro t' stage' heq
      cases heq
      exact hfits
  unfold State.tryAgain
  split
  · exact hrelock .undo rfl rfl hne
  case isFalse hzero =>
    have hfree : s.Free := by
      rw [not_not, h.count] at hzero
      exact h.free (by simpa using (active_word_eq hsmall (by decide)).mp hzero)
    obtain ⟨⟨t', k⟩, rest, hlist⟩ := List.exists_cons_of_ne_nil hne
    rw [hlist]
    cases k with
    | read => exact hrelock .countReaders rfl rfl ⟨⟨t', rest, hlist⟩, hfree⟩
    | write => exact hrelock .grantWriter rfl rfl ⟨⟨t', rest, hlist⟩, hfree⟩

theorem undo_inv (h : Inv s) (hlock : s.lock = some (t, .undo)) : Inv (s.undo t) := by
  have hne : s.waitList ≠ [] := h.stage t _ hlock
  have hu : s.stage Stage.units = 1 := stage_of_lock _ hlock
  have hg : s.stage Stage.granted = 0 := stage_of_lock _ hlock
  unfold State.undo
  dsimp only
  split
  · refine h.relock ?_ (fun _ _ hl => by cases hl)
    simp only [Option.map_none, Option.getD_none, hu, hg, activeBias]
    omega
  · refine h.relock ?_ ?_
    · simp only [Option.map_some, Option.getD_some, Stage.units, Stage.granted, hu, hg, activeBias]
      omega
    · rintro t' stage hl
      cases hl
      exact hne

theorem grantWriter_inv (h : Inv s) (hlock : s.lock = some (t, .grantWriter)) :
    Inv s.grantWriter := by
  obtain ⟨⟨t', rest, hlist⟩, hfree⟩ : (∃ t' rest, s.waitList = (t', .write) :: rest) ∧ s.Free :=
    h.stage t _ hlock
  have hu : s.stage Stage.units = 1 := stage_of_lock _ hlock
  have hg : s.stage Stage.granted = 0 := stage_of_lock _ hlock
  unfold State.grantWriter
  rw [hlist]
  refine h.grant hlist ?_ ?_ (fun t => hfree t .write) (fun _ => hfree) (fun _ _ hl => by cases hl)
  · rw [hu]
    rfl
  · rw [hg]
    rfl

/-- All those who are counted are readers. -/
theorem woken_spec (t' : Fin n) (rest : List (Fin n × Kind)) :
    woken ((t', .read) :: rest) ≤ ((t', Kind.read) :: rest).length ∧
      ∀ e ∈ ((t', Kind.read) :: rest).take (woken ((t', .read) :: rest)), e.2 = .read := by
  have hpre := List.takeWhile_prefix (l := rest) fun e : Fin n × Kind => decide (e.2 = .read)
  constructor
  · exact Nat.succ_le_succ hpre.length_le
  · rw [woken, List.take_succ_cons, ← List.prefix_iff_eq_take.mp hpre]
    refine List.forall_mem_cons.mpr ⟨rfl, fun e he => ?_⟩
    simpa using List.mem_takeWhile_imp he

theorem countReaders_inv (h : Inv s) (hlock : s.lock = some (t, .countReaders)) :
    Inv (s.countReaders t) := by
  obtain ⟨⟨t', rest, hlist⟩, hfree⟩ : (∃ t' rest, s.waitList = (t', .read) :: rest) ∧ s.Free :=
    h.stage t _ hlock
  have hu : s.stage Stage.units = 1 := stage_of_lock _ hlock
  have hg : s.stage Stage.granted = 0 := stage_of_lock _ hlock
  refine h.relock ?_ ?_
  · simp only [Option.map_some, Option.getD_some, Stage.units, Stage.granted, hu, hg, activeBias,
      waitingBias]
    omega
  · rintro t'' stage hl
    cases hl
    have hwoken := woken_spec t' rest
    exact ⟨hlist ▸ hwoken.1, hlist ▸ hwoken.2, fun _ t => hfree t .write⟩

theorem grant_inv (h : Inv s) {k : Nat} (hlock : s.lock = some (t, .grants k)) :
    Inv (s.grant t k) := by
  have hu : s.stage Stage.units = k := stage_of_lock _ hlock
  have hg : s.stage Stage.granted = k := stage_of_lock _ hlock
  obtain ⟨hle, hreaders, hnoWriter⟩ : k ≤ s.waitList.length ∧
      (∀ e ∈ s.waitList.take k, e.2 = .read) ∧ (0 < k → s.NoWriter) := h.stage t _ hlock
  cases k with
  | zero =>
    have hrelock := h.relock (l := none) (d := 0) (by simp [hu, hg]) (fun _ _ hl => by cases hl)
    rwa [add_zero_eq] at hrelock
  | succ k =>
    unfold State.grant
    cases hlist : s.waitList with
    | nil =>
      rw [hlist] at hle
      cases hle
    | cons e rest =>
      obtain ⟨t', kind⟩ := e
      rw [hlist, List.take_succ_cons, List.forall_mem_cons] at hreaders
      obtain ⟨rfl, hrest⟩ : kind = .read ∧ ∀ e ∈ rest.take k, e.2 = .read := hreaders
      refine h.grant hlist ?_ ?_ (hnoWriter (by omega)) (fun hk => by cases hk) ?_
      · simp only [Option.map_some, Option.getD_some, Stage.units]
        omega
      · simp only [Option.map_some, Option.getD_some, Stage.granted, Phase.waits]
        omega
      · rintro t'' stage hl
        cases hl
        rw [hlist, List.length_cons] at hle
        refine ⟨by show k ≤ rest.length; omega, hrest, fun _ t1 h1 => ?_⟩
        rcases eq_of_update h1 with ⟨-, h1⟩ | ⟨-, h1⟩
        · cases h1
        · exact hnoWriter (by omega) t1 h1

theorem goto_joins_inv (h : Inv s) (hlock : s.lock = none) (ht : s.phase t = .failed k) :
    Inv (s.goto t (.joins k)) := by
  have hrelock := h.relock (l := some (t, .joins k)) (d := 0)
    (by simp [stage_of_unlocked _ hlock, Stage.units, Stage.granted]) (fun _ _ hl => by cases hl; exact ht)
  rwa [add_zero_eq] at hrelock

theorem wake_inv (h : Inv s) (hlock : s.lock = none) (ht : s.phase t = .waking) :
    Inv (s.wake t) := by
  have hset : Inv ((s.add 0).set t .outside) :=
    h.rephase ht (by simp) (by simp) (by rw [State.owner, hlock]; simp) (by decide)
      (fun k hk => by cases hk)
  rw [add_zero_eq] at hset
  unfold State.wake
  dsimp only
  split
  · exact hset
  case isFalse hne =>
    have hrelock := hset.relock (l := some (t, .tryAgain)) (d := 0)
      (by simp [stage_of_unlocked (s := s.set t .outside) _ hlock, Stage.units, Stage.granted])
      (fun _ _ hl => by cases hl; exact hne)
    rwa [add_zero_eq] at hrelock

end

theorem step_inv {s s' : State n} {e : Event n} (hn : n < 32766) (h : Inv s) (hstep : Step s e s') :
    Inv s' := by
  cases e with simp only [Step, exec] at hstep
  | down t k =>
    split at hstep <;> cases hstep
    next hok => exact down_inv h hn hok.1 hok.2 k
  | downTrylock t k =>
    split at hstep <;> cases hstep
    next hok => exact downTrylock_inv h hn hok.1 hok.2 k
  | up t =>
    split at hstep
    case h_1 k ht =>
      split at hstep <;> cases hstep
      case isTrue hown => exact up_inv h ht hown
    · cases hstep
  | lock t =>
    split at hstep
    · cases hstep
    case isFalse hlock =>
      rw [Option.not_isSome_iff_eq_none] at hlock
      split at hstep <;> cases hstep
      case h_1 k ht => exact goto_joins_inv h hlock ht
      case h_2 ht => exact wake_inv h hlock ht
  | go =>
    obtain ⟨⟨t, stage⟩, hlock, rfl⟩ := Option.map_eq_some_iff.mp hstep
    cases stage with
    | joins k => exact join_inv h hlock
    | tryAgain => exact tryAgain_inv h hn hlock
    | undo =>
      change Inv (s.undo t)
      exact undo_inv h hlock
    | grantWriter => exact grantWriter_inv h hlock
    | countReaders => exact countReaders_inv h hlock
    | grants k => exact grant_inv h hlock

end CustomKernel.Locking.Rwsem

import CustomKernel.Sched.Invariant

/-! # Choosing the next task

`Best` says which task is to run next, in terms of what the queues hold.
`schedule` chooses it by the bitmap and the links alone, and keeps the
invariant. -/
namespace CustomKernel.Sched.Pick
open Lib.ListHead Lib.Bitmap
open Sched.Functions Sched.Queues Sched.Invariant

/-- `k` is the best priority at which a task is queued in the array. -/
structure Lowest (Q : Content) (b : Bool) (k : Nat) : Prop where
  lt : k < 140
  nonempty : Q (b, k) ≠ []
  empty : ∀ m < k, Q (b, m) = []

/-- The array whose turn it is: the active one, unless nothing is queued there. -/
def turn (Q : Content) (active expired : Bool) : Bool :=
  if count Q active = 0 then expired else active

/-- The task that is to run next. -/
inductive Best (Q : Content) (active expired : Bool) (idle : TaskId) : TaskId → Prop
  | idle (h : ∀ i, Q i = []) : Best Q active expired idle idle
  | first {k : Nat} {p : TaskId} {ps : List TaskId} (hk : Lowest Q (turn Q active expired) k)
      (hq : Q (turn Q active expired, k) = p :: ps) : Best Q active expired idle p

/-! ## The search -/

/-- With the delimiter in place the search word by word finds the lowest bit. -/
theorem schedFindFirstBit_isFirst {b : Nat → BitVec 32} (h : testBit b 140 = true) :
    IsFirst b (schedFindFirstBit b) := by
  have h4 : b 4 ≠ 0 := word_ne_zero h
  unfold schedFindFirstBit
  split
  · exact isFirst_of_word (j := 0) (by simp) ‹_›
  split
  · exact isFirst_of_word (by grind) ‹_›
  split
  · exact isFirst_of_word (by grind) ‹_›
  split
  · exact isFirst_of_word (by grind) ‹_›
  · exact isFirst_of_word (by grind) h4

section
variable {L : Links Node} {A : Bool → PrioArray} {Q : Content} {b : Bool} {k : Nat}
  {s : RunQueue} {i x : TaskId}

theorem count_eq_zero (hout : ∀ k, 140 ≤ k → Q (b, k) = []) :
    count Q b = 0 ↔ ∀ k, Q (b, k) = [] := by
  unfold count
  rw [Finset.sum_eq_zero_iff]
  constructor
  · intro h k
    rcases Nat.lt_or_ge k 140 with hk | hk
    · exact List.length_eq_zero_iff.mp (h k (Finset.mem_range.mpr hk))
    · exact hout k hk
  · intro h k _
    rw [h k]
    rfl

/-- The bitmap of an array in use leads to its best priority. -/
theorem lowest_of_bitmap (hl : Lists L A Q) (hne : count Q b ≠ 0) :
    Lowest Q b (schedFindFirstBit (A b).bitmap) := by
  obtain ⟨hset, hmin⟩ := schedFindFirstBit_isFirst (hl.delimiter b)
  have hlow : ∀ m < schedFindFirstBit (A b).bitmap, m < 140 → Q (b, m) = [] := by
    intro m hm hlt
    by_contra hq
    have := hmin m hm
    rw [(hl.bit b m hlt).mpr hq] at this
    cases this
  -- the search stops at the delimiter only if every queue is empty
  have hlt : schedFindFirstBit (A b).bitmap < 140 := by
    by_contra hge
    refine hne ((count_eq_zero (hl.outside b)).mpr fun m => ?_)
    rcases Nat.lt_or_ge m 140 with hm | hm
    · exact hlow m (by omega) hm
    · exact hl.outside b m hm
  refine ⟨hlt, (hl.bit b _ hlt).mp hset, ?_⟩
  intro m hm
  exact hlow m hm (by omega)

/-- The entry after a list head that is not alone is the first task. -/
theorem listEntry_next {p : TaskId} {ps : List TaskId} (hl : Lists L A Q) (hq : Q (b, k) = p :: ps) :
    listEntry (L.next (.head b k)) = some p := by
  have hr := hl.family.ring (b, k)
  rw [Function.comp_apply, hq, List.map_cons] at hr
  have hnext : L.next (.head b k) = .task p := hr.seg.1.1
  rw [hnext]
  rfl

/-! ## The choice -/

theorem count_ne_zero_of_total {active expired : Bool} (he : expired = !active)
    (h : total Q ≠ 0) : count Q (turn Q active expired) ≠ 0 := by
  unfold turn
  split
  · unfold total at h
    cases active <;> simp_all
  · assumption

theorem total_eq_zero (hl : Lists L A Q) (h : total Q = 0) (j : Bool × Nat) : Q j = [] := by
  unfold total at h
  obtain ⟨b, k⟩ := j
  refine (count_eq_zero (hl.outside b)).mp ?_ k
  cases b <;> omega

/-- The arrays have changed places if the active one was empty. -/
theorem swapArrays_eq (hb : Base s Q i x) : ∃ u, swapArrays s =
    { s with
      active := turn Q s.active s.expired
      expired := !turn Q s.active s.expired
      expiredTimestamp := u } := by
  have hn := hb.lists.nrActive s.active
  unfold swapArrays turn
  by_cases h0 : count Q s.active = 0
  · refine ⟨0, ?_⟩
    rw [if_pos (by omega), if_pos h0, hb.expired, Bool.not_not]
  · refine ⟨s.expiredTimestamp, ?_⟩
    rw [if_neg (by omega), if_neg h0, ← hb.expired]

theorem pickNext_best (hb : Base s Q i x) : ∃ next a u,
    pickNext s = (some next, { s with active := a, expired := !a, expiredTimestamp := u }) ∧
      Best Q s.active s.expired i next ∧ (total Q ≠ 0 → a = turn Q s.active s.expired) := by
  unfold pickNext
  by_cases h0 : s.nrRunning = 0
  · have htot : total Q = 0 := by have := hb.running; omega
    refine ⟨i, s.active, 0, ?_, .idle (total_eq_zero hb.lists htot),
      fun h => absurd htot h⟩
    rw [if_pos h0, ← hb.expired, hb.is_idle]
  · have htot : total Q ≠ 0 := by have := hb.running; omega
    obtain ⟨u, hswap⟩ := swapArrays_eq hb
    have hlow := lowest_of_bitmap hb.lists (count_ne_zero_of_total hb.expired htot)
    obtain ⟨p, ps, hq⟩ := List.exists_cons_of_ne_nil hlow.nonempty
    refine ⟨p, turn Q s.active s.expired, u, ?_, .first hlow hq, fun _ => rfl⟩
    rw [if_neg h0]
    simp only [hswap, queue, Int.toNat_natCast]
    rw [hasQueue_of_lt (Int.natCast_nonneg _) (by have := hlow.lt; omega), need_true]
    simp only [listEntry_next hb.lists hq]

/-! ## The whole of `schedule` -/

/-- The state in which `schedule` has decided whether the task that calls it
stays runnable. -/
def decided (jiffies : UInt32) (s : RunQueue) : RunQueue :=
  putPrev (s.setTask s.curr fun t => { t with sleepTimestamp := jiffies })

theorem putPrev_base (hi : Inv s Q i i) :
    (∃ L A n m T, putPrev s =
      { s with links := L, arrays := A, tasks := T, nrRunning := n, nrUninterruptible := m }) ∧
      ∃ Q', Base (putPrev s) Q' i i := by
  have hleave (hst : (s.tasks s.curr).state ≠ .running) :
      (∃ L A n m T, deactivateTask s.curr s =
        { s with links := L, arrays := A, tasks := T, nrRunning := n, nrUninterruptible := m }) ∧
      ∃ Q', Base (deactivateTask s.curr s) Q' i i := by
    have hne : s.curr ≠ i := by
      intro he
      rw [he] at hst
      exact hst hi.idle.state
    obtain ⟨b, hb⟩ := Option.ne_none_iff_exists'.mp (hi.curr hne)
    obtain ⟨⟨L, A, m, heq⟩, hbase⟩ := hi.toBase.deactivate hb
    exact ⟨⟨L, A, _, m, _, heq⟩, _, hbase⟩
  have hkeep : Keeps fun t : Task => { t with state := .running } :=
    fun t => ⟨rfl, rfl, rfl, fun _ => rfl⟩
  unfold putPrev
  split
  · exact ⟨⟨s.links, s.arrays, _, _, _, rfl⟩, Q, hi.toBase⟩
  · split
    · exact ⟨⟨s.links, s.arrays, _, _, _, rfl⟩, Q, hi.toBase.keep hkeep s.curr⟩
    · exact hleave (by simp [*])
  · exact hleave ‹_›

/-- `schedule` ends with the best of the tasks that are left. -/
theorem schedule_best (hi : Inv s Q i i) (jiffies : UInt32) :
    ∃ Q', Base (decided jiffies s) Q' i i ∧
      Best Q' s.active s.expired i (schedule jiffies s).curr ∧
      (total Q' ≠ 0 → (schedule jiffies s).active = turn Q' s.active s.expired) ∧
      Inv (schedule jiffies s) Q' i i := by
  have hstamp : Keeps fun t : Task => { t with sleepTimestamp := jiffies } :=
    fun t => ⟨rfl, rfl, rfl, id⟩
  have hclear : Keeps fun t : Task => { t with needResched := false } :=
    fun t => ⟨rfl, rfl, rfl, id⟩
  obtain ⟨⟨L, A, n, m, T, hput⟩, Q', hb⟩ := putPrev_base (hi.keep hstamp s.curr)
  obtain ⟨next, a, u, hpick, hbest, hturn⟩ := pickNext_best hb
  have hcurr : (decided jiffies s).curr = s.curr := by rw [decided, hput]; rfl
  have hactive : (decided jiffies s).active = s.active := by rw [decided, hput]; rfl
  have hexpired : (decided jiffies s).expired = s.expired := by rw [decided, hput]; rfl
  have hdec : putPrev (s.setTask s.curr fun t => { t with sleepTimestamp := jiffies }) =
      decided jiffies s := rfl
  rw [hdec] at hb hpick hbest hturn
  rw [hactive, hexpired] at hbest hturn
  -- whether or not there is a switch, `next` runs and the rest is the same
  obtain ⟨k, hrun⟩ : ∃ k, schedule jiffies s =
      { (decided jiffies s).setTask s.curr (fun t => { t with needResched := false }) with
        active := a, expired := !a, expiredTimestamp := u, nrSwitches := k, curr := next } := by
    unfold schedule
    simp only [hdec, hpick]
    by_cases hsw : s.curr = next
    · refine ⟨(decided jiffies s).nrSwitches, ?_⟩
      rw [if_neg (not_not_intro hsw), ← hsw, ← hcurr]
      rfl
    · refine ⟨(decided jiffies s).nrSwitches + 1, ?_⟩
      rw [if_pos hsw]
      rfl
  have hkeep := hb.keep hclear s.curr
  refine ⟨Q', hb, ?_, ?_, ?_⟩
  · rw [hrun]; exact hbest
  · rw [hrun]; exact hturn
  · rw [hrun]
    refine ⟨⟨hkeep.lists, hkeep.placed, hkeep.good, hkeep.fresh, hkeep.idle, hkeep.is_idle, rfl,
      hkeep.running, hkeep.tame⟩, ?_⟩
    intro hne
    cases hbest with
    | idle => exact absurd rfl hne
    | first _ hq =>
      have hmem := (hkeep.placed next _ _).mp (hq ▸ List.mem_cons_self)
      simp [hmem.1]

end

end CustomKernel.Sched.Pick

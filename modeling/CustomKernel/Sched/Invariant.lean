import CustomKernel.Sched.Queues

/-! # The invariant of the run queue

Every task is queued exactly where its `array` and `prio` say, the counts agree,
and no access has left the data structure. The functions of the scheduler are
built from a few moves of one task, and each move keeps this. -/
namespace CustomKernel.Sched.Invariant
open Lib.ListHead Function
open Sched.Functions Sched.Queues

/-- The priorities of a task that may be queued. -/
structure Good (t : Task) : Prop where
  prio_nonneg : 0 ≤ t.prio
  prio_lt : t.prio < 140
  static_ge : 100 ≤ t.staticPrio
  static_lt : t.staticPrio < 140

/-- The idle task is never queued and never sleeps. -/
structure GoodIdle (t : Task) : Prop where
  array : t.array = none
  state : t.state = .running
  prio : t.prio = 140
  static_ge : 100 ≤ t.staticPrio
  static_lt : t.staticPrio < 140

/-- The idle task is `i`, and `x` is under construction by `do_fork`: it is in no
queue, and its priorities may be anything. Where there is no such task, `x` is
the idle task too. -/
structure Base (s : RunQueue) (Q : Content) (i x : TaskId) : Prop where
  lists : Lists s.links s.arrays Q
  placed : ∀ p b k, p ∈ Q (b, k) ↔ (s.tasks p).array = some b ∧ (s.tasks p).prio = k
  good : ∀ p, p ≠ i → p ≠ x → Good (s.tasks p)
  fresh : (s.tasks x).array = none
  idle : GoodIdle (s.tasks i)
  is_idle : s.idle = i
  expired : s.expired = !s.active
  running : s.nrRunning = total Q
  tame : s.wild = false

/-- Between two operations the running task is queued, unless it is the idle
task. -/
structure Inv (s : RunQueue) (Q : Content) (i x : TaskId) : Prop extends Base s Q i x where
  curr : s.curr ≠ i → (s.tasks s.curr).array ≠ none

/-! ## Changes that do not move a task -/

section Still
variable {s : RunQueue} {Q : Content} {p i x : TaskId} {b : Bool} {f : Task → Task}

theorem hasQueue_of_lt {prio : Int} (h0 : 0 ≤ prio) (h : prio < 140) : hasQueue prio = true := by
  simp [hasQueue, h0, show prio < maxPrio from h]

@[simp] theorem setTask_self : (s.setTask p f).tasks p = f (s.tasks p) :=
  update_self ..

theorem setTask_of_ne {q : TaskId} (h : q ≠ p) : (s.setTask p f).tasks q = s.tasks q :=
  update_of_ne h ..

@[simp] theorem setTask_id (s : RunQueue) (p : TaskId) : s.setTask p id = s := by
  simp [RunQueue.setTask]

@[simp] theorem need_true (s : RunQueue) : s.need true = s := by
  simp [RunQueue.need]

section
variable (hb : Base s Q i x)
include hb

theorem Base.ne_idle (h : (s.tasks p).array ≠ none) : p ≠ i := by
  rintro rfl
  exact h hb.idle.array

theorem Base.ne_fresh (h : (s.tasks p).array ≠ none) : p ≠ x := by
  rintro rfl
  exact h hb.fresh

theorem Base.good_queued (ht : (s.tasks p).array = some b) :
    Good (s.tasks p) := by
  have h : (s.tasks p).array ≠ none := by simp [ht]
  exact hb.good p (hb.ne_idle h) (hb.ne_fresh h)

theorem Base.mem_queue (ht : (s.tasks p).array = some b) : p ∈ Q (b, (s.tasks p).prio.toNat) := by
  have hprio := Int.toNat_of_nonneg (hb.good_queued ht).prio_nonneg
  exact (hb.placed p b _).mpr ⟨ht, hprio.symm⟩

theorem Base.not_queued (h : (s.tasks p).array = none) (j : Bool × Nat) :
    p ∉ Q j := by
  intro hm
  rw [((hb.placed p j.1 j.2).mp hm).1] at h
  cases h

/-- The fields of one task change, its place in the queues does not. -/
theorem Base.setTask {y : TaskId} (harr : (f (s.tasks p)).array = (s.tasks p).array)
    (hprio : (s.tasks p).array = none ∨ (f (s.tasks p)).prio = (s.tasks p).prio)
    (hgood : ∀ q, q ≠ i → q ≠ y → Good (if q = p then f (s.tasks p) else s.tasks q))
    (hfresh : (s.tasks y).array = none)
    (hidle : p = i → GoodIdle (f (s.tasks p))) : Base (s.setTask p f) Q i y := by
  have harray (q : TaskId) : ((s.setTask p f).tasks q).array = (s.tasks q).array := by
    by_cases hq : q = p
    · subst hq; simpa [RunQueue.setTask] using harr
    · simp [RunQueue.setTask, hq]
  refine ⟨hb.lists, ?_, ?_, ?_, ?_, hb.is_idle, hb.expired, hb.running, hb.tame⟩
  · intro q c k
    rw [hb.placed, harray]
    by_cases hq : q = p
    · subst hq
      simp only [RunQueue.setTask, update_self]
      rcases hprio with hnone | hsame
      · simp [hnone]
      · rw [hsame]
    · simp [RunQueue.setTask, update_of_ne hq]
  · intro q hq hy
    have h := hgood q hq hy
    rwa [← update_apply] at h
  · rw [harray]
    exact hfresh
  · by_cases he : i = p
    · subst he
      simp only [RunQueue.setTask, update_self]
      exact hidle rfl
    · simp only [RunQueue.setTask, update_of_ne he]
      exact hb.idle

/-- A change of the fields that the invariant does not look at. -/
def Keeps (f : Task → Task) : Prop :=
  ∀ t, (f t).array = t.array ∧ (f t).prio = t.prio ∧ (f t).staticPrio = t.staticPrio ∧
    (t.state = .running → (f t).state = .running)

theorem Base.keep (hf : Keeps f) (p : TaskId) : Base (s.setTask p f) Q i x := by
  obtain ⟨h1, h2, h3, h4⟩ := hf (s.tasks p)
  refine hb.setTask h1 (.inr h2) ?_ hb.fresh ?_
  · intro q hq hx
    obtain ⟨g1, g2, g3, g4⟩ := hb.good q hq hx
    split
    · rename_i he
      subst he
      exact ⟨h2 ▸ g1, h2 ▸ g2, h3 ▸ g3, h3 ▸ g4⟩
    · exact ⟨g1, g2, g3, g4⟩
  · rintro rfl
    obtain ⟨g1, g2, g3, g4, g5⟩ := hb.idle
    exact ⟨h1.trans g1, h4 g2, h2.trans g3, h3 ▸ g4, h3 ▸ g5⟩

end

/-- The running task stays queued when no task leaves its queue. -/
theorem Inv.setTask {y : TaskId} (hi : Inv s Q i x) (hb : Base (s.setTask p f) Q i y)
    (harr : (f (s.tasks p)).array = (s.tasks p).array) : Inv (s.setTask p f) Q i y := by
  refine ⟨hb, ?_⟩
  intro hc
  have h := hi.curr hc
  by_cases he : s.curr = p
  · simp only [RunQueue.setTask, he, update_self, harr]
    exact he ▸ h
  · simp only [RunQueue.setTask, update_of_ne he]
    exact h

theorem Inv.keep (hi : Inv s Q i x) (hf : Keeps f) (p : TaskId) : Inv (s.setTask p f) Q i x :=
  hi.setTask (hi.toBase.keep hf p) (hf _).1

theorem Base.fields (hb : Base s Q i x) (n m : Int) (u : UInt32) :
    Base { s with nrUninterruptible := n, nrSwitches := m, expiredTimestamp := u } Q i x :=
  ⟨hb.lists, hb.placed, hb.good, hb.fresh, hb.idle, hb.is_idle, hb.expired, hb.running, hb.tame⟩

theorem Inv.ne_curr (hi : Inv s Q i x) (hp : p ≠ i) (harr : (s.tasks p).array = none) :
    p ≠ s.curr := by
  rintro rfl
  exact hi.curr hp harr

theorem Inv.fields (hi : Inv s Q i x) (n m : Int) (u : UInt32) :
    Inv { s with nrUninterruptible := n, nrSwitches := m, expiredTimestamp := u } Q i x :=
  ⟨hi.toBase.fields n m u, hi.curr⟩

/-- New priorities for a task whose place in the queues does not depend on them. -/
theorem Inv.change (hi : Inv s Q i i) (hp : p ≠ i)
    (harr : (f (s.tasks p)).array = (s.tasks p).array)
    (hprio : (s.tasks p).array = none ∨ (f (s.tasks p)).prio = (s.tasks p).prio)
    (hgood : Good (f (s.tasks p))) : Inv (s.setTask p f) Q i i := by
  refine hi.setTask (hi.toBase.setTask harr hprio ?_ hi.idle.array fun h => absurd h hp) harr
  intro q hq _
  split
  · exact hgood
  · exact hi.good q hq hq

/-- The record of a task that is in no queue may become anything while it is
under construction. -/
theorem Inv.fresh_change (hi : Inv s Q i x) (hx : x = i ∨ x = p) (hp : p ≠ i)
    (ht : (s.tasks p).array = none) (hf : (f (s.tasks p)).array = none) :
    Inv (s.setTask p f) Q i p := by
  refine hi.setTask (hi.toBase.setTask (hf.trans ht.symm) (.inl ht) ?_ ht
    fun h => absurd h hp) (hf.trans ht.symm)
  intro q hq hqp
  rw [if_neg hqp]
  rcases hx with rfl | rfl
  · exact hi.good q hq hq
  · exact hi.good q hq hqp

theorem Inv.ite {c : Prop} [Decidable c] {s s' : RunQueue} (h : Inv s Q i x) (h' : Inv s' Q i x) :
    Inv (if c then s else s') Q i x := by
  split
  · exact h
  · exact h'

end Still

/-! ## Moves -/

section Moves
variable {s : RunQueue} {Q : Content} {p i x : TaskId} {b : Bool} {k : Nat} {t : Task}

theorem dequeueTask_eq (hb : Lists s.links s.arrays Q) (hp : p ∈ Q (b, k))
    (hk : (s.tasks p).prio = k) : ∃ L A, dequeueTask p b s = { s with links := L, arrays := A } ∧
      Lists L A (without Q p) := by
  have hlt := hb.lt hp
  have hempty := (hb.del hp).listEmpty_eq (b := b) (k := k)
  refine ⟨_, _, ?_, hb.del hp⟩
  unfold dequeueTask
  simp only [hk, hasQueue_of_lt (Int.natCast_nonneg k) (by omega : (k : Int) < 140), need_true,
    queue, Int.toNat_natCast, RunQueue.setLinks, RunQueue.setArray, hempty, withdrawn]
  split
  · simp
  · rfl

theorem enqueueTask_eq (hb : Lists s.links s.arrays Q) (hp : ∀ i, p ∉ Q i)
    (hk : (s.tasks p).prio = k) (hlt : k < 140) (b : Bool) : ∃ L A, enqueueTask p b s =
      { s with
        links := L, arrays := A
        tasks := update s.tasks p { s.tasks p with array := some b } } ∧
      Lists L A (update Q (b, k) (Q (b, k) ++ [p])) := by
  refine ⟨_, _, ?_, hb.insertTail hp hlt⟩
  unfold enqueueTask
  simp [hk, hasQueue_of_lt (Int.natCast_nonneg k) (by omega : (k : Int) < 140), queue, RunQueue.setLinks, RunQueue.setArray, RunQueue.setTask, inserted]

/-- What is queued after `p` has left its queue and gone to the one at `l`. -/
theorem mem_insert (hl : Lists s.links s.arrays Q) {xs : List TaskId} {l j : Bool × Nat}
    {q : TaskId} (hxs : ∀ q, q ∈ xs ↔ q = p ∨ q ∈ without Q p l) :
    q ∈ update (without Q p) l xs j ↔ (q = p ∧ j = l) ∨ (q ≠ p ∧ q ∈ Q j) := by
  by_cases hj : j = l
  · subst hj
    rw [update_self, hxs, hl.mem_without]
    simp
  · rw [update_of_ne hj, hl.mem_without]
    simp [hj]

theorem total_without (hl : Lists s.links s.arrays Q) (hp : p ∈ Q (b, k)) :
    total (without Q p) + 1 = total Q := by
  have h := total_update (Q := Q) (b := b) ((Q (b, k)).erase p) (hl.lt hp)
  rw [← hl.without_eq_update hp, List.length_erase_of_mem hp] at h
  have := List.length_pos_of_mem hp
  omega

theorem without_of_not_mem (hp : ∀ i, p ∉ Q i) : without Q p = Q := by
  funext i
  exact List.erase_of_not_mem (hp i)

/-- `p` stands in a queue of its own choice, and nothing else has moved. -/
theorem Base.moved {L : Links Node} {A : Bool → PrioArray} {xs : List TaskId} {n : Int}
    {y : TaskId} (hb : Base s Q i x) (hp : p ≠ i)
    (hxs : ∀ q, q ∈ xs ↔ q = p ∨ q ∈ without Q p (b, k))
    (hl : Lists L A (update (without Q p) (b, k) xs)) (harr : t.array = some b)
    (hk : t.prio = k) (hgood : Good t)
    (hn : n = total (update (without Q p) (b, k) xs))
    (hy : ∀ q, q ≠ i → q ≠ y → q ≠ p → q ≠ x) (hyp : y ≠ p)
    (hfresh : (s.tasks y).array = none) :
    Base { s with links := L, arrays := A, tasks := update s.tasks p t, nrRunning := n }
      (update (without Q p) (b, k) xs) i y := by
  refine ⟨hl, ?_, ?_, ?_, ?_, hb.is_idle, hb.expired, hn, hb.tame⟩
  · intro q c m
    rw [mem_insert hb.lists hxs]
    by_cases hq : q = p
    · subst hq
      simp only [update_self, harr, hk, Prod.mk.injEq, Option.some.injEq, true_and,
        ne_eq, not_true_eq_false, false_and, or_false, Int.natCast_inj]
      exact and_congr eq_comm eq_comm
    · simp only [update_of_ne hq, hq, false_and, false_or, ne_eq, not_false_eq_true,
        true_and]
      exact hb.placed q c m
  · intro q hq hqy
    by_cases he : q = p
    · subst he
      simp only [update_self]
      exact hgood
    · simp only [update_of_ne he]
      exact hb.good q hq (hy q hq hqy he)
  · simp only [update_of_ne hyp]
    exact hfresh
  · simp only [update_of_ne (Ne.symm hp)]
    exact hb.idle

theorem Base.deactivate (hb : Base s Q i x) (ht : (s.tasks p).array = some b) :
    (∃ L A n, deactivateTask p s =
      { s with
        links := L, arrays := A, nrRunning := s.nrRunning - 1, nrUninterruptible := n
        tasks := update s.tasks p { s.tasks p with array := none } }) ∧
      Base (deactivateTask p s) (without Q p) i x := by
  have hp := hb.ne_idle (p := p) (by simp [ht])
  have hmem := hb.mem_queue ht
  have hk := (Int.toNat_of_nonneg (hb.good_queued ht).prio_nonneg).symm
  have hlists : Lists { s with
      nrRunning := s.nrRunning - 1
      nrUninterruptible := if (s.tasks p).state = .uninterruptible then s.nrUninterruptible + 1
        else s.nrUninterruptible : RunQueue }.links s.arrays Q := hb.lists
  obtain ⟨L, A, heq, hl⟩ := dequeueTask_eq hlists hmem hk
  have hrun : deactivateTask p s =
      { s with
        links := L, arrays := A, nrRunning := s.nrRunning - 1
        nrUninterruptible := if (s.tasks p).state = .uninterruptible then s.nrUninterruptible + 1
          else s.nrUninterruptible
        tasks := update s.tasks p { s.tasks p with array := none } } := by
    unfold deactivateTask
    simp [ht, heq, RunQueue.setTask]
  refine ⟨⟨L, A, _, hrun⟩, ?_⟩
  rw [hrun]
  have htot := total_without hb.lists hmem
  refine ⟨hl, ?_, ?_, ?_, ?_, hb.is_idle, hb.expired, ?_, hb.tame⟩
  · intro q c m
    rw [hb.lists.mem_without]
    by_cases hq : q = p
    · subst hq; simp
    · simp only [update_of_ne hq, hq, ne_eq, not_false_eq_true, true_and]
      exact hb.placed q c m
  · intro q hq hx
    obtain ⟨g1, g2, g3, g4⟩ := hb.good q hq hx
    by_cases he : q = p
    · subst he
      simp only [update_self]
      exact ⟨g1, g2, g3, g4⟩
    · simp only [update_of_ne he]
      exact ⟨g1, g2, g3, g4⟩
  · simp only [update_of_ne (hb.ne_fresh (p := p) (by simp [ht])).symm]
    exact hb.fresh
  · simp only [update_of_ne (Ne.symm hp)]
    exact hb.idle
  · simp only [hb.running]
    omega

/-- `effective_prio` forces its result among the priorities of ordinary tasks. -/
theorem effectivePrio_bounds (t : Task) : 100 ≤ effectivePrio t ∧ effectivePrio t < 140 := by
  have clamp (x : Int) : 100 ≤ (if (if x < 100 then 100 else x) > 139 then 139
      else if x < 100 then 100 else x) ∧ (if (if x < 100 then 100 else x) > 139 then 139
      else if x < 100 then 100 else x) < 140 := by
    by_cases hx : x < 100
    · simp [hx]
    · split <;> omega
  exact clamp _

theorem Good.of_effectivePrio (h : t.prio = effectivePrio t) (hge : 100 ≤ t.staticPrio)
    (hlt : t.staticPrio < 140) : Good t := by
  have hb := effectivePrio_bounds t
  exact ⟨by omega, by omega, hge, hlt⟩

theorem Good.creditSleep (h : Good t) (jiffies : UInt32) :
    Good (creditSleep jiffies t) := by
  simp only [Functions.creditSleep]
  split
  · exact .of_effectivePrio rfl h.static_ge h.static_lt
  · exact h

theorem Base.insertTail (hb : Base s Q i x) (hx : x = i ∨ x = p) (hp : p ≠ i)
    (ht : (s.tasks p).array = none) (hgood : Good t) (b : Bool) :
    ∃ L A Q', enqueueTask p b { s with tasks := update s.tasks p t } =
      { s with
        links := L, arrays := A
        tasks := update s.tasks p { t with array := some b } } ∧
      Base { s with
        links := L, arrays := A, nrRunning := s.nrRunning + 1
        tasks := update s.tasks p { t with array := some b } } Q' i i := by
  have hk := (Int.toNat_of_nonneg hgood.prio_nonneg).symm
  have hlt : t.prio.toNat < 140 := by have := hgood.prio_lt; have := hgood.prio_nonneg; omega
  have hout := hb.not_queued ht
  obtain ⟨L, A, heq, hl⟩ := enqueueTask_eq
    (s := { s with tasks := update s.tasks p t }) hb.lists hout
    (by simp only [update_self]; exact hk) hlt b
  have hsame := without_of_not_mem hout
  refine ⟨L, A, update (without Q p) (b, t.prio.toNat) (Q (b, t.prio.toNat) ++ [p]),
    by rw [heq]; simp, ?_⟩
  have hxs : ∀ q, q ∈ Q (b, t.prio.toNat) ++ [p] ↔ q = p ∨ q ∈ without Q p (b, t.prio.toNat) := by
    intro q
    rw [hsame]
    simp [or_comm]
  refine hb.moved hp hxs (by rw [hsame]; exact hl) rfl hk
    ⟨hgood.prio_nonneg, hgood.prio_lt, hgood.static_ge, hgood.static_lt⟩ ?_ ?_ (Ne.symm hp)
    hb.idle.array
  · have htot := total_update (Q := Q) (b := b) (Q (b, t.prio.toNat) ++ [p]) hlt
    rw [List.length_append, List.length_singleton] at htot
    rw [hsame, hb.running]
    omega
  · rintro q hq - hqp
    rcases hx with rfl | rfl
    · exact hq
    · exact hqp

theorem Base.activate (hb : Base s Q i x) (hx : x = i ∨ x = p) (hp : p ≠ i)
    (ht : (s.tasks p).array = none) (jiffies : UInt32)
    (hgood : Good (creditSleep jiffies (s.tasks p))) :
    (∃ (L : Links Node) (A : Bool → PrioArray) (t : Task), activateTask p jiffies s =
      { s with
        links := L, arrays := A, nrRunning := s.nrRunning + 1
        tasks := update s.tasks p { t with array := some s.active } }) ∧
      ∃ Q', Base (activateTask p jiffies s) Q' i i := by
  obtain ⟨L, A, Q', heq, hb'⟩ := hb.insertTail hx hp ht hgood s.active
  have hrun : activateTask p jiffies s =
      { s with
        links := L, arrays := A, nrRunning := s.nrRunning + 1
        tasks := update s.tasks p
          { creditSleep jiffies (s.tasks p) with array := some s.active } } := by
    unfold activateTask
    simp [RunQueue.setTask, heq]
  exact ⟨⟨L, A, _, hrun⟩, Q', by rw [hrun]; exact hb'⟩

theorem Inv.activate (hi : Inv s Q i x) (hx : x = i ∨ x = p) (hp : p ≠ i)
    (ht : (s.tasks p).array = none) (jiffies : UInt32)
    (hgood : Good (creditSleep jiffies (s.tasks p))) :
    ∃ Q', Inv (activateTask p jiffies s) Q' i i := by
  obtain ⟨⟨L, A, t, heq⟩, Q', hb⟩ := hi.toBase.activate hx hp ht jiffies hgood
  refine ⟨Q', hb, ?_⟩
  rw [heq]
  intro hc
  dsimp only
  by_cases he : s.curr = p
  · simp [he]
  · rw [update_of_ne he]
    exact hi.curr hc

/-- A queued task has gone to another place in the queues, with other fields. -/
theorem Inv.moved {L : Links Node} {A : Bool → PrioArray} {xs : List TaskId} {c : Bool}
    (hi : Inv s Q i x) (ht : (s.tasks p).array = some b)
    (hxs : ∀ q, q ∈ xs ↔ q = p ∨ q ∈ without Q p (c, k))
    (hlen : xs.length = (without Q p (c, k)).length + 1)
    (hl : Lists L A (update (without Q p) (c, k) xs)) (harr : t.array = some c)
    (hk : t.prio = k) (hgood : Good t) :
    Inv { s with links := L, arrays := A, tasks := update s.tasks p t }
      (update (without Q p) (c, k) xs) i x := by
  have hp := hi.ne_idle (p := p) (by simp [ht])
  have hxp := hi.ne_fresh (p := p) (by simp [ht])
  have hlt : k < 140 := by have := hgood.prio_lt; omega
  have hsame : s.nrRunning = total (update (without Q p) (c, k) xs) := by
    have h1 := total_without hi.lists (hi.mem_queue ht)
    have h2 := total_update (Q := without Q p) (b := c) xs hlt
    rw [hi.running]
    omega
  refine ⟨hi.toBase.moved hp hxs hl harr hk hgood hsame (fun _ _ hqx _ => hqx) hxp.symm hi.fresh, ?_⟩
  intro hc
  dsimp only
  by_cases he : s.curr = p
  · simp [he, harr]
  · rw [update_of_ne he]
    exact hi.curr hc

/-- `dequeue_task` and `enqueue_task`, with a change of fields between them. -/
theorem Inv.requeue {f : Task → Task} (hi : Inv s Q i x) (ht : (s.tasks p).array = some b)
    (hgood : Good (f (s.tasks p))) (c : Bool) :
    ∃ Q', Inv (enqueueTask p c ((dequeueTask p b s).setTask p f)) Q' i x := by
  obtain ⟨L, A, heq, hl⟩ := dequeueTask_eq hi.lists (hi.mem_queue ht)
    (Int.toNat_of_nonneg (hi.good_queued ht).prio_nonneg).symm
  have hk := (Int.toNat_of_nonneg hgood.prio_nonneg).symm
  have hlt : (f (s.tasks p)).prio.toNat < 140 := by
    have := hgood.prio_lt; have := hgood.prio_nonneg; omega
  have hout : ∀ i, p ∉ without Q p i := by
    intro i hm
    exact (hi.lists.mem_without.mp hm).1 rfl
  obtain ⟨L', A', heq', hl'⟩ := enqueueTask_eq
    (s := { s with links := L, arrays := A, tasks := update s.tasks p (f (s.tasks p)) })
    hl hout (by simp only [update_self]; exact hk) hlt c
  have hrun : enqueueTask p c ((dequeueTask p b s).setTask p f) =
      { s with
        links := L', arrays := A'
        tasks := update s.tasks p { f (s.tasks p) with array := some c } } := by
    rw [heq]
    simp only [RunQueue.setTask]
    rw [heq']
    simp
  rw [hrun]
  exact ⟨_, hi.moved ht (fun q => by simp [or_comm]) (by simp) hl' rfl hk
    ⟨hgood.prio_nonneg, hgood.prio_lt, hgood.static_ge, hgood.static_lt⟩⟩

end Moves

end CustomKernel.Sched.Invariant

import CustomKernel.Sched.Functions
import Mathlib.Algebra.BigOperators.Group.Finset.Piecewise

/-! # What the priority arrays hold

The abstract content of the two arrays is a list of tasks for each array and
priority. `Lists` says that the links, the bitmaps and the counts represent it;
taking a task out and putting one in keep it so. -/
namespace CustomKernel.Sched.Queues
open Lib.ListHead Lib.Bitmap Function
open Sched.Functions
open Finset (range)

/-- The tasks queued in an array at a priority, in order. -/
abbrev Content := Bool × Nat → List TaskId

def headOf (i : Bool × Nat) : Node := .head i.1 i.2

/-- How many tasks are queued in an array. -/
def count (Q : Content) (b : Bool) : Nat := ∑ k ∈ range 140, (Q (b, k)).length

def total (Q : Content) : Nat := count Q false + count Q true

/-- `p` leaves its queue. -/
def without (Q : Content) (p : TaskId) : Content := fun i => (Q i).erase p

structure Lists (L : Links Node) (A : Bool → PrioArray) (Q : Content) : Prop where
  family : Family L headOf (List.map Node.task ∘ Q)
  bit : ∀ b k, k < 140 → (testBit (A b).bitmap k = true ↔ Q (b, k) ≠ [])
  delimiter : ∀ b, testBit (A b).bitmap 140 = true
  nrActive : ∀ b, (A b).nrActive = count Q b
  outside : ∀ b k, 140 ≤ k → Q (b, k) = []

section Facts
variable {L : Links Node} {A A' : Bool → PrioArray} {Q : Content} {p q : TaskId} {i j : Bool × Nat}
  {b c : Bool} {k : Nat} {xs : List TaskId}

theorem Lists.nodup (h : Lists L A Q) (i : Bool × Nat) : (Q i).Nodup := by
  have := (List.nodup_cons.mp (h.family.ring i).nodup).2
  exact List.Nodup.of_map _ this

theorem Lists.unique (h : Lists L A Q) (hi : p ∈ Q i) (hj : p ∈ Q j) : i = j := by
  by_contra hne
  refine h.family.apart i j hne (.task p) ?_ ?_
  · exact List.mem_cons_of_mem _ (List.mem_map_of_mem hi)
  · exact List.mem_cons_of_mem _ (List.mem_map_of_mem hj)

theorem Lists.lt (h : Lists L A Q) (hp : p ∈ Q (b, k)) : k < 140 := by
  by_contra hk
  rw [h.outside b k (by omega)] at hp
  cases hp

theorem Lists.listEmpty_eq (h : Lists L A Q) : L.listEmpty (.head b k) = (Q (b, k)).isEmpty := by
  have hring := (h.family.ring (b, k)).listEmpty_iff
  rw [Function.comp_apply, List.map_eq_nil_iff, ← List.isEmpty_iff] at hring
  exact Bool.eq_iff_iff.mpr hring

theorem Lists.mem_without (h : Lists L A Q) : q ∈ without Q p i ↔ q ≠ p ∧ q ∈ Q i :=
  (h.nodup i).mem_erase_iff

theorem Lists.without_eq_update (h : Lists L A Q) (hp : p ∈ Q i) :
    without Q p = update Q i ((Q i).erase p) := by
  funext j
  by_cases hj : j = i
  · rw [hj, update_self]; rfl
  · rw [update_of_ne hj]
    exact List.erase_of_not_mem fun hm => hj (h.unique hm hp)

theorem count_update (xs : List TaskId) (hk : k < 140) :
    count (update Q (b, k) xs) b + (Q (b, k)).length = count Q b + xs.length := by
  unfold count
  have hmem : k ∈ range 140 := Finset.mem_range.mpr hk
  rw [← Finset.sum_erase_add _ _ hmem, ← Finset.sum_erase_add (range 140) _ hmem,
    update_self]
  have hrest : ∑ m ∈ (range 140).erase k, (update Q (b, k) xs (b, m)).length =
      ∑ m ∈ (range 140).erase k, (Q (b, m)).length := by
    refine Finset.sum_congr rfl fun m hm => ?_
    rw [update_of_ne]
    intro he
    exact (Finset.mem_erase.mp hm).1 (Prod.ext_iff.mp he).2
  omega

theorem count_update_other (hc : c ≠ b) : count (update Q (b, k) xs) c = count Q c := by
  refine Finset.sum_congr rfl fun m _ => ?_
  rw [update_of_ne]
  intro he
  exact hc (Prod.ext_iff.mp he).1

theorem total_update (xs : List TaskId) (hk : k < 140) :
    total (update Q (b, k) xs) + (Q (b, k)).length = total Q + xs.length := by
  have h := count_update (Q := Q) (b := b) xs hk
  unfold total
  cases b with
  | false => rw [count_update_other (by decide : true ≠ false)]; omega
  | true => rw [count_update_other (by decide : false ≠ true)]; omega

/-- Only the bits and the counts of the arrays matter. -/
theorem Lists.congr (h : Lists L A Q) (hn : ∀ b, (A' b).nrActive = (A b).nrActive)
    (hb : ∀ b k, testBit (A' b).bitmap k = testBit (A b).bitmap k) : Lists L A' Q := by
  refine ⟨h.family, ?_, ?_, ?_, h.outside⟩
  · intro b k hk
    rw [hb]; exact h.bit b k hk
  · intro b
    rw [hb]; exact h.delimiter b
  · intro b
    rw [hn]; exact h.nrActive b

theorem map_update (f : TaskId → Node) :
    List.map f ∘ update Q i xs = update (List.map f ∘ Q) i (xs.map f) :=
  Function.comp_update (List.map f) Q i xs

theorem not_mem_ring (hp : ∀ i, p ∉ Q i) (j : Bool × Nat) :
    Node.task p ∉ headOf j :: (List.map Node.task ∘ Q) j := by
  intro hm
  rcases List.mem_cons.mp hm with he | hm
  · cases he
  · obtain ⟨q, hq, he⟩ := List.mem_map.mp hm
    cases he
    exact hp j hq

/-- Links of a task in no queue may be anything. -/
theorem Lists.initListHead (h : Lists L A Q) (hp : ∀ i, p ∉ Q i) :
    Lists (L.initListHead (.task p)) A Q := by
  refine ⟨⟨fun i => (h.family.ring i).congr fun y hy => ?_, h.family.apart⟩, h.bit, h.delimiter,
    h.nrActive, h.outside⟩
  have hne : y ≠ .task p := by rintro rfl; exact not_mem_ring hp i hy
  simp [Links.initListHead, hne]

end Facts

/-! ## Taking out and putting in -/

section Edit
variable {L L' : Links Node} {A : Bool → PrioArray} {Q : Content} {p : TaskId} {b : Bool} {k : Nat}
  {xs : List TaskId}

/-- The arrays after a task has been taken out at `k`. -/
def withdrawn (A : Bool → PrioArray) (b : Bool) (k : Nat) (empty : Bool) : Bool → PrioArray :=
  update A b
    { nrActive := (A b).nrActive - 1
      bitmap := if empty then clearBit (A b).bitmap k else (A b).bitmap }

/-- The arrays after a task has been put in at `k`. -/
def inserted (A : Bool → PrioArray) (b : Bool) (k : Nat) : Bool → PrioArray :=
  update A b { nrActive := (A b).nrActive + 1, bitmap := setBit (A b).bitmap k }

theorem Lists.family_del (h : Lists L A Q) (hp : p ∈ Q (b, k)) :
    Family (L.listDel (.task p)) headOf (List.map Node.task ∘ without Q p) := by
  obtain ⟨us, vs, hq⟩ := List.append_of_mem hp
  have hnd := h.nodup (b, k)
  rw [hq] at hnd
  have hpu : p ∉ us := by
    intro hm
    exact (List.nodup_append.mp hnd).2.2 p hm p (by simp) rfl
  have hdel : (Q (b, k)).erase p = us ++ vs := by
    rw [hq, List.erase_append_right _ hpu, List.erase_cons_head]
  have hmap : (List.map Node.task ∘ Q) (b, k) = us.map .task ++ .task p :: vs.map .task := by
    simp [hq]
  have hfam := h.family.listDel hmap
  rw [h.without_eq_update hp, hdel, map_update, List.map_append]
  exact hfam

theorem Lists.del (h : Lists L A Q) (hp : p ∈ Q (b, k)) :
    Lists (L.listDel (.task p)) (withdrawn A b k ((without Q p (b, k)).isEmpty)) (without Q p) := by
  have hk := h.lt hp
  have hupd := h.without_eq_update hp
  have hlen : ((Q (b, k)).erase p).length + 1 = (Q (b, k)).length := by
    rw [List.length_erase_of_mem hp]
    have := List.length_pos_of_mem hp
    omega
  refine ⟨h.family_del hp, ?_, ?_, ?_, ?_⟩
  · intro c m hm
    by_cases hc : c = b
    · subst hc
      rw [withdrawn, update_self]
      by_cases hmk : m = k
      · subst hmk
        cases he : (without Q p (c, m)).isEmpty with
        | true => simp [testBit_clearBit, List.isEmpty_iff.mp he]
        | false =>
          have hne : without Q p (c, m) ≠ [] := by simpa using he
          simp [hne, (h.bit c m hm).mpr (List.ne_nil_of_mem hp)]
      · have hsame : without Q p (c, m) = Q (c, m) := by
          rw [hupd, update_of_ne]
          intro he
          exact hmk (Prod.ext_iff.mp he).2
        rw [hsame, ← h.bit c m hm]
        split
        · simp [testBit_clearBit, hmk]
        · rfl
    · have hsame : without Q p (c, m) = Q (c, m) := by
        rw [hupd, update_of_ne]
        intro he
        exact hc (Prod.ext_iff.mp he).1
      rw [withdrawn, update_of_ne hc, hsame]
      exact h.bit c m hm
  · intro c
    by_cases hc : c = b
    · subst hc
      rw [withdrawn, update_self]
      split
      · rw [testBit_clearBit (by decide), h.delimiter]
        simp only [Bool.and_true, Bool.not_eq_true', decide_eq_false_iff_not]
        omega
      · exact h.delimiter c
    · rw [withdrawn, update_of_ne hc]
      exact h.delimiter c
  · intro c
    rw [hupd]
    by_cases hc : c = b
    · subst hc
      have := count_update (Q := Q) (b := c) ((Q (c, k)).erase p) hk
      rw [withdrawn, update_self]
      dsimp only
      rw [h.nrActive]
      omega
    · rw [withdrawn, update_of_ne hc, count_update_other hc]
      exact h.nrActive c
  · intro c m hm
    show (Q (c, m)).erase p = []
    rw [h.outside c m hm]
    rfl

/-- A task comes in somewhere in the queue at `k`. -/
theorem Lists.insert (h : Lists L A Q) (hk : k < 140) (hlen : xs.length = (Q (b, k)).length + 1)
    (hfam : Family L' headOf (List.map Node.task ∘ update Q (b, k) xs)) :
    Lists L' (inserted A b k) (update Q (b, k) xs) := by
  have hne : xs ≠ [] := by rintro rfl; simp at hlen
  refine ⟨hfam, ?_, ?_, ?_, ?_⟩
  · intro c m hm
    by_cases hc : c = b
    · subst hc
      rw [inserted, update_self]
      by_cases hmk : m = k
      · subst hmk
        simp [testBit_setBit, hne]
      · have hpair : (c, m) ≠ (c, k) := fun he => hmk (Prod.ext_iff.mp he).2
        rw [update_of_ne hpair, ← h.bit c m hm]
        simp [testBit_setBit, hmk]
    · have hpair : (c, m) ≠ (b, k) := fun he => hc (Prod.ext_iff.mp he).1
      rw [inserted, update_of_ne hc, update_of_ne hpair]
      exact h.bit c m hm
  · intro c
    by_cases hc : c = b
    · subst hc
      rw [inserted, update_self]
      simp [testBit_setBit, h.delimiter]
    · rw [inserted, update_of_ne hc]
      exact h.delimiter c
  · intro c
    by_cases hc : c = b
    · subst hc
      have := count_update (Q := Q) (b := c) xs hk
      rw [inserted, update_self]
      dsimp only
      rw [h.nrActive]
      omega
    · rw [inserted, update_of_ne hc, count_update_other hc]
      exact h.nrActive c
  · intro c m hm
    rw [update_of_ne]
    · exact h.outside c m hm
    · intro he
      have := (Prod.ext_iff.mp he).2
      omega

theorem Lists.insertTail (h : Lists L A Q) (hp : ∀ i, p ∉ Q i) (hk : k < 140) :
    Lists (L.listAddTail (.task p) (.head b k)) (inserted A b k)
      (update Q (b, k) (Q (b, k) ++ [p])) := by
  refine h.insert hk (by simp) ?_
  rw [map_update, List.map_append]
  exact h.family.listAddTail (i := (b, k)) (not_mem_ring hp)

/-- A task that comes back at the priority it has left brings back the bit and
the count. -/
theorem Lists.back {Q' : Content} {e : Bool} (h : Lists L A Q) (hp : p ∈ Q (b, k))
    (hl : Lists L' (inserted (withdrawn A b k e) b k) Q') : Lists L' A Q' := by
  have hset := (h.bit b k (h.lt hp)).mpr (List.ne_nil_of_mem hp)
  refine hl.congr ?_ ?_
  · intro c
    by_cases hc : c = b
    · subst hc; simp [inserted, withdrawn]
    · simp [inserted, withdrawn, hc]
  · intro c m
    by_cases hc : c = b
    · subst hc
      simp only [inserted, withdrawn, update_self, testBit_setBit (by decide : 0 < 32)]
      by_cases hm : m = k
      · simp [hm, hset]
      · split <;> simp [testBit_clearBit, hm]
    · simp [inserted, withdrawn, hc]

/-- A place after the first task, or alone. -/
def afterFirst (p : TaskId) : List TaskId → List TaskId
  | [] => [p]
  | q :: qs => q :: p :: qs

theorem mem_afterFirst {q : TaskId} : q ∈ afterFirst p xs ↔ q = p ∨ q ∈ xs := by
  cases xs with
  | nil => simp [afterFirst]
  | cons y ys => simp only [afterFirst, List.mem_cons]; tauto

theorem length_afterFirst : (afterFirst p xs).length = xs.length + 1 := by
  cases xs <;> rfl

/-- `list_add` at the entry after a list head, which is the head itself if the
list is empty. -/
theorem Lists.insertAfterFirst (h : Lists L A Q) (hp : ∀ i, p ∉ Q i) (hk : k < 140) :
    Lists (L.listAdd (.task p) (L.next (.head b k))) (inserted A b k)
      (update Q (b, k) (afterFirst p (Q (b, k)))) := by
  refine h.insert hk length_afterFirst ?_
  have hring := h.family.ring (b, k)
  rw [map_update]
  cases hq : Q (b, k) with
  | nil =>
    rw [Function.comp_apply, hq] at hring
    have hnext : L.next (.head b k) = headOf (b, k) := hring.seg.1
    have hfam := h.family.listAdd_head (i := (b, k)) (not_mem_ring hp)
    rw [Function.comp_apply, hq] at hfam
    rw [hnext]
    exact hfam
  | cons y ys =>
    rw [Function.comp_apply, hq] at hring
    have hnext : L.next (.head b k) = .task y := hring.seg.1.1
    have hmap : (List.map Node.task ∘ Q) (b, k) = [] ++ .task y :: ys.map .task := by simp [hq]
    rw [hnext]
    exact h.family.listAdd_mem (not_mem_ring hp) hmap

end Edit

end CustomKernel.Sched.Queues

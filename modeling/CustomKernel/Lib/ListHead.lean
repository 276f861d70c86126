import Mathlib.Data.List.Nodup

/-! # Circular doubly linked lists

Lists whose links live in the nodes themselves, with a head that is a node like
any other. `Ring L h xs` says that the ring through the head `h` holds the nodes
`xs` in order, forwards and backwards. A node may be taken out knowing nothing
but the node, and put in knowing only its neighbour; what this does to the ring
it belongs to, and that it does nothing to other rings, is all a user of the
lists needs. -/
namespace CustomKernel.Lib.ListHead
open Function (update update_apply update_of_ne update_self)

structure Links (α : Type) where
  next : α → α
  prev : α → α

section Operations
variable {α : Type} [DecidableEq α]

namespace Links

/-- Put `new` between two neighbours. -/
def insert (L : Links α) (new prev next : α) : Links α where
  next := update (update L.next new next) prev new
  prev := update (update L.prev next new) new prev

def listAdd (L : Links α) (new head : α) : Links α := L.insert new head (L.next head)

def listAddTail (L : Links α) (new head : α) : Links α := L.insert new (L.prev head) head

/-- The neighbours of `entry` are linked to each other; its own links stay. -/
def listDel (L : Links α) (entry : α) : Links α where
  next := update L.next (L.prev entry) (L.next entry)
  prev := update L.prev (L.next entry) (L.prev entry)

def initListHead (L : Links α) (head : α) : Links α where
  next := update L.next head head
  prev := update L.prev head head

def listEmpty (L : Links α) (head : α) : Bool := L.next head = head

end Links
end Operations

/-! ## Segments -/

section Segments
variable {α : Type} {L L' : Links α} {a b x : α} {xs ys : List α}

/-- The way from `a` to `b` leads through `xs`. -/
def Seg (L : Links α) (a : α) : List α → α → Prop
  | [], b => L.next a = b ∧ L.prev b = a
  | x :: xs, b => (L.next a = x ∧ L.prev x = a) ∧ Seg L x xs b

theorem seg_append : Seg L a (xs ++ x :: ys) b ↔ Seg L a xs x ∧ Seg L x ys b := by
  induction xs generalizing a with
  | nil => rfl
  | cons y xs ih =>
    rw [List.cons_append, Seg, Seg, ih]
    exact and_assoc.symm

/-- A segment depends on the forward links of the nodes it leaves and on the
backward links of those it reaches. -/
theorem Seg.congr (h : Seg L a xs b) (hn : ∀ y ∈ a :: xs, L'.next y = L.next y)
    (hp : ∀ y ∈ xs ++ [b], L'.prev y = L.prev y) : Seg L' a xs b := by
  induction xs generalizing a with
  | nil => exact ⟨(hn a (by simp)).trans h.1, (hp b (by simp)).trans h.2⟩
  | cons x xs ih =>
    refine ⟨⟨(hn a (by simp)).trans h.1.1, (hp x (by simp)).trans h.1.2⟩, ih h.2 ?_ ?_⟩
    · intro y hy
      exact hn y (List.mem_cons_of_mem a hy)
    · intro y hy
      exact hp y (List.mem_cons_of_mem x hy)

/-- Where a segment goes first, -/
theorem Seg.next_mem (h : Seg L a xs b) : L.next a ∈ xs ++ [b] := by
  cases xs with
  | nil => simp [h.1]
  | cons x xs => simp [h.1.1]

/-- and where it comes from last. -/
theorem Seg.prev_mem (h : Seg L a xs b) : L.prev b ∈ a :: xs := by
  induction xs generalizing a with
  | nil => simp [h.2]
  | cons x xs ih => exact List.mem_cons_of_mem a (ih h.2)

end Segments

/-! ## Rings -/

section Rings
variable {α : Type} {L L' : Links α} {h a x new : α} {xs us vs : List α}

structure Ring (L : Links α) (h : α) (xs : List α) : Prop where
  seg : Seg L h xs h
  nodup : (h :: xs).Nodup

theorem Ring.congr (hr : Ring L h xs)
    (hsame : ∀ y ∈ h :: xs, L'.next y = L.next y ∧ L'.prev y = L.prev y) : Ring L' h xs := by
  refine ⟨hr.seg.congr (fun y hy => (hsame y hy).1) ?_, hr.nodup⟩
  intro y hy
  refine (hsame y ?_).2
  simpa [or_comm] using hy

variable [DecidableEq α]

theorem Ring.listEmpty_iff (hr : Ring L h xs) : L.listEmpty h = true ↔ xs = [] := by
  cases xs with
  | nil => simp [Links.listEmpty, hr.seg.1]
  | cons x xs =>
    have hne : x ≠ h := by
      intro he
      have := hr.nodup
      simp [he] at this
    simp [Links.listEmpty, hr.seg.1.1, hne]

/-- A new node right behind `a` on the way to `b`. -/
theorem Seg.listAdd {b : α} (hs : Seg L a xs b) (hnew : new ∉ a :: xs) (hnb : new ≠ b)
    (hnd : (a :: xs).Nodup) (hb : b ∉ xs) : Seg (L.listAdd new a) a (new :: xs) b := by
  have hna : new ≠ a := fun he => hnew (he ▸ List.mem_cons_self)
  have hl : (L.listAdd new a).next a = new := by simp [Links.listAdd, Links.insert]
  have hr : (L.listAdd new a).prev new = a := by simp [Links.listAdd, Links.insert]
  have hl' : (L.listAdd new a).next new = L.next a := by
    simp [Links.listAdd, Links.insert, hna]
  have hr' : L.next a ≠ new → (L.listAdd new a).prev (L.next a) = new := by
    intro hne
    simp [Links.listAdd, Links.insert, hne]
  refine ⟨⟨hl, hr⟩, ?_⟩
  cases xs with
  | nil =>
    have hne : L.next a ≠ new := by rw [hs.1]; exact hnb.symm
    exact ⟨by rw [hl', hs.1], by rw [← hs.1]; exact hr' hne⟩
  | cons x xs =>
    have hnx : x ≠ new := by rintro rfl; simp at hnew
    have hne : L.next a ≠ new := by rw [hs.1.1]; exact hnx
    refine ⟨⟨by rw [hl', hs.1.1], by rw [← hs.1.1]; exact hr' hne⟩, hs.2.congr ?_ ?_⟩
    · intro y hy
      have hya : y ≠ a := by rintro rfl; simp only [List.nodup_cons] at hnd; exact hnd.1 hy
      have hyn : y ≠ new := by rintro rfl; exact hnew (List.mem_cons_of_mem a hy)
      simp [Links.listAdd, Links.insert, hya, hyn]
    · intro y hy
      have hyx : y ≠ L.next a := by
        rw [hs.1.1]
        rintro rfl
        simp only [List.mem_append, List.mem_singleton] at hy
        simp only [List.nodup_cons, List.mem_cons, not_or] at hnd hb
        exact hy.elim hnd.2.1 fun he => hb.1 he.symm
      have hyn : y ≠ new := by
        rintro rfl
        simp only [List.mem_append, List.mem_singleton] at hy
        exact hy.elim (fun h => hnew (by simp [h])) hnb
      simp [Links.listAdd, Links.insert, hyx, hyn]

theorem Ring.listAdd_head (hr : Ring L h xs) (hnew : new ∉ h :: xs) :
    Ring (L.listAdd new h) h (new :: xs) := by
  have hnd := hr.nodup
  have hnh : new ≠ h := fun he => hnew (he ▸ List.mem_cons_self)
  simp only [List.nodup_cons] at hnd
  refine ⟨hr.seg.listAdd hnew hnh hr.nodup hnd.1, ?_⟩
  simp only [List.mem_cons, not_or] at hnew
  simp [hnew, hnh.symm, hnd]

theorem Ring.listAdd_mem (hr : Ring L h (us ++ a :: vs)) (hnew : new ∉ h :: (us ++ a :: vs)) :
    Ring (L.listAdd new a) h (us ++ a :: new :: vs) := by
  obtain ⟨h1, h2⟩ := seg_append.mp hr.seg
  have hnd := hr.nodup
  simp only [List.nodup_cons, List.nodup_append, List.mem_append, List.mem_cons, not_or] at hnd
  simp only [List.mem_cons, List.mem_append, not_or] at hnew
  obtain ⟨⟨hhu, hha, hhv⟩, hus, ⟨hav, hvs⟩, hdisj⟩ := hnd
  obtain ⟨hnh, hnu, hna, hnv⟩ := hnew
  refine ⟨seg_append.mpr ⟨?_, h2.listAdd (by simp [hna, hnv]) hnh (by simp [hav, hvs]) hhv⟩, ?_⟩
  · -- up to `a` only the links behind it have changed
    refine h1.congr ?_ ?_
    · intro y hy
      have hya : y ≠ a := by
        rintro rfl
        exact (List.mem_cons.mp hy).elim (fun he => hha he.symm) fun hm => hdisj y hm y (.inl rfl) rfl
      have hyn : y ≠ new := by
        rintro rfl
        exact (List.mem_cons.mp hy).elim hnh hnu
      simp [Links.listAdd, Links.insert, hya, hyn]
    · intro y hy
      have hy' : y ∈ us ∨ y = a := by simpa using hy
      have hyn : y ≠ new := by
        rintro rfl
        exact hy'.elim hnu hna
      have hyx : y ≠ L.next a := by
        rintro rfl
        have hm : L.next a ∈ vs ∨ L.next a = h := by simpa using h2.next_mem
        rcases hm with hm | hm
        · exact hy'.elim (fun hu => hdisj _ hu _ (.inr hm) rfl) fun he => hav (he ▸ hm)
        · exact hy'.elim (fun hu => hhu (hm ▸ hu)) fun he => hha (hm.symm.trans he)
      simp [Links.listAdd, Links.insert, hyx, hyn]
  · simp only [List.nodup_cons, List.nodup_append, List.mem_append, List.mem_cons, not_or]
    refine ⟨⟨hhu, hha, Ne.symm hnh, hhv⟩, hus, ⟨⟨Ne.symm hna, hav⟩, hnv, hvs⟩, ?_⟩
    intro y hy z hz he
    rcases hz with hz | hz | hz
    · exact hdisj y hy z (.inl hz) he
    · exact hnu (by rw [← hz, ← he]; exact hy)
    · exact hdisj y hy z (.inr hz) he

/-- A segment that ended in `x` ends in the node behind `x`, once `x` has been
taken out. -/
theorem Seg.listDel (hs : Seg L a us x) (hnd : (a :: us).Nodup) (hx : x ∉ us)
    (hn : L.next x ∉ us) : Seg (L.listDel x) a us (L.next x) := by
  induction us generalizing a with
  | nil => simp [Seg, Links.listDel, hs.2]
  | cons y us ih =>
    simp only [List.nodup_cons, List.mem_cons, not_or] at hnd hx hn
    have hpa : a ≠ L.prev x := by
      intro he
      have := he ▸ hs.2.prev_mem
      exact (List.mem_cons.mp this).elim hnd.1.1 hnd.1.2
    refine ⟨⟨?_, ?_⟩, ih hs.2 (by simp [hnd.2]) hx.2 hn.2⟩
    · simp [Links.listDel, hpa, hs.1.1]
    · simp [Links.listDel, Ne.symm hn.1, hs.1.2]

theorem Ring.listDel (hr : Ring L h (us ++ x :: vs)) : Ring (L.listDel x) h (us ++ vs) := by
  obtain ⟨h1, h2⟩ := seg_append.mp hr.seg
  have hnd := hr.nodup
  simp only [List.nodup_cons, List.nodup_append, List.mem_append, List.mem_cons, not_or] at hnd
  obtain ⟨⟨hhu, hhx, hhv⟩, hus, ⟨hxv, hvs⟩, hdisj⟩ := hnd
  have hnodup : (h :: (us ++ vs)).Nodup := by
    simp only [List.nodup_cons, List.nodup_append, List.mem_append, not_or]
    exact ⟨⟨hhu, hhv⟩, hus, hvs, fun y hy z hz => hdisj y hy z (.inr hz)⟩
  have hxu : x ∉ us := fun hm => hdisj x hm x (.inl rfl) rfl
  have hnu : L.next x ∉ us := by
    intro hm
    have hm' : L.next x ∈ vs ∨ L.next x = h := by simpa using h2.next_mem
    exact hm'.elim (fun hv => hdisj _ hm _ (.inr hv) rfl) fun he => hhu (he ▸ hm)
  have h3 := h1.listDel (by simp [hhu, hus]) hxu hnu
  refine ⟨?_, hnodup⟩
  cases vs with
  | nil => rw [h2.1] at h3; simpa using h3
  | cons v vs =>
    rw [h2.1.1] at h3
    refine seg_append.mpr ⟨h3, h2.2.congr ?_ ?_⟩
    · intro y hy
      have hyp : y ≠ L.prev x := by
        rintro rfl
        have hm := List.mem_cons.mp h1.prev_mem
        exact hm.elim (fun he => hhv (he ▸ hy)) fun hu => hdisj _ hu _ (.inr hy) rfl
      simp [Links.listDel, hyp]
    · intro y hy
      have hyv : y ≠ v := by
        rintro rfl
        simp only [List.nodup_cons, List.mem_cons, not_or] at hvs hhv
        exact (List.mem_append.mp hy).elim hvs.1 fun he => hhv.1 (List.mem_singleton.mp he).symm
      simp [Links.listDel, h2.1.1, hyv]

end Rings

/-! ## Families of rings -/

section Families
variable {α ι : Type} {L L' : Links α} {head : ι → α} {Q : ι → List α} {i : ι} {new x a : α}
  {xs us vs : List α}

/-- Rings that share no node. -/
structure Family (L : Links α) (head : ι → α) (Q : ι → List α) : Prop where
  ring : ∀ i, Ring L (head i) (Q i)
  apart : ∀ i j, i ≠ j → ∀ y, y ∈ head i :: Q i → y ∉ head j :: Q j

/-- Ring `i` changes, and links change only in nodes `N` that belong to no other
ring. -/
theorem Family.replace [DecidableEq ι] (hf : Family L head Q) {N : List α}
    (hring : Ring L' (head i) xs) (hsub : ∀ y ∈ head i :: xs, y ∈ N)
    (hN : ∀ y ∈ N, ∀ j, j ≠ i → y ∉ head j :: Q j)
    (hout : ∀ y, y ∉ N → L'.next y = L.next y ∧ L'.prev y = L.prev y) :
    Family L' head (update Q i xs) := by
  refine ⟨?_, ?_⟩
  · intro j
    by_cases hj : j = i
    · rw [hj, update_self]
      exact hring
    · rw [update_of_ne hj]
      exact (hf.ring j).congr fun y hy => hout y fun hm => hN y hm j hj hy
  · intro j k hjk y hy
    by_cases hj : j = i
    · rw [hj, update_self] at hy
      rw [update_of_ne (fun hk => hjk (hj.trans hk.symm))]
      exact hN y (hsub y hy) k fun hk => hjk (hj.trans hk.symm)
    · rw [update_of_ne hj] at hy
      by_cases hk : k = i
      · rw [hk, update_self]
        exact fun hm => hN y (hsub y hm) j hj hy
      · rw [update_of_ne hk]
        exact hf.apart j k hjk y hy

variable [DecidableEq α] [DecidableEq ι]

/-- A node from outside goes in behind a node `a` of ring `i`. -/
theorem Family.listAdd (hf : Family L head Q) (hnew : ∀ j, new ∉ head j :: Q j)
    (ha : a ∈ head i :: Q i) (hmem : ∀ y ∈ xs, y = new ∨ y ∈ Q i)
    (hring : Ring (L.listAdd new a) (head i) xs) (hnext : L.next a ∈ head i :: Q i) :
    Family (L.listAdd new a) head (update Q i xs) := by
  refine hf.replace (N := new :: head i :: Q i) hring ?_ ?_ ?_
  · intro y hy
    rcases List.mem_cons.mp hy with rfl | hy
    · simp
    · rcases hmem y hy with rfl | hy <;> simp [*]
  · intro y hy j hj
    rcases List.mem_cons.mp hy with rfl | hy
    · exact hnew j
    · exact hf.apart i j (Ne.symm hj) y hy
  · intro y hy
    have hyn : y ≠ new := fun he => hy (he ▸ List.mem_cons_self)
    have hya : y ≠ a := fun he => hy (List.mem_cons_of_mem new (he ▸ ha))
    have hyx : y ≠ L.next a := fun he => hy (List.mem_cons_of_mem new (he ▸ hnext))
    simp [Links.listAdd, Links.insert, hyn, hya, hyx]

theorem Family.listAdd_mem (hf : Family L head Q) (hnew : ∀ j, new ∉ head j :: Q j)
    (hq : Q i = us ++ a :: vs) :
    Family (L.listAdd new a) head (update Q i (us ++ a :: new :: vs)) := by
  have hr := hf.ring i
  rw [hq] at hr
  refine hf.listAdd hnew (by simp [hq]) ?_ (hr.listAdd_mem (hq ▸ hnew i)) ?_
  · intro y hy
    rw [hq]
    simp only [List.mem_append, List.mem_cons] at hy ⊢
    tauto
  · have hm := (seg_append.mp hr.seg).2.next_mem
    simp only [hq, List.mem_append, List.mem_cons, List.not_mem_nil, or_false] at hm ⊢
    tauto

theorem Family.listAdd_head (hf : Family L head Q) (hnew : ∀ j, new ∉ head j :: Q j) :
    Family (L.listAdd new (head i)) head (update Q i (new :: Q i)) := by
  have hr := hf.ring i
  refine hf.listAdd hnew (by simp) ?_ (hr.listAdd_head (hnew i)) ?_
  · intro y hy
    exact List.mem_cons.mp hy
  · have hm := hr.seg.next_mem
    simp only [List.mem_append, List.mem_cons, List.not_mem_nil, or_false] at hm ⊢
    tauto

theorem Family.listAddTail (hf : Family L head Q) (hnew : ∀ j, new ∉ head j :: Q j) :
    Family (L.listAddTail new (head i)) head (update Q i (Q i ++ [new])) := by
  have hr := hf.ring i
  rcases List.eq_nil_or_concat' (Q i) with hq | ⟨us, a, hq⟩
  · have he : L.listAddTail new (head i) = L.listAdd new (head i) := by
      rw [hq] at hr
      simp only [Links.listAddTail, Links.listAdd, hr.seg.1, hr.seg.2]
    have h := hf.listAdd_head (i := i) hnew
    rw [hq] at h ⊢
    rw [he]
    exact h
  · rw [hq] at hr
    obtain ⟨_, h2⟩ := seg_append.mp hr.seg
    have he : L.listAddTail new (head i) = L.listAdd new a := by
      simp only [Links.listAddTail, Links.listAdd, h2.1, h2.2]
    rw [he, hq, List.append_assoc]
    exact hf.listAdd_mem hnew hq

theorem Family.listDel (hf : Family L head Q) (hq : Q i = us ++ x :: vs) :
    Family (L.listDel x) head (update Q i (us ++ vs)) := by
  have hr := hf.ring i
  rw [hq] at hr
  obtain ⟨h1, h2⟩ := seg_append.mp hr.seg
  refine hf.replace (N := head i :: Q i) hr.listDel ?_ ?_ ?_
  · intro y hy
    simp only [hq, List.mem_append, List.mem_cons] at hy ⊢
    tauto
  · intro y hy j hj
    exact hf.apart i j (Ne.symm hj) y hy
  · intro y hy
    have hyn : y ≠ L.next x := by
      rintro rfl
      have hm := h2.next_mem
      simp only [hq, List.mem_append, List.mem_cons, List.not_mem_nil, or_false] at hm hy
      tauto
    have hyp : y ≠ L.prev x := by
      rintro rfl
      have hm := h1.prev_mem
      simp only [hq, List.mem_append, List.mem_cons] at hm hy
      tauto
    simp [Links.listDel, hyn, hyp]

end Families

/-! ## Closed sets of nodes

Where only the membership in rings matters, it is enough that the links lead from
members to members, there and back. -/

section Closed
variable {α : Type} {L : Links α} {P : α → Prop} {a x t u : α}

def Closed (L : Links α) (P : α → Prop) : Prop :=
  ∀ t, P t → (P (L.next t) ∧ P (L.prev t)) ∧ L.prev (L.next t) = t ∧ L.next (L.prev t) = t

theorem Closed.next_inj (h : Closed L P) (ht : P t) (hu : P u)
    (heq : L.next t = L.next u) : t = u := by
  rw [← (h t ht).2.1, heq, (h u hu).2.1]

theorem Closed.prev_inj (h : Closed L P) (ht : P t) (hu : P u)
    (heq : L.prev t = L.prev u) : t = u := by
  rw [← (h t ht).2.2, heq, (h u hu).2.2]

variable [DecidableEq α]

theorem Closed.initListHead (h : Closed L P) (hx : ¬P x) : Closed (L.initListHead x) P := by
  have hold (t : α) (ht : P t) : t ≠ x := fun heq => hx (heq ▸ ht)
  intro t ht
  obtain ⟨⟨hn, hp⟩, h1, h2⟩ := h t ht
  simp only [Links.initListHead, update_of_ne (hold t ht),
    update_of_ne (hold _ hn), update_of_ne (hold _ hp)]
  exact ⟨⟨hn, hp⟩, h1, h2⟩

theorem Closed.insert_self (h : Closed L P) (hx : L.next x = x ∧ L.prev x = x) :
    Closed L fun t => P t ∨ t = x := by
  intro t ht
  rcases ht with ht | rfl
  · obtain ⟨⟨hn, hp⟩, h1, h2⟩ := h t ht
    exact ⟨⟨.inl hn, .inl hp⟩, h1, h2⟩
  · simp [hx]

theorem Closed.listAdd (h : Closed L P) (ha : P a) (hx : ¬P x) :
    Closed (L.listAdd x a) fun t => P t ∨ t = x := by
  have hold (t : α) (ht : P t) : t ≠ x := fun heq => hx (heq ▸ ht)
  have hax := hold a ha
  obtain ⟨⟨hna, _⟩, hpna, _⟩ := h a ha
  have hnext (t : α) : (L.listAdd x a).next t =
      if t = a then x else if t = x then L.next a else L.next t := by
    simp [Links.listAdd, Links.insert, update_apply]
  have hprev (t : α) : (L.listAdd x a).prev t =
      if t = x then a else if t = L.next a then x else L.prev t := by
    simp [Links.listAdd, Links.insert, update_apply]
  intro t ht
  rcases ht with ht | rfl
  · obtain ⟨⟨hn, hp⟩, h1, h2⟩ := h t ht
    have htx := hold t ht
    refine ⟨⟨?_, ?_⟩, ?_, ?_⟩
    · rw [hnext, if_neg htx]
      split
      · exact .inr rfl
      · exact .inl hn
    · rw [hprev, if_neg htx]
      split
      · exact .inr rfl
      · exact .inl hp
    · rw [hnext, if_neg htx]
      split
      next hta => rw [hprev, if_pos rfl, hta]
      next hta =>
        rw [hprev, if_neg (hold _ hn), if_neg (fun heq => hta (h.next_inj ht ha heq)), h1]
    · rw [hprev, if_neg htx]
      split
      next hta => rw [hnext, if_neg hax.symm, if_pos rfl, hta]
      next hta =>
        have hne : L.prev t ≠ a := fun heq => hta (heq ▸ h2.symm)
        rw [hnext, if_neg hne, if_neg (hold _ hp), h2]
  · refine ⟨⟨?_, ?_⟩, ?_, ?_⟩
    · rw [hnext, if_neg hax.symm, if_pos rfl]
      exact .inl hna
    · rw [hprev, if_pos rfl]
      exact .inl ha
    · rw [hnext, if_neg hax.symm, if_pos rfl, hprev, if_neg (hold _ hna), if_pos rfl]
    · rw [hprev, if_pos rfl, hnext, if_pos rfl]

theorem Closed.listDel (h : Closed L P) (hx : P x) :
    Closed (L.listDel x) fun t => P t ∧ t ≠ x := by
  obtain ⟨⟨hnx, hpx⟩, hpn, hnp⟩ := h x hx
  have hnext (t : α) : (L.listDel x).next t = if t = L.prev x then L.next x else L.next t := by
    simp [Links.listDel, update_apply]
  have hprev (t : α) : (L.listDel x).prev t = if t = L.next x then L.prev x else L.prev t := by
    simp [Links.listDel, update_apply]
  intro t ⟨ht, htx⟩
  obtain ⟨⟨hn, hp⟩, h1, h2⟩ := h t ht
  refine ⟨⟨?_, ?_⟩, ?_, ?_⟩
  · rw [hnext]
    split
    next htp => exact ⟨hnx, fun heq => htx (by rw [htp, ← heq, hpn, heq])⟩
    next htp => exact ⟨hn, fun heq => htp (by rw [← heq, h1])⟩
  · rw [hprev]
    split
    next htn => exact ⟨hpx, fun heq => htx (by rw [htn, ← heq, hnp, heq])⟩
    next htn => exact ⟨hp, fun heq => htn (by rw [← heq, h2])⟩
  · rw [hnext]
    split
    next htp => rw [hprev, if_pos rfl, htp]
    next htp => rw [hprev, if_neg (fun heq => htx (h.next_inj ht hx heq)), h1]
  · rw [hprev]
    split
    next htn => rw [hnext, if_pos rfl, htn]
    next htn => rw [hnext, if_neg (fun heq => htx (h.prev_inj ht hx heq)), h2]

end Closed

end CustomKernel.Lib.ListHead

import Mathlib.Data.List.Nodup

/-! # Owned lists that end in null

Every node may own a list: it points to the first member, and the members are
linked to their next and previous ones, with null at both ends. Members are put
in front and taken out anywhere. `Forest L kids stale` says that each node `o`
owns the list `kids o`; the first member of a list should have no previous one,
and `stale o` is what it has instead. -/
namespace CustomKernel.Lib.Siblings
open Function (update update_eq_self update_of_ne update_self)

structure Kin (α : Type) where
  first : α → Option α
  next : α → Option α
  prev : α → Option α

section Operations
variable {α : Type} [DecidableEq α]

namespace Kin

def setFirst (L : Kin α) (o : α) (v : Option α) : Kin α :=
  { L with first := update L.first o v }

def setNext (L : Kin α) (x : α) (v : Option α) : Kin α :=
  { L with next := update L.next x v }

def setPrev (L : Kin α) (x : α) (v : Option α) : Kin α :=
  { L with prev := update L.prev x v }

/-- Behind a test for null. -/
def setPrevIf (L : Kin α) (x : Option α) (v : Option α) : Kin α :=
  match x with
  | some x => L.setPrev x v
  | none => L

/-- Take `x` out of the list of `o`. -/
def unlink (L : Kin α) (o x : α) : Kin α :=
  let L := L.setPrevIf (L.next x) (L.prev x)
  match L.prev x with
  | some y => L.setNext y (L.next x)
  | none => L.setFirst o (L.next x)

/-- Put `x` in front of the list of `o`. -/
def link (L : Kin α) (o x : α) : Kin α :=
  let L := L.setPrev x none
  let L := L.setNext x (L.first o)
  let L := L.setPrevIf (L.next x) (some x)
  L.setFirst o (some x)

end Kin
end Operations

/-! ## Segments -/

section Segments
variable {α : Type} {L L' : Kin α} {y z : Option α} {x : α} {xs us vs : List α}

/-- The members `xs` are linked to each other; `y` comes before and `z` after them. -/
def Seg (L : Kin α) : Option α → List α → Option α → Prop
  | _, [], _ => True
  | y, x :: xs, z => L.prev x = y ∧ L.next x = xs.head?.or z ∧ Seg L (some x) xs z

theorem seg_append :
    Seg L y (us ++ vs) z ↔ Seg L y us (vs.head?.or z) ∧ Seg L (us.getLast?.or y) vs z := by
  induction us generalizing y with
  | nil => simp [Seg]
  | cons u us ih =>
    have hlast : (u :: us).getLast?.or y = us.getLast?.or (some u) := by
      rw [List.getLast?_cons]
      cases us.getLast? <;> rfl
    rw [List.cons_append, Seg, Seg, ih, hlast, List.head?_append, Option.or_assoc]
    simp only [and_assoc]

theorem Seg.congr (h : Seg L y xs z)
    (hsame : ∀ x ∈ xs, L'.prev x = L.prev x ∧ L'.next x = L.next x) : Seg L' y xs z := by
  induction xs generalizing y with
  | nil => trivial
  | cons x xs ih =>
    obtain ⟨hp, hn⟩ := hsame x List.mem_cons_self
    refine ⟨hp.trans h.1, hn.trans h.2.1, ih h.2.2 ?_⟩
    intro x' hx'
    exact hsame x' (List.mem_cons_of_mem x hx')

theorem Seg.next_eq (h : Seg L y xs none) {j : Nat} (hj : xs[j]? = some x) :
    L.next x = xs[j + 1]? := by
  induction xs generalizing y j with
  | nil => cases hj
  | cons a xs ih =>
    cases j with
    | zero =>
      cases hj
      rw [h.2.1, Option.or_none, List.head?_eq_getElem?]
      rfl
    | succ j => exact ih h.2.2 hj

theorem Seg.prev_eq (h : Seg L y xs z) {j : Nat} (hj : xs[j]? = some x) :
    L.prev x = if j = 0 then y else xs[j - 1]? := by
  induction xs generalizing y j with
  | nil => cases hj
  | cons a xs ih =>
    cases j with
    | zero =>
      cases hj
      exact h.1
    | succ j =>
      rw [ih h.2.2 hj, if_neg (Nat.succ_ne_zero j)]
      cases j <;> rfl

variable [DecidableEq α]

theorem Seg.setFirst (h : Seg L y xs z) (o : α) (v : Option α) : Seg (L.setFirst o v) y xs z :=
  h.congr fun _ _ => ⟨rfl, rfl⟩

theorem Seg.setPrev (h : Seg L y xs z) (hx : x ∉ xs) (v : Option α) :
    Seg (L.setPrev x v) y xs z := by
  refine h.congr fun x' hx' => ⟨update_of_ne ?_ _ _, rfl⟩
  intro heq
  exact hx (heq ▸ hx')

theorem Seg.setNext (h : Seg L y xs z) (hx : x ∉ xs) (v : Option α) :
    Seg (L.setNext x v) y xs z := by
  refine h.congr fun x' hx' => ⟨rfl, update_of_ne ?_ _ _⟩
  intro heq
  exact hx (heq ▸ hx')

theorem Seg.setPrevIf (h : Seg L y xs z) (hnd : xs.Nodup) (v : Option α) :
    Seg (L.setPrevIf xs.head? v) v xs z := by
  cases xs with
  | nil => trivial
  | cons x xs =>
    have hx := (List.nodup_cons.mp hnd).1
    exact ⟨update_self .., h.2.1, h.2.2.setPrev hx v⟩

theorem Seg.setNext_last (h : Seg L y (us ++ [x]) z) (hx : x ∉ us) (v : Option α) :
    Seg (L.setNext x v) y (us ++ [x]) v := by
  rw [seg_append] at h ⊢
  exact ⟨h.1.setNext hx v, h.2.1, update_self .., trivial⟩

end Segments

/-! ## All the lists -/

section Forests
variable {α : Type} {L : Kin α} {kids : α → List α} {stale : α → Option α} {o x : α} {xs : List α}

structure Forest (L : Kin α) (kids : α → List α) (stale : α → Option α) : Prop where
  first : ∀ o, L.first o = (kids o).head?
  seg : ∀ o, Seg L (stale o) (kids o) none
  nodup : ∀ o, (kids o).Nodup
  unique : ∀ o o' x, x ∈ kids o → x ∈ kids o' → o = o'

/-- A node that is in no other list than that of `o`. -/
theorem Forest.not_mem (h : Forest L kids stale) (hx : x ∈ kids o) {o' : α} (ho : o' ≠ o) :
    x ∉ kids o' := fun hx' => ho (h.unique o' o x hx' hx)

variable [DecidableEq α]

theorem Kin.setPrevIf_next (L : Kin α) (x v : Option α) : (L.setPrevIf x v).next = L.next := by
  cases x <;> rfl

theorem Kin.setPrevIf_first (L : Kin α) (x v : Option α) : (L.setPrevIf x v).first = L.first := by
  cases x <;> rfl

theorem Seg.setPrevIf_of_not_mem {y z n : Option α} (h : Seg L y xs z)
    (hn : ∀ x, n = some x → x ∉ xs) (v : Option α) : Seg (L.setPrevIf n v) y xs z := by
  cases n with
  | none => exact h
  | some x => exact h.setPrev (hn x rfl) v

/-- The list of one owner is replaced, and nobody else is touched. -/
theorem Forest.change {L' : Kin α} {y : Option α} (h : Forest L kids stale)
    (hfirst : L'.first o = xs.head?) (hseg : Seg L' y xs none) (hnd : xs.Nodup)
    (hnew : ∀ x ∈ xs, ∀ o', o' ≠ o → x ∉ kids o')
    (hothers : ∀ o', o' ≠ o → L'.first o' = L.first o' ∧
      ∀ x ∈ kids o', L'.prev x = L.prev x ∧ L'.next x = L.next x) :
    Forest L' (update kids o xs) (update stale o y) := by
  refine ⟨fun o' => ?_, fun o' => ?_, fun o' => ?_, ?_⟩
  · rcases eq_or_ne o' o with rfl | ho
    · rw [update_self, hfirst]
    · rw [update_of_ne ho, (hothers o' ho).1, h.first]
  · rcases eq_or_ne o' o with rfl | ho
    · rw [update_self, update_self]
      exact hseg
    · rw [update_of_ne ho, update_of_ne ho]
      exact (h.seg o').congr (hothers o' ho).2
  · rcases eq_or_ne o' o with rfl | ho
    · rwa [update_self]
    · rw [update_of_ne ho]
      exact h.nodup o'
  · have hcases {o' x' : α} (hx : x' ∈ update kids o xs o') :
        o' = o ∧ x' ∈ xs ∨ o' ≠ o ∧ x' ∈ kids o' := by
      rcases eq_or_ne o' o with rfl | ho
      · exact .inl ⟨rfl, by rwa [update_self] at hx⟩
      · exact .inr ⟨ho, by rwa [update_of_ne ho] at hx⟩
    intro o1 o2 x h1 h2
    rcases hcases h1 with ⟨h1, hx1⟩ | ⟨h1, hx1⟩ <;> rcases hcases h2 with ⟨h2, hx2⟩ | ⟨h2, hx2⟩
    · exact h1.trans h2.symm
    · exact absurd hx2 (hnew x hx1 o2 h2)
    · exact absurd hx1 (hnew x hx2 o1 h1)
    · exact h.unique o1 o2 x hx1 hx2

theorem Kin.setPrevIf_prev {n : Option α} (hx : n ≠ some x) (v : Option α) :
    (L.setPrevIf n v).prev x = L.prev x := by
  cases n with
  | none => rfl
  | some y => exact update_of_ne (fun heq => hx (congrArg some heq.symm)) _ _

/-- Taking a member out leaves the rest of its list, and the other lists. -/
theorem Forest.unlink (h : Forest L kids stale) (hs : stale o = none) (hx : x ∈ kids o) :
    Forest (L.unlink o x) (update kids o ((kids o).erase x)) stale := by
  obtain ⟨us, vs, hsplit⟩ := List.append_of_mem hx
  have hnd := h.nodup o
  have hseg := h.seg o
  have hmem (y : α) : y ∈ kids o ↔ y ∈ us ∨ y = x ∨ y ∈ vs := by simp [hsplit]
  rw [hs, hsplit, seg_append, Option.or_none] at hseg
  obtain ⟨hus, hprev, hnext, hvs⟩ := hseg
  rw [Option.or_none] at hnext
  rw [hsplit, List.nodup_append, List.nodup_cons] at hnd
  obtain ⟨hus', ⟨hxvs, hvs'⟩, hdisj⟩ := hnd
  have hxus : x ∉ us := fun hm => hdisj x hm x List.mem_cons_self rfl
  have herase : (kids o).erase x = us ++ vs := by
    rw [hsplit, List.erase_append_right _ hxus, List.erase_cons_head]
  -- the nodes that change are members of this list
  have hhead (y : α) (hy : vs.head? = some y) : y ∈ vs := List.mem_of_head? hy
  have hxhead : vs.head? ≠ some x := fun heq => hxvs (hhead x heq)
  have hvs1 := hvs.setPrevIf hvs' us.getLast?
  have hothers1 (y : α) (hy : y ∉ kids o) : (L.setPrevIf vs.head? us.getLast?).prev y = L.prev y := by
    refine Kin.setPrevIf_prev (fun heq => hy ?_) _
    exact (hmem y).mpr (.inr (.inr (hhead y heq)))
  rw [herase]
  have hupdate : stale = update stale o none := by
    rw [← hs, update_eq_self]
  rw [hupdate]
  unfold Kin.unlink
  rw [hprev, hnext]
  dsimp only
  rw [Kin.setPrevIf_prev hxhead, hprev, Kin.setPrevIf_next, hnext]
  have hnew : ∀ y ∈ us ++ vs, ∀ o', o' ≠ o → y ∉ kids o' := by
    intro y hy o' ho
    refine h.not_mem ((hmem y).mpr ?_) ho
    rcases List.mem_append.mp hy with hy | hy
    · exact .inl hy
    · exact .inr (.inr hy)
  have hrest : (us ++ vs).Nodup := by
    rw [List.nodup_append]
    exact ⟨hus', hvs', fun a ha b hb => hdisj a ha b (List.mem_cons_of_mem x hb)⟩
  rcases us.eq_nil_or_concat with rfl | ⟨us, y, rfl⟩
  · refine h.change (update_self ..) (hvs1.setFirst o _) hrest hnew ?_
    intro o' ho
    refine ⟨?_, fun w hw => ⟨hothers1 w ?_, ?_⟩⟩
    · exact (update_of_ne ho _ _).trans (congrFun (Kin.setPrevIf_first ..) o')
    · exact fun hm => h.not_mem hm ho hw
    · exact congrFun (Kin.setPrevIf_next ..) w
  · rw [List.concat_eq_append] at *
    have hlast : (us ++ [y]).getLast? = some y := List.getLast?_concat ..
    rw [hlast] at hvs1 hothers1 ⊢
    have hyus : y ∉ us := by
      rw [List.nodup_append] at hus'
      exact fun hm => hus'.2.2 y hm y (List.mem_singleton_self y) rfl
    have hyvs : y ∉ vs := fun hm =>
      hdisj y (List.mem_append_right us (List.mem_singleton_self y)) y (List.mem_cons_of_mem x hm) rfl
    have hus1 : Seg (L.setPrevIf vs.head? (some y)) none (us ++ [y]) (some x) := by
      refine hus.setPrevIf_of_not_mem ?_ _
      intro w hw hmem'
      exact hdisj w hmem' w (List.mem_cons_of_mem x (hhead w hw)) rfl
    refine h.change ?_ ?_ hrest hnew ?_
    · change (L.setPrevIf vs.head? (some y)).first o = _
      rw [Kin.setPrevIf_first, h.first, hsplit]
      cases us <;> rfl
    · rw [seg_append, Option.or_none, Option.or_none, hlast]
      exact ⟨hus1.setNext_last hyus _, hvs1.setNext hyvs _⟩
    · intro o' ho
      refine ⟨congrFun (Kin.setPrevIf_first ..) o', fun w hw => ⟨hothers1 w ?_, ?_⟩⟩
      · exact fun hm => h.not_mem hm ho hw
      · have hwy : w ≠ y := by
          intro heq
          exact hnew y (by simp) o' ho (heq ▸ hw)
        exact (update_of_ne hwy _ _).trans (congrFun (Kin.setPrevIf_next ..) w)

/-- A node that is in no list goes to the front of one; a stale link there is mended. -/
theorem Forest.link (h : Forest L kids stale) (hx : ∀ o', x ∉ kids o') (o : α) :
    Forest (L.link o x) (update kids o (x :: kids o)) (update stale o none) := by
  have hhead (y : α) (hy : (kids o).head? = some y) : y ∈ kids o := List.mem_of_head? hy
  have hxhead : (kids o).head? ≠ some x := fun heq => hx o (hhead x heq)
  have hnext : ((L.setPrev x none).setNext x (L.first o)).next x = (kids o).head? :=
    (update_self ..).trans (h.first o)
  change Forest ((((L.setPrev x none).setNext x (L.first o)).setPrevIf
    (((L.setPrev x none).setNext x (L.first o)).next x) (some x)).setFirst o (some x)) _ _
  rw [hnext]
  refine h.change (update_self ..) ?_ ?_ ?_ ?_
  · apply Seg.setFirst
    refine ⟨?_, ?_, ?_⟩
    · exact (Kin.setPrevIf_prev hxhead _).trans (update_self ..)
    · rw [Kin.setPrevIf_next, hnext, Option.or_none]
    · exact (((h.seg o).setPrev (hx o) none).setNext (hx o) _).setPrevIf (h.nodup o) _
  · exact List.nodup_cons.mpr ⟨hx o, h.nodup o⟩
  · intro y hy o' ho
    rcases List.mem_cons.mp hy with rfl | hy
    · exact hx o'
    · exact h.not_mem hy ho
  · intro o' ho
    refine ⟨?_, fun w hw => ?_⟩
    · exact (update_of_ne ho _ _).trans (congrFun (Kin.setPrevIf_first ..) o')
    · have hwx : w ≠ x := fun heq => hx o' (heq ▸ hw)
      have hwhead : (kids o).head? ≠ some w := fun heq => h.not_mem (hhead w heq) ho hw
      refine ⟨?_, ?_⟩
      · exact (Kin.setPrevIf_prev hwhead _).trans (update_of_ne hwx _ _)
      · exact (congrFun (Kin.setPrevIf_next ..) w).trans (update_of_ne hwx _ _)

/-- The first member is skipped: the second one still has it as its previous one. -/
theorem Forest.skip (h : Forest L kids stale) (hkids : kids o = x :: xs) :
    Forest (L.setFirst o (L.next x)) (update kids o xs) (update stale o (some x)) := by
  have hseg := h.seg o
  have hnd := h.nodup o
  rw [hkids] at hseg hnd
  obtain ⟨_, hnext, hrest⟩ := hseg
  rw [Option.or_none] at hnext
  rw [hnext]
  refine h.change (update_self ..) (hrest.setFirst o _) (List.nodup_cons.mp hnd).2 ?_ ?_
  · intro y hy o' ho
    exact h.not_mem (hkids ▸ List.mem_cons_of_mem x hy) ho
  · intro o' ho
    exact ⟨update_of_ne ho _ _, fun _ _ => ⟨rfl, rfl⟩⟩

end Forests

end CustomKernel.Lib.Siblings

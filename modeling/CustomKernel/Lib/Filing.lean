import Mathlib.Data.List.Nodup

/-! # Items filed in lists

Many lists share a set of items, and an item is on one of them at most. `Filed` says on
which: a map from the items to the lists stands for the lists wherever their order does not
matter. -/
namespace CustomKernel.Lib.Filing
open Function

variable {α β : Type} [DecidableEq α] [DecidableEq β]

def insert (vec : β → List α) (b : β) (a : α) : β → List α :=
  update vec b (vec b ++ [a])

def push (vec : β → List α) (b : β) (a : α) : β → List α :=
  update vec b (a :: vec b)

def remove (vec : β → List α) (a : α) : β → List α :=
  fun b => (vec b).erase a

/-- No list holds an item twice, and an item is on the list `loc` gives and on no other. -/
structure Filed (vec : β → List α) (loc : α → Option β) : Prop where
  nodup : ∀ b, (vec b).Nodup
  mem : ∀ a b, a ∈ vec b ↔ loc a = some b

section
variable {vec : β → List α} {loc : α → Option β} {a : α} {b : β}

omit [DecidableEq α] [DecidableEq β] in
theorem filed_empty : Filed (fun _ : β => ([] : List α)) (fun _ => none) :=
  ⟨fun _ => List.nodup_nil, by simp⟩

omit [DecidableEq β] in
theorem Filed.remove_absent (h : Filed vec loc) (ha : loc a = none) : remove vec a = vec := by
  funext b
  refine List.erase_of_not_mem ?_
  rw [h.mem, ha]
  simp

omit [DecidableEq β] in
theorem Filed.remove (h : Filed vec loc) (a : α) :
    Filed (remove vec a) (update loc a none) := by
  refine ⟨fun b => (h.nodup b).erase a, ?_⟩
  intro a' b
  simp only [Filing.remove, (h.nodup b).mem_erase_iff, h.mem]
  rcases eq_or_ne a' a with rfl | hne
  · simp
  · simp [hne]

theorem Filed.insert (h : Filed vec loc) (ha : loc a = none) (b : β) :
    Filed (insert vec b a) (update loc a (some b)) := by
  have hnot : a ∉ vec b := by rw [h.mem, ha]; simp
  constructor
  · intro b'
    rcases eq_or_ne b' b with rfl | hne
    · rw [Filing.insert, update_self]
      exact (h.nodup b').append (List.nodup_singleton a) (by simpa using hnot)
    · rw [Filing.insert, update_of_ne hne]
      exact h.nodup b'
  · intro a' b'
    rcases eq_or_ne a' a with rfl | hne
    · rcases eq_or_ne b' b with rfl | hb
      · simp [Filing.insert]
      · rw [Filing.insert, update_of_ne hb, h.mem, ha]
        simp [Ne.symm hb]
    · rw [update_of_ne hne, ← h.mem]
      rcases eq_or_ne b' b with rfl | hb
      · simp [Filing.insert, hne]
      · rw [Filing.insert, update_of_ne hb]

omit [DecidableEq α] [DecidableEq β] in
theorem Filed.perm {vec' : β → List α} (h : Filed vec loc) (hperm : ∀ b, (vec b).Perm (vec' b)) :
    Filed vec' loc :=
  ⟨fun b => (hperm b).nodup_iff.mp (h.nodup b), fun a b => by rw [← (hperm b).mem_iff, h.mem]⟩

theorem Filed.push (h : Filed vec loc) (ha : loc a = none) (b : β) :
    Filed (push vec b a) (update loc a (some b)) := by
  refine (h.insert ha b).perm fun b' => ?_
  rcases eq_or_ne b' b with rfl | hne
  · rw [Filing.insert, Filing.push, update_self, update_self]
    exact List.perm_append_singleton a (vec b')
  · rw [Filing.insert, Filing.push, update_of_ne hne, update_of_ne hne]

omit [DecidableEq α] in
theorem length_push (vec : β → List α) (a : α) (b b' : β) :
    (Filing.push vec b a b').length = (vec b').length + if b' = b then 1 else 0 := by
  rcases eq_or_ne b' b with rfl | hne
  · rw [Filing.push, update_self, if_pos rfl, List.length_cons]
  · rw [Filing.push, update_of_ne hne, if_neg hne, Nat.add_zero]

theorem Filed.length_remove (h : Filed vec loc) (ha : loc a = some b) (b' : β) :
    (vec b').length = (Filing.remove vec a b').length + if b' = b then 1 else 0 := by
  rcases eq_or_ne b' b with rfl | hne
  · have hmem : a ∈ vec b' := (h.mem a b').mpr ha
    have hpos := List.length_pos_of_mem hmem
    rw [Filing.remove, List.length_erase_of_mem hmem, if_pos rfl]
    omega
  · have hnot : a ∉ vec b' := by
      rw [h.mem, ha, Option.some.injEq]
      exact Ne.symm hne
    rw [Filing.remove, List.erase_of_not_mem hnot, if_neg hne, Nat.add_zero]

/-- An item that goes from where it is, if it is anywhere, to the end of a list. -/
theorem Filed.move (h : Filed vec loc) (a : α) (b : β) :
    Filed (Filing.insert (Filing.remove vec a) b a) (update loc a (some b)) := by
  have hgone := (h.remove a).insert (update_self a none loc) b
  rwa [update_idem] at hgone

end

end CustomKernel.Lib.Filing

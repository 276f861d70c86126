import Mathlib.Data.List.Nodup
import Mathlib.Data.List.Perm.Basic

/-! # Trees by first child and next sibling

A forest is empty, or its first tree stands in front of the others. Every node has a key. -/
namespace CustomKernel.Lib.Nested

inductive Forest (α : Type*) where
  | nil
  | node (a : α) (child sibling : Forest α)
deriving DecidableEq, Repr

namespace Forest
variable {α ι : Type*} {a : α} {path : List α}

/-- The first nodes of the trees. -/
def level : Forest α → List α
  | nil => []
  | node a _ sibling => a :: sibling.level

/-- Every node with what stands below it. -/
def nodes : Forest α → List (α × Forest α)
  | nil => []
  | node a child sibling => (a, child) :: (child.nodes ++ sibling.nodes)

/-- For every node, what is above it from the top, and the node itself. -/
def paths : Forest α → List (List α)
  | nil => []
  | node a child sibling => [a] :: (child.paths.map (a :: ·) ++ sibling.paths)

section
variable (key : α → ι)

def keys : Forest α → List ι
  | nil => []
  | node a child sibling => key a :: (child.keys ++ sibling.keys)

variable [DecidableEq ι]

def find? (k : ι) : Forest α → Option (α × Forest α)
  | nil => none
  | node a child sibling =>
    if key a = k then some (a, child) else (child.find? k).or (sibling.find? k)

/-- The node that has the key among its children. -/
def parent? (k : ι) : Forest α → Option α
  | nil => none
  | node a child sibling =>
    if k ∈ child.level.map key then some a else (child.parent? k).or (sibling.parent? k)

/-- Put something else below the node with the key. -/
def update : Forest α → ι → Forest α → Forest α
  | nil, _, _ => nil
  | node a child sibling, k, new =>
    node a (if key a = k then new else child.update k new) (sibling.update k new)

/-- Without the tree of the node with the key. -/
def erase (k : ι) : Forest α → Forest α
  | nil => nil
  | node a child sibling =>
    if key a = k then sibling.erase k else node a (child.erase k) (sibling.erase k)

end

/-- The second forest is the first one with a tree put in somewhere. -/
inductive Adds (a : α) (sub : Forest α) : Forest α → Forest α → Prop
  | here (f : Forest α) : Adds a sub f (node a sub f)
  | next {b : α} {child f f' : Forest α} : Adds a sub f f' → Adds a sub (node b child f) (node b child f')
  | inside {b : α} {f f' sibling : Forest α} :
    Adds a sub f f' → Adds a sub (node b f sibling) (node b f' sibling)

/-! ## Paths -/

theorem mem_paths_node {child sibling : Forest α} :
    path ∈ (node a child sibling).paths ↔
      path = [a] ∨ (∃ rest ∈ child.paths, path = a :: rest) ∨ path ∈ sibling.paths := by
  simp only [paths, List.mem_cons, List.mem_append, List.mem_map]
  constructor
  · rintro (h | ⟨rest, hrest, rfl⟩ | h)
    exacts [.inl h, .inr (.inl ⟨rest, hrest, rfl⟩), .inr (.inr h)]
  · rintro (h | ⟨rest, hrest, rfl⟩ | h)
    exacts [.inl h, .inr (.inl ⟨rest, hrest, rfl⟩), .inr (.inr h)]

theorem ne_nil_of_mem_paths {f : Forest α} (h : path ∈ f.paths) : path ≠ [] := by
  induction f generalizing path with
  | nil => cases h
  | node a child sibling _ ih =>
    rcases mem_paths_node.mp h with rfl | ⟨rest, -, rfl⟩ | h
    exacts [List.cons_ne_nil _ _, List.cons_ne_nil _ _, ih h]

theorem exists_mem_nodes_of_mem_level {f : Forest α} (h : a ∈ f.level) :
    ∃ child, (a, child) ∈ f.nodes := by
  induction f with
  | nil => cases h
  | node b child sibling _ ih =>
    rcases List.mem_cons.mp h with rfl | h
    · exact ⟨child, List.mem_cons_self⟩
    · obtain ⟨c, hc⟩ := ih h
      exact ⟨c, List.mem_cons_of_mem _ (List.mem_append_right _ hc)⟩

/-- A node on a path, and the rest of the path below it. -/
theorem exists_mem_nodes_of_path {f : Forest α} {above rest : List α}
    (h : above ++ a :: rest ∈ f.paths) :
    ∃ child, (a, child) ∈ f.nodes ∧ (rest ≠ [] → rest ∈ child.paths) := by
  induction f generalizing above with
  | nil => cases h
  | node b child sibling ihc ihs =>
    rcases mem_paths_node.mp h with hone | ⟨rest', hrest', hcons⟩ | h
    · obtain ⟨-, hone⟩ | ⟨-, hone⟩ := List.append_eq_singleton_iff.mp hone
      · obtain ⟨rfl, rfl⟩ := List.cons.inj hone
        exact ⟨child, List.mem_cons_self, absurd rfl⟩
      · cases hone
    · cases above with
      | nil =>
        obtain ⟨rfl, rfl⟩ := List.cons.inj hcons
        exact ⟨child, List.mem_cons_self, fun _ => hrest'⟩
      | cons b' above =>
        obtain ⟨rfl, rfl⟩ := List.cons.inj hcons
        obtain ⟨c, hc, hrest⟩ := ihc hrest'
        exact ⟨c, List.mem_cons_of_mem _ (List.mem_append_left _ hc), hrest⟩
    · obtain ⟨c, hc, hrest⟩ := ihs h
      exact ⟨c, List.mem_cons_of_mem _ (List.mem_append_right _ hc), hrest⟩

section
variable (key : α → ι) {f : Forest α} {a : α}

theorem key_mem_of_mem_nodes {q : α × Forest α} (h : q ∈ f.nodes) :
    key q.1 ∈ f.keys key := by
  induction f with
  | nil => cases h
  | node b child sibling ihc ihs =>
    simp only [keys, List.mem_cons, List.mem_append]
    rcases List.mem_cons.mp h with rfl | h
    · exact .inl rfl
    · exact .inr ((List.mem_append.mp h).imp ihc ihs)

theorem key_mem_of_mem_level (h : a ∈ f.level) : key a ∈ f.keys key := by
  obtain ⟨c, hc⟩ := exists_mem_nodes_of_mem_level h
  exact key_mem_of_mem_nodes key hc

theorem key_mem_of_path {above : List α} (h : above ++ [a] ∈ f.paths) : key a ∈ f.keys key := by
  obtain ⟨c, hc, -⟩ := exists_mem_nodes_of_path h
  exact key_mem_of_mem_nodes key hc

/-- Different nodes of a forest have different keys. -/
theorem nodup_node {child sibling : Forest α} :
    ((node a child sibling).keys key).Nodup ↔
      (key a ∉ child.keys key ∧ key a ∉ sibling.keys key) ∧ (child.keys key).Nodup ∧
        (sibling.keys key).Nodup ∧ (child.keys key).Disjoint (sibling.keys key) := by
  simp [keys, List.nodup_append']

/-- What has something above it is not a first node. -/
theorem notMem_level_of_path (hnodup : (f.keys key).Nodup) {above : List α}
    (habove : above ≠ []) (hpath : above ++ [a] ∈ f.paths) : key a ∉ f.level.map key := by
  induction f generalizing above with
  | nil => cases hpath
  | node b child sibling _ ihs =>
    obtain ⟨⟨hbc, hbs⟩, -, hsn, hdisjoint⟩ := (nodup_node key).mp hnodup
    rw [level, List.map_cons, List.mem_cons, not_or]
    rcases mem_paths_node.mp hpath with hone | ⟨rest, hrest, hcons⟩ | hpath
    · obtain ⟨hnil, -⟩ | ⟨-, hnil⟩ := List.append_eq_singleton_iff.mp hone
      · exact absurd hnil habove
      · cases hnil
    · obtain ⟨c, above, rfl⟩ := List.exists_cons_of_ne_nil habove
      obtain ⟨rfl, rfl⟩ := List.cons.inj hcons
      have hkey := key_mem_of_path key hrest
      refine ⟨fun h => hbc (h ▸ hkey), fun h => ?_⟩
      obtain ⟨d, hd, hdkey⟩ := List.mem_map.mp h
      exact hdisjoint hkey (hdkey ▸ key_mem_of_mem_level key hd)
    · have hkey := key_mem_of_path key hpath
      exact ⟨fun h => hbs (h ▸ hkey), ihs hsn habove hpath⟩

theorem nodup_below (hnodup : (f.keys key).Nodup) {q : α × Forest α}
    (h : q ∈ f.nodes) : (q.2.keys key).Nodup := by
  induction f with
  | nil => cases h
  | node b child sibling ihc ihs =>
    obtain ⟨-, hcn, hsn, -⟩ := (nodup_node key).mp hnodup
    rcases List.mem_cons.mp h with rfl | h
    · exact hcn
    · exact (List.mem_append.mp h).elim (ihc hcn) (ihs hsn)

end

/-! ## What is put in -/

section
variable {key : α → ι} {a : α} {sub f f' : Forest α}

/-- Whatever was there stays where it was. -/
theorem Adds.paths_subset (h : Adds a sub f f') : f.paths ⊆ f'.paths := by
  induction h with
  | here f => exact fun path hpath => mem_paths_node.mpr (.inr (.inr hpath))
  | next _ ih =>
    intro path hpath
    exact mem_paths_node.mpr ((mem_paths_node.mp hpath).imp_right (Or.imp_right (ih ·)))
  | inside _ ih =>
    intro path hpath
    refine mem_paths_node.mpr ((mem_paths_node.mp hpath).imp_right (Or.imp_left ?_))
    rintro ⟨rest, hrest, rfl⟩
    exact ⟨rest, ih hrest, rfl⟩

theorem Adds.exists_path (h : Adds a sub f f') : ∃ above, above ++ [a] ∈ f'.paths := by
  induction h with
  | here f => exact ⟨[], List.mem_cons_self⟩
  | next _ ih =>
    obtain ⟨above, hpath⟩ := ih
    exact ⟨above, mem_paths_node.mpr (.inr (.inr hpath))⟩
  | inside _ ih =>
    obtain ⟨above, hpath⟩ := ih
    exact ⟨_ :: above, mem_paths_node.mpr (.inr (.inl ⟨_, hpath, rfl⟩))⟩

theorem Adds.keys_perm (h : Adds a sub f f') :
    (f'.keys key).Perm ((key a :: sub.keys key) ++ f.keys key) := by
  induction h with
  | here f => exact .refl _
  | next _ ih =>
    refine ((ih.append_left _).cons _).trans ?_
    refine (List.Perm.cons _ ?_).trans List.perm_middle.symm
    rw [← List.append_assoc, ← List.append_assoc]
    exact List.perm_append_comm.append_right _
  | inside _ ih =>
    refine ((ih.append_right _).cons _).trans ?_
    rw [List.append_assoc]
    exact List.perm_middle.symm

/-- New keys stay different from each other and from the old ones. -/
theorem Adds.nodup (h : Adds a sub f f') (hf : (f.keys key).Nodup)
    (hnew : (key a :: sub.keys key).Nodup) (hfresh : ∀ k ∈ key a :: sub.keys key, k ∉ f.keys key) :
    (f'.keys key).Nodup :=
  h.keys_perm.nodup_iff.mpr (List.Nodup.append hnew hf fun k hk hk' => hfresh k hk hk')

end

/-! ## Lookups and changes -/

section
variable {key : α → ι} [DecidableEq ι] {k r : ι} {f new below sub : Forest α} {a b : α}

theorem find?_eq_none (h : k ∉ f.keys key) : f.find? key k = none := by
  induction f with
  | nil => rfl
  | node b child sibling ihc ihs =>
    simp only [keys, List.mem_cons, List.mem_append, not_or] at h
    rw [find?, if_neg (Ne.symm h.1), ihc h.2.1, ihs h.2.2, Option.or_none]

theorem find?_mem (h : f.find? key k = some (a, below)) : (a, below) ∈ f.nodes ∧ key a = k := by
  induction f with
  | nil => cases h
  | node b child sibling ihc ihs =>
    rw [find?] at h
    split at h
    · rename_i heq
      cases h
      exact ⟨List.mem_cons_self, heq⟩
    · rcases Option.or_eq_some_iff.mp h with h | ⟨-, h⟩
      · obtain ⟨hmem, heq⟩ := ihc h
        exact ⟨List.mem_cons_of_mem _ (List.mem_append_left _ hmem), heq⟩
      · obtain ⟨hmem, heq⟩ := ihs h
        exact ⟨List.mem_cons_of_mem _ (List.mem_append_right _ hmem), heq⟩

theorem find?_key_mem (h : f.find? key k = some (a, below)) : k ∈ f.keys key := by
  obtain ⟨hmem, rfl⟩ := find?_mem h
  exact key_mem_of_mem_nodes key hmem

theorem update_of_notMem (h : k ∉ f.keys key) : f.update key k new = f := by
  induction f with
  | nil => rfl
  | node b child sibling ihc ihs =>
    simp only [keys, List.mem_cons, List.mem_append, not_or] at h
    rw [update, if_neg (Ne.symm h.1), ihc h.2.1, ihs h.2.2]

theorem erase_of_notMem (h : k ∉ f.keys key) : f.erase key k = f := by
  induction f with
  | nil => rfl
  | node b child sibling ihc ihs =>
    simp only [keys, List.mem_cons, List.mem_append, not_or] at h
    rw [erase, if_neg (Ne.symm h.1), ihc h.2.1, ihs h.2.2]

theorem update_level : (f.update key k new).level = f.level := by
  induction f with
  | nil => rfl
  | node b child sibling _ ih => rw [update, level, level, ih]

theorem mem_paths_erase {path : List α} :
    path ∈ (f.erase key k).paths ↔ path ∈ f.paths ∧ ∀ b ∈ path, key b ≠ k := by
  induction f generalizing path with
  | nil => simp [erase, paths]
  | node b child sibling ihc ihs =>
    rw [erase, mem_paths_node]
    split
    · rename_i heq
      rw [ihs]
      refine ⟨fun h => ⟨.inr (.inr h.1), h.2⟩, ?_⟩
      rintro ⟨rfl | ⟨rest, -, rfl⟩ | h, hkeep⟩
      · exact absurd heq (hkeep b List.mem_cons_self)
      · exact absurd heq (hkeep b List.mem_cons_self)
      · exact ⟨h, hkeep⟩
    · rename_i hne
      rw [mem_paths_node, ihs]
      constructor
      · rintro (rfl | ⟨rest, hrest, rfl⟩ | h)
        · exact ⟨.inl rfl, fun c hc => List.mem_singleton.mp hc ▸ hne⟩
        · obtain ⟨hmem, hkeep⟩ := ihc.mp hrest
          exact ⟨.inr (.inl ⟨rest, hmem, rfl⟩), List.forall_mem_cons.mpr ⟨hne, hkeep⟩⟩
        · exact ⟨.inr (.inr h.1), h.2⟩
      · rintro ⟨rfl | ⟨rest, hrest, rfl⟩ | h, hkeep⟩
        · exact .inl rfl
        · exact .inr (.inl ⟨rest, ihc.mpr ⟨hrest, (List.forall_mem_cons.mp hkeep).2⟩, rfl⟩)
        · exact .inr (.inr ⟨h, hkeep⟩)

/-- What is put in and taken out again leaves no trace. -/
theorem Adds.erase {f' : Forest α} (h : Adds b sub f f') (hfresh : key b ∉ f.keys key) :
    f'.erase key (key b) = f := by
  induction h with
  | here f => rw [Forest.erase, if_pos rfl, erase_of_notMem hfresh]
  | next _ ih =>
    simp only [keys, List.mem_cons, List.mem_append, not_or] at hfresh
    rw [Forest.erase, if_neg (Ne.symm hfresh.1), ih hfresh.2.2, erase_of_notMem hfresh.2.1]
  | inside _ ih =>
    simp only [keys, List.mem_cons, List.mem_append, not_or] at hfresh
    rw [Forest.erase, if_neg (Ne.symm hfresh.1), ih hfresh.2.1, erase_of_notMem hfresh.2.2]

theorem parent?_mem (h : f.parent? key k = some a) :
    ∃ child, (a, child) ∈ f.nodes ∧ k ∈ child.level.map key := by
  induction f with
  | nil => cases h
  | node b child sibling ihc ihs =>
    rw [parent?] at h
    split at h
    · rename_i hmem
      cases h
      exact ⟨child, List.mem_cons_self, hmem⟩
    · rcases Option.or_eq_some_iff.mp h with h | ⟨-, h⟩
      · obtain ⟨c, hc, hk⟩ := ihc h
        exact ⟨c, List.mem_cons_of_mem _ (List.mem_append_left _ hc), hk⟩
      · obtain ⟨c, hc, hk⟩ := ihs h
        exact ⟨c, List.mem_cons_of_mem _ (List.mem_append_right _ hc), hk⟩

theorem parent?_isSome (hk : k ∈ f.keys key) (htop : k ∉ f.level.map key) :
    (f.parent? key k).isSome := by
  induction f with
  | nil => cases hk
  | node b child sibling ihc ihs =>
    rw [level, List.map_cons, List.mem_cons, not_or] at htop
    rw [parent?]
    split
    · rfl
    · rename_i hchild
      rw [Option.isSome_or, Bool.or_eq_true]
      rcases List.mem_cons.mp hk with hk | hk
      · exact absurd hk htop.1
      · exact (List.mem_append.mp hk).imp (ihc · hchild) (ihs · htop.2)

theorem find?_of_mem_nodes (hnodup : (f.keys key).Nodup) (h : (a, below) ∈ f.nodes) :
    f.find? key (key a) = some (a, below) := by
  induction f with
  | nil => cases h
  | node b child sibling ihc ihs =>
    obtain ⟨⟨hchild, hsibling⟩, hcn, hsn, hdisjoint⟩ := (nodup_node key).mp hnodup
    rw [find?]
    rcases List.mem_cons.mp h with h | h
    · cases h
      exact if_pos rfl
    · rcases List.mem_append.mp h with h | h
      · have hmem := key_mem_of_mem_nodes key h
        rw [if_neg fun heq : key b = key a => hchild (heq ▸ hmem), ihc hcn h, Option.some_or]
      · have hmem := key_mem_of_mem_nodes key h
        rw [if_neg fun heq : key b = key a => hsibling (heq ▸ hmem), find?_eq_none fun hc => hdisjoint hc hmem,
          Option.none_or, ihs hsn h]

theorem keys_erase_sublist : ((f.erase key k).keys key).Sublist (f.keys key) := by
  induction f with
  | nil => exact .slnil
  | node b child sibling ihc ihs =>
    rw [erase]
    split
    · exact (ihs.trans (List.sublist_append_right _ _)).trans (List.sublist_cons_self _ _)
    · exact (ihc.append ihs).cons_cons _

theorem erase_child {child sibling : Forest α} (hnodup : ((node b child sibling).keys key).Nodup)
    (hr : r ∈ child.keys key) :
    (node b child sibling).erase key r = node b (child.erase key r) sibling := by
  obtain ⟨⟨hb, -⟩, -, -, hdisjoint⟩ := (nodup_node key).mp hnodup
  rw [erase, if_neg (ne_of_mem_of_not_mem hr hb).symm, erase_of_notMem (hdisjoint hr)]

theorem erase_sibling {child sibling : Forest α} (hnodup : ((node b child sibling).keys key).Nodup)
    (hr : r ∈ sibling.keys key) :
    (node b child sibling).erase key r = node b child (sibling.erase key r) := by
  obtain ⟨⟨-, hb⟩, -, -, hdisjoint⟩ := (nodup_node key).mp hnodup
  rw [erase, if_neg (ne_of_mem_of_not_mem hr hb).symm, erase_of_notMem fun h => hdisjoint h hr]

variable (hnodup : (f.keys key).Nodup) (hfind : f.find? key k = some (a, below))
include hnodup hfind

/-- What is put below the node is put there along the way to it. -/
theorem update_induction {P : Forest α → Forest α → Prop}
    (here : ∀ sibling, P (node a below sibling) (node a new sibling))
    (inside : ∀ b f f' sibling, P f f' → P (node b f sibling) (node b f' sibling))
    (next : ∀ b child f f', P f f' → P (node b child f) (node b child f')) :
    P f (f.update key k new) := by
  induction f with
  | nil => cases hfind
  | node b child sibling ihc ihs =>
    obtain ⟨⟨-, hsibling⟩, hcn, hsn, hdisjoint⟩ := (nodup_node key).mp hnodup
    rw [find?] at hfind
    rw [update]
    split at hfind
    · rename_i heq
      cases hfind
      rw [if_pos heq, update_of_notMem (heq ▸ hsibling)]
      exact here sibling
    · rename_i hne
      rw [if_neg hne]
      rcases Option.or_eq_some_iff.mp hfind with h | ⟨-, h⟩
      · rw [update_of_notMem (hdisjoint (find?_key_mem h))]
        exact inside b _ _ _ (ihc hcn h)
      · rw [update_of_notMem fun hk => hdisjoint hk (find?_key_mem h)]
        exact next b _ _ _ (ihs hsn h)

theorem update_self : f.update key k below = f :=
  update_induction hnodup hfind (P := fun f f' => f' = f) (fun _ => rfl)
    (fun b _ _ sibling h => congrArg (node b · sibling) h) fun b child _ _ h =>
      congrArg (node b child) h

/-- What is put in below one node is put into the forest. -/
theorem Adds.update (h : Adds b sub below new) : Adds b sub f (f.update key k new) :=
  update_induction hnodup hfind (fun _ => .inside h) (fun _ _ _ _ => .inside) fun _ _ _ _ => .next

/-- What is put below a node has a path through it. -/
theorem path_of_update {path : List α} (hpath : path ∈ new.paths) :
    ∃ above, above ++ a :: path ∈ (f.update key k new).paths := by
  refine update_induction hnodup hfind (P := fun _ f' => ∃ above, above ++ a :: path ∈ f'.paths) ?_ ?_ ?_
  · exact fun _ => ⟨[], mem_paths_node.mpr (.inr (.inl ⟨path, hpath, rfl⟩))⟩
  · rintro b _ _ _ ⟨above, h⟩
    exact ⟨b :: above, mem_paths_node.mpr (.inr (.inl ⟨_, h, rfl⟩))⟩
  · rintro _ _ _ _ ⟨above, h⟩
    exact ⟨above, mem_paths_node.mpr (.inr (.inr h))⟩

/-- A node below another one is taken out there. -/
theorem erase_eq_update (hr : r ∈ below.keys key) :
    f.erase key r = f.update key k (below.erase key r) := by
  refine (update_induction hnodup hfind (P := fun f f' => (f.keys key).Nodup →
    r ∈ f.keys key ∧ f.erase key r = f') ?_ ?_ ?_ hnodup).2
  · intro sibling hnodup
    exact ⟨List.mem_cons_of_mem _ (List.mem_append_left _ hr), erase_child hnodup hr⟩
  · intro b f f' sibling ih hnodup
    obtain ⟨hr, rfl⟩ := ih ((nodup_node key).mp hnodup).2.1
    exact ⟨List.mem_cons_of_mem _ (List.mem_append_left _ hr), erase_child hnodup hr⟩
  · intro b child f f' ih hnodup
    obtain ⟨hr, rfl⟩ := ih ((nodup_node key).mp hnodup).2.2.1
    exact ⟨List.mem_cons_of_mem _ (List.mem_append_right _ hr), erase_sibling hnodup hr⟩

end
end Forest
end CustomKernel.Lib.Nested

import CustomKernel.Ioport.Tree

/-! # Runs of the resource tree

Whatever is requested, checked and released, the tree stays well formed. A region that was granted is
found again by its range and taken out, as long as nobody releases it or a resource above it first:
`release_resource` takes out whatever is below. -/
namespace CustomKernel.Ioport.Regions
open Lib.Nested Lib.Transition
open Ioport.Tree

structure WellFormed (s : Resources) : Prop where
  tree : ∃ root child, s = .node root child .nil
  ordered : ∀ q ∈ s.nodes, q.2.level.Pairwise fun a b => a.last < b.start
  inside : ∀ q ∈ s.nodes, ∀ c ∈ q.2.level,
    q.1.start ≤ c.start ∧ c.start ≤ c.last ∧ c.last ≤ q.1.last
  idle : ∀ q ∈ s.nodes, q.1.busy → q.2 = .nil
  nodup : (ids s).Nodup

inductive Call where
  | requestResource (root : Nat) (new : Resource)
  | releaseResource (old : Nat)
  | checkResource (root tmp : Nat) (start len flags : BitVec 32)
  | requestRegion (parent : Nat) (res : Option Nat) (start n : BitVec 32)
  | checkRegion (parent : Nat) (res : Option Nat) (start n : BitVec 32)
  | releaseRegion (parent : Nat) (start n : BitVec 32)
deriving DecidableEq, Repr

def Call.exec (s : Resources) : Call → Resources
  | .requestResource root new => (Tree.requestResource root new s).2
  | .releaseResource old => (Tree.releaseResource old s).2
  | .checkResource root tmp start len flags => (Tree.checkResource root tmp start len flags s).2
  | .requestRegion parent res start n => (Tree.requestRegion parent res start n s).2
  | .checkRegion parent res start n => (Tree.checkRegion parent res start n s).2
  | .releaseRegion parent start n => Tree.releaseRegion parent start n s

/-- A busy resource gets no children, what is put in is new and has its own tree in order, and what
is released has a parent. -/
def Call.Allowed (s : Resources) : Call → Prop
  | .requestResource root new =>
    (∃ q, find root s = some q ∧ q.1.busy = false) ∧
      (new.info.start ≤ new.info.last → new.Sound) ∧ (new.info.id :: ids new.child).Nodup ∧
        ∀ k ∈ new.info.id :: ids new.child, k ∉ ids s
  | .releaseResource old => old ∈ ids s ∧ old ∉ s.level.map Info.id
  | .checkResource root tmp _ _ _ => (find root s).isSome ∧ tmp ∉ ids s
  | .requestRegion parent res _ _ =>
    (∃ q, find parent s = some q ∧ q.1.busy = false) ∧ ∀ k ∈ res, k ∉ ids s
  | .checkRegion parent res _ _ => (find parent s).isSome ∧ ∀ k ∈ res, k ∉ ids s
  | .releaseRegion parent _ _ => (find parent s).isSome

def Step (s : Resources) (e : Call) (s' : Resources) : Prop := e.Allowed s ∧ s' = e.exec s

/-- The call only looks, or what it asks for is refused. -/
def Call.Quiet (s : Resources) : Call → Prop
  | .requestResource root new => (Tree.requestResource root new s).1 ≠ 0
  | .requestRegion parent res start n => (Tree.requestRegion parent res start n s).1 = none
  | .checkResource .. | .checkRegion .. => True
  | .releaseResource _ | .releaseRegion .. => False

/-- The call releases the region, or a resource above it. -/
def Call.Takes (r : Info) (s : Resources) : Call → Prop
  | .releaseResource old => ∃ above, above ++ [r] ∈ s.paths ∧ old ∈ (above ++ [r]).map Info.id
  | .releaseRegion parent start n =>
    ∃ above, above ++ [r] ∈ s.paths ∧ parent ∈ above.map Info.id ∧ r.start = start ∧
      r.last = start + n - 1
  | _ => False

def Spares (r : Info) (s : Resources) (e : Call) : Prop := ¬ e.Takes r s

/-! ## What keeps a tree well formed -/

/-- One tree, with everything below its root in order. -/
def Sound : Resources → Prop
  | .node root child .nil =>
    (root.busy → child = .nil) ∧ Within root.start.toNat root.last.toNat child
  | _ => False

section
variable {s s' below c f : Resources} {k parent lo hi j root : Nat} {a r : Info} {e : Call}

theorem Sound.nodes (h : Sound s) (hmem : (a, below) ∈ s.nodes) :
    (a.busy → below = .nil) ∧ Within a.start.toNat a.last.toNat below := by
  match s, h with
  | .node root child .nil, h =>
    rcases List.mem_cons.mp hmem with hmem | hmem
    · cases hmem
      exact h
    · exact (h.2.nodes (by simpa [Forest.nodes] using hmem)).2

theorem Sound.update (h : Sound s) (hnodup : (ids s).Nodup) (hfind : find k s = some (a, below))
    (hbusy : a.busy = false) (hc : Within a.start.toNat a.last.toNat c) :
    Sound (s.update Info.id k c) := by
  -- a busy resource has nothing below it, so it is not on the way
  refine (Forest.update_induction hnodup hfind (P := fun f f' => f ≠ .nil ∧
    (∀ lo hi, Within lo hi f → Within lo hi f') ∧ (Sound f → Sound f')) ?_ ?_ ?_).2.2 h
  · intro sibling
    refine ⟨by simp, fun lo hi h => ⟨h.1, by simp [hbusy], hc, h.2.2.2⟩, ?_⟩
    cases sibling with
    | nil => exact fun _ => ⟨by simp [hbusy], hc⟩
    | node => exact False.elim
  · rintro b f f' sibling ⟨hne, hwithin, -⟩
    refine ⟨by simp, fun lo hi h => ?_, ?_⟩
    · exact ⟨h.1, fun hb => absurd (h.2.1 hb) hne, hwithin _ _ h.2.2.1, h.2.2.2⟩
    · cases sibling with
      | nil => exact fun h => ⟨fun hb => absurd (h.1 hb) hne, hwithin _ _ h.2⟩
      | node => exact False.elim
  · rintro b child f f' ⟨hne, hwithin, -⟩
    refine ⟨by simp, fun lo hi h => ⟨h.1, h.2.1, h.2.2.1, hwithin _ _ h.2.2.2⟩, ?_⟩
    cases f with
    | nil => exact absurd rfl hne
    | node => exact False.elim

theorem Sound.erase (h : Sound s) (hroot : k ∉ s.level.map Info.id) :
    Sound (s.erase Info.id k) := by
  match s, h with
  | .node root child .nil, h =>
    have hne : root.id ≠ k := fun heq => hroot (heq ▸ List.mem_cons_self)
    rw [Forest.erase, if_neg hne, Forest.erase]
    refine ⟨fun hb => ?_, h.2.erase⟩
    rw [h.1 hb]
    rfl

theorem within_ordered (h : Within lo hi f) :
    f.level.Pairwise fun a b => a.last < b.start := by
  induction f generalizing lo with
  | nil => exact .nil
  | node r child sibling _ ih =>
    obtain ⟨-, -, -, hsibling⟩ := h
    refine List.pairwise_cons.mpr ⟨fun c hc => ?_, ih hsibling⟩
    exact (hsibling.level hc).1

theorem within_of_levels
    (hin : ∀ c ∈ f.level, lo ≤ c.start.toNat ∧ c.start ≤ c.last ∧ c.last.toNat ≤ hi)
    (hpair : f.level.Pairwise fun a b => a.last < b.start)
    (hnodes : ∀ q ∈ f.nodes, (q.1.busy → q.2 = .nil) ∧
      (q.2.level.Pairwise fun a b => a.last < b.start) ∧
      ∀ c ∈ q.2.level, q.1.start ≤ c.start ∧ c.start ≤ c.last ∧ c.last ≤ q.1.last) :
    Within lo hi f := by
  induction f generalizing lo hi with
  | nil => trivial
  | node r child sibling ihc ihs =>
    obtain ⟨hidle, hordered, hinside⟩ := hnodes (r, child) List.mem_cons_self
    obtain ⟨hfirst, hpair⟩ := List.pairwise_cons.mp hpair
    refine ⟨hin r List.mem_cons_self, hidle, ihc hinside hordered ?_, ihs ?_ hpair ?_⟩
    · exact fun q hq => hnodes q (List.mem_cons_of_mem _ (List.mem_append_left _ hq))
    · exact fun c hc => ⟨hfirst c hc, (hin c (List.mem_cons_of_mem _ hc)).2⟩
    · exact fun q hq => hnodes q (List.mem_cons_of_mem _ (List.mem_append_right _ hq))

theorem wellFormed_iff : WellFormed s ↔ Sound s ∧ (ids s).Nodup := by
  constructor
  · rintro ⟨⟨root, child, rfl⟩, hordered, hinside, hidle, hnodup⟩
    refine ⟨⟨hidle _ List.mem_cons_self, ?_⟩, hnodup⟩
    refine within_of_levels (hinside _ List.mem_cons_self) (hordered _ List.mem_cons_self) ?_
    intro q hq
    have hmem : q ∈ (Forest.node root child .nil).nodes :=
      List.mem_cons_of_mem _ (List.mem_append_left _ hq)
    exact ⟨hidle q hmem, hordered q hmem, hinside q hmem⟩
  · rintro ⟨hsound, hnodup⟩
    refine ⟨?_, fun q hq => within_ordered (hsound.nodes hq).2, fun q hq c hc => ?_,
      fun q hq => (hsound.nodes hq).1, hnodup⟩
    · match s, hsound with
      | .node root child .nil, _ => exact ⟨root, child, rfl⟩
    · exact (hsound.nodes hq).2.level hc

/-! ## What one call does -/

theorem releaseResource_eq (hnodup : (ids s).Nodup) (hk : k ∈ ids s)
    (hroot : k ∉ s.level.map Info.id) : releaseResource k s = (0, s.erase Info.id k) := by
  obtain ⟨parent, hparent⟩ := Option.isSome_iff_exists.mp (Forest.parent?_isSome hk hroot)
  obtain ⟨child, hmem, hlevel⟩ := Forest.parent?_mem hparent
  have hfind : find parent.id s = some (parent, child) := Forest.find?_of_mem_nodes hnodup hmem
  have hchild : (ids child).Nodup := Forest.nodup_below Info.id hnodup hmem
  have hin : k ∈ ids child := by
    obtain ⟨b, hb, rfl⟩ := List.mem_map.mp hlevel
    exact Forest.key_mem_of_mem_level Info.id hb
  simp only [releaseResource, hparent, hfind, releaseAmong_eq hchild hlevel]
  rw [Forest.erase_eq_update hnodup hfind hin]

/-- A request that is granted puts the resource in below its root. -/
theorem requestResource_cases (root : Nat) (new : Resource) :
    requestResource root new s = (ebusy, s) ∨
    ∃ info child child', find root s = some (info, child) ∧ ¬ Outside info new.info ∧
      requestAmong new child = .ok child' ∧
      requestResource root new s = (0, s.update Info.id root child') := by
  unfold requestResource
  split
  · exact .inl rfl
  · rename_i info child hfind
    split
    · exact .inl rfl
    · rename_i child' hok
      rw [requestBelow] at hok
      split at hok
      · cases hok
      · rename_i hinside
        exact .inr ⟨info, child, child', hfind, hinside, hok, rfl⟩

theorem requestRegion_cases (parent : Nat) (res : Option Nat) (start n : BitVec 32) :
    requestRegion parent res start n s = (none, s) ∨
    ∃ k info child child', res = some k ∧ find parent s = some (info, child) ∧
      ¬ Outside info ⟨k, start, start + n - 1, ioresourceBusy⟩ ∧
      requestRegionAmong ⟨k, start, start + n - 1, ioresourceBusy⟩ child = some child' ∧
      requestRegion parent res start n s = (some k, s.update Info.id parent child') := by
  unfold requestRegion
  split
  · rename_i k info child hfind
    split
    · exact .inl rfl
    · rename_i child' hsome
      rw [requestRegionBelow] at hsome
      split at hsome
      · cases hsome
      · rename_i hinside
        exact .inr ⟨k, info, child, child', rfl, hfind, hinside, hsome, rfl⟩
  · exact .inl rfl

theorem notMem_level_update (hfresh : k ∉ ids s) :
    k ∉ (s.update Info.id j c).level.map Info.id := by
  rw [Forest.update_level]
  intro hmem
  obtain ⟨b, hb, hid⟩ := List.mem_map.mp hmem
  exact hfresh (hid ▸ Forest.key_mem_of_mem_level Info.id hb)

theorem releaseResource_update {sub : Resources} (hnodup : (ids s).Nodup)
    (hfind : find j s = some (a, below)) (hadds : Forest.Adds r sub below c) (hsub : sub = .nil)
    (hfresh : r.id ∉ ids s) : (releaseResource r.id (s.update Info.id j c)).2 = s := by
  have hall := hadds.update hnodup hfind
  have hkeys : (ids (s.update Info.id j c)).Perm ((r.id :: ids sub) ++ ids s) := hall.keys_perm
  have hnew : (ids (s.update Info.id j c)).Nodup := by
    subst hsub
    refine hall.nodup hnodup (List.nodup_singleton _) fun k hk => ?_
    rwa [List.mem_singleton.mp hk]
  rw [releaseResource_eq hnew (hkeys.mem_iff.mpr List.mem_cons_self) (notMem_level_update hfresh)]
  exact hall.erase hfresh

theorem checkResource_same (hnodup : (ids s).Nodup) {tmp : Nat} (hfresh : tmp ∉ ids s)
    (start len flags : BitVec 32) : (checkResource root tmp start len flags s).2 = s := by
  unfold checkResource
  rcases requestResource_cases root ⟨⟨tmp, start, start + len - 1, flags⟩, .nil⟩ with
    h | ⟨info, child, child', hfind, -, hok, h⟩
  · rw [h]
    rfl
  · rw [h]
    exact releaseResource_update hnodup hfind (requestAmong_spec hok).1 rfl hfresh

theorem checkRegion_same (hnodup : (ids s).Nodup) {res : Option Nat}
    (hfresh : ∀ k ∈ res, k ∉ ids s) (start n : BitVec 32) :
    (checkRegion parent res start n s).2 = s := by
  unfold checkRegion
  rcases requestRegion_cases parent res start n with
    h | ⟨k, info, child, child', rfl, hfind, -, hsome, h⟩
  · rw [h]
  · rw [h]
    exact releaseResource_update hnodup hfind (requestRegionAmong_spec hsome).1 rfl (hfresh k rfl)

/-- A region is released by its range, from any resource above it. -/
theorem releaseRegion_cases (hnodup : (ids s).Nodup) (parent : Nat) (start n : BitVec 32) :
    releaseRegion parent start n s = s ∨
    ∃ above r, above ++ [r] ∈ s.paths ∧ parent ∈ above.map Info.id ∧ r.start = start ∧
      r.last = start + n - 1 ∧ r.busy ∧ releaseRegion parent start n s = s.erase Info.id r.id := by
  unfold releaseRegion
  split
  · exact .inl rfl
  · rename_i info child hfind
    obtain ⟨hmem, rfl⟩ := Forest.find?_mem hfind
    split
    · exact .inl rfl
    · rename_i child' hsome
      have hchild : (ids child).Nodup := Forest.nodup_below Info.id hnodup hmem
      obtain ⟨below, r, hpath, hstart, hlast, hbusy, rfl⟩ := releaseRegionAmong_spec hchild hsome
      have hkey := Forest.key_mem_of_path Info.id hpath
      obtain ⟨above, habove⟩ := Forest.path_of_update hnodup hfind hpath
      rw [Forest.update_self hnodup hfind] at habove
      refine .inr ⟨above ++ info :: below, r, ?_, ?_, hstart, hlast, hbusy, ?_⟩
      · simpa using habove
      · exact List.mem_map_of_mem (List.mem_append_right _ List.mem_cons_self)
      · exact (Forest.erase_eq_update hnodup hfind hkey).symm

/-- A call changes nothing, puts something new in, or takes something out. -/
theorem exec_cases (hs : Sound s) (hnodup : (ids s).Nodup) (hallowed : e.Allowed s) :
    e.exec s = s ∨
    (∃ new : Resource, Forest.Adds new.info new.child s (e.exec s) ∧
      (new.info.id :: ids new.child).Nodup ∧ (∀ k ∈ new.info.id :: ids new.child, k ∉ ids s) ∧
      Sound (e.exec s)) ∨
    ∃ k, e.exec s = s.erase Info.id k ∧ k ∉ s.level.map Info.id ∧
      (e = .releaseResource k ∨
        ∃ above r, above ++ [r] ∈ s.paths ∧ r.id = k ∧ r.busy ∧ e.Takes r s) := by
  cases e with
  | requestResource root new =>
    obtain ⟨⟨⟨info, child⟩, hroot, hidle⟩, hsound, hnew, hfresh⟩ := hallowed
    rcases requestResource_cases root new with
      h | ⟨info', child', f', hfind, hinside, hok, h⟩
    · exact .inl (congrArg Prod.snd h)
    · obtain ⟨rfl, rfl⟩ := Prod.mk.inj (Option.some.inj (hroot.symm.trans hfind))
      obtain ⟨hle, hstart, hlast⟩ := not_outside.mp hinside
      rw [Call.exec, h]
      obtain ⟨hadds, hwithin⟩ := requestAmong_spec hok
      refine .inr (.inl ⟨new, hadds.update hnodup hfind, hnew, hfresh, ?_⟩)
      refine hs.update hnodup hfind hidle ?_
      exact hwithin _ _ (hs.nodes (Forest.find?_mem hfind).1).2 (hsound hle) hstart hle hlast
  | releaseResource old =>
    rw [Call.exec, releaseResource_eq hnodup hallowed.1 hallowed.2]
    exact .inr (.inr ⟨old, rfl, hallowed.2, .inl rfl⟩)
  | checkResource root tmp start len flags =>
    exact .inl (checkResource_same hnodup hallowed.2 start len flags)
  | requestRegion parent res start n =>
    obtain ⟨⟨⟨info, child⟩, hroot, hidle⟩, hfresh⟩ := hallowed
    rcases requestRegion_cases parent res start n with
      h | ⟨k, info', child', f', rfl, hfind, hinside, hsome, h⟩
    · exact .inl (congrArg Prod.snd h)
    · obtain ⟨rfl, rfl⟩ := Prod.mk.inj (Option.some.inj (hroot.symm.trans hfind))
      obtain ⟨hle, hstart, hlast⟩ := not_outside.mp hinside
      rw [Call.exec, h]
      obtain ⟨hadds, hwithin⟩ := requestRegionAmong_spec hsome
      refine .inr (.inl ⟨⟨_, .nil⟩, hadds.update hnodup hfind, List.nodup_singleton _,
        fun j hj => ?_, ?_⟩)
      · rw [List.mem_singleton.mp hj]
        exact hfresh k rfl
      · refine hs.update hnodup hfind hidle ?_
        exact hwithin _ _ (hs.nodes (Forest.find?_mem hfind).1).2 hstart hle hlast
  | checkRegion parent res start n => exact .inl (checkRegion_same hnodup hallowed.2 start n)
  | releaseRegion parent start n =>
    rcases releaseRegion_cases hnodup parent start n with
      h | ⟨above, r, hpath, hparent, hstart, hlast, hbusy, h⟩
    · exact .inl h
    · have habove : above ≠ [] := fun h => by
        rw [h] at hparent
        cases hparent
      exact .inr (.inr ⟨r.id, h, Forest.notMem_level_of_path Info.id hnodup habove hpath,
        .inr ⟨above, r, hpath, rfl, hbusy, above, hpath, hparent, hstart, hlast⟩⟩)

theorem step_wellFormed (hs : WellFormed s) (h : Step s e s') : WellFormed s' := by
  obtain ⟨hallowed, rfl⟩ := h
  rw [wellFormed_iff] at hs ⊢
  obtain ⟨hsound, hnodup⟩ := hs
  rcases exec_cases hsound hnodup hallowed with h | ⟨new, hadds, hnew, hfresh, h⟩ | ⟨k, h, hroot, -⟩
  · rw [h]
    exact ⟨hsound, hnodup⟩
  · exact ⟨h, hadds.nodup hnodup hnew hfresh⟩
  · rw [h]
    exact ⟨hsound.erase hroot, hnodup.sublist Forest.keys_erase_sublist⟩

theorem quiet_same (hs : WellFormed s) (hallowed : e.Allowed s) (hquiet : e.Quiet s) :
    e.exec s = s := by
  have hnodup := hs.nodup
  cases e with
  | requestResource root new =>
    rcases requestResource_cases root new with h | ⟨_, _, f', -, -, -, h⟩
    · exact congrArg Prod.snd h
    · exact absurd (congrArg Prod.fst h) hquiet
  | requestRegion parent res start n =>
    rcases requestRegion_cases parent res start n with h | ⟨k, _, _, f', -, -, -, -, h⟩
    · exact congrArg Prod.snd h
    · cases (congrArg Prod.fst h).symm.trans hquiet
  | checkResource root tmp start len flags => exact checkResource_same hnodup hallowed.2 _ _ _
  | checkRegion parent res start n => exact checkRegion_same hnodup hallowed.2 _ _
  | releaseResource old => exact hquiet.elim
  | releaseRegion parent start n => exact hquiet.elim

theorem requestResource_iff (hs : WellFormed s) {info : Info} {child : Resources}
    (hfind : find root s = some (info, child)) (new : Resource) :
    (requestResource root new s).1 = 0 ↔
      new.info.start ≤ new.info.last ∧ info.start ≤ new.info.start ∧ new.info.last ≤ info.last ∧
        ∀ c ∈ child.level, c.last < new.info.start ∨ new.info.last < c.start := by
  have hchild := ((wellFormed_iff.mp hs).1.nodes (Forest.find?_mem hfind).1).2
  rw [← requestAmong_isOk new hchild]
  simp only [requestResource, hfind, requestBelow]
  split
  · rename_i conflict herr
    refine iff_of_false (show ¬ ebusy = 0 by decide) ?_
    rintro ⟨hle, hstart, hlast, f', hok⟩
    rw [if_neg (not_outside.mpr ⟨hle, hstart, hlast⟩), hok] at herr
    cases herr
  · rename_i f' hok
    split at hok
    · cases hok
    · rename_i hinside
      obtain ⟨hle, hstart, hlast⟩ := not_outside.mp hinside
      exact iff_of_true rfl ⟨hle, hstart, hlast, f', hok⟩

/-! ## A region that was granted -/

/-- The region is in the tree, somewhere below the resource. -/
def Held (r : Info) (parent : Nat) (s : Resources) : Prop :=
  ∃ above, above ++ [r] ∈ s.paths ∧ parent ∈ above.map Info.id

theorem Held.step (hs : WellFormed s) (hheld : Held r parent s)
    (h : Meeting (Spares r) Step s e s') : Held r parent s' := by
  obtain ⟨hspares, hallowed, rfl⟩ := h
  obtain ⟨hsound, hnodup⟩ := wellFormed_iff.mp hs
  obtain ⟨above, hpath, hparent⟩ := hheld
  rcases exec_cases hsound hnodup hallowed with h | ⟨new, hadds, -, -, -⟩ | ⟨k, h, -, hrelease⟩
  · rw [h]
    exact ⟨above, hpath, hparent⟩
  · exact ⟨above, hadds.paths_subset hpath, hparent⟩
  · refine ⟨above, ?_, hparent⟩
    rw [h, Forest.mem_paths_erase]
    refine ⟨hpath, fun b hb hk => ?_⟩
    rcases hrelease with rfl | ⟨above', r', hpath', rfl, hbusy, htakes⟩
    · exact hspares ⟨above, hpath, hk ▸ List.mem_map_of_mem hb⟩
    · -- what is released is busy, so it has nothing below it and is the region itself
      obtain ⟨front, back, hsplit⟩ := List.append_of_mem hb
      obtain ⟨below, hmem, -⟩ := Forest.exists_mem_nodes_of_path hpath'
      obtain ⟨below', hmem', hrest⟩ := Forest.exists_mem_nodes_of_path (hsplit ▸ hpath)
      have hfind := Forest.find?_of_mem_nodes hnodup hmem
      have hfind' := Forest.find?_of_mem_nodes hnodup hmem'
      rw [hk, hfind] at hfind'
      obtain ⟨rfl, rfl⟩ := Prod.mk.inj (Option.some.inj hfind')
      have hleaf := (hsound.nodes hmem).1 hbusy
      rcases List.eq_nil_or_concat' back with rfl | ⟨back, last, rfl⟩
      · obtain ⟨-, hlast⟩ := List.append_inj' hsplit rfl
        exact hspares (List.singleton_inj.mp hlast ▸ htakes)
      · have hrest := hrest (by simp)
        rw [hleaf] at hrest
        cases hrest

theorem Held.release {start n : BitVec 32} (hs : WellFormed s)
    (hheld : Held r parent s) (hbusy : r.busy) (hstart : r.start = start)
    (hlast : r.last = start + n - 1) :
    find r.id s = some (r, .nil) ∧ releaseRegion parent start n s = s.erase Info.id r.id := by
  obtain ⟨hsound, hnodup⟩ := wellFormed_iff.mp hs
  obtain ⟨above, hpath, hparent⟩ := hheld
  obtain ⟨b, hb, rfl⟩ := List.mem_map.mp hparent
  obtain ⟨below, hbelow, -⟩ := Forest.exists_mem_nodes_of_path hpath
  constructor
  · rw [← (hsound.nodes hbelow).1 hbusy]
    exact Forest.find?_of_mem_nodes hnodup hbelow
  · obtain ⟨front, back, rfl⟩ := List.append_of_mem hb
    have hthrough : front ++ b :: (back ++ [r]) ∈ s.paths := by simpa using hpath
    obtain ⟨child, hchild, hrest⟩ := Forest.exists_mem_nodes_of_path hthrough
    have hrest := hrest (by simp)
    have hfind := Forest.find?_of_mem_nodes hnodup hchild
    have hfound := releaseRegionAmong_found (hsound.nodes hchild).2
      (Forest.nodup_below Info.id hnodup hchild) hbusy hrest
    rw [hstart, hlast] at hfound
    have hkey := Forest.key_mem_of_path Info.id hrest
    simp only [releaseRegion, hfind, hfound]
    exact (Forest.erase_eq_update hnodup hfind hkey).symm

theorem requestRegion_held {start n : BitVec 32} (hs : WellFormed s)
    (h : requestRegion parent (some k) start n s = (some k, s')) :
    Held ⟨k, start, start + n - 1, ioresourceBusy⟩ parent s' := by
  rcases requestRegion_cases parent (some k) start n with
    hnone | ⟨k', info, child, child', hk, hfind, -, hsome, hsome'⟩
  · cases h.symm.trans hnone
  · cases hk
    obtain rfl : s' = s.update Info.id parent child' := (Prod.mk.inj (h.symm.trans hsome')).2
    obtain ⟨below, hbelow⟩ := (requestRegionAmong_spec hsome).1.exists_path
    obtain ⟨above, habove⟩ := Forest.path_of_update hs.nodup hfind hbelow
    refine ⟨above ++ info :: below, by simpa using habove, ?_⟩
    rw [← (Forest.find?_mem hfind).2]
    exact List.mem_map_of_mem (List.mem_append_right _ List.mem_cons_self)

end

/-! ## Runs -/

/-- The tree stays well formed, a request succeeds exactly when its range is free, checks and refused
requests change nothing, and a region that was granted is taken out again by its range while
nothing in between takes it out. -/
theorem regions_reserved {s₀ : Resources} (h₀ : WellFormed s₀) {es : List Call} {s : Resources}
    (h : Run Step s₀ es s) :
    WellFormed s ∧
    (∀ root info child, find root s = some (info, child) → ∀ new : Resource,
      ((requestResource root new s).1 = 0 ↔
        new.info.start ≤ new.info.last ∧ info.start ≤ new.info.start ∧ new.info.last ≤ info.last ∧
          ∀ c ∈ child.level, c.last < new.info.start ∨ new.info.last < c.start)) ∧
    (∀ e : Call, e.Allowed s → e.Quiet s → e.exec s = s) ∧
    ∀ parent k start n s₁, (Call.requestRegion parent (some k) start n).Allowed s →
      requestRegion parent (some k) start n s = (some k, s₁) →
      ∀ es₂ s₂, Run (Meeting (Spares ⟨k, start, start + n - 1, ioresourceBusy⟩) Step) s₁ es₂ s₂ →
        find k s₂ = some (⟨k, start, start + n - 1, ioresourceBusy⟩, .nil) ∧
          releaseRegion parent start n s₂ = s₂.erase Info.id k := by
  have hwf : WellFormed s := h.invariant (fun _ _ _ => step_wellFormed) h₀
  refine ⟨hwf, fun root info child hfind new => requestResource_iff hwf hfind new,
    fun e hallowed hquiet => quiet_same hwf hallowed hquiet, ?_⟩
  intro parent k start n s₁ hallowed hgrant es₂ s₂ hrun
  have hwf₁ : WellFormed s₁ := step_wellFormed hwf ⟨hallowed, (congrArg Prod.snd hgrant).symm⟩
  have hboth := hrun.invariant
    (I := fun s => WellFormed s ∧ Held ⟨k, start, start + n - 1, ioresourceBusy⟩ parent s)
    (fun _ _ _ hi hstep => ⟨step_wellFormed hi.1 hstep.2, hi.2.step hi.1 hstep⟩)
    ⟨hwf₁, requestRegion_held hwf hgrant⟩
  have hbusy : (ioresourceBusy &&& ioresourceBusy != 0) = true := by decide
  exact hboth.2.release hboth.1 hbusy rfl rfl

/-- The ports of a machine. -/
def ports : Resources := .node ⟨0, 0, 0xffff, 0x100⟩ .nil .nil

/-- A bus in them. -/
def bus : Info := ⟨1, 0x100, 0x1ff, 0x100⟩

theorem ports_wellFormed : WellFormed ports :=
  wellFormed_iff.mpr ⟨⟨fun _ => rfl, trivial⟩, by decide⟩

/-- A region of the bus is granted and released while another one comes. -/
theorem regions_reserved_bus :
    ∃ s s₁ s₂, Run Step ports [.requestResource 0 ⟨bus, .nil⟩] s ∧
      requestRegion 0 (some 2) 0x120 8 s = (some 2, s₁) ∧
      Run (Meeting (Spares ⟨2, 0x120, 0x127, ioresourceBusy⟩) Step) s₁
        [.requestRegion 0 (some 3) 0x110 8] s₂ ∧
      releaseRegion 0 0x120 8 s₂ = s₂.erase Info.id 2 ∧ ids s₂ = [0, 1, 3, 2] := by
  have hrun : Run Step ports [.requestResource 0 ⟨bus, .nil⟩]
      (Call.exec ports (.requestResource 0 ⟨bus, .nil⟩)) := by
    refine .cons ⟨⟨⟨_, rfl, rfl⟩, fun _ => ⟨fun _ => rfl, trivial⟩, ?_, ?_⟩, rfl⟩ (.nil _)
    · decide
    · decide
  refine ⟨_, _, _, hrun, rfl, .cons ⟨id, ⟨⟨_, rfl, rfl⟩, ?_⟩, rfl⟩ (.nil _), ?_, by decide⟩
  · decide
  · refine ((regions_reserved ports_wellFormed hrun).2.2.2 0 2 0x120 8 _ ⟨⟨_, rfl, rfl⟩, ?_⟩ rfl
      [.requestRegion 0 (some 3) 0x110 8] _ ?_).2
    · decide
    · refine .cons ⟨id, ⟨⟨_, rfl, rfl⟩, ?_⟩, rfl⟩ (.nil _)
      decide

/-- The bus is released with a region below it, and the range is granted again. -/
def released : List Call :=
  [.requestResource 0 ⟨bus, .nil⟩, .requestRegion 0 (some 2) 0x120 8, .releaseResource 1,
    .requestRegion 0 (some 3) 0x120 8]

/-- The release of the first region then takes out the other one. -/
theorem region_of_another :
    ∃ s, Run Step ports released s ∧ ids s = [0, 3] ∧ ids (releaseRegion 0 0x120 8 s) = [0] ∧
      releaseRegion 0 0x120 8 s ≠ s.erase Info.id 2 := by
  refine ⟨released.foldl Call.exec ports, ?_, by decide, by decide, by decide⟩
  refine .cons ⟨⟨⟨_, rfl, rfl⟩, fun _ => ⟨fun _ => rfl, trivial⟩, by decide, by decide⟩, rfl⟩ ?_
  refine .cons ⟨⟨⟨_, rfl, rfl⟩, by decide⟩, rfl⟩ ?_
  refine .cons ⟨⟨by decide, by decide⟩, rfl⟩ ?_
  exact .cons ⟨⟨⟨_, rfl, rfl⟩, by decide⟩, rfl⟩ (.nil _)

end CustomKernel.Ioport.Regions

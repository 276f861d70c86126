import CustomKernel.Lib.Nested
import CustomKernel.Lib.Transition
import Mathlib.Algebra.Order.Ring.Nat

/-! # The resource tree

Ranges of ports or of bus memory are reserved in a tree: what is reserved inside another resource
hangs below it, and the children of a resource stand in the order of their ranges. `parent`, `child`
and `sibling` are the tree itself, and `name` is only ever printed. -/
namespace CustomKernel.Ioport.Tree
open Lib.Nested

/-- `struct resource` without its links. -/
structure Info where
  id : Nat
  start : BitVec 32
  /-- `end`, which still belongs to the range -/
  last : BitVec 32
  flags : BitVec 32
deriving DecidableEq, Repr

def ioresourceBusy : BitVec 32 := 0x80000000

def Info.busy (r : Info) : Bool := r.flags &&& ioresourceBusy != 0

abbrev Resources := Forest Info

/-- A resource that a caller brings, with what it has below it. -/
structure Resource where
  info : Info
  child : Resources
deriving DecidableEq, Repr

def ebusy : Int := -16

def einval : Int := -22

/-! ## The functions of one level -/

/-- The loop of `__request_resource` over the children of the root. -/
def requestAmong (new : Resource) : Resources → Except Info Resources
  | .nil => .ok (.node new.info new.child .nil)
  | .node tmp child sibling =>
    if new.info.last < tmp.start then
      .ok (.node new.info new.child (.node tmp child sibling))
    else if tmp.last < new.info.start then
      (requestAmong new sibling).map (.node tmp child)
    else .error tmp

/-- The range is empty, or goes out of the root. -/
def Outside (root new : Info) : Prop :=
  new.last < new.start ∨ new.start < root.start ∨ root.last < new.last

instance (root new : Info) : Decidable (Outside root new) := inferInstanceAs (Decidable (_ ∨ _))

/-- `__request_resource`: what is below the root then, or the resource that is in the way -/
def requestBelow (root : Info) (new : Resource) (child : Resources) : Except Info Resources :=
  if Outside root new.info then .error root else requestAmong new child

/-- The loop of `__release_resource` over the children of the parent. -/
def releaseAmong (old : Nat) : Resources → Option Resources
  | .nil => none
  | .node tmp child sibling =>
    if tmp.id = old then some sibling else (releaseAmong old sibling).map (.node tmp child)

/-- The loop of `__request_region`. Where `__request_resource` would return a conflict that is not
busy, the loop calls it for that resource. -/
def requestRegionAmong (res : Info) : Resources → Option Resources
  | .nil => some (.node res .nil .nil)
  | .node tmp child sibling =>
    if res.last < tmp.start then some (.node res .nil (.node tmp child sibling))
    else if tmp.last < res.start then (requestRegionAmong res sibling).map (.node tmp child)
    else if tmp.busy then none
    -- the conflict is the parent itself
    else if Outside tmp res then none
    else (requestRegionAmong res child).map (.node tmp · sibling)

def requestRegionBelow (parent res : Info) (child : Resources) : Option Resources :=
  if Outside parent res then none else requestRegionAmong res child

/-- The loop of `__release_region`. -/
def releaseRegionAmong (start last : BitVec 32) : Resources → Option Resources
  | .nil => none
  | .node res child sibling =>
    if res.start ≤ start ∧ last ≤ res.last then
      if !res.busy then (releaseRegionAmong start last child).map (.node res · sibling)
      else if res.start ≠ start ∨ res.last ≠ last then none
      else some sibling
    else (releaseRegionAmong start last sibling).map (.node res child)

/-! ## The calls -/

abbrev find (k : Nat) (s : Resources) : Option (Info × Resources) := s.find? Info.id k

abbrev ids (s : Resources) : List Nat := s.keys Info.id

def requestResource (root : Nat) (new : Resource) (s : Resources) : Int × Resources :=
  match find root s with
  | none => (ebusy, s)
  | some (info, child) =>
    match requestBelow info new child with
    | .error _ => (ebusy, s)
    | .ok child' => (0, s.update Info.id root child')

/-- A resource that is not in the tree has no parent. -/
def releaseResource (old : Nat) (s : Resources) : Int × Resources :=
  match s.parent? Info.id old with
  | none => (einval, s)
  | some parent =>
    match find parent.id s with
    | none => (einval, s)
    | some (_, child) =>
      match releaseAmong old child with
      | none => (einval, s)
      | some child' => (0, s.update Info.id parent.id child')

/-- The resource is a local variable, of which only the range is set. -/
def checkResource (root tmp : Nat) (start len flags : BitVec 32) (s : Resources) : Int × Resources :=
  match requestResource root ⟨⟨tmp, start, start + len - 1, flags⟩, .nil⟩ s with
  | (0, s') => (0, (releaseResource tmp s').2)
  | (err, s') => (err, s')

/-- `__request_region`; without memory for `res` there is nothing to return. -/
def requestRegion (parent : Nat) (res : Option Nat) (start n : BitVec 32) (s : Resources) :
    Option Nat × Resources :=
  match res, find parent s with
  | some res, some (info, child) =>
    match requestRegionBelow info ⟨res, start, start + n - 1, ioresourceBusy⟩ child with
    | none => (none, s)
    | some child' => (some res, s.update Info.id parent child')
  | _, _ => (none, s)

def checkRegion (parent : Nat) (res : Option Nat) (start n : BitVec 32) (s : Resources) : Int × Resources :=
  match requestRegion parent res start n s with
  | (none, s') => (ebusy, s')
  | (some res, s') => (0, (releaseResource res s').2)

def releaseRegion (parent : Nat) (start n : BitVec 32) (s : Resources) : Resources :=
  match find parent s with
  | none => s
  | some (_, child) =>
    match releaseRegionAmong start (start + n - 1) child with
    | none => s
    | some child' => s.update Info.id parent child'

/-! ## Well-formed trees -/

/-- The ranges of a level stand in order from `lo` to `hi`, and so on below each of them. What is busy
has nothing below it. -/
def Within : Nat → Nat → Resources → Prop
  | _, _, .nil => True
  | lo, hi, .node r child sibling =>
    (lo ≤ r.start.toNat ∧ r.start ≤ r.last ∧ r.last.toNat ≤ hi) ∧ (r.busy → child = .nil) ∧
      Within r.start.toNat r.last.toNat child ∧ Within (r.last.toNat + 1) hi sibling

section
variable {f f' below c : Resources} {lo hi lo' hi' k : Nat} {r a : Info}

theorem Within.mono (h : Within lo hi f) (hlo : lo' ≤ lo) (hhi : hi ≤ hi') : Within lo' hi' f := by
  induction f generalizing lo lo' with
  | nil => trivial
  | node r child sibling _ ih =>
    obtain ⟨⟨h1, h2, h3⟩, hbusy, hchild, hsibling⟩ := h
    exact ⟨⟨hlo.trans h1, h2, h3.trans hhi⟩, hbusy, hchild, ih hsibling (Nat.le_refl _)⟩

theorem Within.nodes (h : Within lo hi f) (hmem : (a, below) ∈ f.nodes) :
    (lo ≤ a.start.toNat ∧ a.start ≤ a.last ∧ a.last.toNat ≤ hi) ∧ (a.busy → below = .nil) ∧
      Within a.start.toNat a.last.toNat below := by
  induction f generalizing lo hi with
  | nil => cases hmem
  | node b child sibling ihc ihs =>
    obtain ⟨hb, hbusy, hchild, hsibling⟩ := h
    rcases List.mem_cons.mp hmem with hmem | hmem
    · cases hmem
      exact ⟨hb, hbusy, hchild⟩
    · rcases List.mem_append.mp hmem with hmem | hmem
      · obtain ⟨⟨h1, h2, h3⟩, hbelow⟩ := ihc hchild hmem
        exact ⟨⟨hb.1.trans h1, h2, h3.trans hb.2.2⟩, hbelow⟩
      · obtain ⟨⟨h1, h2, h3⟩, hbelow⟩ := ihs hsibling hmem
        have hle : b.start.toNat ≤ b.last.toNat := hb.2.1
        exact ⟨⟨by omega, h2, h3⟩, hbelow⟩

theorem Within.level (h : Within lo hi f) (hr : r ∈ f.level) :
    lo ≤ r.start.toNat ∧ r.start ≤ r.last ∧ r.last.toNat ≤ hi := by
  obtain ⟨below, hmem⟩ := Forest.exists_mem_nodes_of_mem_level hr
  exact (h.nodes hmem).1

theorem Within.erase (h : Within lo hi f) : Within lo hi (f.erase Info.id k) := by
  induction f generalizing lo hi with
  | nil => trivial
  | node b child sibling ihc ihs =>
    obtain ⟨hb, hidle, hchild, hsibling⟩ := h
    have hle : b.start.toNat ≤ b.last.toNat := hb.2.1
    rw [Forest.erase]
    split
    · exact (ihs hsibling).mono (by omega) (Nat.le_refl _)
    · refine ⟨hb, fun h => ?_, ihc hchild, ihs hsibling⟩
      rw [hidle h]
      rfl

end

/-! ## Requests -/

section
variable {f f' : Resources} {lo hi : Nat} {new : Resource} {root res : Info}

theorem not_outside {root new : Info} : ¬ Outside root new ↔
    new.start ≤ new.last ∧ root.start ≤ new.start ∧ new.last ≤ root.last := by
  simp [Outside]

/-- What may be put in has its own tree in order. -/
def Resource.Sound (new : Resource) : Prop :=
  (new.info.busy → new.child = .nil) ∧
    Within new.info.start.toNat new.info.last.toNat new.child

theorem map_eq_ok {x : Except Info Resources} {g : Resources → Resources}
    (h : x.map g = .ok f') : ∃ y, x = .ok y ∧ g y = f' := by
  cases x with
  | error e => cases h
  | ok y => exact ⟨y, rfl, Except.ok.inj h⟩

/-- What is put in, and that it is put in order. -/
theorem requestAmong_spec (h : requestAmong new f = .ok f') :
    Forest.Adds new.info new.child f f' ∧ ∀ lo hi, Within lo hi f → new.Sound →
      lo ≤ new.info.start.toNat → new.info.start ≤ new.info.last → new.info.last.toNat ≤ hi →
      Within lo hi f' := by
  induction f generalizing f' with
  | nil =>
    cases h
    exact ⟨.here _, fun lo hi _ hnew hlo hle hhi => ⟨⟨hlo, hle, hhi⟩, hnew.1, hnew.2, trivial⟩⟩
  | node tmp child sibling _ ih =>
    rw [requestAmong] at h
    split at h
    · rename_i hbefore
      cases h
      refine ⟨.here _, fun lo hi hf hnew hlo hle hhi => ?_⟩
      exact ⟨⟨hlo, hle, hhi⟩, hnew.1, hnew.2, ⟨hbefore, hf.1.2⟩, hf.2⟩
    · split at h
      · rename_i hafter
        obtain ⟨rest, hrest, rfl⟩ := map_eq_ok h
        obtain ⟨hadds, hwithin⟩ := ih hrest
        refine ⟨.next hadds, fun lo hi hf hnew _ hle hhi => ?_⟩
        exact ⟨hf.1, hf.2.1, hf.2.2.1, hwithin _ _ hf.2.2.2 hnew hafter hle hhi⟩
      · cases h

theorem requestAmong_isOk (new : Resource) (hf : Within lo hi f) :
    (∃ f', requestAmong new f = .ok f') ↔
      ∀ c ∈ f.level, c.last < new.info.start ∨ new.info.last < c.start := by
  induction f generalizing lo with
  | nil => simp [requestAmong, Forest.level]
  | node tmp child sibling _ ih =>
    obtain ⟨htmp, -, -, hsibling⟩ := hf
    rw [Forest.level, List.forall_mem_cons, requestAmong]
    split
    · -- all that follow are behind the first one
      rename_i hbefore
      refine iff_of_true ⟨_, rfl⟩ ⟨.inr hbefore, fun c hc => .inr ?_⟩
      have hbehind := (hsibling.level hc).1
      have hin : tmp.start.toNat ≤ tmp.last.toNat := htmp.2.1
      have hfirst : new.info.last.toNat < tmp.start.toNat := hbefore
      exact BitVec.lt_def.mpr (by omega)
    · rename_i hbefore
      split
      · rename_i hafter
        rw [← ih hsibling]
        constructor
        · rintro ⟨f', h⟩
          obtain ⟨rest, hrest, -⟩ := map_eq_ok h
          exact ⟨.inl hafter, rest, hrest⟩
        · rintro ⟨-, rest, hrest⟩
          exact ⟨_, congrArg (Except.map _) hrest⟩
      · rename_i hafter
        refine iff_of_false ?_ fun h => h.1.elim hafter hbefore
        rintro ⟨f', h⟩
        cases h

theorem requestRegionAmong_spec (h : requestRegionAmong res f = some f') :
    Forest.Adds res .nil f f' ∧ ∀ lo hi, Within lo hi f → lo ≤ res.start.toNat →
      res.start ≤ res.last → res.last.toNat ≤ hi → Within lo hi f' := by
  induction f generalizing f' with
  | nil =>
    cases h
    exact ⟨.here _, fun lo hi _ hlo hle hhi => ⟨⟨hlo, hle, hhi⟩, fun _ => rfl, trivial, trivial⟩⟩
  | node tmp child sibling ihc ihs =>
    rw [requestRegionAmong] at h
    split at h
    · rename_i hbefore
      cases h
      refine ⟨.here _, fun lo hi hf hlo hle hhi => ?_⟩
      exact ⟨⟨hlo, hle, hhi⟩, fun _ => rfl, trivial, ⟨hbefore, hf.1.2⟩, hf.2⟩
    · split at h
      · rename_i hafter
        obtain ⟨rest, hrest, rfl⟩ := Option.map_eq_some_iff.mp h
        obtain ⟨hadds, hwithin⟩ := ihs hrest
        refine ⟨.next hadds, fun lo hi hf _ hle hhi => ?_⟩
        exact ⟨hf.1, hf.2.1, hf.2.2.1, hwithin _ _ hf.2.2.2 hafter hle hhi⟩
      · split at h
        · cases h
        · rename_i hbusy
          split at h
          · cases h
          · rename_i hinside
            obtain ⟨-, hstart, hlast⟩ := not_outside.mp hinside
            obtain ⟨below, hbelow, rfl⟩ := Option.map_eq_some_iff.mp h
            obtain ⟨hadds, hwithin⟩ := ihc hbelow
            refine ⟨.inside hadds, fun lo hi hf _ hle _ => ?_⟩
            exact ⟨hf.1, fun h => absurd h hbusy, hwithin _ _ hf.2.2.1 hstart hle hlast, hf.2.2.2⟩

end

/-! ## Releases -/

section
variable {f f' : Resources} {lo hi old : Nat} {start last : BitVec 32} {r : Info}

theorem releaseAmong_eq (hnodup : (ids f).Nodup) (hold : old ∈ f.level.map Info.id) :
    releaseAmong old f = some (f.erase Info.id old) := by
  induction f with
  | nil => cases hold
  | node tmp child sibling _ ih =>
    obtain ⟨⟨-, hts⟩, -, hsn, -⟩ := (Forest.nodup_node Info.id).mp hnodup
    rw [releaseAmong]
    split
    · rename_i heq
      rw [Forest.erase, if_pos heq, Forest.erase_of_notMem (heq ▸ hts)]
    · rename_i hne
      rcases List.mem_cons.mp hold with hold | hold
      · exact absurd hold.symm hne
      · obtain ⟨b, hb, rfl⟩ := List.mem_map.mp hold
        rw [ih hsn hold, Forest.erase_sibling hnodup (Forest.key_mem_of_mem_level Info.id hb)]
        rfl

theorem releaseRegionAmong_found (hf : Within lo hi f) (hnodup : (ids f).Nodup) (hbusy : r.busy)
    {above : List Info} (hpath : above ++ [r] ∈ f.paths) :
    releaseRegionAmong r.start r.last f = some (f.erase Info.id r.id) := by
  induction f generalizing lo hi above with
  | nil => cases hpath
  | node res child sibling ihc ihs =>
    obtain ⟨⟨-, hts⟩, hcn, hsn, -⟩ := (Forest.nodup_node Info.id).mp hnodup
    obtain ⟨hres, hidle, hchild, hsibling⟩ := hf
    rw [releaseRegionAmong]
    rcases Forest.mem_paths_node.mp hpath with hone | ⟨rest, hrest, hcons⟩ | hpath
    · obtain ⟨-, hone⟩ | ⟨-, hone⟩ := List.append_eq_singleton_iff.mp hone
      · obtain rfl : r = res := List.singleton_inj.mp hone
        simp [hbusy, Forest.erase, Forest.erase_of_notMem hts]
      · cases hone
    · -- further down: the resource above it is not busy and holds the range
      obtain ⟨above', rfl⟩ : ∃ above', rest = above' ++ [r] := by
        rcases List.append_eq_cons_iff.mp hcons with ⟨-, hone⟩ | ⟨above', -, hrest⟩
        · exact absurd (List.cons.inj hone).2.symm (Forest.ne_nil_of_mem_paths hrest)
        · exact ⟨above', hrest⟩
      obtain ⟨_, hmem, -⟩ := Forest.exists_mem_nodes_of_path hrest
      have hin := (hchild.nodes hmem).1
      have hfree : res.busy = false := by
        cases hb : res.busy with
        | false => rfl
        | true =>
          rw [hidle hb] at hrest
          cases hrest
      rw [if_pos ⟨hin.1, hin.2.2⟩, if_pos (by rw [hfree]; rfl), ihc hchild hcn hrest,
        Forest.erase_child hnodup (Forest.key_mem_of_mem_nodes Info.id hmem)]
      rfl
    · obtain ⟨_, hmem, -⟩ := Forest.exists_mem_nodes_of_path hpath
      have hin := (hsibling.nodes hmem).1
      have hpast : ¬ (res.start ≤ r.start ∧ r.last ≤ res.last) := by
        rintro ⟨-, hle⟩
        have h1 : r.last.toNat ≤ res.last.toNat := hle
        have h2 : r.start.toNat ≤ r.last.toNat := hin.2.1
        omega
      rw [if_neg hpast, ihs hsibling hsn hpath,
        Forest.erase_sibling hnodup (Forest.key_mem_of_mem_nodes Info.id hmem)]
      rfl

/-- Whatever is taken out is a busy region with the range. -/
theorem releaseRegionAmong_spec (hnodup : (ids f).Nodup)
    (h : releaseRegionAmong start last f = some f') :
    ∃ above r, above ++ [r] ∈ f.paths ∧ r.start = start ∧ r.last = last ∧ r.busy ∧
      f' = f.erase Info.id r.id := by
  induction f generalizing f' with
  | nil => cases h
  | node res child sibling ihc ihs =>
    obtain ⟨⟨-, hts⟩, hcn, hsn, -⟩ := (Forest.nodup_node Info.id).mp hnodup
    rw [releaseRegionAmong] at h
    split at h
    · split at h
      · obtain ⟨below, hbelow, rfl⟩ := Option.map_eq_some_iff.mp h
        obtain ⟨above, r, hpath, hstart, hlast, hbusy, rfl⟩ := ihc hcn hbelow
        exact ⟨res :: above, r, Forest.mem_paths_node.mpr (.inr (.inl ⟨_, hpath, rfl⟩)), hstart,
          hlast, hbusy, (Forest.erase_child hnodup (Forest.key_mem_of_path Info.id hpath)).symm⟩
      · rename_i hbusy
        split at h
        · cases h
        · rename_i hexact
          obtain ⟨hstart, hlast⟩ := not_or.mp hexact
          cases h
          refine ⟨[], res, List.mem_cons_self, not_not.mp hstart, not_not.mp hlast, ?_, ?_⟩
          · simpa using hbusy
          · rw [Forest.erase, if_pos rfl, Forest.erase_of_notMem hts]
    · obtain ⟨rest, hrest, rfl⟩ := Option.map_eq_some_iff.mp h
      obtain ⟨above, r, hpath, hstart, hlast, hbusy, rfl⟩ := ihs hsn hrest
      exact ⟨above, r, Forest.mem_paths_node.mpr (.inr (.inr hpath)), hstart, hlast, hbusy,
        (Forest.erase_sibling hnodup (Forest.key_mem_of_path Info.id hpath)).symm⟩

end
end CustomKernel.Ioport.Tree

import CustomKernel.Lib.Ownership
import CustomKernel.Lib.Transition
import CustomKernel.Policy.Effects
import Mathlib.Data.Set.Lattice
import Mathlib.Order.CompletePartialOrder

/-! # Who owns the log blocks

A task with its policy on owns its `log_array`, and a `log_array` of non-zero
size owns its record array. `Sound` says that these pointers account for every
log block exactly once. Each call keeps it, whatever the allocator and the
copies to user space do, so no block is leaked, shared or freed twice. -/
namespace CustomKernel.Policy.Ownership
open Lib.Ownership Function
open Policy.Heap Policy.Log
open Policy.Effects

inductive Kind where
  | task | log | records | temp
deriving DecidableEq

def kind : Block → Kind
  | .task _ => .task
  | .log _ => .log
  | .records .. => .records
  | .temp _ => .temp

/-- The owning pointer of a block. The pointers of a task with its policy off
and of a log of size 0 are stale and own nothing. -/
def ownedBy : Block → Option Addr
  | .task t => if t.policyOn = 1 then some t.logArray else none
  | .log l => if l.size = 0 then none else some l.array
  | .records .. | .temp _ => none

/-- What a block of each kind owns. -/
def Kind.below : Kind → Option Kind
  | .task => some .log
  | .log => some .records
  | .records | .temp => none

/-- The blocks that belong to a log. -/
def isLogBlock (x : Block) : Prop := kind x = .log ∨ kind x = .records

/-- What holds of every block taken alone. -/
def blockOk : Block → Prop
  | .task t => t.policyOn = 0 ∨ t.policyOn = 1
  | .log l => 0 ≤ l.size
  | .records .. => True
  | .temp _ => False

def owner (k : Kernel) (b : Addr) : Option Addr := (k.mem b).bind ownedBy

def kindAt (k : Kernel) (a : Addr) : Option Kind := (k.mem a).map kind

/-- The live log blocks. -/
def logBlocks (k : Kernel) : Set Addr := {a | ∃ x, k.mem a = some x ∧ isLogBlock x}

structure Sound (k : Kernel) : Prop where
  null : k.mem 0 = none
  hash : ∀ pid p, k.pidhash pid = some p → ∃ t, k.mem p = some (.task t) ∧ t.pid = pid
  ok : ∀ a x, k.mem a = some x → blockOk x
  fit : ∀ b a, owner k b = some a → kindAt k a = (kindAt k b).bind Kind.below
  exact : Exact (owner k) (logBlocks k)

section Lookup
variable {k : Kernel} {p a b : Addr} {t : TaskStruct} {l : LogArray} {x y : Block}

theorem owner_of_mem (h : k.mem a = some x) : owner k a = ownedBy x := by
  simp [owner, h]

theorem owner_set : owner (k.set a x) = update (owner k) a (ownedBy x) :=
  comp_update (Option.bind · ownedBy) k.mem a (some x)

theorem owner_unset : owner (k.unset a) = update (owner k) a none :=
  comp_update (Option.bind · ownedBy) k.mem a none

theorem kindAt_set : kindAt (k.set a x) = update (kindAt k) a (some (kind x)) :=
  comp_update (Option.map kind) k.mem a (some x)

theorem kindAt_unset : kindAt (k.unset a) = update (kindAt k) a none :=
  comp_update (Option.map kind) k.mem a none

theorem kindAt_same (hx : k.mem a = some x) (hκ : kind y = kind x) :
    kindAt (k.set a y) = kindAt k := by
  rw [kindAt_set, hκ]
  exact update_eq_self_iff.mpr (by simp [kindAt, hx])

theorem mem_logBlocks_iff :
    a ∈ logBlocks k ↔ kindAt k a = some .log ∨ kindAt k a = some .records := by
  cases h : k.mem a <;> simp [logBlocks, kindAt, isLogBlock, h]

theorem not_mem_logBlocks (h : k.mem a = none) : a ∉ logBlocks k := by
  simp [mem_logBlocks_iff, kindAt, h]

theorem task_not_mem_logBlocks (ht : k.mem p = some (.task t)) : p ∉ logBlocks k := by
  simp [mem_logBlocks_iff, kindAt, ht, kind]

theorem Sound.flag (hs : Sound k) (ht : k.mem p = some (.task t)) :
    t.policyOn = 0 ∨ t.policyOn = 1 := hs.ok p _ ht

/-- An owning pointer leads to a live block of the right kind. -/
theorem Sound.below (hs : Sound k) {κ : Kind} (hx : k.mem b = some x) (ho : ownedBy x = some a)
    (hκ : (kind x).below = some κ) : ∃ y, k.mem a = some y ∧ kind y = κ := by
  have hf := hs.fit b a (by rw [owner_of_mem hx, ho])
  simp only [kindAt, hx, Option.map_some, Option.bind_some, hκ] at hf
  exact Option.map_eq_some_iff.mp hf

theorem Sound.log (hs : Sound k) (ht : k.mem p = some (.task t)) (hon : t.policyOn = 1) :
    ∃ l, k.mem t.logArray = some (.log l) ∧ 0 ≤ l.size := by
  obtain ⟨y, hy, hκ⟩ := hs.below ht (a := t.logArray) (by simp [ownedBy, hon]) rfl
  cases y with
  | log l => exact ⟨l, hy, hs.ok _ _ hy⟩
  | task _ | records _ _ | temp _ => cases hκ

theorem Sound.records (hs : Sound k) (hl : k.mem a = some (.log l)) (h0 : l.size ≠ 0) :
    ∃ n e, k.mem l.array = some (.records n e) := by
  obtain ⟨y, hy, hκ⟩ := hs.below hl (a := l.array) (by simp [ownedBy, h0]) rfl
  cases y with
  | records n e => exact ⟨n, e, hy⟩
  | task _ | log _ | temp _ => cases hκ

theorem Sound.someLog (hs : Sound k) (ht : k.mem p = some (.task t)) :
    ∃ l, (t.policyOn ≠ 0 → k.mem t.logArray = some (.log l) ∧ 0 ≤ l.size) ∧
      (t.policyOn ≠ 0 → l.size ≠ 0 → ∃ n e, k.mem l.array = some (.records n e)) := by
  rcases hs.flag ht with hoff | hon
  · exact ⟨default, fun h => absurd hoff h, fun h => absurd hoff h⟩
  · obtain ⟨l, hl, h0⟩ := hs.log ht hon
    exact ⟨l, fun _ => ⟨hl, h0⟩, fun _ hne => hs.records hl hne⟩

end Lookup

/-! ## What the calls do to a sound state -/

section Preserve
variable {k : Kernel} {p a b : Addr} {t t' : TaskStruct} {l : LogArray} {x y z : Block}

theorem ok_set (h : ∀ a x, k.mem a = some x → blockOk x) (hy : blockOk y) :
    ∀ c x, (k.set a y).mem c = some x → blockOk x := by
  intro c x hx
  rcases Kernel.mem_of_set hx with ⟨_, rfl⟩ | ⟨_, hx⟩
  · exact hy
  · exact h c x hx

theorem ok_unset (h : ∀ a x, k.mem a = some x → blockOk x) :
    ∀ c x, (k.unset a).mem c = some x → blockOk x :=
  fun c x hx => h c x (Kernel.mem_of_unset hx)

/-- Two contents of one block that the pid hash cannot tell apart. -/
def samePid (x y : Block) : Prop := ∀ t, x = .task t → ∃ t', y = .task t' ∧ t'.pid = t.pid

theorem hash_set (h : ∀ pid p, k.pidhash pid = some p → ∃ t, k.mem p = some (.task t) ∧ t.pid = pid)
    (hx : k.mem a = some x) (hxy : samePid x y) :
    ∀ pid p, (k.set a y).pidhash pid = some p →
      ∃ t, (k.set a y).mem p = some (.task t) ∧ t.pid = pid := by
  intro pid p hp
  obtain ⟨t, ht, hpt⟩ := h pid p hp
  by_cases he : p = a
  · subst he
    rw [hx] at ht
    obtain ⟨t', hy, ht'⟩ := hxy t (Option.some.inj ht)
    exact ⟨t', by simp [hy], ht'.trans hpt⟩
  · exact ⟨t, by simp [he, ht], hpt⟩

section
variable (hs : Sound k)
include hs

/-- A block changes its contents but neither its kind nor what it owns. -/
theorem Sound.replace (hx : k.mem a = some x) (ho : ownedBy y = ownedBy x)
    (hκ : kind y = kind x) (hok : blockOk y) (hpid : samePid x y) : Sound (k.set a y) := by
  have ha0 := k.ne_of_free hx hs.null
  have hown : owner (k.set a y) = owner k := by
    rw [owner_set, ho, ← owner_of_mem hx, update_eq_self]
  refine ⟨by simp [ha0.symm, hs.null], hash_set hs.hash hx hpid, ok_set hs.ok hok, ?_, ?_⟩
  · rw [hown, kindAt_same hx hκ]
    exact hs.fit
  · refine hs.exact.congr (fun c => by rw [hown]) fun c => ?_
    rw [mem_logBlocks_iff, mem_logBlocks_iff, kindAt_same hx hκ]

/-- A fresh block `a` is given to `b`, which owned nothing. -/
theorem Sound.give (hx : k.mem b = some x) (hxo : ownedBy x = none)
    (ha0 : a ≠ 0) (ha : k.mem a = none) (hyo : ownedBy y = some a) (hκ : kind y = kind x)
    (hok : blockOk y) (hpid : samePid x y) (hzo : ownedBy z = none)
    (hzκ : (kind x).below = some (kind z)) (hzok : blockOk z) :
    Sound ((k.set b y).set a z) := by
  have hb0 := k.ne_of_free hx hs.null
  have hba := k.ne_of_free hx ha
  have hz : isLogBlock z := by
    cases hk : kind x with
    | task => rw [hk] at hzκ; exact .inl (Option.some.inj hzκ).symm
    | log => rw [hk] at hzκ; exact .inr (Option.some.inj hzκ).symm
    | records | temp => rw [hk] at hzκ; cases hzκ
  have hown : owner ((k.set b y).set a z) = update (owner k) b (some a) := by
    have hoa : owner k a = none := by simp [owner, ha]
    rw [owner_set, owner_set, hyo, hzo]
    apply update_eq_self_iff.mpr
    rw [update_of_ne hba.symm, hoa]
  have hkind : kindAt ((k.set b y).set a z) = update (kindAt k) a (some (kind z)) := by
    rw [kindAt_set, kindAt_same hx hκ]
  refine ⟨by simp [ha0.symm, hb0.symm, hs.null], ?_, ok_set (ok_set hs.ok hok) hzok, ?_, ?_⟩
  · intro pid p hp
    obtain ⟨t, ht, hpt⟩ := hash_set hs.hash hx hpid pid p hp
    have hpa : p ≠ a := by
      intro he
      rw [he, Kernel.set_mem, update_of_ne hba.symm, ha] at ht; cases ht
    exact ⟨t, by simpa [hpa] using ht, hpt⟩
  · intro c d hcd
    rw [hown] at hcd
    rw [hkind]
    by_cases hc : c = b
    · subst hc
      rw [update_self] at hcd
      cases hcd
      rw [update_self, update_of_ne hba]
      simp [kindAt, hx, hzκ]
    · rw [update_of_ne hc] at hcd
      have hda : d ≠ a := fun he => not_mem_logBlocks ha (he ▸ hs.exact.live c d hcd)
      have hca : c ≠ a := by
        rintro rfl
        simp [owner, ha] at hcd
      rw [update_of_ne hda, update_of_ne hca, hs.fit c d hcd]
  · refine (hs.exact.attach (by rw [owner_of_mem hx, hxo])
      (not_mem_logBlocks ha)).congr (fun c => by rw [hown]) fun c => ?_
    rw [Set.mem_insert_iff, mem_logBlocks_iff, mem_logBlocks_iff, hkind]
    by_cases hca : c = a
    · subst hca
      simpa [isLogBlock] using hz
    · simp [hca]

/-- What `b` owns is freed, and owned nothing itself. -/
theorem Sound.take (hx : k.mem b = some x) (hxo : ownedBy x = some a)
    (hz : k.mem a = some z) (hzo : ownedBy z = none) (hyo : ownedBy y = none)
    (hκ : kind y = kind x) (hok : blockOk y) (hpid : samePid x y) :
    Sound ((k.set b y).unset a) := by
  have hb0 := k.ne_of_free hx hs.null
  have hba : b ≠ a := by
    intro he
    rw [he, hz] at hx
    cases hx
    rw [hzo] at hxo; cases hxo
  have hza : a ∈ logBlocks k := hs.exact.live b a (by rw [owner_of_mem hx, hxo])
  have hoa : owner k a = none := by rw [owner_of_mem hz, hzo]
  have hown : owner ((k.set b y).unset a) = update (owner k) b none := by
    rw [owner_unset, owner_set, hyo]
    apply update_eq_self_iff.mpr
    rw [update_of_ne hba.symm, hoa]
  have hkind : kindAt ((k.set b y).unset a) = update (kindAt k) a none := by
    rw [kindAt_unset, kindAt_same hx hκ]
  refine ⟨?_, ?_, ok_unset (ok_set hs.ok hok), ?_, ?_⟩
  · by_cases h0 : a = 0
    · simp [h0]
    · simp [Ne.symm h0, hb0.symm, hs.null]
  · intro pid p hp
    obtain ⟨t, ht, hpt⟩ := hash_set hs.hash hx hpid pid p hp
    have hpa : p ≠ a := by
      intro he
      obtain ⟨z', hz', hlog⟩ := hza
      rw [he, Kernel.set_mem, update_of_ne hba.symm, hz'] at ht
      cases ht
      simp [isLogBlock, kind] at hlog
    exact ⟨t, by simpa [hpa] using ht, hpt⟩
  · intro c d hcd
    rw [hown] at hcd
    by_cases hc : c = b
    · rw [hc, update_self] at hcd; cases hcd
    · rw [update_of_ne hc] at hcd
      have hda : d ≠ a := fun he =>
        hc (hs.exact.unique c b a (he ▸ hcd) (by rw [owner_of_mem hx, hxo]))
      have hca : c ≠ a := by
        rintro rfl
        rw [hoa] at hcd; cases hcd
      rw [hkind, update_of_ne hda, update_of_ne hca, hs.fit c d hcd]
  · refine (hs.exact.detach (by rw [owner_of_mem hx, hxo])).congr
      (fun c => by rw [hown]) fun c => ?_
    rw [Set.mem_sdiff, mem_logBlocks_iff, mem_logBlocks_iff, hkind]
    by_cases hca : c = a
    · simp [hca]
    · simp [hca]

theorem Sound.setTask (ht : k.mem p = some (.task t))
    (hpid : t'.pid = t.pid) (hon : t'.policyOn = t.policyOn)
    (hlog : t.policyOn = 1 → t'.logArray = t.logArray) : Sound (k.set p (.task t')) := by
  apply hs.replace ht
  · by_cases h : t.policyOn = 1
    · simp [ownedBy, hon, h, hlog h]
    · simp [ownedBy, hon, h]
  · rfl
  · have := hs.flag ht
    rw [← hon] at this
    exact this
  · intro t0 h0
    cases h0
    exact ⟨t', rfl, hpid⟩

theorem Sound.setLog {m : LogArray} (hl : k.mem a = some (.log l)) (hsize : m.size = l.size)
    (harr : m.array = l.array) : Sound (k.set a (.log m)) := by
  apply hs.replace hl
  · simp [ownedBy, hsize, harr]
  · rfl
  · have h : 0 ≤ l.size := hs.ok _ _ hl
    show 0 ≤ m.size
    rw [hsize]; exact h
  · intro t0 h0; cases h0

theorem Sound.setRecords {n : Nat} {e e' : Int → ForbiddenActivityInfo}
    (hr : k.mem a = some (.records n e)) : Sound (k.set a (.records n e')) := by
  refine hs.replace hr rfl rfl trivial ?_
  intro t0 h0; cases h0

theorem Sound.faults (fs : List Fault) : Sound { k with faults := fs } :=
  ⟨hs.null, hs.hash, hs.ok, hs.fit, hs.exact⟩

end

/-! The states the equations of `Effects` name. -/

@[simp] theorem pidhash_freeLog (k : Kernel) (a : Addr) (l : LogArray) :
    (freeLog k a l).pidhash = k.pidhash := by
  unfold freeLog; split <;> rfl

/-- The task stays when its log is freed. -/
theorem freeLog_task (ht : k.mem p = some (.task t)) (hl : k.mem a = some (.log l))
    (hr : l.size ≠ 0 → ∃ n e, k.mem l.array = some (.records n e)) :
    (freeLog (k.set p (.task t')) a l).mem p = some (.task t') := by
  have hpl := k.ne_of_mem ht hl (by simp)
  unfold freeLog
  by_cases h0 : l.size = 0
  · simp [h0, hpl]
  · obtain ⟨n, e, hr⟩ := hr h0
    simp [h0, hpl, k.ne_of_mem ht hr (by simp)]

section
variable (hs : Sound k)
include hs

theorem Sound.onTask (ht : k.mem p = some (.task t)) (hoff : t.policyOn ≠ 1)
    (ha0 : a ≠ 0) (ha : k.mem a = none) (array : Addr) :
    Sound ((k.set p (.task (onTask t a))).set a (.log (freshLog 0 array))) := by
  apply hs.give ht (by simp [ownedBy, hoff]) ha0 ha
  · simp [ownedBy, Effects.onTask]
  · rfl
  · exact .inr rfl
  · intro t0 h0; cases h0; exact ⟨_, rfl, rfl⟩
  · simp [ownedBy, freshLog]
  · rfl
  · exact Int.le_refl 0

theorem Sound.onTask_array (ht : k.mem p = some (.task t))
    (hoff : t.policyOn ≠ 1) (ha0 : a ≠ 0) (ha : k.mem a = none) (hb0 : b ≠ 0)
    (hb : k.mem b = none) (hab : a ≠ b) {size : Int} (hsize : 0 < size) (n : Nat)
    (e : Int → ForbiddenActivityInfo) :
    Sound (((k.set p (.task (Effects.onTask t a))).set a (.log (freshLog size b))).set b
      (.records n e)) := by
  have hpb := k.ne_of_free ht hb
  have h1 := hs.onTask ht hoff ha0 ha 0
  have hs0 : size ≠ 0 := by omega
  have h2 := h1.give (b := a) (x := .log (freshLog 0 0)) (y := .log (freshLog size b))
    (z := .records n e) (by simp) rfl hb0 (by simp [hab.symm, hpb.symm, hb])
    (by simp [ownedBy, freshLog, hs0]) rfl (by show 0 ≤ size; omega)
    (by intro t0 h0; cases h0) rfl rfl trivial
  rwa [Kernel.set_set] at h2

theorem Sound.offTask (ht : k.mem p = some (.task t)) (hon : t.policyOn = 1)
    (hl : k.mem t.logArray = some (.log l)) :
    Sound (freeLog (k.set p (.task (offTask t))) t.logArray l) := by
  have hpl := k.ne_of_mem ht hl (by simp)
  have hoff : ∀ k' : Kernel, Sound k' → k'.mem p = some (.task t) →
      ∀ l', k'.mem t.logArray = some (.log l') → l'.size = 0 →
      Sound ((k'.set p (.task (Effects.offTask t))).unset t.logArray) := by
    intro k' hs' ht' l' hl' h0
    refine hs'.take ht' (by simp [ownedBy, hon]) hl' (by simp [ownedBy, h0])
      (by simp [ownedBy, Effects.offTask]) rfl (.inl rfl) ?_
    intro t0 h0; cases h0; exact ⟨_, rfl, rfl⟩
  unfold freeLog
  by_cases h0 : l.size = 0
  · rw [if_pos h0]
    exact hoff k hs ht l hl h0
  · -- the records go first, with the log left behind as one of size 0
    rw [if_neg h0]
    obtain ⟨n, e, hr⟩ := hs.records hl h0
    have hpr := k.ne_of_mem ht hr (by simp)
    have hlr := k.ne_of_mem hl hr (by simp)
    have h1 := hs.take (y := .log { l with size := 0 }) hl (by simp [ownedBy, h0]) hr rfl
      (by simp [ownedBy]) rfl (Int.le_refl 0) (by intro t0 h0; cases h0)
    have h2 := hoff _ h1 (by simp [hpr, hpl, ht]) { l with size := 0 } (by simp [hlr]) rfl
    have he : (((k.set t.logArray (.log { l with size := 0 })).unset l.array).set p
          (.task (Effects.offTask t))).unset t.logArray =
        ((k.set p (.task (Effects.offTask t))).unset l.array).unset t.logArray := by
      rw [Kernel.unset_comm _ hlr, Kernel.set_comm _ _ hpl.symm, Kernel.unset_set,
        Kernel.unset_comm _ hpr]
    rwa [he] at h2

/-- The block at `p` comes or goes without a part in the account. -/
theorem Sound.lone {k' : Kernel} {v : Option Kind} (hown : owner k' = owner k)
    (hkind : kindAt k' = update (kindAt k) p v) (hv : ¬ (v = some .log ∨ v = some .records))
    (hp : p ∉ logBlocks k) (hop : owner k p = none) :
    (∀ b a, owner k' b = some a → kindAt k' a = (kindAt k' b).bind Kind.below) ∧
      Exact (owner k') (logBlocks k') := by
  constructor
  · intro c d hcd
    rw [hown] at hcd
    have hc : c ≠ p := by
      rintro rfl
      rw [hop] at hcd; cases hcd
    have hd : d ≠ p := fun he => hp (he ▸ hs.exact.live c d hcd)
    rw [hkind, update_of_ne hc, update_of_ne hd, hs.fit c d hcd]
  · refine hs.exact.congr (fun c => by rw [hown]) fun c => ?_
    rw [mem_logBlocks_iff, hkind]
    by_cases hc : c = p
    · subst hc
      rw [update_self]
      exact iff_of_false hv hp
    · rw [update_of_ne hc, mem_logBlocks_iff]

/-- A task that owns nothing leaves memory and the pid hash. -/
theorem Sound.drop (ht : k.mem p = some (.task t)) (hoff : t.policyOn ≠ 1) :
    Sound { k.unset p with pidhash := update k.pidhash t.pid none } := by
  have hop : owner k p = none := by rw [owner_of_mem ht]; simp [ownedBy, hoff]
  have hown : owner (k.unset p) = owner k := by
    rw [owner_unset]; exact update_eq_self_iff.mpr hop.symm
  obtain ⟨hfit, hexact⟩ := hs.lone hown kindAt_unset (by simp) (task_not_mem_logBlocks ht) hop
  refine ⟨?_, ?_, ok_unset hs.ok, hfit, hexact⟩
  · have hp0 := k.ne_of_free ht hs.null
    simp [hp0.symm, hs.null]
  · intro pid q hq
    by_cases he : pid = t.pid
    · simp [he] at hq
    · simp only [update_of_ne he] at hq
      obtain ⟨t', ht', hpt⟩ := hs.hash pid q hq
      have hqp : q ≠ p := by
        intro heq
        rw [heq, ht] at ht'
        cases ht'
        exact he hpt.symm
      exact ⟨t', by simp [hqp, ht'], hpt⟩

/-- A task with its policy off appears under a pid that was free. -/
theorem Sound.fork (ha0 : a ≠ 0) (ha : k.mem a = none) (hoff : t.policyOn = 0)
    {pid : Int} (hpid : t.pid = pid) :
    Sound { k.set a (.task t) with pidhash := update k.pidhash pid (some a) } := by
  have hoa : owner k a = none := by simp [owner, ha]
  have hown : owner (k.set a (.task t)) = owner k := by
    rw [owner_set]
    exact update_eq_self_iff.mpr (by simp [ownedBy, hoff, hoa])
  obtain ⟨hfit, hexact⟩ := hs.lone hown kindAt_set (by simp [kind]) (not_mem_logBlocks ha) hoa
  refine ⟨by simp [ha0.symm, hs.null], ?_, ok_set hs.ok (.inl hoff), hfit, hexact⟩
  intro q b hb
  by_cases he : q = pid
  · simp only [he, update_self, Option.some.injEq] at hb
    exact ⟨t, by simp [← hb], hpid.trans he.symm⟩
  · simp only [update_of_ne he] at hb
    obtain ⟨t', ht', hpt⟩ := hs.hash q b hb
    have hba : b ≠ a := by intro heq; rw [heq, ha] at ht'; cases ht'
    exact ⟨t', by simp [hba, ht'], hpt⟩

theorem Sound.release (ht : k.mem p = some (.task t))
    (hl : t.policyOn = 1 → k.mem t.logArray = some (.log l)) : Sound (released k p t l) := by
  unfold released
  by_cases h : t.policyOn = 0
  · rw [if_pos h]
    exact hs.drop ht (by rw [h]; decide)
  · rw [if_neg h]
    have hon : t.policyOn = 1 := (hs.flag ht).resolve_left h
    have hl := hl hon
    have hpl := k.ne_of_mem ht hl (by simp)
    have h1 := hs.offTask ht hon hl
    have h2 := h1.drop (freeLog_task ht hl (hs.records hl)) (by simp [Effects.offTask])
    have he : (freeLog (k.set p (.task (Effects.offTask t))) t.logArray l).unset p =
        (freeLog k t.logArray l).unset p := by
      unfold freeLog
      by_cases h0 : l.size = 0
      · simp only [if_pos h0]
        rw [Kernel.unset_comm _ hpl, Kernel.unset_set]
      · obtain ⟨n, e, hr⟩ := hs.records hl h0
        simp only [if_neg h0]
        rw [Kernel.unset_comm _ (k.ne_of_mem ht hr (by simp)), Kernel.unset_comm _ hpl,
          Kernel.unset_set]
    rw [he, pidhash_freeLog] at h2
    exact h2

theorem Sound.logged (hl : k.mem t.logArray = some (.log l))
    (r : ForbiddenActivityInfo) : Sound (Effects.logged k t l r) ∧
      ∃ fs, (Effects.logged k t l r).faults = fs ++ k.faults ∧ ∀ f ∈ fs, ArrayFault f := by
  obtain ⟨k1, fs, hrun, hfs, hk1⟩ := run_storeElem_spec l.array l.indexWrite r
  unfold Effects.logged
  rw [hrun]
  refine ⟨?_, fs, rfl, hfs⟩
  have h1 : Sound k1 ∧ k1.mem t.logArray = some (.log l) := by
    rcases hk1 with ⟨rfl, _⟩ | ⟨n, e, hm, _, _, rfl⟩
    · exact ⟨hs, hl⟩
    · exact ⟨hs.setRecords hm, by simp [k.ne_of_mem hl hm (by simp), hl]⟩
  exact (h1.1.setLog h1.2 (m := afterWrite l) rfl rfl).faults (fs ++ k.faults)

end

theorem faults_freeLog (a : Addr) : (freeLog k a l).faults = k.faults := by
  unfold freeLog; split <;> rfl

theorem faults_released : (released k p t l).faults = k.faults := by
  unfold released
  split
  · rfl
  · exact faults_freeLog t.logArray

end Preserve

/-! ## The account of the blocks -/

/-- The blocks that the task at `p` answers for. -/
def blocksOf (k : Kernel) (p : Addr) : Set Addr :=
  {a | ∃ t, k.mem p = some (.task t) ∧ t.policyOn = 1 ∧
    (a = t.logArray ∨ ∃ l, k.mem t.logArray = some (.log l) ∧ l.size ≠ 0 ∧ a = l.array)}

section Account
variable {k : Kernel} {p q a : Addr} {t : TaskStruct} {l : LogArray}

theorem Sound.owned (hs : Sound k) {y : Block} (hy : k.mem a = some y) (hlog : isLogBlock y) :
    ∃ b x, k.mem b = some x ∧ ownedBy x = some a ∧ (kind x).below = some (kind y) := by
  obtain ⟨b, hb⟩ := hs.exact.owned a ⟨y, hy, hlog⟩
  have hfit := hs.fit b a hb
  cases hx : k.mem b with
  | none => simp [owner, hx] at hb
  | some x =>
    rw [owner_of_mem hx] at hb
    simp only [kindAt, hy, hx, Option.map_some, Option.bind_some] at hfit
    exact ⟨b, x, hx, hb, hfit.symm⟩

theorem Sound.owner_log (hs : Sound k) (hl : k.mem a = some (.log l)) :
    ∃ p t, k.mem p = some (.task t) ∧ t.policyOn = 1 ∧ t.logArray = a := by
  obtain ⟨b, x, hx, hb, hκ⟩ := hs.owned hl (.inl rfl)
  cases x with
  | task t =>
    by_cases hon : t.policyOn = 1
    · simp only [ownedBy, if_pos hon, Option.some.injEq] at hb
      exact ⟨b, t, hx, hon, hb⟩
    · simp [ownedBy, hon] at hb
  | log _ | records _ _ | temp _ => cases hκ

theorem Sound.owner_records (hs : Sound k) {n : Nat} {e : Int → ForbiddenActivityInfo}
    (hr : k.mem a = some (.records n e)) :
    ∃ b l, k.mem b = some (.log l) ∧ l.size ≠ 0 ∧ l.array = a := by
  obtain ⟨b, x, hx, hb, hκ⟩ := hs.owned hr (.inr rfl)
  cases x with
  | log l =>
    by_cases h0 : l.size = 0
    · simp [ownedBy, h0] at hb
    · simp only [ownedBy, if_neg h0, Option.some.injEq] at hb
      exact ⟨b, l, hx, h0, hb⟩
  | task _ | records _ _ | temp _ => cases hκ

theorem Sound.mem_logBlocks (hs : Sound k) : a ∈ logBlocks k ↔ ∃ p, a ∈ blocksOf k p := by
  constructor
  · rintro ⟨x, hx, hlog⟩
    cases x with
    | log l =>
      obtain ⟨p, t, ht, hon, rfl⟩ := hs.owner_log hx
      exact ⟨p, t, ht, hon, .inl rfl⟩
    | records n e =>
      obtain ⟨b, l, hl, h0, rfl⟩ := hs.owner_records hx
      obtain ⟨p, t, ht, hon, rfl⟩ := hs.owner_log hl
      exact ⟨p, t, ht, hon, .inr ⟨l, hl, h0, rfl⟩⟩
    | task _ | temp _ => simp [isLogBlock, kind] at hlog
  · rintro ⟨p, t, ht, hon, rfl | ⟨l, hl, h0, rfl⟩⟩
    · obtain ⟨l, hl, _⟩ := hs.log ht hon
      exact ⟨_, hl, .inl rfl⟩
    · obtain ⟨n, e, hr⟩ := hs.records hl h0
      exact ⟨_, hr, .inr rfl⟩

/-- Two tasks with their policy on have different logs. -/
theorem Sound.log_ne (hs : Sound k) {t' : TaskStruct} (hpq : p ≠ q)
    (ht : k.mem p = some (.task t)) (hon : t.policyOn = 1) (ht' : k.mem q = some (.task t'))
    (hon' : t'.policyOn = 1) : t.logArray ≠ t'.logArray := by
  intro he
  apply hpq
  apply hs.exact.unique p q t.logArray
  · simp [owner_of_mem ht, ownedBy, hon]
  · simp [owner_of_mem ht', ownedBy, hon', he]

/-- Two logs of non-zero size have different record arrays. -/
theorem Sound.records_ne (hs : Sound k) {b : Addr} {l' : LogArray} (hab : a ≠ b)
    (hl : k.mem a = some (.log l)) (h0 : l.size ≠ 0) (hl' : k.mem b = some (.log l'))
    (h0' : l'.size ≠ 0) : l.array ≠ l'.array := by
  intro he
  apply hab
  apply hs.exact.unique a b l.array
  · simp [owner_of_mem hl, ownedBy, h0]
  · simp [owner_of_mem hl', ownedBy, h0', he]

theorem Sound.blocksOf_disjoint (hs : Sound k) (hpq : p ≠ q) :
    Disjoint (blocksOf k p) (blocksOf k q) := by
  rw [Set.disjoint_left]
  rintro a ⟨t, ht, hon, ha⟩ ⟨t', ht', hon', ha'⟩
  have hne := hs.log_ne hpq ht hon ht' hon'
  obtain ⟨l0, hl0, _⟩ := hs.log ht hon
  obtain ⟨l0', hl0', _⟩ := hs.log ht' hon'
  rcases ha with rfl | ⟨l, hl, h0, rfl⟩
  · rcases ha' with he | ⟨l', hl', h0', he⟩
    · exact hne he
    · obtain ⟨n, e, hr⟩ := hs.records hl' h0'
      rw [← he, hl0] at hr; cases hr
  · obtain ⟨n, e, hr⟩ := hs.records hl h0
    rcases ha' with he | ⟨l', hl', h0', he⟩
    · rw [he, hl0'] at hr; cases hr
    · exact hs.records_ne hne hl h0 hl' h0' he

end Account

/-! ## Local changes -/

/-- Memory has changed at `p`, in the blocks of `p` and where it was free. -/
def Local (k k' : Kernel) (p : Addr) : Prop :=
  ∀ a, k'.mem a = k.mem a ∨ a = p ∨ a ∈ blocksOf k p ∨ k.mem a = none

section Local
variable {k k' : Kernel} {p a : Addr} {t : TaskStruct} {l : LogArray}

theorem Local.refl (k : Kernel) (p : Addr) : Local k k p := fun _ => .inl rfl

theorem Local.update (h : Local k k' p) (x : Option Block) (ha : a = p ∨ a ∈ blocksOf k p ∨ k.mem a = none) :
    Local k { k' with mem := update k'.mem a x } p := by
  intro b
  by_cases hba : b = a
  · exact .inr (hba ▸ ha)
  · dsimp only
    rw [update_of_ne hba]
    exact h b

theorem Local.set (h : Local k k' p) (x : Block)
    (ha : a = p ∨ a ∈ blocksOf k p ∨ k.mem a = none) : Local k (k'.set a x) p := h.update _ ha

theorem Local.unset (h : Local k k' p) (ha : a = p ∨ a ∈ blocksOf k p ∨ k.mem a = none) :
    Local k (k'.unset a) p := h.update none ha

theorem log_mem_blocksOf (ht : k.mem p = some (.task t)) (hon : t.policyOn = 1) :
    t.logArray ∈ blocksOf k p := ⟨t, ht, hon, .inl rfl⟩

theorem array_mem_blocksOf (ht : k.mem p = some (.task t)) (hon : t.policyOn = 1)
    (hl : k.mem t.logArray = some (.log l)) (h0 : l.size ≠ 0) : l.array ∈ blocksOf k p :=
  ⟨t, ht, hon, .inr ⟨l, hl, h0, rfl⟩⟩

theorem Local.freeLog (h : Local k k' p) (ht : k.mem p = some (.task t)) (hon : t.policyOn = 1)
    (hl : k.mem t.logArray = some (.log l)) : Local k (freeLog k' t.logArray l) p := by
  refine Local.unset ?_ (.inr (.inl (log_mem_blocksOf ht hon)))
  split
  · exact h
  · rename_i h0
    exact h.unset (.inr (.inl (array_mem_blocksOf ht hon hl h0)))

variable {q : Addr}

/-- A local change leaves the other tasks alone, -/
theorem Local.task (hch : Local k k' p) (hs : Sound k) (hne : q ≠ p)
    (ht : k.mem q = some (.task t)) : k'.mem q = some (.task t) := by
  rcases hch q with h | h | h | h
  · exact h.trans ht
  · exact absurd h hne
  · exact absurd (hs.mem_logBlocks.mpr ⟨p, h⟩) (task_not_mem_logBlocks ht)
  · rw [ht] at h; cases h

/-- and their blocks as well. -/
theorem Local.block (hch : Local k k' p) (hs : Sound k) (hp : p ∉ logBlocks k) (hne : q ≠ p)
    (ha : a ∈ blocksOf k q) : k'.mem a = k.mem a := by
  have hlive : a ∈ logBlocks k := hs.mem_logBlocks.mpr ⟨q, ha⟩
  rcases hch a with h | h | h | h
  · exact h
  · exact absurd hlive (h ▸ hp)
  · exact absurd h (Set.disjoint_left.mp (hs.blocksOf_disjoint hne) ha)
  · exact absurd hlive (not_mem_logBlocks h)

end Local

end CustomKernel.Policy.Ownership

import CustomKernel.Lib.Queue
import CustomKernel.Policy.Bounds

/-! # What the policy system is for

The specification knows no memory: a process is off, or on with a level and a
log, and a log is a queue of records. `abstract` reads this off a kernel
state. What a queue does when it overflows is left to its discipline. -/
namespace CustomKernel.Policy.Spec
open Lib.Queue Function
open Policy.Heap Policy.Syscalls Policy.Log
open Policy.Ownership Policy.Outcomes
open Policy.Bounds

inductive Proc (Q : Type) where
  | off
  | on (level : Int) (log : Q)

/-- The processes there are, by pid. -/
abbrev System (Q : Type) := Int → Option (Proc Q)

def System.set {Q : Type} (σ : System Q) (pid : Int) (s : Proc Q) : System Q :=
  update σ pid (some s)

section Steps
variable {Q : Type} (D : Discipline ForbiddenActivityInfo Q)

/-- What a call behind its gate may do to the processes. -/
inductive Passes (σ : System Q) : Call → Int → System Q → Prop where
  | same (c : Call) (r : Int) : Passes σ c r σ
  | fork {cur jiffies flags child rest pid} (hpid : σ pid = none) :
      Passes σ (.fork cur jiffies flags child rest) pid (σ.set pid .off)
  | reap {cur jiffies options scan pid} (hpid : σ pid ≠ none) (hne : pid ≠ cur) :
      Passes σ (.wait4 cur jiffies options scan) pid (update σ pid none)

/-- One call. With `oom` the two calls that allocate may also fail for want of
memory; a failed copy to user space is `-ENOMEM` as well. -/
inductive SpecStep (oom : Bool) (σ : System Q) : Call × Reply → System Q → Prop where
  | noTarget {c : Call} (hg : c.gate = none) (h : σ c.pid = none) :
      SpecStep oom σ (c, .ofRet (-ESRCH)) σ
  | noCaller {c : Call} {g : Gate} (hg : c.gate = some g) (h : σ g.cur = none) :
      SpecStep oom σ (c, .ofRet 0) σ
  | enable {pid size m} (h : σ pid = some .off) (h0 : 0 ≤ size) :
      SpecStep oom σ (.enablePolicy pid size policyPassword m, .ofRet 0)
        (σ.set pid (.on 2 (D.ofList size [])))
  | enableRefused {pid size password m s} (h : σ pid = some s)
      (hc : ¬ (s = .off ∧ password = policyPassword ∧ 0 ≤ size)) :
      SpecStep oom σ (.enablePolicy pid size password m, .ofRet (-EINVAL)) σ
  | enableNoMem {pid size m} (hoom : oom = true) (h : σ pid = some .off) (h0 : 0 ≤ size) :
      SpecStep oom σ (.enablePolicy pid size policyPassword m, .ofRet (-ENOMEM)) σ
  | disable {pid level q} (h : σ pid = some (.on level q)) :
      SpecStep oom σ (.disablePolicy pid policyPassword, .ofRet 0) (σ.set pid .off)
  | disableRefused {pid password s} (h : σ pid = some s)
      (hc : s = .off ∨ password ≠ policyPassword) :
      SpecStep oom σ (.disablePolicy pid password, .ofRet (-EINVAL)) σ
  | setLevel {pid newLevel level q} (h : σ pid = some (.on level q)) (hlo : 0 ≤ newLevel)
      (hhi : newLevel ≤ 2) :
      SpecStep oom σ (.setProcessCapabilities pid newLevel policyPassword, .ofRet 0)
        (σ.set pid (.on newLevel q))
  | setLevelRefused {pid newLevel password s} (h : σ pid = some s)
      (hc : s = .off ∨ ¬ (password = policyPassword ∧ 0 ≤ newLevel ∧ newLevel ≤ 2)) :
      SpecStep oom σ (.setProcessCapabilities pid newLevel password, .ofRet (-EINVAL)) σ
  | read {pid size a level q} (h : σ pid = some (.on level q)) (h0 : 0 ≤ size)
      (hsize : size ≤ ((D.items q).length : Int)) :
      SpecStep oom σ
        (.getProcessLog pid size a true, ⟨0, (D.items q).take size.toNat, true⟩)
        (σ.set pid (.on level (D.pop size.toNat q)))
  | readRefused {pid size a copied s} (h : σ pid = some s)
      (hc : ∀ level q, s = .on level q → ¬ (0 ≤ size ∧ size ≤ ((D.items q).length : Int))) :
      SpecStep oom σ (.getProcessLog pid size a copied, .ofRet (-EINVAL)) σ
  | readNoMem {pid size a copied level q} (hm : oom = true ∨ copied = false)
      (h : σ pid = some (.on level q)) (h0 : 0 ≤ size)
      (hsize : size ≤ ((D.items q).length : Int)) :
      SpecStep oom σ (.getProcessLog pid size a copied, .ofRet (-ENOMEM)) σ
  | denied {c : Call} {g : Gate} {level q} (hg : c.gate = some g)
      (h : σ g.cur = some (.on level q)) (hlt : level < g.reqLevel) :
      SpecStep oom σ (c, ⟨-EINVAL, [], false⟩)
        (σ.set g.cur (.on level (D.push q ⟨g.reqLevel, level, g.jiffies⟩)))
  | passed {c : Call} {g : Gate} {s : Proc Q} {r : Int} {σ' : System Q} (hg : c.gate = some g)
      (h : σ g.cur = some s) (hc : ∀ level q, s = .on level q → ¬ level < g.reqLevel)
      (hb : Passes σ c r σ') : SpecStep oom σ (c, ⟨r, [], true⟩) σ'

end Steps

/-! ## The abstraction -/

/-- The unread records of a log. -/
def contents (k : Kernel) (l : LogArray) : List ForbiddenActivityInfo :=
  match k.mem l.array with
  | some (.records _ e) => unread l e
  | _ => []

section Abstract
variable {Q : Type} (D : Discipline ForbiddenActivityInfo Q)

/-- What the task at `p` is. -/
def view (k : Kernel) (p : Addr) : Proc Q :=
  match k.mem p with
  | some (.task t) =>
    if t.policyOn = 1 then
      match k.mem t.logArray with
      | some (.log l) => .on t.policyLevel (D.ofList l.size (contents k l))
      | _ => .off
    else .off
  | _ => .off

def abstract (k : Kernel) : System Q := fun pid => (k.pidhash pid).map (view D k)

variable {k k' : Kernel} {pid : Int} {p q : Addr} {t : TaskStruct} {l : LogArray}

theorem abstract_none (hp : k.pidhash pid = none) : abstract D k pid = none := by
  simp [abstract, hp]

theorem abstract_some (hp : k.pidhash pid = some p) : abstract D k pid = some (view D k p) := by
  simp [abstract, hp]

theorem view_off (ht : k.mem p = some (.task t)) (hoff : t.policyOn ≠ 1) :
    view D k p = .off := by
  simp [view, ht, hoff]

theorem view_on (ht : k.mem p = some (.task t)) (hon : t.policyOn = 1)
    (hl : k.mem t.logArray = some (.log l)) :
    view D k p = .on t.policyLevel (D.ofList l.size (contents k l)) := by
  simp [view, ht, hon, hl]

theorem contents_idle (h : Idle l) : contents k l = [] := by
  obtain ⟨h1, h2, h3, h4⟩ := h
  unfold contents
  split
  · simp [unread, unreadCount, h2, h3, h4]
  · rfl

theorem contents_records {n : Nat} {e : Int → ForbiddenActivityInfo}
    (hr : k.mem l.array = some (.records n e)) : contents k l = unread l e := by
  simp [contents, hr]

theorem length_contents (hs : Sound k) {a : Addr} (ha : k.mem a = some (.log l))
    (hu : InUse Consistent k l) : ((contents k l).length : Int) = unreadCount l := by
  obtain ⟨n, e, hr⟩ := hs.records ha (by have := hu.pos; omega)
  rw [contents_records hr, length_unread hu.holds.toInRange]

theorem readOk_iff (hs : Sound k) (hl : Logs Consistent k) {a : Addr}
    (ha : k.mem a = some (.log l)) (hon : t.policyOn = 1) (size : Int) :
    ReadOk t l size ↔ 0 ≤ size ∧ size ≤ ((contents k l).length : Int) := by
  have hon' : t.policyOn ≠ 0 := by rw [hon]; decide
  unfold ReadOk
  rcases hl a l ha with hi | hu
  · rw [contents_idle hi]
    obtain ⟨h1, h2, h3, h4⟩ := hi
    unfold tooFewRecords
    simp only [h1, h2, h3, h4, List.length_nil]
    by_cases h0 : size = 0
    · simp [h0, hon']
    · have : ¬ (¬ (size > 0 ∨ size < 0)) := by omega
      constructor
      · intro h
        exact absurd h.2.1 this
      · intro h
        exact absurd (by omega) h0
  · rw [length_contents hs ha hu, ← checks_iff hu.holds]
    exact ⟨And.right, fun h => ⟨hon', h⟩⟩

/-- The blocks that the view of a task depends on. -/
theorem view_congr (hs : Sound k) (hl : Logs Consistent k) (ht : k.mem p = some (.task t))
    (hp : k'.mem p = k.mem p) (hb : ∀ a ∈ blocksOf k p, k'.mem a = k.mem a) :
    view D k' p = view D k p := by
  rcases hs.flag ht with hoff | hon
  · have hoff' : t.policyOn ≠ 1 := by rw [hoff]; decide
    rw [view_off D ht hoff', view_off D (hp.trans ht) hoff']
  · obtain ⟨l, hm, _⟩ := hs.log ht hon
    have hm' : k'.mem t.logArray = some (.log l) := by
      rw [hb t.logArray ⟨t, ht, hon, .inl rfl⟩, hm]
    rw [view_on D ht hon hm, view_on D (hp.trans ht) hon hm']
    congr 2
    rcases hl _ l hm with hi | hu
    · rw [contents_idle hi, contents_idle hi]
    · have h0 : l.size ≠ 0 := by have := hu.pos; omega
      unfold contents
      rw [hb l.array ⟨t, ht, hon, .inr ⟨l, hm, h0, rfl⟩⟩]

/-- A local change leaves every other task as it was. -/
theorem view_other (hs : Sound k) (hl : Logs Consistent k) (ht : k.mem q = some (.task t))
    (hne : q ≠ p) (hp : p ∉ logBlocks k) (hch : Local k k' p) : view D k' q = view D k q :=
  view_congr D hs hl ht ((hch.task hs hne ht).trans ht.symm) fun _ => hch.block hs hp hne

/-- A local change shows under one pid only. -/
theorem abstract_update (hs : Sound k) (hl : Logs Consistent k)
    (hhash : ∀ i, i ≠ pid → k'.pidhash i = k.pidhash i)
    (hp : k.pidhash pid = some p ∨ k.mem p = none) (hch : Local k k' p) :
    abstract D k' = update (abstract D k) pid ((k'.pidhash pid).map (view D k')) := by
  have hpl : p ∉ logBlocks k := by
    rcases hp with hp | hp
    · obtain ⟨t, ht, _⟩ := hs.hash pid p hp
      exact task_not_mem_logBlocks ht
    · exact not_mem_logBlocks hp
  funext i
  by_cases hi : i = pid
  · subst hi
    rw [update_self]
    rfl
  · rw [update_of_ne hi]
    unfold abstract
    rw [hhash i hi]
    cases hq : k.pidhash i with
    | none => rfl
    | some q =>
      obtain ⟨t, ht, hpid⟩ := hs.hash i q hq
      have hqp : q ≠ p := by
        intro he
        rcases hp with hp | hp
        · obtain ⟨t', ht', hpid'⟩ := hs.hash pid p hp
          rw [he, ht'] at ht
          cases ht
          exact hi (hpid.symm.trans hpid')
        · rw [he, hp] at ht; cases ht
      rw [Option.map_some, Option.map_some, view_other D hs hl ht hqp hpl hch]

theorem abstract_set (hs : Sound k) (hl : Logs Consistent k) (hp : k.pidhash pid = some p)
    (hch : Local k k' p) (hhash : k'.pidhash = k.pidhash) :
    abstract D k' = (abstract D k).set pid (view D k' p) := by
  rw [abstract_update D hs hl (fun i _ => by rw [hhash]) (.inl hp) hch, hhash, hp]
  rfl

theorem abstract_same (hs : Sound k) (hl : Logs Consistent k) (hp : k.pidhash pid = some p)
    (hch : Local k k' p) (hhash : k'.pidhash = k.pidhash) (hv : view D k' p = view D k p) :
    abstract D k' = abstract D k := by
  rw [abstract_set D hs hl hp hch hhash, hv]
  unfold System.set
  rw [← abstract_some D hp, update_eq_self]

end Abstract

end CustomKernel.Policy.Spec

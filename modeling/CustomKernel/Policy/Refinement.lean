import CustomKernel.Policy.Spec

/-! # The calls refine their specification

One step lemma carries both refinements. While no log overflows, the kernel
runs as the unbounded queues do. Beyond that it runs as the queues that drop
their oldest record, as long as an overflow only happens to a log of one cell
and a full log is not asked for nothing. -/
namespace CustomKernel.Policy.Refinement
open Lib.Ring Lib.Queue Lib.Transition Function
open Policy.Heap Policy.Syscalls Policy.Log
open Policy.Effects Policy.Ownership Policy.Outcomes
open Policy.Bounds Policy.Spec

/-! ## One step -/

/-- The allocations of a call succeed. -/
def Served (k : Kernel) (c : Call) : Prop :=
  (∀ pid size password m, c = .enablePolicy pid size password m → EnableFresh k size m) ∧
  (∀ pid size a copied, c = .getProcessLog pid size a copied → Fresh k a)

section Step
variable {Q : Type} (D : Discipline ForbiddenActivityInfo Q) {t : TaskStruct} {p : Addr}
  {size : Int}

/-- A write that a discipline can follow: there is room, or the log has one
cell and the discipline keeps the newest record. -/
def Follows (l : LogArray) : Prop :=
  unreadCount l < l.size ∨
    (l.size = 1 ∧ ∀ xs r, D.push (D.ofList 1 xs) r = D.ofList 1 [r])

/-- The steps that the discipline follows. -/
structure Allowed (oom : Bool) (k : Kernel) (c : Call) : Prop where
  nowrap : Call.NoWrap c
  write : ∀ l, Writes k c l → Follows D l
  read : ∀ size l, Reads k c size l → 1 ≤ size ∨ l.full ≠ 1
  served : oom = false → Served k c

variable {oom : Bool} {k k' : Kernel} {c : Call} {r : Reply} {l : LogArray} {a : Addr}

theorem not_follows_idle (hi : Idle l) : ¬ Follows D l := by
  obtain ⟨h1, h2, h3, h4⟩ := hi
  rintro (h | ⟨h, _⟩)
  · simp [unreadCount, h1, h2, h3, h4] at h
  · rw [h1] at h; cases h

/-- A write that the discipline follows, on the log and on the queue. -/
theorem follows_write (h : Consistent l) (hf : Follows D l) (e : Int → ForbiddenActivityInfo)
    (rec : ForbiddenActivityInfo) : Consistent (afterWrite l) ∧
      D.ofList l.size (unread (afterWrite l) (update e l.indexWrite rec)) =
        D.push (D.ofList l.size (unread l e)) rec := by
  rcases hf with hroom | ⟨h1, hpush⟩
  · obtain ⟨hc, hu⟩ := write_room h hroom rec
    refine ⟨hc, ?_⟩
    rw [hu, D.push_room]
    rw [length_unread h.toInRange]
    exact hroom
  · obtain ⟨hc, hu⟩ := write_single h h1 rec
    refine ⟨hc, ?_⟩
    rw [hu, h1, hpush]

/-- A full log that is asked for nothing forgets what it holds. -/
theorem read_keeps (h : Consistent l) (h0 : 0 ≤ size) (hsz : size ≤ unreadCount l)
    (e : Int → ForbiddenActivityInfo) :
    Consistent (afterCommit (afterReads l size.toNat) size) ∧
      unread (afterCommit (afterReads l size.toNat) size) e =
        if size = 0 ∧ l.full = 1 then [] else (unread l e).drop size.toNat := by
  have hn : (size.toNat : Int) = size := by omega
  split
  next hz =>
    have hne : ¬ (0 : Int) = l.size := by have := h.read_nonneg; have := h.read_lt; omega
    have hzero : afterCommit (afterReads l size.toNat) size = { l with full := 0 } := by
      simp [hz.1, afterCommit, afterReads, hne]
    rw [hzero]
    exact ⟨⟨⟨h.read_nonneg, h.read_lt, h.write_nonneg, h.write_lt⟩, .inl rfl, by simp⟩,
      unread_of_meet (by simp) (h.meet hz.2)⟩
  next hz =>
    have hne : 1 ≤ size.toNat ∨ unreadCount l < l.size := by
      rcases not_and_or.mp hz with hz | hz
      · exact .inl (by omega)
      · have := (full_iff h).not.mp hz
        have := (unreadCount_bounds h.toInRange).2
        exact .inr (by omega)
    have hc := commit_read (e := e) h (by omega) hne
    rw [hn] at hc
    exact hc

theorem follows_keeps (hl : Logs Consistent k) (hw : Writes k c l) (hf : Follows D l) :
    l.size ≠ 0 ∧ (Consistent l → Consistent (afterWrite l)) := by
  obtain ⟨g, p, t, _, _, _, _, hm⟩ := hw
  refine ⟨?_, fun hc => (follows_write D hc hf (fun _ => default) default).1⟩
  rcases hl _ l hm with hi | hu
  · exact absurd hf (not_follows_idle D hi)
  · have := hu.pos; omega

theorem outcome_consistent (hs : Sound k) (hl : Logs Consistent k) (h : Outcome k c r k')
    (hw : Call.NoWrap c) (hwrite : ∀ l, Writes k c l → Follows D l) : Logs Consistent k' := by
  refine outcome_logs hs hl h hw (fun size a h0 => freshLog_consistent h0 a)
    (fun l hw => follows_keeps D hl hw (hwrite l hw)) ?_
  intro size l hr h0 hfew hsz hc
  have hcheck := (checks_iff hc size).mp ⟨by omega, hfew⟩
  exact (read_keeps hc hcheck.1 hcheck.2 (fun _ => default)).1

theorem read_contents {data : List ForbiddenActivityInfo}
    {fs : List Fault} (hs : Sound k) (hl : Logs Consistent k)
    (hm : k.mem t.logArray = some (.log l)) (hon : t.policyOn = 1) (hc : ReadOk t l size)
    (hhit : ∀ e, Hits k l size.toNat e → data = picked l size.toNat e ∧ fs = []) :
    data = (contents k l).take size.toNat ∧
      contents { k.set t.logArray (.log (afterCommit (afterReads l size.toNat) size)) with
        faults := fs ++ k.faults } (afterCommit (afterReads l size.toNat) size) =
          if size = 0 ∧ l.full = 1 then [] else (contents k l).drop size.toNat := by
  have hok := (readOk_iff hs hl hm hon size).mp hc
  rcases hl _ l hm with hi | hu
  · -- a log of size 0 has nothing to hand out
    rw [contents_idle hi] at hok ⊢
    rw [if_neg fun hz => by rw [hi.2.2.2] at hz; cases hz.2]
    have h0 : size = 0 := by have := hok.2; simp at this; omega
    subst h0
    refine ⟨?_, by rw [Int.toNat_zero, contents_idle hi.commit]; rfl⟩
    obtain ⟨hd, _⟩ := hhit (fun _ => default) (fun i hi => absurd hi (Nat.not_lt_zero i))
    rw [hd]
    rfl
  · obtain ⟨n, e, hr⟩ := hs.records hm (by have := hu.pos; omega)
    have hlr := k.ne_of_mem hm hr (by simp)
    rw [length_contents hs hm hu] at hok
    have hn : (size.toNat : Int) ≤ unreadCount l := by omega
    have hcap := (unreadCount_bounds hu.holds.toInRange).2
    have hbound : ∀ i < size.toNat, (next l.size)^[i] l.indexRead = slot l.size l.indexRead i :=
      fun i hi => iterate_next hu.holds.read_nonneg hu.holds.read_lt (by omega)
    obtain ⟨hd, _⟩ := hhit e (hu.hits hu.holds.toInRange hr size.toNat)
    refine ⟨?_, ?_⟩
    · rw [hd, contents_records hr, ← copied_eq_take hn]
      refine List.map_congr_left fun i hi => ?_
      rw [hbound i (List.mem_range.mp hi)]
    · rw [contents_records hr, contents_records (n := n) (e := e) (by simp [hlr.symm, hr])]
      exact (read_keeps hu.holds hok.1 hok.2 e).2

theorem read_refines {pid : Int}
    {data : List ForbiddenActivityInfo} {fs : List Fault} (hs : Sound k) (hl : Logs Consistent k)
    (ha : Allowed D oom k (.getProcessLog pid size a true)) (hp : k.pidhash pid = some p)
    (ht : k.mem p = some (.task t)) (hm : k.mem t.logArray = some (.log l))
    (hc : ReadOk t l size)
    (hhit : ∀ e, Hits k l size.toNat e → data = picked l size.toNat e ∧ fs = []) :
    SpecStep D oom (abstract D k) (.getProcessLog pid size a true, ⟨0, data, true⟩)
      (abstract D { k.set t.logArray (.log (afterCommit (afterReads l size.toNat) size)) with
        faults := fs ++ k.faults }) := by
  have hon : t.policyOn = 1 := (hs.flag ht).resolve_left hc.1
  have hok := (readOk_iff hs hl hm hon size).mp hc
  have hpl := k.ne_of_mem ht hm (by simp)
  have hσ : abstract D k pid = some (.on t.policyLevel (D.ofList l.size (contents k l))) := by
    rw [abstract_some D hp, view_on D ht hon hm]
  have hloc : Local k { k.set t.logArray (.log (afterCommit (afterReads l size.toNat) size)) with
      faults := fs ++ k.faults } p :=
    (Local.refl k p).set _ (.inr (.inl (log_mem_blocksOf ht hon)))
  have hspec : SpecStep D oom (abstract D k) (.getProcessLog pid size a true,
      ⟨0, (D.items (D.ofList l.size (contents k l))).take size.toNat, true⟩) _ :=
    .read hσ hok.1 (by rw [D.items_ofList]; exact hok.2)
  rw [D.items_ofList, D.pop_ofList] at hspec
  obtain ⟨hdata, hcont⟩ := read_contents hs hl hm hon hc hhit
  have hread := ha.read size l ⟨pid, a, true, p, t, rfl, hp, ht, hon, hm⟩
  rw [if_neg (by omega)] at hcont
  rw [abstract_set D hs hl hp hloc rfl, view_on D
    (l := afterCommit (afterReads l size.toNat) size) (by simp [hpl, ht]) hon (by simp), hcont,
    hdata, afterCommit_size, afterReads_size]
  exact hspec

theorem denied_refines {g : Gate} (hs : Sound k)
    (hl : Logs Consistent k) (ha : Allowed D oom k c) (hg : c.gate = some g)
    (hp : k.pidhash g.cur = some p) (ht : k.mem p = some (.task t))
    (hm : k.mem t.logArray = some (.log l)) (hd : TaskStruct.denied t g.reqLevel) :
    SpecStep D oom (abstract D k) (c, ⟨-EINVAL, [], false⟩)
      (abstract D (logged k t l ⟨g.reqLevel, t.policyLevel, g.jiffies⟩)) := by
  have hon := hd.1
  have hf := ha.write l ⟨g, p, t, hg, hp, ht, hd, hm⟩
  have hu : InUse Consistent k l := by
    rcases hl _ l hm with hi | hu
    · exact absurd hf (not_follows_idle D hi)
    · exact hu
  have h0 : l.size ≠ 0 := by have := hu.pos; omega
  obtain ⟨n, e, hr⟩ := hs.records hm h0
  have hin := hu.inBlock_write hu.holds.toInRange hr
  have hpl := k.ne_of_mem ht hm (by simp)
  have hpr := k.ne_of_mem ht hr (by simp)
  have hlr := k.ne_of_mem hm hr (by simp)
  rw [logged_of_inBlock hr hin]
  have hloc : Local k ((k.set l.array (.records n (update e l.indexWrite
      ⟨g.reqLevel, t.policyLevel, g.jiffies⟩))).set t.logArray (.log (afterWrite l))) p :=
    ((Local.refl k p).set _ (.inr (.inl (array_mem_blocksOf ht hon hm h0)))).set _
      (.inr (.inl (log_mem_blocksOf ht hon)))
  rw [abstract_set D hs hl hp hloc rfl, view_on D (l := afterWrite l)
    (by simp [hpl, hpr, ht]) hon (by simp), contents_records (n := n)
      (e := update e l.indexWrite ⟨g.reqLevel, t.policyLevel, g.jiffies⟩)
      (by simp [hlr.symm])]
  rw [afterWrite_size, (follows_write D hu.holds hf e _).2, ← contents_records hr]
  exact .denied hg (by rw [abstract_some D hp, view_on D ht hon hm]) hd.2

/-- What the specification sees of a task that a gate lets through. -/
theorem view_not_denied {g : Gate} (hs : Sound k)
    (ht : k.mem p = some (.task t)) (hd : ¬ TaskStruct.denied t g.reqLevel) (level : Int) (q : Q)
    (hv : view D k p = .on level q) : ¬ level < g.reqLevel := by
  rcases hs.flag ht with hoff | hon
  · rw [view_off D ht (by rw [hoff]; decide)] at hv
    cases hv
  · obtain ⟨l, hm, _⟩ := hs.log ht hon
    rw [view_on D ht hon hm] at hv
    cases hv
    exact fun hlt => hd ⟨hon, hlt⟩

theorem view_eq_off_or (hs : Sound k) (ht : k.mem p = some (.task t)) :
    view D k p = .off ∨ t.policyOn = 1 := by
  rcases hs.flag ht with hoff | hon
  · exact .inl (view_off D ht (by rw [hoff]; decide))
  · exact .inr hon

theorem outcome_refines (hs : Sound k) (hl : Logs Consistent k) (ha : Allowed D oom k c)
    (h : Outcome k c r k') : SpecStep D oom (abstract D k) (c, r) (abstract D k') := by
  cases h with
  | noTarget hg hp => exact .noTarget hg (abstract_none D hp)
  | @noCaller _ g hg hp =>
    have hcur : c.pid = g.cur := by
      cases c with
      | fork _ _ _ _ _ | wait4 _ _ _ _ | schedYield _ _ => cases hg; rfl
      | enablePolicy _ _ _ _ | disablePolicy _ _ | setProcessCapabilities _ _ _
      | getProcessLog _ _ _ _ => cases hg
    exact .noCaller hg (abstract_none D (hcur ▸ hp))
  | @enableRefused pid size password m p t hp ht hc =>
    refine .enableRefused (abstract_some D hp) ?_
    intro ⟨hv, hpw, h0⟩
    refine hc ⟨hpw, ?_, h0⟩
    intro hon
    obtain ⟨l, hm, _⟩ := hs.log ht hon
    rw [view_on D ht hon hm] at hv
    cases hv
  | @enableNoMem pid size password m p t a hp ht hc hm =>
    have hoom : oom = true := by
      cases oom with
      | true => rfl
      | false => exact absurd ((ha.served rfl).1 pid size password m rfl) hm
    have hsame : abstract D (k.set p (.task { t with logArray := a })) = abstract D k := by
      refine abstract_same D hs hl hp ((Local.refl k p).set _ (.inl rfl)) rfl ?_
      rw [view_off D ht hc.2.1]
      exact view_off D (t := { t with logArray := a }) (by simp) hc.2.1
    obtain ⟨rfl, hoff, h0⟩ := hc
    rw [hsame]
    exact .enableNoMem hoom (by rw [abstract_some D hp, view_off D ht hoff]) h0
  | @enabledEmpty pid password m p t hp ht hc hm =>
    obtain ⟨rfl, hoff, h0⟩ := hc
    have hpl := k.ne_of_free ht hm.1.2
    have hloc : Local k ((k.set p (.task (onTask t m.log))).set m.log
        (.log (freshLog 0 m.logJunk.array))) p :=
      ((Local.refl k p).set _ (.inl rfl)).set _ (.inr (.inr hm.1.2))
    rw [abstract_set D hs hl hp hloc rfl, view_on D (t := onTask t m.log)
      (l := freshLog 0 m.logJunk.array) (by simp [hpl]) rfl (by simp [onTask]),
      contents_idle ⟨rfl, rfl, rfl, rfl⟩]
    exact .enable (by rw [abstract_some D hp, view_off D ht hoff]) h0
  | @enabled pid size password m p t hp ht hc hpos hm =>
    obtain ⟨rfl, hoff, h0⟩ := hc
    obtain ⟨hml, hma⟩ := hm
    obtain ⟨hma, hne⟩ := hma (by omega)
    have hpl := k.ne_of_free ht hml.2
    have hpa := k.ne_of_free ht hma.2
    have hloc : Local k (((k.set p (.task (onTask t m.log))).set m.log
        (.log (freshLog size m.array))).set m.array
          (.records (requestBytes size) m.arrayJunk)) p :=
      (((Local.refl k p).set _ (.inl rfl)).set _ (.inr (.inr hml.2))).set _
        (.inr (.inr hma.2))
    rw [abstract_set D hs hl hp hloc rfl, view_on D (t := onTask t m.log)
      (l := freshLog size m.array) (by simp [hpl, hpa]) rfl (by simp [onTask, hne.symm]),
      contents_records (n := requestBytes size) (e := m.arrayJunk) (by simp [freshLog]),
      unread_freshLog]
    exact .enable (by rw [abstract_some D hp, view_off D ht hoff]) h0
  | @disableRefused pid password p t hp ht hc =>
    refine .disableRefused (abstract_some D hp) ?_
    rcases view_eq_off_or D hs ht with hv | hon
    · exact .inl hv
    · exact .inr fun h => hc ⟨hon, h⟩
  | @disabled pid p t l hp ht hon hm =>
    have hloc : Local k (freeLog (k.set p (.task (offTask t))) t.logArray l) p :=
      ((Local.refl k p).set _ (.inl rfl)).freeLog ht hon hm
    rw [abstract_set D hs hl hp hloc (pidhash_freeLog ..),
      view_off D (freeLog_task ht hm (hs.records hm)) (by simp [offTask])]
    exact .disable (by rw [abstract_some D hp, view_on D ht hon hm])
  | @levelRefused pid newLevel password p t hp ht hc =>
    refine .setLevelRefused (abstract_some D hp) ?_
    rcases view_eq_off_or D hs ht with hv | hon
    · exact .inl hv
    · exact .inr fun h => hc ⟨hon, h⟩
  | @levelSet pid newLevel p t hp ht hon hlo hhi =>
    obtain ⟨l, hm, _⟩ := hs.log ht hon
    have hpl := k.ne_of_mem ht hm (by simp)
    have hloc : Local k (k.set p (.task { t with policyLevel := newLevel })) p :=
      (Local.refl k p).set _ (.inl rfl)
    have hcont : contents (k.set p (.task { t with policyLevel := newLevel })) l =
        contents k l := by
      rcases hl _ l hm with hi | hu
      · rw [contents_idle hi, contents_idle hi]
      · obtain ⟨n, e, hr⟩ := hs.records hm (by have := hu.pos; omega)
        rw [contents_records hr, contents_records (n := n) (e := e)
          (by simp [(k.ne_of_mem ht hr (by simp)).symm, hr])]
    rw [abstract_set D hs hl hp hloc rfl, view_on D (t := { t with policyLevel := newLevel })
      (l := l) (by simp) hon (by simp [hpl.symm, hm]), hcont]
    exact .setLevel (by rw [abstract_some D hp, view_on D ht hon hm]) hlo hhi
  | @readRefused pid size a copied p t hp ht hc =>
    refine .readRefused (abstract_some D hp) ?_
    intro level q hv hsz
    rcases view_eq_off_or D hs ht with hv' | hon
    · rw [hv'] at hv
      cases hv
    · obtain ⟨l, hm, _⟩ := hs.log ht hon
      rw [view_on D ht hon hm] at hv
      cases hv
      rw [D.items_ofList] at hsz
      exact hc l hm ((readOk_iff hs hl hm hon size).mpr hsz)
  | @readNoMem pid size a copied p t l hp ht hm hc hfree =>
    have hon : t.policyOn = 1 := (hs.flag ht).resolve_left hc.1
    have hok := (readOk_iff hs hl hm hon size).mp hc
    have hoom : oom = true := by
      cases oom with
      | true => rfl
      | false => exact absurd ((ha.served rfl).2 pid size a copied rfl) hfree
    exact .readNoMem (.inl hoom) (by rw [abstract_some D hp, view_on D ht hon hm]) hok.1
      (by rw [D.items_ofList]; exact hok.2)
  | @readFailed pid size a p t l fs hp ht hm hc hfs hhit =>
    have hon : t.policyOn = 1 := (hs.flag ht).resolve_left hc.1
    have hok := (readOk_iff hs hl hm hon size).mp hc
    exact .readNoMem (.inr rfl) (by rw [abstract_some D hp, view_on D ht hon hm]) hok.1
      (by rw [D.items_ofList]; exact hok.2)
  | @read pid size a p t l data fs hp ht hm hc hfs hhit => exact read_refines D hs hl ha hp ht hm hc hhit
  | @denied _ g p t l hg hp ht hm hd => exact denied_refines D hs hl ha hg hp ht hm hd
  | @passed _ g p t ret hg hp ht hd =>
    exact .passed hg (abstract_some D hp) (view_not_denied D hs ht hd) (.same c ret)
  | @forked cur jiffies flags child pid p t hp ht hd hc hpid =>
    have hloc : Local k { k.set child (.task (childTask pid)) with
        pidhash := update k.pidhash pid (some child) } child :=
      (Local.refl k child).set _ (.inl rfl)
    have hnew : abstract D { k.set child (.task (childTask pid)) with
        pidhash := update k.pidhash pid (some child) } =
          (abstract D k).set pid .off := by
      rw [abstract_update D hs hl (fun i hi => update_of_ne hi _ _) (.inr hc.2) hloc]
      simp [System.set, view, childTask]
    rw [hnew]
    exact .passed rfl (abstract_some D hp) (view_not_denied D hs ht hd)
      (.fork (abstract_none D hpid))
  | @reaped cur jiffies options pid p t q t' l hp ht hd hq hne ht' hm =>
    obtain ⟨t'', ht'', hpid⟩ := hs.hash pid q hq
    rw [ht'] at ht''
    cases ht''
    have hloc : Local k (released k q t' l) q := by
      refine Local.unset ?_ (.inl rfl)
      split
      · exact Local.refl k q
      · rename_i hon
        have hon := (hs.flag ht').resolve_left hon
        exact (Local.refl k q).freeLog ht' hon (hm hon)
    have hhash : (released k q t' l).pidhash = update k.pidhash pid none := by
      rw [← hpid]; rfl
    have hnew : abstract D (released k q t' l) = update (abstract D k) pid none := by
      rw [abstract_update D hs hl (fun i hi => by rw [hhash, update_of_ne hi])
        (.inl hq) hloc, hhash, update_self]
      rfl
    rw [hnew]
    refine .passed rfl (abstract_some D hp) (view_not_denied D hs ht hd)
      (.reap ?_ ?_)
    · rw [abstract_some D hq]
      exact Option.some_ne_none _
    · intro he
      rw [he, hp] at hq
      exact hne (Option.some.inj hq).symm

theorem step_refines {e : Call × Reply} (hs : Sound k) (hl : Logs Consistent k)
    (ha : Allowed D oom k e.1) (h : Step k e k') :
    SpecStep D oom (abstract D k) e (abstract D k') ∧ Sound k' ∧ Logs Consistent k' := by
  have ho := step_outcome hs h
  exact ⟨outcome_refines D hs hl ha ho, (outcome_sound hs ho).1, outcome_consistent D hs hl ho ha.nowrap ha.write⟩

/-- A run of allowed steps is a run of the specification, and keeps the logs
consistent. -/
theorem run_refines {es : List (Call × Reply)} {cond : Kernel → Call × Reply → Prop}
    (hcond : ∀ k e, cond k e → Allowed D oom k e.1) (hb : Boot k)
    (h : Run (Meeting cond Step) k es k') :
    Run (SpecStep D oom) (abstract D k) es (abstract D k') ∧ Sound k' ∧ Logs Consistent k' := by
  have hsim : ∃ σ', Run (SpecStep D oom) (abstract D k) es σ' ∧
      (σ' = abstract D k' ∧ Sound k' ∧ Logs Consistent k') := by
    refine h.simulation (R := fun k σ => σ = abstract D k ∧ Sound k ∧ Logs Consistent k) ?_
      ⟨rfl, hb.sound, boot_logs hb Consistent⟩
    intro k σ e k' ⟨hσ, hs, hl⟩ ⟨hc, hstep⟩
    obtain ⟨h1, h2, h3⟩ := step_refines D hs hl (hcond k e hc) hstep
    exact ⟨abstract D k', hσ ▸ h1, rfl, h2, h3⟩
  obtain ⟨σ', hrun, hσ, hgood⟩ := hsim
  exact ⟨hσ ▸ hrun, hgood⟩

end Step

/-! ## While the logs are large enough -/

/-- The log is large enough for every refused call, memory is there when it is
asked for, no request wraps, and reads ask for something, as the user-space
wrapper sees to. -/
structure LargeEnough (k : Kernel) (e : Call × Reply) : Prop where
  room : ∀ l, Writes k e.1 l → unreadCount l < l.size
  served : Served k e.1
  nowrap : Call.NoWrap e.1
  read : ∀ size l, Reads k e.1 size l → 1 ≤ size

theorem LargeEnough.allowed {k : Kernel} {e : Call × Reply} (hc : LargeEnough k e) :
    Allowed (fifo ForbiddenActivityInfo) false k e.1 :=
  ⟨hc.nowrap, fun l hw => .inl (hc.room l hw), fun size l hr => .inl (hc.read size l hr),
    fun _ => hc.served⟩

/-- A log of four records is large enough for one refusal. -/
theorem refusedOnce_run : Run (Meeting LargeEnough Step) twoTasks
    (trace twoTasks (refusedOnce 4)).1 (trace twoTasks (refusedOnce 4)).2 := by
  refine .cons ⟨⟨fun l => not_writes rfl, ?_, ?_, fun _ l => not_reads nofun⟩, rfl⟩
    (.cons ⟨⟨fun l => not_writes rfl, ⟨nofun, nofun⟩, nofun, fun _ l => not_reads nofun⟩, rfl⟩
    (.cons ⟨⟨?_, ⟨nofun, nofun⟩, nofun, fun _ l => not_reads nofun⟩, rfl⟩ (.nil _)))
  · refine ⟨?_, nofun⟩
    intro _ _ _ _ he
    cases he
    exact ⟨⟨by decide, rfl⟩, fun _ => ⟨⟨by decide, rfl⟩, by decide⟩⟩
  · intro _ _ _ _ he
    cases he
    decide
  · intro l ⟨g, p, t, hg, hp, ht, _, hl⟩
    cases hg; cases hp; cases ht; cases hl
    decide

/-- An overflow only happens to a log of one cell, and a full log is not asked
for zero records. -/
structure OverflowSafe (k : Kernel) (e : Call × Reply) : Prop where
  write : ∀ l, Writes k e.1 l → unreadCount l < l.size ∨ l.size = 1
  read : ∀ size l, Reads k e.1 size l → 1 ≤ size ∨ l.full ≠ 1
  nowrap : Call.NoWrap e.1

/-- Every run of the calls whose steps are safe under overflow is a run of the
specification whose queues keep the newest records. -/
theorem calls_refine_dropOldest {k k' : Kernel} {es : List (Call × Reply)} (hb : Boot k)
    (h : Run (Meeting OverflowSafe Step) k es k') :
    Run (SpecStep (dropOldest ForbiddenActivityInfo) true) (abstract (dropOldest _) k) es
      (abstract (dropOldest _) k') := by
  refine (run_refines (dropOldest ForbiddenActivityInfo) ?_ hb h).1
  intro k e hc
  refine ⟨hc.nowrap, ?_, hc.read, fun h => (by cases h)⟩
  intro l hw
  rcases hc.write l hw with hroom | hone
  · exact .inl hroom
  · exact .inr ⟨hone, dropOldest_push_single⟩

/-- A log of one record overflows, and the read hands out the newest. -/
theorem calls_refine_dropOldest_single :
    let calls := refusedOnce 1 ++ [.schedYield 2 101, .getProcessLog 2 1 5 true]
    Boot twoTasks ∧
    Run (SpecStep (dropOldest ForbiddenActivityInfo) true) (abstract (dropOldest _) twoTasks)
      (trace twoTasks calls).1 (abstract (dropOldest _) (trace twoTasks calls).2) ∧
    (trace twoTasks calls).1.map Prod.snd =
      [.ofRet 0, .ofRet 0, ⟨-EINVAL, [], false⟩, ⟨-EINVAL, [], false⟩,
        ⟨0, [⟨1, 0, 101⟩], true⟩] := by
  intro calls
  suffices h : Run (Meeting OverflowSafe Step) twoTasks (trace twoTasks calls).1
      (trace twoTasks calls).2 from
    ⟨twoTasks_boot, calls_refine_dropOldest twoTasks_boot h, by decide⟩
  refine .cons ⟨⟨fun l => not_writes rfl, fun _ l => not_reads nofun, ?_⟩, rfl⟩
    (.cons ⟨⟨fun l => not_writes rfl, fun _ l => not_reads nofun, nofun⟩, rfl⟩
    (.cons ⟨⟨?_, fun _ l => not_reads nofun, nofun⟩, rfl⟩
    (.cons ⟨⟨?_, fun _ l => not_reads nofun, nofun⟩, rfl⟩
    (.cons ⟨⟨fun l => not_writes rfl, ?_, nofun⟩, rfl⟩ (.nil _)))))
  · intro _ _ _ _ he
    cases he
    decide
  · intro l ⟨g, p, t, hg, hp, ht, _, hl⟩
    cases hg; cases hp; cases ht; cases hl
    exact .inr rfl
  · intro l ⟨g, p, t, hg, hp, ht, _, hl⟩
    cases hg; cases hp; cases ht; cases hl
    exact .inr rfl
  · intro size l ⟨_, _, _, _, _, he, _⟩
    cases he
    exact .inl (by decide)

/-- A log of two records that overflows by one hands them out newest first,
and a read of zero records empties a full log. -/
theorem overflow_breaks_order :
    Boot twoTasks ∧
    (trace twoTasks (refusedOnce 2 ++ [.schedYield 2 101, .schedYield 2 102,
        .getProcessLog 2 2 5 true])).1.map Prod.snd =
      [.ofRet 0, .ofRet 0, ⟨-EINVAL, [], false⟩, ⟨-EINVAL, [], false⟩, ⟨-EINVAL, [], false⟩,
        ⟨0, [⟨1, 0, 102⟩, ⟨1, 0, 101⟩], true⟩] ∧
    (((Bounded.mk 2 []).push ⟨1, 0, 100⟩).push ⟨1, 0, 101⟩).push ⟨1, 0, 102⟩ =
      Bounded.mk 2 [(⟨1, 0, 101⟩ : ForbiddenActivityInfo), ⟨1, 0, 102⟩] ∧
    (trace twoTasks (refusedOnce 1 ++ [.getProcessLog 2 0 5 true,
        .getProcessLog 2 1 5 true])).1.map Prod.snd =
      [.ofRet 0, .ofRet 0, ⟨-EINVAL, [], false⟩, ⟨0, [], true⟩, .ofRet (-EINVAL)] :=
  ⟨twoTasks_boot, by decide, rfl, by decide⟩

end CustomKernel.Policy.Refinement

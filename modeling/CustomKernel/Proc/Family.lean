import CustomKernel.Lib.Siblings
import CustomKernel.Proc.Pid

/-! # The family tree

The children of a task are a list through `p_cptr` and `p_osptr`, with `p_ysptr`
the other way. A task that exits hands its children over one by one, and while it
does, the first of those that are left still has the one that has gone as its
younger sibling. Where `exit_notify` does not drop the lock at such a moment, the
tree is well formed whenever the lock is free. -/
namespace CustomKernel.Proc.Family
open Lib.ListHead Lib.Siblings Lib.Transition Function
open Proc.Tasks Proc.Pid

/-- The links of all tasks to their children and siblings. -/
def kin (s : State) : Kin TaskId where
  first := fun t => (s.tasks t).cptr
  next := fun t => (s.tasks t).osptr
  prev := fun t => (s.tasks t).ysptr

/-! ## What the macros do to the links -/

section Links
variable {s : State} {p cur : TaskId}

theorem setTask_same {β : Type} (g : Task → β) {f : Task → Task} (hf : ∀ t, g (f t) = g t)
    (p : TaskId) (s : State) (q : TaskId) : g ((s.setTask p f).tasks q) = g (s.tasks q) := by
  rcases eq_or_ne q p with rfl | hq
  · simpa [State.setTask] using hf (s.tasks q)
  · simp [State.setTask, hq]

theorem kin_update (p : TaskId) (f : Task → Task) (s : State) :
    kin (s.setTask p f) = ⟨update (kin s).first p (f (s.tasks p)).cptr,
      update (kin s).next p (f (s.tasks p)).osptr, update (kin s).prev p (f (s.tasks p)).ysptr⟩ := by
  unfold kin
  congr 1 <;> exact comp_update _ s.tasks p (f (s.tasks p))

theorem kin_setTask {f : Task → Task}
    (hf : ∀ t, (f t).cptr = t.cptr ∧ (f t).osptr = t.osptr ∧ (f t).ysptr = t.ysptr) (p : TaskId)
    (s : State) : kin (s.setTask p f) = kin s := by
  obtain ⟨hc, ho, hy⟩ := hf (s.tasks p)
  rw [kin_update, hc, ho, hy]
  congr 1 <;> exact update_eq_self ..

theorem kin_setCptr (p : TaskId) (v : Option TaskId) (s : State) :
    kin (s.setTask p fun t => { t with cptr := v }) = (kin s).setFirst p v := by
  rw [kin_update]
  congr 1 <;> exact update_eq_self ..

theorem kin_setOsptr (p : TaskId) (v : Option TaskId) (s : State) :
    kin (s.setTask p fun t => { t with osptr := v }) = (kin s).setNext p v := by
  rw [kin_update]
  congr 1 <;> exact update_eq_self ..

theorem kin_setYsptr (p : TaskId) (v : Option TaskId) (s : State) :
    kin (s.setTask p fun t => { t with ysptr := v }) = (kin s).setPrev p v := by
  rw [kin_update]
  congr 1 <;> exact update_eq_self ..

theorem kin_setYsptrIf (o : Option TaskId) (v : Option TaskId) (s : State) :
    kin (s.setTaskIf o fun t => { t with ysptr := v }) = (kin s).setPrevIf o v := by
  cases o with
  | none => rfl
  | some p => exact kin_setYsptr p v s

theorem setTaskIf_pptr {f : Task → Task} (hf : ∀ t, (f t).pptr = t.pptr) (o : Option TaskId)
    (s : State) (q : TaskId) : ((s.setTaskIf o f).tasks q).pptr = (s.tasks q).pptr := by
  cases o with
  | none => rfl
  | some p => exact setTask_same Task.pptr hf p s q

theorem kin_removeLinks (p : TaskId) (s : State) :
    kin (removeLinks p s) = (kin s).unlink (s.tasks p).pptr p := by
  unfold removeLinks Kin.unlink
  dsimp only
  generalize hs1 : State.setTaskIf (s.tasks p).osptr _ _ = s1
  have hkin : (kin s).setPrevIf ((kin s).next p) ((kin s).prev p) = kin s1 := by
    rw [← hs1]
    exact (kin_setYsptrIf _ _ { s with list := s.list.erase p }).symm
  have hpptr : (s1.tasks p).pptr = (s.tasks p).pptr := by
    rw [← hs1]
    exact setTaskIf_pptr (by intro t; rfl) _ _ p
  rw [hkin, ← hpptr]
  have hprev : (kin s1).prev p = (s1.tasks p).ysptr := rfl
  rw [hprev]
  cases (s1.tasks p).ysptr with
  | some y => exact kin_setOsptr ..
  | none => exact kin_setCptr ..

/-- The common end of `SET_LINKS` and of the loop of `exit_notify`. -/
theorem kin_prepend {s1 : State} (hy : (kin s).setPrev p none = kin s1) :
    kin (let s := s1.setTask p fun t => { t with osptr := (s1.tasks (s1.tasks p).pptr).cptr }
      let s := s.setTaskIf (s.tasks p).osptr fun t => { t with ysptr := some p }
      s.setTask (s.tasks p).pptr fun t => { t with cptr := some p }) =
    (kin s).link (s1.tasks p).pptr p := by
  dsimp only
  generalize hs2 : State.setTask p _ s1 = s2
  have hkin2 : (kin s1).setNext p ((kin s1).first (s1.tasks p).pptr) = kin s2 := by
    rw [← hs2]
    exact (kin_setOsptr ..).symm
  have hpptr2 : (s2.tasks p).pptr = (s1.tasks p).pptr := by
    rw [← hs2]
    simp [State.setTask]
  generalize hs3 : State.setTaskIf (s2.tasks p).osptr _ s2 = s3
  have hkin3 : (kin s2).setPrevIf ((kin s2).next p) (some p) = kin s3 := by
    rw [← hs3]
    exact (kin_setYsptrIf ..).symm
  have hpptr3 : (s3.tasks p).pptr = (s2.tasks p).pptr := by
    rw [← hs3]
    exact setTaskIf_pptr (by intro t; rfl) _ _ p
  unfold Kin.link
  dsimp only
  rw [hy, hkin2, hkin3, hpptr3, hpptr2]
  exact kin_setCptr ..

theorem kin_setLinks (p : TaskId) (s : State) :
    kin (setLinks p s) = (kin s).link (s.tasks p).pptr p := by
  have hpptr : ((({ s with list := s.list ++ [p] } : State).setTask p
      fun t => { t with ysptr := none }).tasks p).pptr = (s.tasks p).pptr := by
    simp [State.setTask]
  have hprev := (kin_setYsptr p none { s with list := s.list ++ [p] }).symm
  rw [← hpptr]
  exact kin_prepend hprev

theorem kin_inheritFirst (cur p : TaskId) (s : State) :
    kin (inheritFirst cur p s) =
      ((kin s).setFirst cur ((kin s).next p)).link (s.tasks p).opptr p := by
  let s1 := s.setTask cur fun t => { t with cptr := (s.tasks p).osptr }
  let s2 := s1.setTask p fun t => { t with ysptr := none, ptraced := false, pptr := t.opptr }
  have hfirst : (kin s).setFirst cur ((kin s).next p) = kin s1 := (kin_setCptr ..).symm
  have hprev : (kin s1).setPrev p none = kin s2 := by
    rw [← kin_setYsptr, kin_update p _ s1, kin_update p _ s1]
  have hpptr : (s2.tasks p).pptr = (s.tasks p).opptr := by
    refine (congrArg Task.pptr (update_self ..)).trans (setTask_same Task.opptr ?_ cur s p)
    exact fun _ => rfl
  rw [hfirst, ← hpptr]
  exact kin_prepend hprev

end Links

/-! ## The tree -/

section Tree
variable {s s' : State} {kids : TaskId → List TaskId} {stale : TaskId → Option TaskId}
  {p cur parent : TaskId}

/-- The children of `t` on the task list are `kids t`. -/
structure Tree (s : State) (kids : TaskId → List TaskId) (stale : TaskId → Option TaskId) : Prop where
  forest : Forest (kin s) kids stale
  nodup : s.list.Nodup
  swapper : swapper ∉ s.list
  mem : ∀ t c, c ∈ kids t ↔ c ∈ s.list ∧ (s.tasks c).pptr = t

/-- No list has a stale link. -/
def clean : TaskId → Option TaskId := fun _ => none

theorem Tree.keep (h : Tree s kids stale) (hkin : kin s' = kin s) (hlist : s'.list = s.list)
    (hpptr : ∀ q ∈ s.list, (s'.tasks q).pptr = (s.tasks q).pptr) : Tree s' kids stale := by
  refine ⟨hkin ▸ h.forest, hlist ▸ h.nodup, hlist ▸ h.swapper, fun t c => ?_⟩
  rw [h.mem, hlist]
  refine and_congr_right fun hc => ?_
  rw [hpptr c hc]

theorem Tree.setTask (h : Tree s kids stale) (p : TaskId) {f : Task → Task}
    (hf : ∀ t, ((f t).cptr = t.cptr ∧ (f t).osptr = t.osptr ∧ (f t).ysptr = t.ysptr) ∧
      (f t).pptr = t.pptr := by exact fun _ => ⟨⟨rfl, rfl, rfl⟩, rfl⟩) : Tree (s.setTask p f) kids stale :=
  h.keep (kin_setTask (fun t => (hf t).1) p s) rfl
    fun q _ => setTask_same Task.pptr (fun t => (hf t).2) p s q

/-- The record of a task that is not in the tree is filled in. -/
theorem Tree.fresh (h : Tree s kids clean) {t : Task} {ms : List Making} (hp : p ∉ s.list)
    (hkids : kids p = []) (ht : t.cptr = none) :
    Tree { s.setTask p fun _ => t with making := ms } kids clean := by
  have hsame {q : TaskId} (hq : q ≠ p) : (s.setTask p fun _ => t).tasks q = s.tasks q :=
    update_of_ne hq ..
  have hin {q c : TaskId} (hc : c ∈ kids q) : c ≠ p := fun heq => hp (heq ▸ ((h.mem q c).mp hc).1)
  refine ⟨⟨fun o => ?_, fun o => ?_, h.forest.nodup, h.forest.unique⟩, h.nodup, h.swapper, fun q c => ?_⟩
  · rcases eq_or_ne o p with rfl | ho
    · rw [hkids]
      exact (congrArg Task.cptr (update_self ..)).trans ht
    · exact (congrArg Task.cptr (hsame ho)).trans (h.forest.first o)
  · refine (h.forest.seg o).congr fun c hc => ?_
    exact ⟨congrArg Task.ysptr (hsame (hin hc)), congrArg Task.osptr (hsame (hin hc))⟩
  · rw [h.mem]
    refine and_congr_right fun hc => ?_
    have hne : c ≠ p := fun heq => hp (heq ▸ hc)
    rw [← hsame hne]

theorem Tree.unlinked (h : Tree s kids clean) (hp : p ∈ s.list) :
    ∃ kids', Forest (kin (removeLinks p s)) kids' clean ∧
      ∀ t c, c ∈ kids' t ↔ c ≠ p ∧ c ∈ kids t := by
  have hmem : p ∈ kids (s.tasks p).pptr := (h.mem _ p).mpr ⟨hp, rfl⟩
  refine ⟨_, kin_removeLinks p s ▸ h.forest.unlink rfl hmem, fun t c => ?_⟩
  rcases eq_or_ne t (s.tasks p).pptr with rfl | ht
  · rw [update_self, List.Nodup.mem_erase_iff (h.forest.nodup _)]
  · rw [update_of_ne ht]
    refine ⟨fun hc => ⟨?_, hc⟩, fun hc => hc.2⟩
    intro heq
    exact h.forest.not_mem hmem ht (heq ▸ hc)

theorem linked_tree (hf : Forest (kin s) kids clean) (hnd : s.list.Nodup) (hsw : swapper ∉ s.list)
    (hp : p ∉ s.list) (hsp : p ≠ swapper)
    (hmem : ∀ t c, c ∈ kids t ↔ c ∈ s.list ∧ (s.tasks c).pptr = t) :
    ∃ kids', Tree (setLinks p s) kids' clean := by
  have hout : ∀ t, p ∉ kids t := fun t hm => hp ((hmem t p).mp hm).1
  have hfor := hf.link hout (s.tasks p).pptr
  have hstale : update clean (s.tasks p).pptr none = clean := update_eq_self ..
  rw [← kin_setLinks, hstale] at hfor
  have hpptr (q : TaskId) : ((setLinks p s).tasks q).pptr = (s.tasks q).pptr := by
    obtain ⟨c, y, o, heq⟩ := (onlyLinks_setLinks p s).tasks q
    rw [heq]
  refine ⟨_, hfor, ?_, ?_, fun t c => ?_⟩
  · rw [setLinks_list, List.nodup_append]
    refine ⟨hnd, List.nodup_singleton p, ?_⟩
    intro a ha b hb heq
    exact hp (List.mem_singleton.mp hb ▸ heq ▸ ha)
  · rw [setLinks_list, List.mem_append, List.mem_singleton]
    exact fun h => h.elim hsw fun heq => hsp heq.symm
  · rw [setLinks_list, hpptr, List.mem_append, List.mem_singleton]
    rcases eq_or_ne t (s.tasks p).pptr with rfl | ht
    · rw [update_self, List.mem_cons, hmem]
      constructor
      · rintro (rfl | hc)
        · exact ⟨.inr rfl, rfl⟩
        · exact ⟨.inl hc.1, hc.2⟩
      · rintro ⟨hc | hc, heq⟩
        · exact .inr ⟨hc, heq⟩
        · exact .inl hc
    · rw [update_of_ne ht, hmem]
      refine ⟨fun hc => ⟨.inl hc.1, hc.2⟩, ?_⟩
      intro ⟨hc, heq⟩
      refine ⟨hc.resolve_right ?_, heq⟩
      intro hcp
      exact ht (heq ▸ hcp ▸ rfl)

theorem Tree.removeLinks (h : Tree s kids clean) (hp : p ∈ s.list) :
    ∃ kids', Tree (removeLinks p s) kids' clean := by
  obtain ⟨kids', hf, hmem⟩ := h.unlinked hp
  refine ⟨kids', hf, ?_, ?_, fun t c => ?_⟩
  · rw [removeLinks_list]
    exact h.nodup.erase p
  · rw [removeLinks_list]
    exact fun hm => h.swapper (List.mem_of_mem_erase hm)
  · obtain ⟨_, _, _, heq⟩ := (onlyLinks_removeLinks p s).tasks c
    rw [hmem, h.mem, removeLinks_list, h.nodup.mem_erase_iff, heq, and_assoc]

theorem Tree.relink (h : Tree s kids clean) (hp : p ∈ s.list) (parent : TaskId) :
    ∃ kids', Tree (relink p parent s) kids' clean := by
  obtain ⟨kids', ht⟩ := h.removeLinks hp
  have hout : p ∉ (Tasks.removeLinks p s).list := by
    rw [removeLinks_list]
    exact fun hm => (h.nodup.mem_erase_iff.mp hm).1 rfl
  have hkin := kin_setTask (f := fun t => { t with pptr := parent }) (fun _ => ⟨rfl, rfl, rfl⟩) p
    (Tasks.removeLinks p s)
  have hmoved : Tree ((Tasks.removeLinks p s).setTask p fun t => { t with pptr := parent }) kids'
      clean := by
    refine ht.keep hkin rfl fun q hq => ?_
    have hne : q ≠ p := fun heq => hout (heq ▸ hq)
    simp [State.setTask, hne]
  exact linked_tree hmoved.forest hmoved.nodup hmoved.swapper hout
    (fun heq => h.swapper (heq ▸ hp)) hmoved.mem

/-- What handing a child over does besides the links. -/
theorem onlyLinks_inheritFirst (cur p : TaskId) (s : State) :
    OnlyLinks (s.setTask p fun t => { t with ptraced := false, pptr := t.opptr })
      (inheritFirst cur p s) := by
  have hbase : OnlyLinks (s.setTask p fun t => { t with ptraced := false, pptr := t.opptr })
      ((s.setTask cur fun t => { t with cptr := (s.tasks p).osptr }).setTask p
        fun t => { t with ysptr := none, ptraced := false, pptr := t.opptr }) := by
    refine ⟨fun q => ?_, rfl, rfl, rfl, rfl, rfl, rfl⟩
    rcases eq_or_ne q p with rfl | hq
    · rcases eq_or_ne q cur with rfl | hc
      · exact ⟨_, _, _, by simp [State.setTask]; exact ⟨rfl, rfl, rfl⟩⟩
      · exact ⟨_, _, _, by simp [State.setTask, hc]; exact ⟨rfl, rfl, rfl⟩⟩
    · rcases eq_or_ne q cur with rfl | hc
      · exact ⟨_, _, _, by simp [State.setTask, hq]; exact ⟨rfl, rfl, rfl⟩⟩
      · exact ⟨_, _, _, by simp [State.setTask, hq, hc]; rfl⟩
  unfold inheritFirst
  refine OnlyLinks.setTask (OnlyLinks.setTaskIf (OnlyLinks.setTask hbase ?_ _) ?_ _) ?_ _
  all_goals
    intro t
    exact ⟨_, _, _, rfl⟩

theorem inheritFirst_list (cur p : TaskId) (s : State) : (inheritFirst cur p s).list = s.list := by
  unfold inheritFirst State.setTaskIf
  dsimp only
  split <;> rfl

/-- The first child goes; the next one has a stale link. -/
theorem Tree.inheritFirst {y : Option TaskId} {ps : List TaskId}
    (h : Tree s kids (update clean cur y)) (hkids : kids cur = p :: ps)
    (hne : (s.tasks p).opptr ≠ cur) :
    ∃ kids', Tree (inheritFirst cur p s) kids' (update clean cur (some p)) ∧
      kids' cur = ps := by
  have hmem : p ∈ kids cur := hkids ▸ List.mem_cons_self
  have hnd := h.forest.nodup cur
  rw [hkids, List.nodup_cons] at hnd
  have hskip := h.forest.skip hkids
  rw [update_idem] at hskip
  have hout (t : TaskId) : p ∉ update kids cur ps t := by
    rcases eq_or_ne t cur with rfl | ht
    · rw [update_self]
      exact hnd.1
    · rw [update_of_ne ht]
      exact h.forest.not_mem hmem ht
  have hlink := hskip.link hout (s.tasks p).opptr
  have hstale : update (update clean cur (some p)) (s.tasks p).opptr none =
      update clean cur (some p) := by
    refine update_eq_self_iff.mpr ?_
    rw [update_of_ne hne]
    rfl
  rw [← kin_inheritFirst, hstale] at hlink
  have hpptr (q : TaskId) : ((Tasks.inheritFirst cur p s).tasks q).pptr =
      if q = p then (s.tasks p).opptr else (s.tasks q).pptr := by
    obtain ⟨_, _, _, heq⟩ := (onlyLinks_inheritFirst cur p s).tasks q
    rw [heq]
    split <;> simp [State.setTask, *]
  refine ⟨_, ⟨hlink, ?_, ?_, fun t c => ?_⟩, ?_⟩
  · rw [inheritFirst_list]
    exact h.nodup
  · rw [inheritFirst_list]
    exact h.swapper
  · have hrest : c ∈ update kids cur ps t ↔ c ≠ p ∧ c ∈ kids t := by
      rcases eq_or_ne c p with rfl | hc
      · exact ⟨fun hm => absurd hm (hout t), fun hm => absurd rfl hm.1⟩
      · rcases eq_or_ne t cur with rfl | ht
        · simp [hkids, hc]
        · simp [ht, hc]
    rw [inheritFirst_list, hpptr]
    rcases eq_or_ne c p with rfl | hc
    · have hlist : c ∈ s.list := ((h.mem cur c).mp hmem).1
      rcases eq_or_ne t (s.tasks c).opptr with rfl | ht
      · simp [hlist]
      · rw [update_of_ne ht, hrest]
        simp [ht.symm]
    · rw [if_neg hc, ← h.mem]
      rcases eq_or_ne t (s.tasks p).opptr with rfl | ht
      · rw [update_self, List.mem_cons, hrest]
        simp [hc]
      · rw [update_of_ne ht, hrest]
        simp [hc]
  · rw [update_of_ne hne.symm, update_self]

end Tree

/-! ## Who is whose parent -/

section Order
variable {s s' : State} {p q cur parent : TaskId} {fuel : Nat}

def Valid (s : State) (t : TaskId) : Prop := t = swapper ∨ t ∈ s.list

/-- A child that is being made is not in the tree, and its parent stays. -/
structure Pending (s : State) (m : Making) : Prop where
  child : m.child ∉ s.list ∧ m.child ≠ swapper
  alive : (s.tasks m.child).stage = .alive
  parent : Valid s m.parent
  parent_alive : (s.tasks m.parent).stage = .alive

/-- Tasks that a task can have as its parent and as its original parent. -/
def Parents (s : State) (pptr opptr : TaskId) : Prop :=
  (Valid s pptr ∧ (s.tasks pptr).stage ≠ .done) ∧
    Valid s opptr ∧ ((s.tasks opptr).stage = .alive ∨ (s.tasks opptr).stage = .exiting)

/-- Nobody has a parent that is past `exit_notify`, or an original parent that is
past `forget_original_parent`. -/
structure Core (s : State) : Prop where
  has : ∀ c, Valid s c → Parents s (s.tasks c).pptr (s.tasks c).opptr
  swapper : (s.tasks swapper).stage = .alive ∧ (s.tasks swapper).pptr = swapper ∧
    (s.tasks swapper).opptr = swapper
  reaper : Valid s s.childReaper ∧ (s.tasks s.childReaper).stage = .alive ∧
    (s.childReaper = Tasks.swapper ∨ (s.tasks s.childReaper).pid = 1)

structure Order (s : State) : Prop extends Core s where
  making : ∀ m ∈ s.making, Pending s m
  children : (s.making.map Making.child).Nodup
  threads : Closed s.threads (Valid s)

/-- The same process with the same parents at the same stage. -/
structure Still (t t' : Task) : Prop where
  pid : t'.pid = t.pid
  stage : t'.stage = t.stage
  pptr : t'.pptr = t.pptr
  opptr : t'.opptr = t.opptr

theorem Still.refl (t : Task) : Still t t := ⟨rfl, rfl, rfl, rfl⟩

theorem still_onlyLinks (h : OnlyLinks s s') (q : TaskId) : Still (s.tasks q) (s'.tasks q) := by
  obtain ⟨_, _, _, heq⟩ := h.tasks q
  rw [heq]
  exact ⟨rfl, rfl, rfl, rfl⟩

/-- The same tasks with the same parents at the same stages. -/
structure Alike (s s' : State) : Prop where
  tasks : ∀ q, Still (s.tasks q) (s'.tasks q)
  list : ∀ q, q ∈ s'.list ↔ q ∈ s.list
  threads : s'.threads = s.threads
  childReaper : s'.childReaper = s.childReaper
  making : s'.making = s.making

theorem alike_setTask {f : Task → Task} (hf : ∀ t, Still t (f t)) (p : TaskId) (s : State) :
    Alike s (s.setTask p f) := by
  refine ⟨fun q => ?_, fun _ => Iff.rfl, rfl, rfl, rfl⟩
  rcases eq_or_ne q p with rfl | hq
  · simpa [State.setTask] using hf (s.tasks q)
  · simpa [State.setTask, hq] using Still.refl _

theorem Valid.ne (hq : Valid s q) (hp : p ∉ s.list ∧ p ≠ swapper) : q ≠ p := by
  intro heq
  rcases hq with rfl | hq
  · exact hp.2 heq.symm
  · exact hp.1 (heq ▸ hq)

/-- All tasks have parents that they can have, and `swapper` and the reaper stay. -/
theorem Core.move (h : Core s)
    (hparents : ∀ c, Valid s' c → Parents s' (s'.tasks c).pptr (s'.tasks c).opptr)
    (hswapper : Still (s.tasks Tasks.swapper) (s'.tasks Tasks.swapper))
    (hreaper : s'.childReaper = s.childReaper) (hvalid : Valid s' s.childReaper)
    (hpid : (s'.tasks s.childReaper).pid = (s.tasks s.childReaper).pid)
    (hstage : (s'.tasks s.childReaper).stage = (s.tasks s.childReaper).stage) : Core s' := by
  refine ⟨hparents, ?_, ?_⟩
  · rw [hswapper.stage, hswapper.pptr, hswapper.opptr]
    exact h.swapper
  · rw [hreaper, hpid, hstage]
    exact ⟨hvalid, h.reaper.2⟩

theorem Parents.mono {pptr opptr : TaskId} (h : Parents s pptr opptr)
    (hsub : ∀ q, Valid s q → Valid s' q) (hstage : ∀ q, (s'.tasks q).stage = (s.tasks q).stage) :
    Parents s' pptr opptr := by
  unfold Parents
  rw [hstage, hstage]
  exact ⟨⟨hsub _ h.1.1, h.1.2⟩, hsub _ h.2.1, h.2.2⟩

theorem Order.reparent (h : Order s) (hlist : ∀ q, q ∈ s'.list ↔ q ∈ s.list)
    (hkeep : ∀ q, (s'.tasks q).pid = (s.tasks q).pid ∧ (s'.tasks q).stage = (s.tasks q).stage)
    (hparents : ∀ c, Valid s c → Parents s (s'.tasks c).pptr (s'.tasks c).opptr)
    (hswapper : (s'.tasks Tasks.swapper).pptr = Tasks.swapper ∧
      (s'.tasks Tasks.swapper).opptr = Tasks.swapper)
    (hrest : s'.threads = s.threads ∧ s'.childReaper = s.childReaper ∧ s'.making = s.making) :
    Order s' := by
  have hstage q := (hkeep q).2
  have hvalid (q : TaskId) : Valid s' q ↔ Valid s q := or_congr Iff.rfl (hlist q)
  obtain ⟨hthreads, hreaper, hmaking⟩ := hrest
  obtain ⟨_, hpptr, hopptr⟩ := h.swapper
  have hstill : Still (s.tasks Tasks.swapper) (s'.tasks Tasks.swapper) :=
    ⟨(hkeep _).1, hstage _, hswapper.1.trans hpptr.symm, hswapper.2.trans hopptr.symm⟩
  refine ⟨h.toCore.move (fun c hc => ?_) hstill hreaper ((hvalid _).mpr h.reaper.1) (hkeep _).1
    (hstage _), fun m hm => ?_, hmaking ▸ h.children, fun t ht => ?_⟩
  · exact (hparents c ((hvalid c).mp hc)).mono (fun q => (hvalid q).mpr) hstage
  · obtain ⟨h1, h2, h3, h4⟩ := h.making m (hmaking ▸ hm)
    exact ⟨by rwa [hlist], (hstage _).trans h2, (hvalid _).mpr h3, (hstage _).trans h4⟩
  · rw [hthreads, hvalid, hvalid]
    exact h.threads t ((hvalid t).mp ht)

theorem Order.alike (h : Order s) (ha : Alike s s') : Order s' := by
  refine h.reparent ha.list (fun q => ⟨(ha.tasks q).pid, (ha.tasks q).stage⟩) (fun c hc => ?_) ?_
    ⟨ha.threads, ha.childReaper, ha.making⟩
  · rw [(ha.tasks c).pptr, (ha.tasks c).opptr]
    exact h.has c hc
  · rw [(ha.tasks _).pptr, (ha.tasks _).opptr]
    exact h.swapper.2

theorem Order.adopt (h : Order s) {t' : Task} (hp : p ≠ Tasks.swapper)
    (hkeep : t'.pid = (s.tasks p).pid ∧ t'.stage = (s.tasks p).stage)
    (hparents : Parents s t'.pptr t'.opptr) : Order (s.setTask p fun _ => t') := by
  have hself : (s.setTask p fun _ => t').tasks p = t' := update_self ..
  have hother (q : TaskId) (hq : q ≠ p) : (s.setTask p fun _ => t').tasks q = s.tasks q :=
    update_of_ne hq ..
  refine h.reparent (fun _ => Iff.rfl) (fun q => ?_) (fun c hc => ?_) ?_ ⟨rfl, rfl, rfl⟩
  · rcases eq_or_ne q p with rfl | hq
    · rw [hself]
      exact hkeep
    · rw [hother q hq]
      exact ⟨rfl, rfl⟩
  · rcases eq_or_ne c p with rfl | hc'
    · rwa [hself]
    · rw [hother c hc']
      exact h.has c hc
  · rw [hother _ hp.symm]
    exact h.swapper.2

theorem Order.advance (h : Order s) {g : Stage} (hp : p ∈ s.list) (hsp : p ≠ Tasks.swapper)
    (hreaper : p ≠ s.childReaper) (hmaking : ∀ m ∈ s.making, m.parent ≠ p)
    (hopptr : g = .alive ∨ g = .exiting ∨ ∀ c, Valid s c → (s.tasks c).opptr ≠ p)
    (hpptr : g ≠ .done ∨ ∀ c, Valid s c → (s.tasks c).pptr ≠ p) :
    Order (s.setTask p fun t => { t with stage := g }) := by
  have hkeep {β : Type} (view : Task → β) (hview : ∀ t, view { t with stage := g } = view t)
      (q : TaskId) := setTask_same view hview p s q
  have hself : ((s.setTask p fun t => { t with stage := g }).tasks p).stage = g := by
    simp [State.setTask]
  have hother {q : TaskId} (hq : q ≠ p) : (s.setTask p fun t => { t with stage := g }).tasks q = s.tasks q :=
    update_of_ne hq ..
  refine ⟨h.toCore.move (fun c hc => ?_) (hother hsp.symm ▸ .refl _) rfl h.reaper.1
    (congrArg Task.pid (hother hreaper.symm)) (congrArg Task.stage (hother hreaper.symm)), ?_, h.children,
    h.threads⟩
  · rw [hkeep Task.pptr fun _ => rfl, hkeep Task.opptr fun _ => rfl]
    obtain ⟨⟨hv, hstage⟩, hvo, hstageo⟩ := h.has c hc
    refine ⟨⟨hv, ?_⟩, hvo, ?_⟩
    · rcases eq_or_ne (s.tasks c).pptr p with heq | hne
      · rw [heq, hself]
        exact hpptr.resolve_right fun hno => hno c hc heq
      · rwa [hother hne]
    · rcases eq_or_ne (s.tasks c).opptr p with heq | hne
      · rw [heq, hself]
        exact or_assoc.mpr hopptr |>.resolve_right fun hno => hno c hc heq
      · rwa [hother hne]
  · intro m hm
    obtain ⟨h1, h2, h3, h4⟩ := h.making m hm
    have hne : m.child ≠ p := fun heq => h1.1 (heq ▸ hp)
    exact ⟨h1, (congrArg Task.stage (hother hne)).trans h2, h3,
      (congrArg Task.stage (hother (hmaking m hm))).trans h4⟩

/-- A task that is on its way out is neither the reaper nor making a child. -/
theorem Order.leaving (h : Order s) (hp : (s.tasks p).stage ≠ .alive) :
    p ≠ Tasks.swapper ∧ p ≠ s.childReaper ∧ ∀ m ∈ s.making, m.parent ≠ p := by
  refine ⟨?_, ?_, ?_⟩
  · intro heq
    exact hp (heq ▸ h.swapper.1)
  · intro heq
    exact hp (heq ▸ h.reaper.2.1)
  · intro m hm heq
    exact hp (heq ▸ (h.making m hm).parent_alive)

theorem Order.findReaper (h : Order s) {father r r' : TaskId} (hr : Valid s r)
    (hfind : findReaper s father fuel r = some r') :
    Valid s r' ∧ ((s.tasks r').stage = .alive ∨ r' = father) := by
  induction fuel generalizing r with
  | zero => cases hfind
  | succ fuel ih =>
    have hnext := (h.threads r hr).1.1
    rw [Tasks.findReaper] at hfind
    split at hfind
    next halive =>
      cases hfind
      exact ⟨hnext, .inl halive⟩
    · split at hfind
      · exact ih hnext hfind
      next hfather =>
        cases hfind
        exact ⟨hnext, .inr (not_not.mp hfather)⟩

theorem Order.original (h : Order s) (hp : Valid s p) :
    Valid s (s.tasks p).opptr ∧ (s.tasks (s.tasks p).opptr).stage ≠ .done := by
  refine ⟨(h.has p hp).2.1, ?_⟩
  rcases (h.has p hp).2.2 with heq | heq <;> rw [heq] <;> decide

/-- Original parents change, to tasks that can be one. -/
theorem Order.reassign (h : Order s) {f : TaskId → TaskId} (hsw : f Tasks.swapper = Tasks.swapper)
    (hf : ∀ c, Valid s c → Valid s (f c) ∧
      ((s.tasks (f c)).stage = .alive ∨ (s.tasks (f c)).stage = .exiting)) :
    Order { s with tasks := fun q => { s.tasks q with opptr := f q } } :=
  h.reparent (fun _ => Iff.rfl) (fun _ => ⟨rfl, rfl⟩) (fun c hc => ⟨(h.has c hc).1, hf c hc⟩)
    ⟨h.swapper.2.1, hsw⟩ ⟨rfl, rfl, rfl⟩

/-- The children of a task that exits get a parent that stays. -/
theorem Order.forget (h : Order s) (hcur : cur ∈ s.list)
    (hsw : Tasks.swapper ∉ s.list) (hst : (s.tasks cur).stage = .exiting)
    (hf : forgetOriginalParent fuel cur s = some s') :
    Order s' ∧ ∀ c, Valid s' c → (s'.tasks c).opptr ≠ cur := by
  obtain ⟨r, hfind, rfl⟩ := forgetOriginalParent_eq hf
  obtain ⟨hsp, hcr, _⟩ := h.leaving (by rw [hst]; decide)
  obtain ⟨hvalid, hr⟩ := h.findReaper (.inr hcur) hfind
  obtain ⟨hv, halive, _⟩ := h.reaper
  generalize hreaper : (if r = cur then s.childReaper else r) = reaper
  have hgood : Valid s reaper ∧ (s.tasks reaper).stage = .alive ∧ reaper ≠ cur := by
    rw [← hreaper]
    split
    · exact ⟨hv, halive, hcr.symm⟩
    next hne => exact ⟨hvalid, hr.resolve_right hne, hne⟩
  have hchosen (c : TaskId) (hc : Valid s c) : Valid s (adopted cur reaper s c) ∧
      ((s.tasks (adopted cur reaper s c)).stage = .alive ∨
        (s.tasks (adopted cur reaper s c)).stage = .exiting) ∧ adopted cur reaper s c ≠ cur := by
    unfold adopted
    split
    · split
      · exact ⟨hv, .inl halive, hcr.symm⟩
      · exact ⟨hgood.1, .inl hgood.2.1, hgood.2.2⟩
    next hno =>
      refine ⟨(h.has c hc).2.1, (h.has c hc).2.2, ?_⟩
      rcases hc with rfl | hc
      · rw [h.swapper.2.2]
        exact hsp.symm
      · exact fun heq => hno ⟨hc, heq⟩
  refine ⟨h.reassign ?_ fun c hc => ⟨(hchosen c hc).1, (hchosen c hc).2.1⟩,
    fun c hc => (hchosen c hc).2.2⟩
  rw [adopted, if_neg fun hin => hsw hin.1]
  exact h.swapper.2.2

/-- The tasks that are left have the parents they had. -/
theorem Core.restrict (h : Core s) (hsub : ∀ q, Valid s' q → Valid s q)
    (hsame : ∀ q, Valid s' q → Still (s.tasks q) (s'.tasks q))
    (hparents : ∀ c, Valid s' c → Valid s' (s.tasks c).pptr ∧ Valid s' (s.tasks c).opptr)
    (hreaper : s'.childReaper = s.childReaper ∧ Valid s' s.childReaper) : Core s' := by
  have hstays := hsame _ hreaper.2
  refine h.move (fun c hc => ?_) (hsame _ (.inl rfl)) hreaper.1 hreaper.2 hstays.pid hstays.stage
  obtain ⟨hpptr, hopptr⟩ := hparents c hc
  have hhas := h.has c (hsub c hc)
  rw [(hsame c hc).pptr, (hsame c hc).opptr]
  unfold Parents
  rw [(hsame _ hpptr).stage, (hsame _ hopptr).stage]
  exact ⟨⟨hpptr, hhas.1.2⟩, hopptr, hhas.2.2⟩

/-- A task struct that is not in the tree becomes that of a child to be. -/
theorem Order.start (h : Order s) {t : Task} {m : Making}
    (hchild : m.child ∉ s.list ∧ m.child ≠ Tasks.swapper)
    (hfresh : ∀ m' ∈ s.making, m'.child ≠ m.child)
    (hparent : Valid s m.parent) (halive : (s.tasks m.parent).stage = .alive)
    (ht : t.stage = .alive) :
    Order { s.setTask m.child fun _ => t with making := m :: s.making } := by
  have hsame {q : TaskId} (hq : q ≠ m.child) :
      (s.setTask m.child fun _ => t).tasks q = s.tasks q := update_of_ne hq ..
  refine ⟨h.toCore.restrict (fun _ => id) (fun q hq => ?_)
    (fun c hc => ⟨(h.has c hc).1.1, (h.has c hc).2.1⟩) ⟨rfl, h.reaper.1⟩, ?_, ?_, h.threads⟩
  · exact hsame (hq.ne hchild) ▸ .refl _
  · refine List.forall_mem_cons.mpr ⟨⟨hchild, ?_, hparent, ?_⟩, fun m' hm' => ?_⟩
    · simp [State.setTask, ht]
    · exact (congrArg Task.stage (hsame (hparent.ne hchild))).trans halive
    · obtain ⟨h1, h2, h3, h4⟩ := h.making m' hm'
      exact ⟨h1, (congrArg Task.stage (hsame (hfresh m' hm'))).trans h2, h3,
        (congrArg Task.stage (hsame (h3.ne hchild))).trans h4⟩
  · rw [List.map_cons, List.nodup_cons]
    refine ⟨?_, h.children⟩
    intro hmem
    obtain ⟨m', hm', heq⟩ := List.mem_map.mp hmem
    exact hfresh m' hm' heq

theorem Order.abort (h : Order s) (m : Making) : Order (forkAbort m s) := by
  refine ⟨⟨h.has, h.swapper, h.reaper⟩, ?_, ?_, h.threads⟩
  · intro m' hm'
    exact { h.making m' (List.mem_of_mem_erase hm') with }
  · exact h.children.sublist (List.erase_sublist.map _)

theorem Order.release (h : Order s) (hp : p ∈ s.list) (hst : (s.tasks p).stage = .done)
    (hnd : s.list.Nodup) : Order (releaseTask p s) := by
  obtain ⟨hsp, hreaper, hmaking⟩ := h.leaving (by rw [hst]; decide)
  have hlist : (releaseTask p s).list = s.list.erase p := removeLinks_list p s
  have hlinks := onlyLinks_removeLinks p s
  have hvalid (q : TaskId) : Valid (releaseTask p s) q ↔ Valid s q ∧ q ≠ p := by
    unfold Valid
    rw [hlist, hnd.mem_erase_iff]
    constructor
    · rintro (rfl | ⟨hq, hm⟩)
      · exact ⟨.inl rfl, hsp.symm⟩
      · exact ⟨.inr hm, hq⟩
    · rintro ⟨rfl | hm, hq⟩
      · exact .inl rfl
      · exact .inr ⟨hq, hm⟩
  have hsame {q : TaskId} (hq : q ≠ p) : Still (s.tasks q) ((releaseTask p s).tasks q) := by
    have heq : (releaseTask p s).tasks q = (removeLinks p s).tasks q := update_of_ne hq ..
    exact heq ▸ still_onlyLinks hlinks q
  refine ⟨h.toCore.restrict (fun q hq => ((hvalid q).mp hq).1)
    (fun q hq => hsame ((hvalid q).mp hq).2) (fun c hc => ?_) ?_, ?_, ?_, ?_⟩
  · -- it is past `exit_notify`, so it is nobody's parent
    obtain ⟨⟨hpptr, hstage⟩, hopptr, hstageo⟩ := h.has c ((hvalid c).mp hc).1
    refine ⟨(hvalid _).mpr ⟨hpptr, ?_⟩, (hvalid _).mpr ⟨hopptr, ?_⟩⟩
    · intro heq
      exact hstage (heq ▸ hst)
    · intro heq
      rw [heq, hst] at hstageo
      simp at hstageo
  · exact ⟨hlinks.childReaper, (hvalid _).mpr ⟨h.reaper.1, hreaper.symm⟩⟩
  · intro m hm
    have hm : m ∈ s.making := hlinks.making ▸ hm
    obtain ⟨h1, h2, h3, h4⟩ := h.making m hm
    have hne : m.child ≠ p := fun heq => h1.1 (heq ▸ hp)
    refine ⟨⟨?_, h1.2⟩, (hsame hne).stage.trans h2, (hvalid _).mpr ⟨h3, hmaking m hm⟩,
      (hsame (hmaking m hm)).stage.trans h4⟩
    rw [hlist]
    exact fun hmem => h1.1 (List.mem_of_mem_erase hmem)
  · have hsame : (releaseTask p s).making = s.making := hlinks.making
    rw [hsame]
    exact h.children
  · have hthreads : (releaseTask p s).threads = s.threads.listDel p :=
      congrArg (·.listDel p) hlinks.threads
    have heq : Valid (releaseTask p s) = fun q => Valid s q ∧ q ≠ p :=
      funext fun q => propext (hvalid q)
    rw [hthreads, heq]
    exact h.threads.listDel (.inr hp)

theorem Order.link (h : Order s) {m : Making} (hm : m ∈ s.making) : Order (forkLink m s) := by
  obtain ⟨s1, heq, htasks, hlist1, _, _, hreaper1, hmaking1, hthreads1⟩ := forkLink_eq m s
  have hlinks := onlyLinks_setLinks m.child s1
  have hlist : (forkLink m s).list = s.list ++ [m.child] := by
    rw [heq, setLinks_list, hlist1]
  obtain ⟨hout, hchild, hparent, halive⟩ := h.making m hm
  have hvalid (q : TaskId) : Valid (forkLink m s) q ↔ Valid s q ∨ q = m.child := by
    unfold Valid
    rw [hlist, List.mem_append, List.mem_singleton, or_assoc]
  have hstill (q : TaskId) :
      Still (update s.tasks m.child (born s m) q) ((forkLink m s).tasks q) := by
    rw [← htasks, heq]
    exact still_onlyLinks hlinks q
  have hsame {q : TaskId} (hq : q ≠ m.child) : Still (s.tasks q) ((forkLink m s).tasks q) := by
    simpa [hq] using hstill q
  have hborn : Still (born s m) ((forkLink m s).tasks m.child) := by
    simpa using hstill m.child
  have hstage (q : TaskId) : ((forkLink m s).tasks q).stage = (s.tasks q).stage := by
    rcases eq_or_ne q m.child with rfl | hq
    · exact hborn.stage
    · exact (hsame hq).stage
  have hsub (q : TaskId) (hq : Valid s q) : Valid (forkLink m s) q := (hvalid q).mpr (.inl hq)
  -- the parents of the child are its maker or those of its maker
  have hparents : Parents s (born s m).pptr (born s m).opptr := by
    have hmaker := h.has _ hparent
    constructor
    all_goals
      unfold born
      dsimp only
      split
    · exact hmaker.1
    · exact ⟨hparent, by rw [halive]; decide⟩
    · exact hmaker.2
    · exact ⟨hparent, .inl halive⟩
  have hmaking : (forkLink m s).making = s.making.erase m := by
    rw [heq, hlinks.making, hmaking1]
  have hreaper : (forkLink m s).childReaper = s.childReaper := by
    rw [heq, hlinks.childReaper, hreaper1]
  refine ⟨h.toCore.move (fun c hc => ?_) (hsame hout.2.symm) hreaper (hsub _ h.reaper.1)
    (hsame (h.reaper.1.ne hout)).pid (hstage _), ?_, ?_, ?_⟩
  · rcases (hvalid c).mp hc with hc | rfl
    · rw [(hsame (hc.ne hout)).pptr, (hsame (hc.ne hout)).opptr]
      exact (h.has c hc).mono hsub hstage
    · rw [hborn.pptr, hborn.opptr]
      exact hparents.mono hsub hstage
  · intro m' hm'
    rw [hmaking] at hm'
    have hnd := h.children.of_map
    have hm'' := (hnd.mem_erase_iff).mp hm'
    obtain ⟨h1, h2, h3, h4⟩ := h.making m' hm''.2
    have hne : m'.child ≠ m.child := fun hceq =>
      hm''.1 (List.inj_on_of_nodup_map h.children hm''.2 hm hceq)
    refine ⟨⟨?_, h1.2⟩, (hstage _).trans h2, hsub _ h3, (hstage _).trans h4⟩
    rw [hlist, List.mem_append, List.mem_singleton]
    exact fun hmem => hmem.elim h1.1 hne
  · rw [hmaking]
    exact h.children.sublist (List.erase_sublist.map _)
  · have heqv : Valid (forkLink m s) = fun q => Valid s q ∨ q = m.child :=
      funext fun q => propext (hvalid q)
    have hnv : ¬Valid s m.child := fun hv => hv.ne hout rfl
    have hthreads : (forkLink m s).threads = s1.threads := by rw [heq, hlinks.threads]
    rw [hthreads, hthreads1, heqv]
    have hinit := h.threads.initListHead hnv
    split
    · exact hinit.listAdd hparent hnv
    · exact hinit.insert_self ⟨update_self .., update_self ..⟩

end Order

/-! ## Steps -/

section Steps
variable {s s' : State} {kids : TaskId → List TaskId} {p cur parent : TaskId} {fuel : Nat}
  {o : Op} {es : List Op}

structure Good (s : State) : Prop where
  tree : ∃ kids, Tree s kids clean
  order : Order s

theorem Good.swapper (h : Good s) : swapper ∉ s.list := h.tree.elim fun _ ht => ht.swapper

theorem Good.keep (h : Good s) (hkin : kin s' = kin s) (hlist : s'.list = s.list)
    (ha : Alike s s') : Good s' := by
  obtain ⟨kids, ht⟩ := h.tree
  exact ⟨⟨kids, ht.keep hkin hlist fun q _ => (ha.tasks q).pptr⟩, h.order.alike ha⟩

theorem Good.setTask (h : Good s) (p : TaskId) {f : Task → Task}
    (hf : ∀ t, ((f t).cptr = t.cptr ∧ (f t).osptr = t.osptr ∧ (f t).ysptr = t.ysptr) ∧ Still t (f t) := by
      exact fun _ => ⟨⟨rfl, rfl, rfl⟩, rfl, rfl, rfl, rfl⟩) : Good (s.setTask p f) :=
  h.keep (kin_setTask (fun t => (hf t).1) p s) rfl (alike_setTask (fun t => (hf t).2) p s)

theorem alike_relink (hp : p ∈ s.list) (parent : TaskId) :
    Alike (s.setTask p fun t => { t with pptr := parent }) (relink p parent s) := by
  have h1 := onlyLinks_removeLinks p s
  have h2 := onlyLinks_setLinks p ((removeLinks p s).setTask p fun t => { t with pptr := parent })
  refine ⟨fun q => ?_, fun q => (calm_relink p hp parent).list.mem_iff, h2.threads.trans h1.threads,
    h2.childReaper.trans h1.childReaper, h2.making.trans h1.making⟩
  obtain ⟨_, _, _, heq1⟩ := h1.tasks q
  obtain ⟨_, _, _, heq2⟩ := h2.tasks q
  rw [relink, heq2]
  rcases eq_or_ne q p with rfl | hq
  · constructor <;> simp [State.setTask, heq1]
  · constructor <;> simp [State.setTask, hq, heq1]

theorem Good.relink (h : Good s) (hp : p ∈ s.list)
    (hparent : Valid s parent ∧ (s.tasks parent).stage ≠ .done) : Good (relink p parent s) := by
  obtain ⟨kids, ht⟩ := h.tree
  have hadopt : Order (s.setTask p fun _ => { s.tasks p with pptr := parent }) :=
    h.order.adopt (fun heq => h.swapper (heq ▸ hp)) ⟨rfl, rfl⟩ ⟨hparent, (h.order.has p (.inr hp)).2⟩
  exact ⟨ht.relink hp parent, hadopt.alike (alike_relink hp parent)⟩

theorem Good.release (h : Good s) (hp : p ∈ s.list) (hst : (s.tasks p).stage = .done) :
    Good (releaseTask p s) := by
  obtain ⟨kids, ht⟩ := h.tree
  obtain ⟨kids', ht'⟩ := ht.removeLinks hp
  refine ⟨⟨kids', ?_⟩, h.order.release hp hst ht.nodup⟩
  exact (ht'.setTask p (f := fun t => { t with pid := 0 })).keep rfl rfl fun _ _ => rfl

/-! ### The loop of `exit_notify` -/

/-- Who has no children has no stale link. -/
theorem Tree.childless {y : Option TaskId} (h : Tree s kids (update clean cur y))
    (hkids : kids cur = []) : Tree s kids clean := by
  refine ⟨⟨h.forest.first, fun o => ?_, h.forest.nodup, h.forest.unique⟩, h.nodup, h.swapper, h.mem⟩
  rcases eq_or_ne o cur with rfl | ho
  · rw [hkids]
    trivial
  · have hseg := h.forest.seg o
    rwa [update_of_ne ho] at hseg

theorem otherGroup_inheritFirst (cur p q : TaskId) (s : State) :
    otherGroup cur q (inheritFirst cur p s) ↔ otherGroup cur q s := by
  have hsame (t : TaskId) : ((inheritFirst cur p s).tasks t).pgrp = (s.tasks t).pgrp ∧
      ((inheritFirst cur p s).tasks t).session = (s.tasks t).session := by
    have hname := (calm_inheritFirst cur p s).name t
    simp only [name, Prod.mk.injEq] at hname
    exact ⟨hname.2.1, hname.2.2.2.1⟩
  unfold otherGroup
  rw [(hsame q).1, (hsame q).2, (hsame cur).1, (hsame cur).2]

/-- A zombie is nobody's original parent. -/
theorem Order.original_ne (h : Order s) (hst : (s.tasks cur).stage = .forgotten ∨
    (s.tasks cur).stage = .zombie) {c : TaskId} (hc : Valid s c) : (s.tasks c).opptr ≠ cur := by
  intro heq
  have halive := (h.has c hc).2.2
  rw [heq] at halive
  rcases hst with hst | hst <;> simp [hst] at halive

theorem Order.inheritFirst (h : Order s) (hp : p ∈ s.list) (hsp : p ≠ Tasks.swapper) :
    Order (inheritFirst cur p s) := by
  have hvalid : Valid s p := .inr hp
  have hadopt : Order (s.setTask p fun _ =>
      { s.tasks p with ptraced := false, pptr := (s.tasks p).opptr }) :=
    h.adopt hsp ⟨rfl, rfl⟩ ⟨h.original hvalid, (h.has p hvalid).2⟩
  have hlinks := onlyLinks_inheritFirst cur p s
  refine hadopt.alike ⟨still_onlyLinks hlinks, fun q => ?_, hlinks.threads, hlinks.childReaper, hlinks.making⟩
  rw [inheritFirst_list]
  rfl

theorem Good.done (ht : Tree s kids clean) (h : Order s) (hcur : cur ∈ s.list)
    (hst : (s.tasks cur).stage = .zombie) (hkids : kids cur = []) :
    Good (s.setTask cur fun t => { t with stage := .done }) := by
  obtain ⟨hsp, hreaper, hmaking⟩ := h.leaving (by rw [hst]; decide)
  refine ⟨⟨kids, ht.setTask cur⟩, h.advance hcur hsp hreaper
    hmaking (.inr (.inr fun c hc => h.original_ne (.inr hst) hc)) (.inr fun c hc heq => ?_)⟩
  rcases hc with rfl | hc
  · exact hsp (heq.symm.trans h.swapper.2.1)
  · have hmem := (ht.mem cur c).mpr ⟨hc, heq⟩
    rw [hkids] at hmem
    cases hmem

/-- The loop, if only the last child makes it drop the lock. The first child that is left
has the one before it as its younger sibling, until there is no child left. -/
theorem exitLoop_good {y : Option TaskId} (ht : Tree s kids (update clean cur y))
    (h : Order s) (hcur : cur ∈ s.list) (hst : (s.tasks cur).stage = .zombie)
    (hlast : ∀ us p vs, kids cur = us ++ p :: vs → otherGroup cur p s → vs = [])
    (hloop : exitLoop cur fuel s = some s') : Good s' := by
  induction fuel generalizing s kids y with
  | zero => cases hloop
  | succ fuel ih =>
    have hfirst : (s.tasks cur).cptr = (kids cur).head? := ht.forest.first cur
    rw [exitLoop, hfirst] at hloop
    cases hkids : kids cur with
    | nil =>
      rw [hkids] at hloop
      cases hloop
      exact Good.done (ht.childless hkids) h hcur hst hkids
    | cons p ps =>
      rw [hkids] at hloop
      have hp := ((ht.mem cur p).mp (hkids ▸ List.mem_cons_self)).1
      have hsp : p ≠ swapper := fun heq => ht.swapper (heq ▸ hp)
      obtain ⟨kids', ht', hkids'⟩ :=
        ht.inheritFirst hkids (h.original_ne (.inr hst) (.inr hp))
      have h' : Order (inheritFirst cur p s) := h.inheritFirst hp hsp
      dsimp only [List.head?_cons] at hloop
      split at hloop
      next hother =>
        cases hloop
        have hps := hlast [] p ps hkids ((otherGroup_inheritFirst cur p p s).mp hother)
        exact ⟨⟨kids', ht'.childless (hkids'.trans hps)⟩, h'⟩
      · refine ih ht' h' ?_ ?_ ?_ hloop
        · rwa [inheritFirst_list]
        · obtain ⟨_, _, _, heq⟩ := (onlyLinks_inheritFirst cur p s).tasks cur
          rw [heq]
          rcases eq_or_ne cur p with rfl | hq
          · simpa [State.setTask] using hst
          · simpa [State.setTask, hq] using hst
        · intro us q vs heq hother
          refine hlast (p :: us) q vs ?_ ((otherGroup_inheritFirst cur p q s).mp hother)
          rw [hkids, ← hkids', heq]
          rfl

/-! ### Every operation -/

theorem Tree.childAt_eq (h : Tree s kids clean) (t : TaskId) (j : Nat) :
    childAt s t j = (kids t)[j]? := by
  induction j with
  | zero => exact (h.forest.first t).trans List.head?_eq_getElem?
  | succ j ih =>
    rw [childAt, ih]
    cases hj : (kids t)[j]? with
    | none =>
      rw [List.getElem?_eq_none_iff] at hj
      exact (List.getElem?_eq_none (Nat.le_succ_of_le hj)).symm
    | some q => exact (h.forest.seg t).next_eq hj

/-- A child that is in another process group of the session, which makes `exit_notify`
drop the lock, is the oldest one; and nobody has released the zombie that `sys_wait4` found. -/
def Quiet (s : State) : Op → Prop
  | .exitNotify cur =>
    ∀ j p, childAt s cur j = some p → otherGroup cur p s → (s.tasks p).osptr = none
  | .waitDone p => p ∈ s.list
  | _ => True

theorem Good.advance (h : Good s) {g : Stage} (hp : p ∈ s.list) (hreaper : p ≠ s.childReaper)
    (hmaking : ∀ m ∈ s.making, m.parent ≠ p)
    (hopptr : g = .alive ∨ g = .exiting ∨ ∀ c, Valid s c → (s.tasks c).opptr ≠ p)
    (hg : g ≠ .done) : Good (s.setTask p fun t => { t with stage := g }) := by
  obtain ⟨kids, ht⟩ := h.tree
  have hsp : p ≠ Tasks.swapper := fun heq => ht.swapper (heq ▸ hp)
  exact ⟨⟨kids, ht.setTask p⟩,
    h.order.advance hp hsp hreaper hmaking hopptr (.inl hg)⟩

theorem Good.exitNotify (h : Good s) (hok : (Op.exitNotify cur).Allowed s)
    (hq : Quiet s (.exitNotify cur)) (hexec : exitNotify fuel cur s = some s') : Good s' := by
  obtain ⟨hcur, hst⟩ := hok
  have hgone : (s.tasks cur).stage ≠ .alive := by
    rcases hst with heq | heq <;> rw [heq] <;> decide
  obtain ⟨_, hreaper, hmaking⟩ := h.order.leaving hgone
  have hzombie : Good (s.setTask cur fun t => { t with stage := .zombie }) :=
    h.advance hcur hreaper hmaking (.inr (.inr fun c hc => h.order.original_ne hst hc)) (by decide)
  obtain ⟨kids, ht⟩ := h.tree
  have hzt : Tree (s.setTask cur fun t => { t with stage := .zombie }) kids clean :=
    ht.setTask cur
  have hstale : update clean cur none = clean := update_eq_self ..
  refine exitLoop_good (hstale.symm ▸ hzt) hzombie.order hcur (by simp [State.setTask]) ?_ hexec
  intro us p vs hkids hother
  have hj : (kids cur)[us.length]? = some p := by rw [hkids]; simp
  have hnext : (s.tasks p).osptr = (kids cur)[us.length + 1]? := (ht.forest.seg cur).next_eq hj
  have hother' : otherGroup cur p s := by
    have hsame := setTask_same (fun t => (t.pgrp, t.session)) (f := fun t => { t with stage := .zombie })
      (fun _ => rfl) cur s
    unfold otherGroup at hother ⊢
    grind
  have hnone := hq us.length p ((ht.childAt_eq cur _).trans hj) hother'
  rw [hnext, hkids, List.getElem?_append_right (Nat.le_succ _)] at hnone
  cases vs with
  | nil => rfl
  | cons v vs => simp at hnone

theorem Good.forget (h : Good s) (hok : (Op.forgetOriginalParent cur).Allowed s)
    (hf : forgetOriginalParent fuel cur s = some s') :
    Good (s'.setTask cur fun t => { t with stage := .forgotten }) := by
  obtain ⟨hcur, hst⟩ := hok
  obtain ⟨kids, ht⟩ := h.tree
  obtain ⟨ho, hopptr⟩ := h.order.forget hcur ht.swapper hst hf
  obtain ⟨r, _, rfl⟩ := forgetOriginalParent_eq hf
  obtain ⟨_, hreaper, hmaking⟩ := ho.leaving (p := cur) (by simp [hst])
  refine Good.advance ⟨⟨kids, ?_⟩, ho⟩ hcur hreaper hmaking (.inr (.inr hopptr)) (by decide)
  exact ht.keep rfl rfl fun _ _ => rfl

theorem Good.forkStart {flags : CloneFlags} (h : Good s) (hok : (Op.forkStart p cur flags).Allowed s)
    (hexec : forkStart fuel p cur flags s = some s') : Good s' := by
  obtain ⟨hmaker, hsp, hlist, hfresh⟩ := hok
  have hparent : Valid s cur ∧ (s.tasks cur).stage = .alive := by
    rcases hmaker with hfree | ⟨rfl, _⟩
    · exact ⟨.inr hfree.1, hfree.2.1⟩
    · exact ⟨.inl rfl, h.order.swapper.1⟩
  have hcache (last next : Nat) : Good { s with lastPid := last, nextSafe := next } :=
    h.keep rfl rfl ⟨fun _ => .refl _, fun _ => Iff.rfl, rfl, rfl, rfl⟩
  unfold Tasks.forkStart at hexec
  split at hexec
  · cases hexec
    exact h
  · obtain ⟨⟨pid, last, next⟩, -, heq⟩ := Option.map_eq_some_iff.mp hexec
    dsimp only at heq
    split at heq
    · cases heq
      exact hcache last next
    · have hgood := hcache last next
      cases heq
      obtain ⟨kids, ht⟩ := hgood.tree
      have hkids : kids p = [] := by
        refine List.eq_nil_iff_forall_not_mem.mpr fun c hc => ?_
        obtain ⟨hcl, hcp⟩ := (ht.mem p c).mp hc
        have hvalid := (hgood.order.has c (.inr hcl)).1.1
        rw [hcp] at hvalid
        exact hvalid.elim hsp hlist
      exact ⟨⟨kids, ht.fresh hlist hkids rfl⟩,
        hgood.order.start (m := ⟨p, cur, flags⟩) ⟨hlist, hsp⟩ hfresh hparent.1 hparent.2 hparent.2⟩

theorem Good.forkLink {m : Making} (h : Good s) (hm : m ∈ s.making) : Good (forkLink m s) := by
  refine ⟨?_, h.order.link hm⟩
  obtain ⟨kids, ht⟩ := h.tree
  obtain ⟨s1, heq, htasks, hlist1, _⟩ := forkLink_eq m s
  obtain ⟨⟨hcl, hcs⟩, _⟩ := h.order.making m hm
  have hkin : kin s1 = kin s := by
    unfold kin
    rw [htasks]
    congr 1
    all_goals
      funext q
      rcases eq_or_ne q m.child with rfl | hq
      · rw [update_self]
        rfl
      · rw [update_of_ne hq]
  rw [heq]
  refine linked_tree (hkin ▸ ht.forest) (hlist1 ▸ ht.nodup) (hlist1 ▸ ht.swapper) (hlist1 ▸ hcl) hcs
    fun t c => ?_
  rw [ht.mem, hlist1]
  refine and_congr_right fun hc => ?_
  have hne : c ≠ m.child := fun heq => hcl (heq ▸ hc)
  rw [htasks, update_of_ne hne]

theorem Good.reparentToInit (h : Good s) (hcur : cur ∈ s.list) :
    Good (Tasks.relink cur s.childReaper (s.setTask cur fun t => { t with opptr := s.childReaper })) := by
  obtain ⟨kids, ht⟩ := h.tree
  have hsp : cur ≠ Tasks.swapper := fun heq => ht.swapper (heq ▸ hcur)
  obtain ⟨hv, halive, _⟩ := h.order.reaper
  have hadopt : Order (s.setTask cur fun _ => { s.tasks cur with opptr := s.childReaper }) :=
    h.order.adopt hsp ⟨rfl, rfl⟩ ⟨(h.order.has cur (.inr hcur)).1, hv, .inl halive⟩
  have hgood : Good (s.setTask cur fun t => { t with opptr := s.childReaper }) :=
    ⟨⟨kids, ht.setTask cur⟩, hadopt⟩
  have hstays := hgood.order.reaper.2.1
  exact hgood.relink hcur ⟨hv, fun hdone => by cases hstays.symm.trans hdone⟩

theorem Good.waitDone (h : Good s) (hok : (Op.waitDone p).Allowed s) (hp : p ∈ s.list) :
    Good (waitDone p s) := by
  have hgood : Good { s with found := s.found.erase p } :=
    h.keep rfl rfl ⟨fun _ => .refl _, fun _ => Iff.rfl, rfl, rfl, rfl⟩
  unfold Tasks.waitDone
  dsimp only
  split
  · exact hgood.relink hp (hgood.order.original (.inr hp))
  next heq => exact hgood.release hp (hok.2.resolve_left heq)

theorem step_good (h : Good s) (hq : Quiet s o) (hstep : Step s o s') : Good s' := by
  obtain ⟨hok, fuel, hexec⟩ := hstep
  cases o with
  | forkStart p cur flags => exact h.forkStart hok hexec
  | forkAbort m =>
    cases hexec
    obtain ⟨kids, ht⟩ := h.tree
    exact ⟨⟨kids, ht.keep rfl rfl fun _ _ => rfl⟩, h.order.abort m⟩
  | forkLink m =>
    cases hexec
    exact h.forkLink hok
  | setpgid cur pid pgid found =>
    cases hexec
    rcases Pid.sysSetpgid_cases hok with heq | ⟨p, _, gid, _, _, heq⟩
    · exact heq.symm ▸ h
    · rw [heq]
      exact h.setTask p
  | setsid cur =>
    cases hexec
    unfold sysSetsid
    split
    · exact h
    · dsimp only
      exact h.setTask cur
  | execve cur =>
    cases hexec
    exact h.setTask cur
  | becomeReaper cur =>
    cases hexec
    obtain ⟨kids, ht⟩ := h.tree
    obtain ⟨hfree, hpid⟩ := hok
    refine ⟨⟨kids, ht.keep rfl rfl fun _ _ => rfl⟩, ⟨⟨h.order.has, h.order.swapper,
      ⟨.inr hfree.1, hfree.2.1, .inr hpid⟩⟩, ?_, h.order.children, h.order.threads⟩⟩
    exact fun m hm => { h.order.making m hm with }
  | reparentToInit cur =>
    cases hexec
    exact (h.reparentToInit hok.1).setTask cur
  | traceMe cur =>
    cases hexec
    exact h.setTask cur
  | ptraceAttach cur p =>
    obtain ⟨hfree, hp, hne, _⟩ := hok
    have hgood : Good (s.setTask p fun t => { t with ptraced := true }) :=
      h.setTask p
    cases hexec
    split
    · refine hgood.relink hp ⟨.inr hfree.1, ?_⟩
      simp [State.setTask, hne.symm, hfree.2.1]
    · exact hgood
  | ptraceDetach cur p =>
    obtain ⟨_, hp, _⟩ := hok
    have hgood : Good (s.setTask p fun t => { t with ptraced := false }) :=
      h.setTask p
    cases hexec
    exact hgood.relink hp (hgood.order.original (.inr hp))
  | doExit cur =>
    obtain ⟨hfree, hpid⟩ := hok
    cases hexec
    refine h.advance hfree.1 ?_ hfree.2.2 (.inr (.inl rfl)) (by decide)
    intro heq
    rcases h.order.reaper.2.2 with hsw | hone
    · exact h.swapper (hsw ▸ heq ▸ hfree.1)
    · rw [← heq] at hone
      omega
  | forgetOriginalParent cur =>
    obtain ⟨s1, hf, rfl⟩ := Option.map_eq_some_iff.mp hexec
    exact h.forget hok hf
  | exitNotify cur => exact h.exitNotify hok hq hexec
  | waitFound cur i j =>
    cases hexec
    exact h.keep rfl rfl ⟨fun _ => .refl _, fun _ => Iff.rfl, rfl, rfl, rfl⟩
  | waitDone p =>
    cases hexec
    exact h.waitDone hok hq

theorem boot_good : Good boot := by
  refine ⟨⟨fun _ => [], ⟨fun _ => rfl, fun _ => trivial, fun _ => List.nodup_nil, ?_⟩, List.nodup_nil,
    List.not_mem_nil, ?_⟩, ⟨⟨?_, ⟨rfl, rfl, rfl⟩, ⟨.inl rfl, rfl, .inl rfl⟩⟩, ?_, List.nodup_nil, ?_⟩⟩
  · intro _ _ x hx
    cases hx
  · intro t c
    simp [boot]
  · intro c _
    exact ⟨⟨.inl rfl, by simp [boot, initTask]⟩, .inl rfl, .inl rfl⟩
  · intro m hm
    cases hm
  · intro t ht
    exact ⟨⟨ht, ht⟩, rfl, rfl⟩

/-- In a run whose steps all meet the condition, the children of every task are one list
through the siblings, both ways, and a task that has exited is nobody's parent. -/
theorem family_well_formed (h : Run (Meeting Quiet Step) boot es s) :
    (∃ kids : TaskId → List TaskId, ∀ t,
      (kids t).Nodup ∧ (∀ c, c ∈ kids t ↔ c ∈ s.list ∧ (s.tasks c).pptr = t) ∧
      (∀ j, childAt s t j = (kids t)[j]?) ∧
      ∀ j c, (kids t)[j]? = some c →
        (s.tasks c).ysptr = if j = 0 then none else (kids t)[j - 1]?) ∧
    ∀ t, (s.tasks t).stage = .done → ∀ c ∈ s.list, (s.tasks c).pptr ≠ t ∧ (s.tasks c).opptr ≠ t := by
  have hgood : Good s := h.invariant (fun _ _ _ hi h1 => step_good hi h1.1 h1.2) boot_good
  obtain ⟨kids, ht⟩ := hgood.tree
  refine ⟨⟨kids, fun t => ⟨ht.forest.nodup t, ht.mem t, ht.childAt_eq t, ?_⟩⟩, ?_⟩
  · intro j c hj
    exact (ht.forest.seg t).prev_eq hj
  · intro t hdone c hc
    have hvalid : Valid s c := .inr hc
    refine ⟨fun heq => (hgood.order.has c hvalid).1.2 (heq.symm ▸ hdone), fun heq => ?_⟩
    exact (hgood.order.original hvalid).2 (heq.symm ▸ hdone)

/-! ### Two runs -/

/-- The state after some operations that all happen. -/
def after (check : State → Op → Bool) (s : State) : List Op → Option State
  | [] => some s
  | o :: os =>
    if o.Allowed s ∧ check s o then (o.exec 8 s).bind fun s' => after check s' os else none

theorem run_after {check : State → Op → Bool} {step : State → Op → State → Prop} {os : List Op}
    (hstep : ∀ s o s', check s o → Step s o s' → step s o s') (h : after check s os = some s') :
    Run step s os s' := by
  induction os generalizing s with
  | nil =>
    cases h
    exact .nil _
  | cons o os ih =>
    rw [after] at h
    split at h
    next hok =>
      obtain ⟨s1, hexec, h1⟩ := Option.bind_eq_some_iff.mp h
      exact .cons (hstep _ _ _ hok.2 ⟨hok.1, 8, hexec⟩) (ih h1)
    · cases h

/-- A sufficient check of the condition, for at most eight children. -/
def quiet (s : State) : Op → Bool
  | .exitNotify cur =>
    (childAt s cur 8).isNone && (List.range 8).all fun j => (childAt s cur j).all fun p =>
      !decide (otherGroup cur p s) || (s.tasks p).osptr.isNone
  | .waitDone p => p ∈ s.list
  | _ => true

theorem childAt_none {t : TaskId} {k : Nat} (h : childAt s t k = none) (i : Nat) :
    childAt s t (k + i) = none := by
  induction i with
  | zero => exact h
  | succ i ih =>
    change (childAt s t (k + i)).bind _ = none
    rw [ih]
    rfl

theorem quiet_sound (h : quiet s o) : Quiet s o := by
  unfold quiet at h
  unfold Quiet
  split at h
  next cur =>
    rw [Bool.and_eq_true, Option.isNone_iff_eq_none, List.all_eq_true] at h
    intro j p hj hother
    rcases Nat.lt_or_ge j 8 with hlt | hge
    · have hp := h.2 j (List.mem_range.mpr hlt)
      simpa [hj, hother] using hp
    · obtain ⟨i, rfl⟩ := Nat.exists_eq_add_of_le hge
      rw [childAt_none h.1 i] at hj
      cases hj
  next p => exact of_decide_eq_true h
  · trivial

/-- A process makes a child. -/
def forks (p cur : TaskId) : List Op := [.forkStart p cur noFlags, .forkLink ⟨p, cur, noFlags⟩]

def exits (cur : TaskId) : List Op := [.doExit cur, .forgetOriginalParent cur, .exitNotify cur]

/-- `init`, and a process with two children. -/
def parents : List Op :=
  forks 1 swapper ++ [.becomeReaper 1] ++ forks 2 1 ++ forks 3 2 ++ forks 4 2

/-- The process exits, and `init` has three children. -/
theorem family_well_formed_orphans : ∃ s, after quiet boot (parents ++ exits 2) = some s ∧
    ((s.tasks 2).stage = .done ∧ childAt s 1 0 = some 3 ∧ childAt s 1 1 = some 4 ∧
      childAt s 1 2 = some 2) ∧
    (∃ kids : TaskId → List TaskId, ∀ t,
      (kids t).Nodup ∧ (∀ c, c ∈ kids t ↔ c ∈ s.list ∧ (s.tasks c).pptr = t) ∧
      (∀ j, childAt s t j = (kids t)[j]?) ∧
      ∀ j c, (kids t)[j]? = some c →
        (s.tasks c).ysptr = if j = 0 then none else (kids t)[j - 1]?) ∧
    ∀ t, (s.tasks t).stage = .done → ∀ c ∈ s.list, (s.tasks c).pptr ≠ t ∧ (s.tasks c).opptr ≠ t := by
  have hfacts : (after quiet boot (parents ++ exits 2)).map (fun s => ((s.tasks 2).stage, childAt s 1 0,
      childAt s 1 1, childAt s 1 2)) = some (.done, some 3, some 4, some 2) := by
    decide +kernel
  obtain ⟨s, hs, heq⟩ := Option.map_eq_some_iff.mp hfacts
  refine ⟨s, hs, ?_, family_well_formed (run_after ?_ hs)⟩
  · simpa using heq
  · intro s o s' hcheck hstep
    exact ⟨quiet_sound hcheck, hstep⟩

/-- The younger child is in a group of its own, and the older one is left with it as
its younger sibling: `exit_notify` has dropped the lock. -/
theorem youngest_child_stale : ∃ s,
    Run Step boot (parents ++ [.setpgid 4 0 0 (some 4)] ++ exits 2) s ∧
      (s.tasks 2).cptr = some 3 ∧ (s.tasks 3).ysptr = some 4 ∧ (s.tasks 4).pptr = 1 := by
  have hfacts : (after (fun _ _ => true) boot (parents ++ [.setpgid 4 0 0 (some 4)] ++ exits 2)).map
      (fun s => ((s.tasks 2).cptr, (s.tasks 3).ysptr, (s.tasks 4).pptr)) = some (some 3, some 4, 1) := by
    decide +kernel
  obtain ⟨s, hs, heq⟩ := Option.map_eq_some_iff.mp hfacts
  refine ⟨s, run_after (fun _ _ _ _ hstep => hstep) hs, ?_⟩
  simpa using heq

end Steps

end CustomKernel.Proc.Family

import CustomKernel.Policy.Outcomes

/-! # The record arrays are accessed within their bounds

The block of a record array has `size * sizeof(struct forbidden_activity_info)`
bytes, a product that wraps at 32 bits, and a log of size 0 has no block at
all. As long as no request wraps and no refused call meets a log of size 0,
every access to a record array stays inside its block; either of the two
breaks it. -/
namespace CustomKernel.Policy.Bounds
open Lib.Ring Lib.Transition Function
open Policy.Heap Policy.Syscalls Policy.Log
open Policy.Effects Policy.Ownership Policy.Outcomes

/-- The call is refused at its gate and its record goes to `l`. -/
def Writes (k : Kernel) (c : Call) (l : LogArray) : Prop :=
  ∃ g p t, c.gate = some g ∧ k.pidhash g.cur = some p ∧ k.mem p = some (.task t) ∧
    TaskStruct.denied t g.reqLevel ∧ k.mem t.logArray = some (.log l)

/-- The call asks for `size` records of `l`. -/
def Reads (k : Kernel) (c : Call) (size : Int) (l : LogArray) : Prop :=
  ∃ pid a copied p t, c = .getProcessLog pid size a copied ∧ k.pidhash pid = some p ∧
    k.mem p = some (.task t) ∧ t.policyOn = 1 ∧ k.mem t.logArray = some (.log l)

theorem not_writes {k : Kernel} {c : Call} {l : LogArray} {C : Prop} (hg : c.gate = none)
    (h : Writes k c l) : C := by
  obtain ⟨g, _, _, hg', _⟩ := h
  rw [hg] at hg'
  cases hg'

theorem not_reads {k : Kernel} {c : Call} {size : Int} {l : LogArray} {C : Prop}
    (hc : ∀ pid a copied, c ≠ .getProcessLog pid size a copied) (h : Reads k c size l) : C := by
  obtain ⟨pid, a, copied, _, _, he, _⟩ := h
  exact absurd he (hc pid a copied)

/-- The size asked for fits its 32-bit product. -/
def NoWrap (size : Int) : Prop := size.toNat * sizeofInfo < 2 ^ 32

instance (size : Int) : Decidable (NoWrap size) := inferInstanceAs (Decidable (_ < _))

def Call.NoWrap (c : Call) : Prop :=
  ∀ pid size password m, c = .enablePolicy pid size password m → Bounds.NoWrap size

theorem inBlock_requestBytes {size i : Int} (h : NoWrap size) (h0 : 0 ≤ i) (hi : i < size) :
    inBlock (requestBytes size) i := by
  have hdiv : requestBytes size / sizeofInfo = size.toNat := by
    unfold requestBytes
    rw [Nat.mod_eq_of_lt h]
    exact Nat.mul_div_cancel _ (by decide)
  refine ⟨h0, ?_⟩
  omega

/-! ## The logs of a state -/

/-- A log of size 0 that nothing was written to. -/
def Idle (l : LogArray) : Prop :=
  l.size = 0 ∧ l.indexWrite = 0 ∧ l.indexRead = 0 ∧ l.full = 0

theorem Idle.commit {l : LogArray} (h : Idle l) : Idle (afterCommit (afterReads l 0) 0) := by
  obtain ⟨h1, _, _, _⟩ := h
  simp [Idle, afterCommit, afterReads, h1]

/-- A log with its record array, in a condition `P`. -/
structure InUse (P : LogArray → Prop) (k : Kernel) (l : LogArray) : Prop where
  pos : 0 < l.size
  nowrap : NoWrap l.size
  bytes : ∀ n e, k.mem l.array = some (.records n e) → n = requestBytes l.size
  holds : P l

def Logs (P : LogArray → Prop) (k : Kernel) : Prop :=
  ∀ a l, k.mem a = some (.log l) → Idle l ∨ InUse P k l

section Preserve
variable {P : LogArray → Prop} {k k' : Kernel} {c : Call} {r : Reply} {l : LogArray}
  {a p b : Addr}

theorem Logs.inUse (hl : Logs P k) (ha : k.mem a = some (.log l)) (h0 : l.size ≠ 0) :
    InUse P k l := by
  rcases hl a l ha with hi | hu
  · exact absurd hi.1 h0
  · exact hu

/-- Logs that stay, or are good on their own, and record arrays that keep
their length or are new. -/
theorem Logs.frame (hs : Sound k) (hl : Logs P k)
    (hlog : ∀ a l, k'.mem a = some (.log l) →
      k.mem a = some (.log l) ∨ Idle l ∨ InUse P k' l)
    (hrec : ∀ a n e, k'.mem a = some (.records n e) →
      k.mem a = none ∨ ∃ e', k.mem a = some (.records n e')) : Logs P k' := by
  intro a l ha
  rcases hlog a l ha with hold | hnew
  · rcases hl a l hold with hi | hu
    · exact .inl hi
    · refine .inr ⟨hu.pos, hu.nowrap, ?_, hu.holds⟩
      intro n e hr
      obtain ⟨n', e', hr'⟩ := hs.records hold (by have := hu.pos; omega)
      rcases hrec l.array n e hr with hfree | ⟨e'', hr''⟩
      · rw [hfree] at hr'; cases hr'
      · exact hu.bytes n e'' hr''
  · exact hnew

theorem Logs.of_mem (hl : Logs P k) (hm : k'.mem = k.mem) : Logs P k' := by
  intro a l ha
  rw [hm] at ha
  refine (hl a l ha).imp_right fun hu => ⟨hu.pos, hu.nowrap, ?_, hu.holds⟩
  rw [hm]
  exact hu.bytes

theorem Logs.set (hs : Sound k) (hl : Logs P k) {x : Block}
    (hlog : ∀ m, x = .log m → Idle m ∨ InUse P (k.set a x) m)
    (hrec : ∀ n e, x = .records n e → ∃ e', k.mem a = some (.records n e')) : Logs P (k.set a x) := by
  refine hl.frame hs ?_ ?_
  · intro b m hb
    rcases Kernel.mem_of_set hb with ⟨_, hx⟩ | ⟨_, hb⟩
    · exact .inr (hlog m hx)
    · exact .inl hb
  · intro b n e hb
    rcases Kernel.mem_of_set hb with ⟨rfl, hx⟩ | ⟨_, hb⟩
    · exact .inr (hrec n e hx)
    · exact .inr ⟨e, hb⟩

theorem Logs.setLog (hs : Sound k) (hl : Logs P k) {m : LogArray}
    (hsize : m.size = l.size) (harr : m.array = l.array)
    (h : Idle m ∨ (InUse P k l ∧ P m)) : Logs P (k.set a (.log m)) := by
  refine hl.set hs ?_ nofun
  rintro _ ⟨⟩
  refine h.imp_right fun ⟨hu, hP⟩ => ⟨hsize ▸ hu.pos, hsize ▸ hu.nowrap, ?_, hP⟩
  intro n e hr
  rcases Kernel.mem_of_set hr with ⟨_, hx⟩ | ⟨_, hr⟩
  · cases hx
  · rw [hsize]
    exact hu.bytes n e (harr ▸ hr)

theorem Logs.setTask (hs : Sound k) (hl : Logs P k) (t : TaskStruct) :
    Logs P (k.set p (.task t)) := hl.set hs nofun nofun

theorem Logs.setRecords (hs : Sound k) (hl : Logs P k) {n : Nat}
    {e e' : Int → ForbiddenActivityInfo} (ha : k.mem a = some (.records n e)) :
    Logs P (k.set a (.records n e')) := by
  refine hl.set hs nofun ?_
  rintro _ _ ⟨⟩
  exact ⟨e, ha⟩

theorem Logs.shrink (hs : Sound k) (hl : Logs P k)
    (h : ∀ a x, k'.mem a = some x → k.mem a = some x ∨ kind x = .task) : Logs P k' := by
  refine hl.frame hs ?_ ?_
  · intro a l ha
    rcases h a _ ha with hk | hk
    · exact .inl hk
    · cases hk
  · intro a n e ha
    rcases h a _ ha with hk | hk
    · exact .inr ⟨e, hk⟩
    · cases hk

/-- Freeing a log brings nothing new. -/
theorem mem_freeLog {x : Block} (h : (freeLog k a l).mem b = some x) : k.mem b = some x := by
  have h := Kernel.mem_of_unset h
  split at h
  · exact h
  · exact Kernel.mem_of_unset h

theorem mem_released {t : TaskStruct} {x : Block}
    (h : (released k p t l).mem b = some x) : k.mem b = some x := by
  have h := Kernel.mem_of_unset h
  split at h
  · exact h
  · exact mem_freeLog h

/-- A record that is stored, or lost, and the indices that move on. -/
theorem Logs.logged (hs : Sound k) (hl : Logs P k) {t : TaskStruct}
    (hm : k.mem t.logArray = some (.log l)) (h0 : l.size ≠ 0) (hP : P l → P (afterWrite l))
    (rec : ForbiddenActivityInfo) : Logs P (Effects.logged k t l rec) := by
  obtain ⟨k1, fs, hrun, _, hk1⟩ := run_storeElem_spec l.array l.indexWrite rec
  have h1 : Sound k1 ∧ Logs P k1 ∧ k1.mem t.logArray = some (.log l) := by
    rcases hk1 with ⟨rfl, _⟩ | ⟨n, e, hr, _, _, rfl⟩
    · exact ⟨hs, hl, hm⟩
    · exact ⟨hs.setRecords hr, hl.setRecords hs hr, by simp [k.ne_of_mem hm hr (by simp), hm]⟩
  obtain ⟨hs1, hl1, hm1⟩ := h1
  have hu := hl1.inUse hm1 h0
  unfold Effects.logged
  rw [hrun]
  have h2 := hl1.setLog hs1 (a := t.logArray) (l := l) (m := afterWrite l) rfl rfl
    (.inr ⟨hu, hP hu.holds⟩)
  exact h2.of_mem rfl

/-- What one step does to the logs, for any condition that a fresh log meets
and that the write or the read of this step keeps. -/
theorem outcome_logs (hs : Sound k) (hl : Logs P k) (h : Outcome k c r k') (hw : Call.NoWrap c)
    (hfresh : ∀ size a, 0 < size → P (freshLog size a))
    (hwrite : ∀ l, Writes k c l → l.size ≠ 0 ∧ (P l → P (afterWrite l)))
    (hread : ∀ size l, Reads k c size l → 0 ≤ size → tooFewRecords l size = false →
      size ≤ l.size → P l → P (afterCommit (afterReads l size.toNat) size)) : Logs P k' := by
  cases h with
  | noTarget _ _ | noCaller _ _ | enableRefused _ _ _ | disableRefused _ _ _ | levelRefused _ _ _
  | readRefused _ _ _ | readNoMem _ _ _ _ _ | passed _ _ _ _ => exact hl
  | enableNoMem a hp ht hc hm => exact hl.setTask hs _
  | @enabledEmpty pid password m p t hp ht hc hm =>
    refine hl.frame hs ?_ ?_
    · intro b x hb
      rcases Kernel.mem_of_set hb with ⟨_, hx⟩ | ⟨_, hb⟩
      · cases hx
        exact .inr (.inl ⟨rfl, rfl, rfl, rfl⟩)
      · rcases Kernel.mem_of_set hb with ⟨_, hx⟩ | ⟨_, hb⟩
        · cases hx
        · exact .inl hb
    · intro b n e hb
      rcases Kernel.mem_of_set hb with ⟨_, hx⟩ | ⟨_, hb⟩
      · cases hx
      · rcases Kernel.mem_of_set hb with ⟨_, hx⟩ | ⟨_, hb⟩
        · cases hx
        · exact .inr ⟨e, hb⟩
  | @enabled pid size password m p t hp ht hc h0 hm =>
    refine hl.frame hs ?_ ?_
    · intro b x hb
      rcases Kernel.mem_of_set hb with ⟨_, hx⟩ | ⟨_, hb⟩
      · cases hx
      · rcases Kernel.mem_of_set hb with ⟨_, hx⟩ | ⟨_, hb⟩
        · cases hx
          refine .inr (.inr ⟨h0, hw pid size password m rfl, ?_, hfresh size _ h0⟩)
          intro n e hr
          simp only [freshLog, Kernel.set_mem, update_self, Option.some.injEq,
            Block.records.injEq] at hr
          exact hr.1.symm
        · rcases Kernel.mem_of_set hb with ⟨_, hx⟩ | ⟨_, hb⟩
          · cases hx
          · exact .inl hb
    · intro b n e hb
      rcases Kernel.mem_of_set hb with ⟨rfl, _⟩ | ⟨_, hb⟩
      · exact .inl (hm.2 (by omega)).1.2
      · rcases Kernel.mem_of_set hb with ⟨_, hx⟩ | ⟨_, hb⟩
        · cases hx
        · rcases Kernel.mem_of_set hb with ⟨_, hx⟩ | ⟨_, hb⟩
          · cases hx
          · exact .inr ⟨e, hb⟩
  | @disabled pid p t l hp ht hon hm =>
    refine hl.shrink hs fun a x ha => ?_
    rcases Kernel.mem_of_set (mem_freeLog ha) with ⟨_, rfl⟩ | ⟨_, hx⟩
    · exact .inr rfl
    · exact .inl hx
  | levelSet hp ht hon hlo hhi => exact hl.setTask hs _
  | readFailed hp ht hm hc hfs hhit => exact hl.of_mem rfl
  | @read pid size a p t l data fs hp ht hm hc hfs hhit =>
    have hon : t.policyOn = 1 := (hs.flag ht).resolve_left hc.1
    have hsz : 0 ≤ size ∧ size ≤ l.size := by have := hc.2.1; omega
    refine (hl.setLog hs (l := l)
      (by simp) (by simp) ?_).of_mem rfl
    rcases hl _ l hm with hi | hu
    · have hs0 : size = 0 := by have := hi.1; omega
      subst hs0
      exact .inl hi.commit
    · exact .inr ⟨hu, hread size l ⟨pid, a, true, p, t, rfl, hp, ht, hon, hm⟩ hsz.1 hc.2.2
        hsz.2 hu.holds⟩
  | @denied c g p t l hg hp ht hm hd =>
    obtain ⟨h0, hP⟩ := hwrite l ⟨g, p, t, hg, hp, ht, hd, hm⟩
    exact hl.logged hs hm h0 hP _
  | @forked cur jiffies flags child pid p t hp ht hd hc hpid =>
    exact (hl.setTask hs (childTask pid)).of_mem rfl
  | reaped hp ht hd hq hne ht' hm => exact hl.shrink hs fun a x ha => .inl (mem_released ha)

end Preserve

/-! ## Runs -/

/-- What keeps a step inside the arrays: no request wraps, and no refused call
meets a log of size 0. -/
def StaysInside (k : Kernel) (e : Call × Reply) : Prop :=
  Call.NoWrap e.1 ∧ ∀ l, Writes k e.1 l → l.size ≠ 0

section Clean
variable {k k' : Kernel} {c : Call} {r : Reply} {l : LogArray} {a : Addr}

theorem InUse.hits {P : LogArray → Prop} {m : Nat} {e : Int → ForbiddenActivityInfo}
    (hu : InUse P k l) (hin : InRange l) (hr : k.mem l.array = some (.records m e)) (n : Nat) :
    Hits k l n e := by
  intro i _
  obtain ⟨h1, h2⟩ := iterate_next_bounds hin.read_nonneg hin.read_lt i
  exact ⟨m, hr, hu.bytes m e hr ▸ inBlock_requestBytes hu.nowrap h1 h2⟩

theorem InUse.inBlock_write {P : LogArray → Prop} {m : Nat} {e : Int → ForbiddenActivityInfo}
    (hu : InUse P k l) (hin : InRange l) (hr : k.mem l.array = some (.records m e)) :
    inBlock m l.indexWrite :=
  hu.bytes m e hr ▸ inBlock_requestBytes hu.nowrap hin.write_nonneg hin.write_lt

theorem Logs.hits (hs : Sound k) (hl : Logs InRange k) (ha : k.mem a = some (.log l)) {n : Nat}
    (hn : (n : Int) ≤ l.size) : ∃ e, Hits k l n e := by
  by_cases h0 : l.size = 0
  · refine ⟨fun _ => default, ?_⟩
    intro i hi
    omega
  · obtain ⟨m, e, hr⟩ := hs.records ha h0
    have hu := hl.inUse ha h0
    exact ⟨e, hu.hits hu.holds hr n⟩

theorem outcome_clean (hs : Sound k) (hl : Logs InRange k) (h : Outcome k c r k')
    (hwrite : ∀ l, Writes k c l → l.size ≠ 0) : k'.faults = k.faults := by
  cases h with
  | noTarget _ _ | noCaller _ _ | enableRefused _ _ _ | disableRefused _ _ _ | levelRefused _ _ _
  | readRefused _ _ _ | readNoMem _ _ _ _ _ | passed _ _ _ _ | enableNoMem _ _ _ _ _
  | enabledEmpty _ _ _ _ | enabled _ _ _ _ _ | levelSet _ _ _ _ _ | forked _ _ _ _ _ => rfl
  | disabled hp ht hon hm => exact faults_freeLog _
  | @readFailed _ size _ _ _ _ _ hp ht hm hc hfs hhit =>
    have hsz := hc.2.1
    obtain ⟨e, he⟩ := hl.hits hs hm (n := size.toNat) (by omega)
    rw [hhit e he]; rfl
  | @read _ size _ _ _ _ _ _ hp ht hm hc hfs hhit =>
    have hsz := hc.2.1
    obtain ⟨e, he⟩ := hl.hits hs hm (n := size.toNat) (by omega)
    rw [(hhit e he).2]; rfl
  | @denied c g p t l hg hp ht hm hd =>
    have h0 := hwrite l ⟨g, p, t, hg, hp, ht, hd, hm⟩
    obtain ⟨n, e, hr⟩ := hs.records hm h0
    have hu := hl.inUse hm h0
    rw [logged_of_inBlock hr (hu.inBlock_write hu.holds hr)]
    rfl
  | reaped hp ht hd hq hne ht' hm => exact faults_released

theorem step_inside {e : Call × Reply} (hs : Sound k) (hl : Logs InRange k)
    (h : Meeting StaysInside Step k e k') :
    Sound k' ∧ Logs InRange k' ∧ k'.faults = k.faults := by
  obtain ⟨⟨hw, hwrite⟩, hstep⟩ := h
  have ho := step_outcome hs hstep
  refine ⟨(outcome_sound hs ho).1, ?_, outcome_clean hs hl ho hwrite⟩
  refine outcome_logs hs hl ho hw ?_ ?_ ?_
  · intro size a h0
    exact (freshLog_consistent h0 a).toInRange
  · intro l hwl
    exact ⟨hwrite l hwl, InRange.afterWrite⟩
  · intro size l _ _ _ _ hr
    exact (hr.afterReads _).afterCommit _

end Clean

theorem boot_logs {k : Kernel} (hb : Boot k) (P : LogArray → Prop) : Logs P k := by
  intro a l ha
  obtain ⟨t, ht, _⟩ := hb.tasks a _ ha
  cases ht

/-- The calls that set up a process with a log of the given size and level 0,
and one that it is then refused. -/
def refusedOnce (size : Int) : List Call :=
  [.enablePolicy 2 size policyPassword ⟨3, default, 4, fun _ => default⟩,
    .setProcessCapabilities 2 0 policyPassword, .schedYield 2 100]

/-- In every state that is reached by steps that stay inside, the indices of
every log are within the block of its array, the block being as long as was
asked for, and no access so far has been outside. -/
theorem array_accesses_in_bounds {k k' : Kernel} {es : List (Call × Reply)} (hb : Boot k)
    (h : Run (Meeting StaysInside Step) k es k') :
    (∀ a l, k'.mem a = some (.log l) → l.size ≠ 0 → ∃ elem,
      k'.mem l.array = some (.records (requestBytes l.size) elem) ∧
      inBlock (requestBytes l.size) l.indexWrite ∧
      ∀ i, inBlock (requestBytes l.size) ((next l.size)^[i] l.indexRead)) ∧
    Fault.outOfBounds ∉ k'.faults ∧ Fault.freedArray ∉ k'.faults := by
  have hinv : Sound k' ∧ Logs InRange k' ∧ k'.faults = [] := by
    refine h.invariant (I := fun k => Sound k ∧ Logs InRange k ∧ k.faults = []) ?_
      ⟨hb.sound, boot_logs hb InRange, hb.clean⟩
    intro k e k' ⟨hs, hl, hf⟩ hstep
    obtain ⟨hs', hl', hf'⟩ := step_inside hs hl hstep
    exact ⟨hs', hl', hf'.trans hf⟩
  obtain ⟨hs, hl, hf⟩ := hinv
  refine ⟨?_, by simp [hf], by simp [hf]⟩
  intro a l ha h0
  obtain ⟨n, elem, hr⟩ := hs.records ha h0
  have hu := hl.inUse ha h0
  have hn := hu.bytes n elem hr
  refine ⟨elem, hn ▸ hr, hn ▸ hu.inBlock_write hu.holds hr, ?_⟩
  intro i
  obtain ⟨h1, h2⟩ := iterate_next_bounds hu.holds.read_nonneg hu.holds.read_lt i
  exact inBlock_requestBytes hu.nowrap h1 h2

/-- A restricted process with a log of four records. -/
theorem array_accesses_in_bounds_four :
    Boot twoTasks ∧ (trace twoTasks (refusedOnce 4)).2.mem 3 =
      some (.log { freshLog 4 4 with indexWrite := 1 }) ∧
    Fault.outOfBounds ∉ (trace twoTasks (refusedOnce 4)).2.faults := by
  suffices h : Run (Meeting StaysInside Step) twoTasks (trace twoTasks (refusedOnce 4)).1
      (trace twoTasks (refusedOnce 4)).2 from
    ⟨twoTasks_boot, rfl, (array_accesses_in_bounds twoTasks_boot h).2.1⟩
  refine .cons ⟨⟨?_, fun l => not_writes rfl⟩, rfl⟩
    (.cons ⟨⟨nofun, fun l => not_writes rfl⟩, rfl⟩ (.cons ⟨⟨nofun, ?_⟩, rfl⟩ (.nil _)))
  · intro _ _ _ _ he
    cases he
    decide
  · intro l ⟨g, p, t, hg, hp, ht, _, hl⟩
    cases hg; cases hp; cases ht; cases hl
    decide

/-- A refused call stores past the block when the log has size 0, and when the
size wraps: 357913942 * 12 is 8 modulo 2^32. -/
theorem array_accesses_outside :
    Boot twoTasks ∧
    Fault.freedArray ∈ (trace twoTasks (refusedOnce 0)).2.faults ∧
    Fault.outOfBounds ∈ (trace twoTasks (refusedOnce 357913942)).2.faults :=
  ⟨twoTasks_boot, by decide, by decide⟩

end CustomKernel.Policy.Bounds

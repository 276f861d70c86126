import CustomKernel.Ipc.SemInv

/-! # Sleepers that could go on

A pass over the queue does operations for a sleeper only if they lower no value. If such
operations only wait for zero, a pass changes no value, and when it ends, a sleeper that could
go on has been told so, or an earlier one has. A process that was told to try again makes a pass
itself before it leaves. -/
namespace CustomKernel.Ipc.Sem
open Semop Function

/-! ## Operations -/

/-- Operations that raise a value and lower none do not wait for zero. -/
def Sops.Plain (sops : Sops) : Prop :=
  sops.decreases = true ∨ (∀ sop ∈ sops.list, sop.semOp = 0) ∨ ∀ sop ∈ sops.list, 0 < sop.semOp

instance (sops : Sops) : Decidable sops.Plain := inferInstanceAs (Decidable (_ ∨ _ ∨ _))

structure Queue.Plain (q : Queue) : Prop where
  alter : q.alter = q.sops.decreases
  zero : q.alter = false → ∀ sop ∈ q.sops.list, sop.semOp = 0
  told : q.status = 1 → q.alter = true

section
variable {c c' : Cells} {sops : Sops} {un : Option Nat} {t : Nat} {doUndo : Bool}

theorem Cells.Fits.of_eq (h : c.Fits sops un) (hval : c'.semval = c.semval)
    (hadj : ∀ u, un = some u → c'.semadj u = c.semadj u) : c'.Fits sops un := by
  unfold Cells.Fits Cells.values at *
  rw [hval]
  cases un with
  | none => exact h
  | some u =>
    dsimp only
    rw [hadj u rfl]
    exact h

theorem applyAll_zero {sops : List Sembuf} (h : ∀ sop ∈ sops, sop.semOp = 0) (v : Semop.Values) :
    applyAll sops v = v := by
  induction sops generalizing v with
  | nil => rfl
  | cons sop sops ih =>
    rw [List.forall_mem_cons] at h
    have hsame : v.apply sop = v := by simp [Semop.Values.apply, h.1]
    exact (ih h.2 _).trans hsame

/-- An attempt that only waits for zero, or does not fit, or is undone changes no value. -/
theorem Cells.after_same (hc : c.InRange) (t : Nat)
    (h : (∀ sop ∈ sops.list, sop.semOp = 0) ∨ c.result t sops un doUndo ≠ 0 ∨ doUndo = true) :
    (c.after t sops un doUndo).semval = c.semval ∧ (c.after t sops un doUndo).semadj = c.semadj := by
  rcases Cells.attempt_cases hc t sops un doUndo with ⟨-, rfl, hresult, hval, hadj⟩ | hsame
  · have hzero := h.resolve_right fun h => h.elim (· hresult) Bool.false_ne_true
    rw [hval, applyAll_zero hzero]
    refine ⟨by cases un <;> rfl, funext fun u => ?_⟩
    rw [hadj, applyAll_zero hzero]
    split
    · next heq => rw [heq]; rfl
    · rfl
  · exact hsame.2.2

theorem Cells.result_eq_zero (hc : c.InRange) : c.result t sops un doUndo = 0 ↔ c.Fits sops un := by
  rcases Cells.attempt_cases hc t sops un doUndo with ⟨hfits, -, hresult, -⟩ | h
  · exact iff_of_true hresult hfits
  · exact h.1

theorem Cells.InRange.of_same (hc : c.InRange) (h : c'.semval = c.semval ∧ c'.semadj = c.semadj) :
    c'.InRange :=
  ⟨h.1 ▸ hc.semval, h.2 ▸ hc.semadj⟩

theorem scan_raises (pid : BitVec 32) (done : List Sembuf) {sops : List Sembuf} {s : Semop.State}
    (hops : ∀ sop ∈ sops, 0 < sop.semOp ∧ sop.InRange)
    (hs : ∀ n, 0 ≤ s.semval n ∧ s.semval n < 2 ^ 31 - 2 ^ 15) {result : Int} {done' : List Sembuf}
    {s' : Semop.State} (h : scan pid done sops s = .stops result done' s') : result ≤ 0 := by
  induction sops generalizing s done with
  | nil => cases h
  | cons sop sops ih =>
    rw [List.forall_mem_cons] at hops
    obtain ⟨⟨hpos, -, hlt⟩, hops⟩ := hops
    have hval := hs sop.semNum
    have hsum : int32 (s.semval sop.semNum + sop.semOp) = s.semval sop.semNum + sop.semOp :=
      int32_eq ⟨by omega, by omega⟩
    have hnext : (s.applied pid sop).semval =
        update s.semval sop.semNum (s.semval sop.semNum + sop.semOp) := by
      rw [State.applied_values, ← hsum]
      unfold Semop.Values.applied
      split <;> rfl
    have hself : (s.applied pid sop).semval sop.semNum = s.semval sop.semNum + sop.semOp := by
      rw [hnext, update_self]
    rw [scan, if_neg fun hzero => hpos.ne' hzero.1] at h
    dsimp only at h
    split at h
    · cases h
      decide
    · change (if (s.applied pid sop).semval sop.semNum < 0 then _ else if (s.applied pid sop).semval
        sop.semNum > semvmx then _ else scan pid (sop :: done) sops (s.applied pid sop)) = _ at h
      rw [hself, if_neg (by omega)] at h
      split at h
      · cases h
        decide
      · next hle =>
        refine ih (sop :: done) hops (fun n => ?_) h
        unfold semvmx at hle
        rw [hnext]
        grind

theorem Cells.result_raises (hc : c.InRange) (h : ∀ sop ∈ sops.list, 0 < sop.semOp) :
    c.result t sops un doUndo ≤ 0 := by
  unfold Cells.result tryAtomicSemop
  split
  · split <;> rfl
  · next hstops =>
    refine scan_raises _ _ (fun sop hsop => ⟨h sop hsop, sops.inRange sop hsop⟩) (fun n => ?_) hstops
    have hn := hc.semval n
    cases un <;> exact hn

/-- Who sleeps, and lowers no value, waits for zero. -/
theorem Sops.Plain.zero (h : sops.Plain) (hc : c.InRange) (hblocks : ¬ c.result t sops un doUndo ≤ 0)
    (hdec : sops.decreases = false) : ∀ sop ∈ sops.list, sop.semOp = 0 :=
  (h.resolve_left (by simp [hdec])).resolve_right fun hraises =>
    hblocks (Cells.result_raises hc hraises)

end

/-! ## A pass -/

/-- If a sleeper could go on, one that could go on has been told. -/
def Told (qs : List Queue) (c : Cells) : Prop :=
  ∀ q ∈ qs, q.status ≠ 1 → c.Fits q.sops q.undo →
    ∃ w ∈ qs, w.status = 1 ∧ w.alter = true ∧ c.Fits w.sops w.undo

theorem Told.of_eq {qs : List Queue} {c c' : Cells} (h : Told qs c) (hval : c'.semval = c.semval)
    (hadj : ∀ q ∈ qs, ∀ u, q.undo = some u → c'.semadj u = c.semadj u) : Told qs c' := by
  intro q hq hstatus hfits
  obtain ⟨w, hw, hone, halter, hfits'⟩ :=
    h q hq hstatus (hfits.of_eq hval.symm fun u hu => (hadj q hq u hu).symm)
  exact ⟨w, hw, hone, halter, hfits'.of_eq hval (hadj w hw)⟩

/-- The pass has changed no value. -/
structure Settles (c : Cells) (p : Pass) : Prop where
  semval : p.cells.semval = c.semval
  semadj : p.cells.semadj = c.semadj
  told : Told p.pending c

theorem Settles.of_same {c c' : Cells} {p : Pass}
    (hsame : c'.semval = c.semval ∧ c'.semadj = c.semadj) (h : Settles c' p) : Settles c p :=
  ⟨h.semval.trans hsame.1, h.semadj.trans hsame.2,
    h.told.of_eq hsame.1.symm fun _ _ u _ => by rw [hsame.2]⟩

theorem Told.cons {qs : List Queue} {c : Cells} {q : Queue} (h : Told qs c)
    (hq : q.status = 1 ∨ ¬ c.Fits q.sops q.undo) : Told (q :: qs) c := by
  intro q' hq' hstatus hfits
  rcases List.mem_cons.mp hq' with rfl | hq'
  · exact (hq.elim hstatus (· hfits)).elim
  · obtain ⟨w, hw, htold⟩ := h q' hq' hstatus hfits
    exact ⟨w, List.mem_cons_of_mem _ hw, htold⟩

theorem updateQueue_settles {lid : Nat} {qs : List Queue} {c : Cells} {log : List Entry}
    (hc : c.InRange) (hplain : ∀ q ∈ qs, q.Plain) : Settles c (updateQueue lid qs c log) := by
  fun_induction updateQueue lid qs c log with
  | case1 => exact ⟨rfl, rfl, fun q hq => absurd hq List.not_mem_nil⟩
  | case2 q rest c log hone ih =>
    have hrest := ih hc fun q hq => hplain q (List.mem_cons_of_mem _ hq)
    exact ⟨hrest.semval, hrest.semadj, hrest.told.cons (.inl hone)⟩
  | case3 q rest c log result c' _ _ hzero =>
    have hsame : c'.semval = c.semval ∧ c'.semadj = c.semadj :=
      Cells.after_same hc _ (.inr (.inr hzero.2))
    refine ⟨hsame.1, hsame.2, fun _ _ _ _ => ⟨_, List.mem_cons_self, rfl, hzero.2, ?_⟩⟩
    exact (Cells.result_eq_zero hc).mp hzero.1
  | case4 q rest c log result c' _ hle hzero ih =>
    rw [List.forall_mem_cons] at hplain
    have hsame : c'.semval = c.semval ∧ c'.semadj = c.semadj := by
      refine Cells.after_same hc _ ?_
      by_cases h0 : result = 0
      · exact .inl (hplain.1.zero (by simpa [h0] using hzero))
      · exact .inr (.inl h0)
    have hrest := (ih (hc.of_same hsame) hplain.2).of_same hsame
    exact ⟨hrest.semval, hrest.semadj, hrest.told⟩
  | case5 q rest c log result c' _ hle ih =>
    rw [List.forall_mem_cons] at hplain
    have hne : result ≠ 0 := fun h0 => hle h0.le
    have hsame : c'.semval = c.semval ∧ c'.semadj = c.semadj :=
      Cells.after_same hc _ (.inr (.inl hne))
    have hrest := (ih (hc.of_same hsame) hplain.2).of_same hsame
    exact ⟨hrest.semval, hrest.semadj,
      hrest.told.cons (.inr fun hfits => hne ((Cells.result_eq_zero hc).mpr hfits))⟩

/-! ## States -/

/-- At every set, but for `x`, sleepers that could go on are taken care of. -/
structure State.Calm (x : Option Nat) (s : State) : Prop where
  plain : ∀ lid, ∀ q ∈ s.pending lid, q.Plain
  allocating : ∀ t id addr nsems sops, s.place t = .allocating id addr nsems sops → sops.Plain
  told : ∀ lid, some lid ≠ x → Told (s.pending lid) (s.cells lid)

section
variable {s s' : State} {x : Option Nat} {lid t : Nat}

theorem State.Calm.fill (h : s.Calm (some lid)) (htold : Told (s.pending lid) (s.cells lid)) :
    s.Calm none := by
  refine ⟨h.plain, h.allocating, fun lid' _ => ?_⟩
  rcases eq_or_ne lid' lid with rfl | hne
  · exact htold
  · exact h.told lid' fun heq => hne (Option.some.inj heq)

theorem State.Calm.but (h : s.Calm none) : s.Calm (some lid) :=
  ⟨h.plain, h.allocating, fun lid' _ => h.told lid' nofun⟩

theorem State.Calm.same (h : s.Calm x) (hpending : s'.pending = s.pending)
    (hplace : ∀ t, s'.place t = s.place t ∨ Idle (s'.place t)) (hval : s'.semval = s.semval)
    (hadj : s'.semadj = s.semadj) : s'.Calm x := by
  refine ⟨hpending ▸ h.plain, fun t id addr nsems sops hp => ?_, fun lid hne => ?_⟩
  · rcases hplace t with heq | hidle
    · exact h.allocating t id addr nsems sops (heq ▸ hp)
    · rw [hp] at hidle
      exact hidle.elim
  · unfold State.cells
    rw [hpending, hval, hadj]
    exact (h.told lid hne).of_eq rfl fun _ _ _ _ => rfl

theorem State.Calm.move (h : s.Calm x) {p : Place}
    (hp : ∀ id addr nsems sops, p = .allocating id addr nsems sops → sops.Plain) :
    (s.setPlace t p).Calm x := by
  refine { h with allocating := fun t' id addr nsems sops heq => ?_ }
  rcases eq_or_ne t' t with rfl | hne
  · exact hp id addr nsems sops ((update_self (β := fun _ => Place) ..).symm.trans heq)
  · exact h.allocating t' id addr nsems sops ((update_of_ne hne _ _).symm.trans heq)

theorem State.Calm.setPlace (h : s.Calm x) {p : Place} (hp : Idle p) : (s.setPlace t p).Calm x :=
  h.move fun _ _ _ _ heq => absurd hp (by rw [heq]; exact id)

theorem State.Calm.leave (h : s.Calm x) (t : Nat) (error : Int) : (s.leave t error).Calm x :=
  (h.setPlace (t := t) (p := .user) trivial).same rfl (fun _ => .inl rfl) rfl rfl

/-- The values of a set are changed, and adjustments of its records. -/
theorem State.Calm.change (hl : s.Linked) (h : s.Calm (some lid)) (hpending : s'.pending = s.pending)
    (hplace : s'.place = s.place) (hval : ∀ lid' ≠ lid, s'.semval lid' = s.semval lid')
    (hadj : ∀ u, s'.semadj u = s.semadj u ∨ ∃ id, s.semid u = some id ∧ lidOf id = lid) :
    s'.Calm (some lid) := by
  refine ⟨hpending ▸ h.plain, hplace ▸ h.allocating, fun lid' hne => ?_⟩
  have htold := h.told lid' hne
  have hne : lid' ≠ lid := fun heq => hne (congrArg some heq)
  rw [hpending]
  refine htold.of_eq (hval lid' hne) fun q hq u hu => (hadj u).resolve_right ?_
  intro ⟨id, hid, hlid⟩
  obtain ⟨-, ⟨hd, hset, hq⟩, hun⟩ := hl.queue lid' q hq
  rw [hu] at hun
  rw [hun.2, Option.some.injEq, hq] at hid
  exact hne (by rw [← hlid, ← hid, lidOf_buildid (hl.lid lid' hd hset)])

theorem State.Calm.pass (h : s.Calm (some lid)) (hc : (s.cells lid).InRange) :
    (s.pass lid).Calm none := by
  have hpass : Settles (s.cells lid) (updateQueue lid (s.pending lid) (s.cells lid) s.log) :=
    updateQueue_settles hc (h.plain lid)
  have hval : (s.pass lid).semval = s.semval := update_eq_self_iff.mpr hpass.semval
  have hcells lid' : (s.pass lid).cells lid' = ⟨s.semval lid', (s.pass lid).sempid lid', s.semadj⟩ := by
    rw [State.cells, hval, show (s.pass lid).semadj = s.semadj from hpass.semadj]
  refine ⟨fun lid' q hq => ?_, fun t id addr nsems sops hp => ?_, fun lid' _ => ?_⟩
  · obtain ⟨q₀, hq₀, hsame⟩ := State.mem_pass hq
    have hplain := h.plain lid' q₀ hq₀
    rcases hsame with rfl | ⟨halter, rfl⟩
    · exact hplain
    · exact ⟨hplain.alter, hplain.zero, fun _ => halter⟩
  · refine h.allocating t id addr nsems sops ((wake_idle _ s.place t).elim (·.symm.trans hp) fun hi => ?_)
    exact (hp ▸ hi : Idle (.allocating id addr nsems sops)).elim
  · rw [hcells]
    rcases eq_or_ne lid' lid with rfl | hne
    · rw [State.pass_pending, update_self]
      exact hpass.told.of_eq rfl fun _ _ _ _ => rfl
    · rw [State.pass_pending, update_of_ne hne]
      exact (h.told lid' fun heq => hne (Option.some.inj heq)).of_eq rfl fun _ _ _ _ => rfl

theorem State.Calm.setPending (h : s.Calm none) {qs : List Queue} (hqs : ∀ q ∈ qs, q.Plain) :
    (s.setPending lid qs).Calm (some lid) := by
  refine ⟨fun lid' q hq => ?_, h.allocating, fun lid' hne => ?_⟩
  · have := h.plain lid' q
    unfold State.setPending at hq
    grind
  · have hne : lid' ≠ lid := fun heq => hne (congrArg some heq)
    rw [show (s.setPending lid qs).pending lid' = s.pending lid' from update_of_ne hne _ _]
    exact h.told lid' nofun

theorem State.Calm.requeue (h : s.Calm none) {qs : List Queue} (hqs : ∀ q ∈ qs, q.Plain)
    (htold : Told qs (s.cells lid)) : (s.setPending lid qs).Calm none := by
  refine (h.setPending hqs).fill ?_
  rw [show (s.setPending lid qs).pending lid = qs from update_self ..]
  exact htold

theorem State.Calm.link (hl : s.Linked) (h : s.Calm none) (t id : Nat) : (s.link t id).Calm none := by
  refine ⟨h.plain, fun t' id' addr nsems sops hp => h.allocating t' id' addr nsems sops ?_,
    fun lid _ => (h.told lid nofun).of_eq rfl fun q hq u hu => update_of_ne ?_ _ _⟩
  · unfold State.link at hp
    grind
  · have hun := (hl.queue lid q hq).2.2
    rw [hu] at hun
    exact (hl.fresh _ u hun.1).ne

theorem State.Calm.freeary (h : s.Calm none) (lid : Nat) : (s.freeary lid).Calm none := by
  refine ⟨fun lid' q hq => ?_, fun t id addr nsems sops hp => ?_, fun lid' _ => ?_⟩
  · have := h.plain lid' q
    unfold State.freeary at hq
    grind
  · refine h.allocating t id addr nsems sops ((wake_idle _ s.place t).elim (·.symm.trans hp) fun hi => ?_)
    exact (hp ▸ hi : Idle (.allocating id addr nsems sops)).elim
  · rcases eq_or_ne lid' lid with rfl | hne
    · simp [State.freeary, Told]
    · rw [show (s.freeary lid).pending lid' = s.pending lid' from update_of_ne hne _ _]
      exact h.told lid' (by simp)

end

section
variable {qs : List Queue} {c : Cells} {q : Queue}

theorem Told.enqueue (h : Told qs c) (hq : ¬ c.Fits q.sops q.undo) : Told (enqueue q qs) c := by
  have hmem : ∀ q', q' ∈ Sem.enqueue q qs ↔ q' ∈ q :: qs := by
    intro q'
    unfold Sem.enqueue
    split
    · simp [or_comm]
    · rfl
  unfold Told
  simp only [hmem]
  exact h.cons (.inr hq)

theorem Told.remove (h : Told qs c) (hnd : (qs.map (·.sleeper)).Nodup) (hq : q ∈ qs)
    (hstatus : q.status ≠ 1) : Told (qs.filter (·.sleeper ≠ q.sleeper)) c := by
  intro q' hq' hstatus' hfits
  obtain ⟨w, hw, hone, htold⟩ := h q' (List.mem_of_mem_filter hq') hstatus' hfits
  refine ⟨w, List.mem_filter.mpr ⟨hw, decide_eq_true fun heq => hstatus ?_⟩, hone, htold⟩
  rwa [← List.inj_on_of_nodup_map hnd hw hq heq]

theorem Told.again (h : Told qs c) (hnd : (qs.map (·.sleeper)).Nodup) (hq : q ∈ qs)
    (hno : ¬ c.Fits q.sops q.undo) : Told (qs.map fun q' =>
      if q'.sleeper = q.sleeper then { q' with status := -EINTR } else q') c := by
  have hsame : ∀ q' ∈ qs, q'.sleeper = q.sleeper → q' = q := fun q' hq' heq =>
    List.inj_on_of_nodup_map hnd hq' hq heq
  intro q' hq' hstatus hfits
  obtain ⟨q₀, hq₀, rfl⟩ := List.mem_map.mp hq'
  rcases eq_or_ne q₀.sleeper q.sleeper with heq | hne
  · obtain rfl := hsame q₀ hq₀ heq
    rw [if_pos rfl] at hfits
    exact absurd hfits hno
  · rw [if_neg hne] at hstatus hfits
    obtain ⟨w, hw, hone, halter, hfits'⟩ := h q₀ hq₀ hstatus hfits
    refine ⟨w, List.mem_map.mpr ⟨w, hw, if_neg fun heq => hno ?_⟩, hone, halter, hfits'⟩
    rwa [← hsame w hw heq]

end

end CustomKernel.Ipc.Sem

import CustomKernel.Ipc.SemWaiters

/-! # Runs of the semaphore sets

Every step keeps the links and the values, whatever property of the values is kept when a
process exits. So values stay in range where exits leave room, and a record always has to give
back what its process has done since the values were set. -/
namespace CustomKernel.Ipc.Sem
open Semop Function Lib.Transition

/-- `C` says that all operations were plain. -/
structure Good (P : Int → Prop) (C : Prop) (s : State) : Prop where
  linked : s.Linked
  valued : s.Valued P
  calm : C → s.Calm none

section
variable {P : Int → Prop} {C : Prop} {s s' : State} {t lid id : Nat} {hd : Head} {sops : Sops}
  {un : Option Nat}

theorem Good.setPlace (h : Good P C s) (hout : s.Out t) {p : Place} (hp : Idle p) :
    Good P C (s.setPlace t p) :=
  ⟨Links.setPlace h.linked hout hp, h.valued, fun hC => (h.calm hC).setPlace hp⟩

theorem Good.leave (h : Good P C s) (hout : s.Out t) (error : Int) : Good P C (s.leave t error) :=
  ⟨h.linked.leave hout error, { h.valued with owed := h.valued.owed, clear := h.valued.clear },
    fun hC => (h.calm hC).leave t error⟩

/-- The search keeps the records of sets and finds the one it looks for. -/
theorem findUndo_spec (ids : Nat → Option Nat) (id : Nat) (us : List Nat) :
    (findUndo ids id us).2.Sublist us ∧
    (∀ u ∈ us, u ∉ (findUndo ids id us).2 → ids u = none) ∧
    (∀ u, (findUndo ids id us).1 = some u → u ∈ (findUndo ids id us).2 ∧ ids u = some id) ∧
    ((findUndo ids id us).1 = none → ∀ u ∈ (findUndo ids id us).2, ids u ≠ some id) := by
  fun_induction findUndo ids id us with
  | case1 => simp
  | case2 => simp_all
  | case3 u us _ _ ih => exact ⟨ih.1.trans (List.sublist_cons_self u us), by grind⟩
  | case4 u us _ _ ih => exact ⟨ih.1.cons_cons u, by grind⟩

theorem Good.setUndo (h : Good P C s) {us : List Nat} (hsub : us.Sublist (s.semundo t))
    (hkeep : ∀ u ∈ s.semundo t, u ∉ us → s.semid u = none)
    (hplace : ∀ id, s.place t ≠ .exiting (some id)) : Good P C (s.setUndo t us) :=
  ⟨Links.setUndo h.linked hsub hkeep hplace, h.valued.setUndo hsub.subset hkeep,
    fun hC => (h.calm hC).same rfl (fun _ => .inl rfl) rfl rfl⟩

theorem eq_buildid (h : ¬ hd.checkid id = true) : id = buildid (lidOf id) hd.seq := by
  have hcheck : id / seqMultiplier = hd.seq := by simpa [Head.checkid] using h
  rw [buildid, lidOf, ← hcheck, Nat.div_add_mod]

theorem revalidate_ok {addr nsems : Nat} {permitted : Bool}
    (h : s.revalidate id addr nsems permitted = .ok hd) :
    s.sets (lidOf id) = some hd ∧ id = buildid (lidOf id) hd.seq ∧ hd.nsems = nsems := by
  unfold State.revalidate at h
  split at h
  · cases h
  next hd' hset =>
  split at h
  · cases h
  next hsame =>
  split at h
  · cases h
  cases h
  rw [not_or, not_or, not_not, not_not] at hsame
  exact ⟨hset, eq_buildid hsame.2.1, hsame.2.2⟩

section
variable (hP : ∀ x, 0 ≤ x → x ≤ semvmx → P x)
include hP

theorem good_pass (hl : s.Linked) (hv : s.Valued P) (hc : C → s.Calm (some lid)) :
    Good P C (s.pass lid) :=
  ⟨hl.pass lid, hv.pass hl hP lid, fun hC => (hc hC).pass (hv.inRange lid)⟩

theorem good_finish (hl : s.Linked) (hv : s.Valued P) (hc : C → s.Calm (some lid))
    (hzero : sops.alters = false → C → s.Calm none) (hout : s.Out t) (error : Int) :
    Good P C (s.finish t lid sops error) := by
  unfold State.finish
  split
  · exact (good_pass hP hl hv hc).leave (hout.pass lid) error
  · next halters => exact Good.leave ⟨hl, hv, hzero (by simpa using halters)⟩ hout error

omit hP in
theorem tried_semadj (hl : s.Linked) (hv : s.Valued P) (hset : s.sets lid = some hd)
    (hun : Undo s.semid s.semundo t (buildid lid hd.seq) sops un) (u : Nat) :
    (s.tried t lid sops un false).semadj u = s.semadj u ∨
      ∃ id, s.semid u = some id ∧ lidOf id = lid := by
  rcases Cells.attempt_cases (hv.inRange lid) t sops un false with ⟨-, -, -, -, hadj⟩ | hkept
  · refine (em (un = some u)).symm.imp (fun hne => (hadj u).trans (if_neg hne)) ?_
    rintro rfl
    exact ⟨_, hun.2, lidOf_buildid (hl.lid lid hd hset) hd.seq⟩
  · exact .inl (congrFun hkept.2.2.2 u)

theorem good_leaveWith (hl : s.Linked) (hv : s.Valued P) (hc : C → s.Calm (some lid))
    (hzero : sops.alters = false → C → s.Calm none) (hout : s.Out t) (hset : s.sets lid = some hd)
    (hun : Undo s.semid s.semundo t (buildid lid hd.seq) sops un) :
    Good P C (s.leaveWith t lid sops un) := by
  refine good_finish (s := s.tried t lid sops un false) hP hl (hv.tried hl hP hset hun false)
    (fun hC => ?_) (fun halters hC => ?_) hout _
  · exact (hc hC).change hl rfl rfl (fun lid' hne => update_of_ne hne _ _)
      fun u => tried_semadj hl hv hset hun u
  · have hsame : ((s.cells lid).after t sops un false).semval = _ ∧
        ((s.cells lid).after t sops un false).semadj = _ :=
      Cells.after_same (hv.inRange lid) t (.inl (by simpa [Sops.alters] using halters))
    exact (hzero halters hC).same rfl (fun _ => .inl rfl) (update_eq_self_iff.mpr hsame.1) hsame.2

section
variable (h : Good P C s)
include h

theorem Good.attempt (hout : s.Out t) (hset : s.sets (lidOf id) = some hd)
    (hid : id = buildid (lidOf id) hd.seq) (hun : Undo s.semid s.semundo t id sops un)
    (hplain : C → sops.Plain) : Good P C (s.attempt t id sops un) := by
  rw [hid] at hun
  unfold State.attempt
  dsimp only
  split
  · exact good_leaveWith hP h.linked h.valued (fun hC => (h.calm hC).but) (fun _ => h.calm) hout hset hun
  · next hblocked =>
    have htried := h.valued.tried h.linked hP hset hun false
    have hlog : (s.tried t (lidOf id) sops un false).log = s.log := by
      unfold State.tried done
      grind
    have hlinked := h.linked.enqueue hout hset hun sops.decreases
    rw [← hid] at hlinked
    unfold State.Valued at htried
    rw [hlog] at htried
    refine ⟨hlinked, htried, fun hC => ?_⟩
    have hc := h.valued.inRange (lidOf id)
    have hne : (s.cells (lidOf id)).result t sops un false ≠ 0 := fun h0 => hblocked h0.le
    have hsame := Cells.after_same hc t (.inr (.inl hne))
    have htold := ((h.calm hC).told (lidOf id) nofun).enqueue
      (q := ⟨t, id, sops, un, -EINTR, sops.decreases⟩) (fun hfits => hne ((Cells.result_eq_zero hc).mpr hfits))
    have hqueued := (h.calm hC).requeue (fun q hq => ?_) htold
    · exact (hqueued.setPlace (p := .asleep id) trivial).same rfl (fun _ => .inl rfl)
        (update_eq_self_iff.mpr hsame.1) hsame.2
    · have hold := (h.calm hC).plain (lidOf id) q
      have hnew : Queue.Plain ⟨t, id, sops, un, -EINTR, sops.decreases⟩ :=
        ⟨rfl, (hplain hC).zero hc hblocked, nofun⟩
      unfold enqueue at hq
      grind

theorem Good.semopWith (ht : t < pidMax) (hplace : s.place t = .user)
    (hset : s.sets (lidOf id) = some hd) (hid : id = buildid (lidOf id) hd.seq)
    (hplain : C → sops.Plain) : Good P C (s.semopWith t id hd sops) := by
  have hout : s.Out t := Links.not_queued h.linked (by simp [hplace])
  obtain ⟨hsub, hkeep, hsome, hnone⟩ := findUndo_spec s.semid id (s.semundo t)
  have hundo := h.setUndo hsub hkeep (by simp [hplace])
  have hmem : ∀ u, u ∈ (s.setUndo t (findUndo s.semid id (s.semundo t)).2).semundo t ↔
      u ∈ (findUndo s.semid id (s.semundo t)).2 := by simp [State.setUndo]
  unfold State.semopWith
  split
  · dsimp only
    split
    · next u hu =>
      exact hundo.attempt hP hout hset hid ⟨(hmem u).mpr (hsome u hu).1, (hsome u hu).2⟩
        hplain
    · next hu =>
      refine ⟨Links.move hundo.linked hout ?_ (by simp), hundo.valued, fun hC => (hundo.calm hC).move ?_⟩
      · rintro _ _ _ _ ⟨⟩
        exact ⟨ht, fun u hu' => hnone hu u ((hmem u).mp hu')⟩
      · rintro _ _ _ _ ⟨⟩
        exact hplain hC
  · next hno =>
    have hundo : ∀ sop ∈ sops.list, sop.undo = false := by simpa using hno
    exact h.attempt hP hout hset hid hundo hplain

theorem Good.sysSemop (ht : t < pidMax) (hplace : s.place t = .user) (id : Nat)
    (hplain : C → sops.Plain) (permitted : Bool) : Good P C (s.sysSemop t id sops permitted) := by
  have hout : s.Out t := Links.not_queued h.linked (by simp [hplace])
  unfold State.sysSemop
  split
  · exact h.leave hout _
  next hd hset =>
  split
  · exact h.leave hout _
  split
  · exact h.leave hout _
  next hcheck =>
  split
  · exact h.leave hout _
  split
  · exact h.leave hout _
  exact h.semopWith hP ht hplace hset (eq_buildid hcheck) hplain

theorem Good.allocUndo {addr nsems : Nat}
    (hplace : s.place t = .allocating id addr nsems sops) (allocated permitted : Bool) :
    Good P C (s.allocUndo t id addr nsems sops allocated permitted) := by
  have hout : s.Out t := Links.not_queued h.linked (by simp [hplace])
  unfold State.allocUndo
  split
  · exact h.leave hout _
  split
  · exact h.leave hout _
  next hd hok =>
  obtain ⟨hset, hid, -⟩ := revalidate_ok hok
  obtain ⟨ht, hnew⟩ := h.linked.allocating t id addr nsems sops hplace
  have hlink : Good P C (s.link t id) :=
    ⟨h.linked.link ht hset hid hnew hout, h.valued.link h.linked hset hid hnew,
      fun hC => (h.calm hC).link h.linked t id⟩
  refine hlink.attempt hP hout hset hid ⟨?_, ?_⟩ fun hC => (h.calm hC).allocating _ _ _ _ _ hplace
  all_goals simp [State.link]

theorem Good.resume {q : Queue} (hq : q ∈ s.pending lid) : Good P C (s.resume lid q) := by
  obtain ⟨-, ⟨hd, hset, hid⟩, hun⟩ := h.linked.queue lid q hq
  rw [hid] at hun
  have hnd := h.linked.sleepers lid
  have hleft : (s.setPending lid ((s.pending lid).filter (·.sleeper ≠ q.sleeper))).Linked :=
    h.linked.setPending (fun q' hq' => ⟨q', List.mem_of_mem_filter hq', rfl, rfl, rfl, rfl, rfl⟩)
      (hnd.sublist (List.filter_sublist.map _))
  have hplain (hC : C) : ∀ q' ∈ (s.pending lid).filter (·.sleeper ≠ q.sleeper), q'.Plain :=
    fun q' hq' => (h.calm hC).plain lid q' (List.mem_of_mem_filter hq')
  have hcalm (hC : C) : State.Calm (some lid) (s.setPending lid _) := (h.calm hC).setPending (hplain hC)
  have hout : (s.setPending lid ((s.pending lid).filter (·.sleeper ≠ q.sleeper))).Out q.sleeper := by
    intro lid' q' hq' heq
    have hsame : q' ∈ s.pending lid' → lid' = lid := fun hmem => h.linked.same_set hmem hq heq
    unfold State.setPending at hq'
    grind
  unfold State.resume
  split
  · split
    · refine good_leaveWith hP hleft h.valued hcalm (fun halters hC => ?_) hout hset hun
      -- who was told to try again lowers a value
      next hone _ =>
      have hplain := (h.calm hC).plain lid q hq
      have hdec := hplain.alter.symm.trans (hplain.told hone)
      unfold Sops.decreases Sops.alters at *
      grind
    · next hblocked =>
      have htried := h.valued.tried h.linked hP hset hun false
      have hlog : (s.tried q.sleeper lid q.sops q.undo false).log = s.log := by
        unfold State.tried done
        grind
      unfold State.Valued at htried
      rw [hlog] at htried
      refine ⟨h.linked.setPending (fun q' hq' => ?_) ?_, htried, fun hC => ?_⟩
      · obtain ⟨q₀, hq₀, rfl⟩ := List.mem_map.mp hq'
        exact ⟨q₀, hq₀, by split <;> exact ⟨rfl, rfl, rfl, rfl, rfl⟩⟩
      · rw [List.map_map]
        convert hnd using 2
        funext q'
        simp only [Function.comp_apply]
        split <;> rfl
      · have hc := h.valued.inRange lid
        have hne : (s.cells lid).result q.sleeper q.sops q.undo false ≠ 0 := fun h0 => hblocked h0.le
        have hsame := Cells.after_same hc q.sleeper (.inr (.inl hne))
        have htold := ((h.calm hC).told lid nofun).again hnd hq fun hfits =>
          hne ((Cells.result_eq_zero hc).mpr hfits)
        refine ((h.calm hC).requeue (fun q' hq' => ?_) htold).same rfl (fun _ => .inl rfl)
          (update_eq_self_iff.mpr hsame.1) hsame.2
        obtain ⟨q₀, hq₀, rfl⟩ := List.mem_map.mp hq'
        have hplain := (h.calm hC).plain lid q₀ hq₀
        split
        · exact ⟨hplain.alter, hplain.zero, nofun⟩
        · exact hplain
  · next hstatus =>
    exact good_finish hP hleft h.valued hcalm (fun _ hC => (h.calm hC).requeue (hplain hC)
      (((h.calm hC).told lid nofun).remove hnd hq hstatus)) hout q.status

theorem Good.setVals (lid : Nat) {lo hi : Nat} {vals : Nat → Int}
    (hvals : ∀ n, lo ≤ n → n < hi → 0 ≤ vals n ∧ vals n ≤ semvmx) :
    Good P C (s.setVals lid lo hi vals) := by
  refine good_pass hP ?_ (h.valued.set h.linked hP hvals) fun hC => ?_
  · exact h.linked
  · refine (h.calm hC).but.change h.linked rfl rfl (fun lid' hne => update_of_ne hne _ _) fun u => ?_
    refine (em (u ∈ s.undo lid)).symm.imp (fun hu => ?_) fun hu => ?_
    · funext n
      exact if_neg fun h => hu h.1
    · obtain ⟨-, hd, -, hset, hid⟩ := h.linked.record lid u hu
      exact ⟨_, hid, lidOf_buildid (h.linked.lid lid hd hset) hd.seq⟩

end

omit hP in
theorem State.Out.setVals (hout : s.Out t) (lid lo hi : Nat) (vals : Nat → Int) :
    (s.setVals lid lo hi vals).Out t := by
  refine State.Out.pass ?_ lid
  exact hout

theorem Good.semctlSetval (h : Good P C s) (hout : s.Out t) (id n : Nat) (val : Int)
    (permitted : Bool) : Good P C (s.semctlSetval t id n val permitted) := by
  unfold State.semctlSetval
  split
  · exact h.leave hout _
  split
  · exact h.leave hout _
  split
  · exact h.leave hout _
  split
  · exact h.leave hout _
  split
  · exact h.leave hout _
  next hval =>
  refine Good.leave (Good.setVals hP ?_ (lidOf id) fun _ _ _ => ?_) (State.Out.setVals ?_ _ _ _ _) 0
  · exact ⟨h.linked, h.valued, fun hC => (h.calm hC).same rfl (fun _ => .inl rfl) rfl rfl⟩
  · omega
  · exact hout

theorem Good.semctlSetall (h : Good P C s) (hout : s.Out t) (id addr nsems : Nat) (vals : Nat → Nat)
    (permitted : Bool) : Good P C (s.semctlSetall t id addr nsems vals permitted) := by
  unfold State.semctlSetall
  split
  · exact h.leave hout _
  next hvals =>
  split
  · exact h.leave hout _
  refine (h.setVals hP (lidOf id) fun n _ hn => ⟨Int.natCast_nonneg _, ?_⟩).leave
    (hout.setVals _ _ _ _) 0
  exact not_lt.mp fun hbig => hvals ⟨n, hn, hbig⟩

omit hP in
theorem update_wake (ws : List (Queue × Int)) (place : Nat → Place) (t : Nat) (p p' : Place) :
    update (wake ws (update place t p)) t p' = update (wake ws place) t p' := by
  funext t'
  rcases eq_or_ne t' t with rfl | hne
  · simp
  · simp [hne, wake]

omit hP in
/-- The record that an exiting process comes to is that of a set, which it is unlinked from, or
it is of no set any more. -/
theorem Good.exitRecord_cases (h : Good P C s) {u : Nat} {us : List Nat}
    (hplace : s.place t = .exiting (some id)) (hus : s.semundo t = u :: us) :
    (s.semid u = none ∧ s.exitRecord t id u = s) ∨
    ∃ hd, s.sets (lidOf id) = some hd ∧ s.semid u = some (buildid (lidOf id) hd.seq) ∧
      u ∈ s.undo (lidOf id) ∧
      s.exitRecord t id u = (s.applyUndo t (lidOf id) hd.nsems u).pass (lidOf id) := by
  obtain ⟨u', us', hus', hid⟩ := h.linked.exiting t id hplace
  rw [hus] at hus'
  obtain ⟨rfl, rfl⟩ := List.cons.inj hus'
  rcases hid with hid | hid
  · right
    have hin := h.linked.linked t u (hus ▸ List.mem_cons_self) id hid
    obtain ⟨-, hd, -, hset, hid'⟩ := h.linked.record (lidOf id) u hin
    refine ⟨hd, hset, hid', hin, ?_⟩
    have hcheck : hd.checkid id = false := by
      rw [hid, Option.some.injEq] at hid'
      have hlid := h.linked.lid _ hd hset
      rw [Head.checkid, hid', buildid, Nat.mul_add_div (by decide), Nat.div_eq_of_lt hlid]
      simp
    unfold State.exitRecord
    rw [hset, hid]
    exact if_pos ⟨hcheck, hin⟩
  · left
    refine ⟨hid, ?_⟩
    unfold State.exitRecord
    split <;> simp_all

/-- The record whose adjustments `op` makes, with its set. -/
def State.adjusts (s : State) : Op → Option (Nat × Head × Nat)
  | .exit t =>
    match s.place t, s.semundo t with
    | .exiting (some semid), u :: _ =>
      (s.sets (lidOf semid)).bind fun hd =>
        if u ∈ s.undo (lidOf semid) then some (lidOf semid, hd, u) else none
    | _, _ => none
  | _ => none

def Op.asked : Op → Option Sops
  | .semop _ _ sops _ => some sops
  | _ => none

/-- Only plain operations are asked for. -/
def PlainOp (_ : State) (op : Op) : Prop := ∀ sops ∈ op.asked, sops.Plain

instance (s : State) (op : Op) : Decidable (PlainOp s op) :=
  inferInstanceAs (Decidable (∀ sops ∈ op.asked, sops.Plain))

/-- What `op` adjusts keeps the property. -/
def Adjusts (P : Int → Prop) (s : State) (op : Op) : Prop :=
  ∀ r ∈ s.adjusts op, ∀ n < r.2.1.nsems, P (adjust (s.semval r.1 n) (s.semadj r.2.2 n))

theorem Good.exitStep (h : Good P C s) {read : Option Nat} (hplace : s.place t = .exiting read)
    (hadj : Adjusts P s (.exit t)) : Good P C (s.exitStep t read) := by
  have hout : s.Out t := Links.not_queued h.linked (by simp [hplace])
  have hread := h.setPlace hout (p := .exiting none) trivial
  have hdone : ∀ id, (s.setPlace t (.exiting none)).place t ≠ .exiting (some id) := by
    simp [State.setPlace]
  unfold State.exitStep
  split
  · exact h.setPlace hout trivial
  next u us hus =>
  have hsub : us.Sublist (s.semundo t) := hus ▸ List.sublist_cons_self u us
  have hkeep : s.semid u = none → ∀ u' ∈ s.semundo t, u' ∉ us → s.semid u' = none := by
    grind
  split
  · next id =>
    rcases h.exitRecord_cases hplace hus with ⟨hid, heq⟩ | ⟨hd, hset, hid, hin, heq⟩ <;> rw [heq]
    · exact hread.setUndo hsub (hkeep hid) hdone
    · have hrecord : s.adjusts (.exit t) = some (lidOf id, hd, u) := by
        simp [State.adjusts, hplace, hus, hset, hin]
      -- the record goes first, which the pass does not see
      have hlinked := hread.linked.applyUndo hus hset hin hdone hout
      have hpass := good_pass hP hlinked
        (hread.valued.applyUndo hread.linked hus hset hin (hadj (lidOf id, hd, u) hrecord)) fun hC =>
          (hread.calm hC).but.change hread.linked rfl rfl (fun lid' hne => update_of_ne hne _ _)
            fun u => .inl rfl
      have hout := State.Out.pass (s := State.applyUndo _ t (lidOf id) hd.nsems u) hout (lidOf id)
      have hplaced := hpass.setPlace hout (p := .exiting none) trivial
      have hlinked := hplaced.linked
      change Links _ _ _ _ _ _ (update (wake _ (update s.place t (.exiting none))) t _) at hlinked
      rw [update_wake] at hlinked
      refine ⟨hlinked, hpass.valued, fun hC => (hplaced.calm hC).same rfl (fun t' => .inl ?_) rfl rfl⟩
      exact congrFun (update_wake _ _ _ _ _).symm t'
  · split
    · next hid => exact h.setUndo hsub (hkeep hid) (by simp [hplace])
    · next id hid =>
      refine ⟨Links.move h.linked hout nofun ?_, h.valued, fun hC => (h.calm hC).move nofun⟩
      rintro _ ⟨⟩
      exact ⟨u, us, hus, .inl hid⟩

omit hP in
theorem call_eq_some {s' s'' : State} (h : s.call t s' = some s'') :
    s.place t = .user ∧ t < pidMax ∧ s'' = s' := by
  unfold State.call at h
  split at h
  · next hplace =>
    obtain ⟨ht, heq⟩ := Option.ite_none_right_eq_some.mp h
    exact ⟨hplace, ht, (Option.some.inj heq).symm⟩
  · cases h

theorem step_good {op : Op} (h : Good P C s) (hadj : Adjusts P s op) (hplain : C → PlainOp s op)
    (hstep : Step s op s') : Good P C s' := by
  have houtside : ∀ t, s.place t = .user → s.Out t := fun t hp =>
    Links.not_queued h.linked (by simp [hp])
  cases op with
  | semget lid addr nsems =>
    obtain ⟨⟨hfree, hlid, -⟩, heq⟩ := Option.ite_none_right_eq_some.mp hstep
    obtain rfl := Option.some.inj heq
    rw [Option.isNone_iff_eq_none] at hfree
    refine ⟨h.linked.newary hfree hlid addr nsems, h.valued.newary h.linked hP hfree hlid addr nsems,
      fun hC => State.Calm.fill ?_ fun q (hq : q ∈ s.pending lid) => ?_⟩
    · exact (h.calm hC).but.change h.linked rfl rfl (fun lid' hne => update_of_ne hne _ _)
        fun u => .inl rfl
    · obtain ⟨-, ⟨hd, hset, -⟩, -⟩ := h.linked.queue lid q hq
      cases hfree.symm.trans hset
  | rmid t id permitted =>
    obtain ⟨hplace, -, rfl⟩ := call_eq_some hstep
    have hout := houtside t hplace
    unfold State.semctlRmid
    split
    · exact h.leave hout _
    split
    · exact h.leave hout _
    split
    · exact h.leave hout _
    have hfree : Good P C (s.freeary (lidOf id)) := ⟨h.linked.freeary _, h.valued.freeary h.linked _,
      fun hC => (h.calm hC).freeary _⟩
    refine hfree.leave (fun lid q hq => hout lid q ?_) 0
    unfold State.freeary at hq
    grind
  | setval t id n val permitted =>
    obtain ⟨hplace, -, rfl⟩ := call_eq_some hstep
    exact h.semctlSetval hP (houtside t hplace) id n val permitted
  | setall t id addr nsems vals permitted =>
    obtain ⟨hplace, -, rfl⟩ := call_eq_some hstep
    exact h.semctlSetall hP (houtside t hplace) id addr nsems vals permitted
  | semop t id sops permitted =>
    obtain ⟨hplace, ht, rfl⟩ := call_eq_some hstep
    exact h.sysSemop hP ht hplace id (fun hC => hplain hC sops rfl) permitted
  | alloc t allocated permitted =>
    simp only [Step, exec] at hstep
    split at hstep
    · next hplace =>
      cases hstep
      exact h.allocUndo hP hplace allocated permitted
    · cases hstep
  | resume t =>
    simp only [Step, exec] at hstep
    split at hstep
    · obtain ⟨q, hq, rfl⟩ := Option.map_eq_some_iff.mp hstep
      exact h.resume hP (List.mem_of_find?_eq_some hq)
    · next hplace =>
      cases hstep
      exact h.leave (Links.not_queued h.linked (by simp [hplace])) _
    · cases hstep
  | exit t =>
    simp only [Step, exec] at hstep
    split at hstep
    · next hplace =>
      cases hstep
      exact h.exitStep hP hplace hadj
    · obtain ⟨hplace, -, rfl⟩ := call_eq_some hstep
      exact h.setPlace (houtside t hplace) trivial

end

theorem boot_good (h0 : P 0) : Good P C boot := by
  refine ⟨⟨?_, ?_, ?_, ?_, ?_, ?_, ?_, ?_, ?_, ?_, ?_, ?_, ?_⟩, ⟨fun _ _ => le_rfl, fun _ _ => h0,
    fun _ _ => ?_, fun _ _ => ?_, ?_, ?_⟩, fun _ => ⟨?_, ?_, fun _ _ => ?_⟩⟩ <;>
  simp [boot, owed, Short, semvmx, pidMax, Told]

end

/-! ## The range of the values -/

/-- No value that `op` adjusts gets above `SEMVMX`. -/
def Room (s : State) (op : Op) : Prop :=
  ∀ r ∈ s.adjusts op, ∀ n < r.2.1.nsems, s.semval r.1 n + s.semadj r.2.2 n ≤ semvmx

instance (s : State) (op : Op) : Decidable (Room s op) :=
  inferInstanceAs (Decidable (∀ r ∈ s.adjusts op, ∀ n < r.2.1.nsems,
    s.semval r.1 n + s.semadj r.2.2 n ≤ semvmx))

/-- In every run whose exits leave room, every value is between 0 and `SEMVMX`. -/
theorem semval_in_range {s : State} {ops : List Op} (h : Run (Meeting Room Step) boot ops s)
    (lid n : Nat) : 0 ≤ s.semval lid n ∧ s.semval lid n ≤ semvmx := by
  have hgood : Good (· ≤ semvmx) False s := by
    refine h.invariant (fun s op s' hs hstep => ?_) (boot_good (by decide))
    refine step_good (fun _ _ h => h) hs (fun r hr n hn => ?_) False.elim hstep.2
    rw [adjust_le _ (hs.valued.nonneg _ n) (hs.valued.short _ n) (hs.valued.le _ n)]
    exact max_le (by decide) (hstep.1 r hr n hn)
  exact ⟨hgood.valued.nonneg lid n, hgood.valued.value lid n⟩

/-- Process 1 raises a semaphore, to lower it when it exits, and exits. -/
def raisedForAWhile : List Op :=
  [.semget 0 0 1, .semop 1 0 ⟨[⟨0, 1, false, true⟩], by decide⟩ true, .alloc 1 true true,
    .exit 1, .exit 1, .exit 1]

theorem raisedForAWhile_in_range : ∃ s, Run (Meeting Room Step) boot raisedForAWhile s ∧
    s.semundo 1 = [] ∧ 0 ≤ s.semval 0 0 ∧ s.semval 0 0 ≤ semvmx := by
  obtain ⟨s, hs, hundo⟩ : ∃ s, execAll (execMeeting Room exec) boot raisedForAWhile = some s ∧
      s.semundo 1 = [] := ⟨_, rfl, rfl⟩
  have hrun : Run (Meeting Room Step) boot raisedForAWhile s := Run.of_execAll of_execMeeting hs
  exact ⟨s, hrun, hundo, semval_in_range hrun 0 0⟩

/-- Process 1 lowers a semaphore, to raise it when it exits, and process 2 raises it. -/
def raisedTwice : List Op :=
  [.semget 0 0 1, .setval 1 0 0 32767 true, .semop 1 0 ⟨[⟨0, -32767, false, true⟩], by decide⟩ true,
    .alloc 1 true true, .semop 2 0 ⟨[⟨0, 32767, false, false⟩], by decide⟩ true,
    .exit 1, .exit 1, .exit 1]

theorem raisedTwice_above : ∃ s, Run Step boot raisedTwice s ∧ s.semval 0 0 = 65534 ∧
    semvmx < s.semval 0 0 := by
  obtain ⟨s, hs, hval⟩ : ∃ s, execAll exec boot raisedTwice = some s ∧ s.semval 0 0 = 65534 :=
    ⟨_, rfl, rfl⟩
  exact ⟨s, Run.of_execAll (fun _ _ _ h => h) hs, hval, by rw [hval]; decide⟩

/-! ## The adjustments -/

theorem run_good {s : State} {ops : List Op} (h : Run Step boot ops s) :
    Good (fun _ => True) False s :=
  h.invariant (fun _ _ _ hs hstep => step_good (fun _ _ _ => trivial) hs (fun _ _ _ _ => trivial)
    False.elim hstep) (boot_good trivial)

/-- A record of a set gives back what its process has done on the semaphores since they were
set, and without a record there is nothing to give back. An attempt that blocks or fails changes
no record. A process that exits comes to each record once. -/
theorem semadj_exact {s : State} {ops : List Op} (h : Run Step boot ops s) :
    (∀ t, ∀ u ∈ s.semundo t, ∀ lid hd, s.sets lid = some hd →
      s.semid u = some (buildid lid hd.seq) → ∀ n, s.semadj u n = -owed s.log t lid n) ∧
    (∀ t lid hd, s.sets lid = some hd →
      (∀ u ∈ s.semundo t, s.semid u ≠ some (buildid lid hd.seq)) → ∀ n, owed s.log t lid n = 0) ∧
    (∀ t lid sops un doUndo, (s.cells lid).result t sops un doUndo ≠ 0 →
      ((s.cells lid).after t sops un doUndo).semadj = s.semadj) ∧
    ∀ t id u us, s.place t = .exiting (some id) → s.semundo t = u :: us → s.semid u ≠ none →
      ∃ hd, s.sets (lidOf id) = some hd ∧ s.semid u = some (buildid (lidOf id) hd.seq) ∧
        (s.undo (lidOf id)).count u = 1 ∧
        ((s.applyUndo t (lidOf id) hd.nsems u).undo (lidOf id)).count u = 0 ∧
        (∀ n < hd.nsems, (s.applyUndo t (lidOf id) hd.nsems u).semval (lidOf id) n =
          max 0 (s.semval (lidOf id) n - owed s.log t (lidOf id) n)) ∧
        exec s (.exit t) = some ((((s.applyUndo t (lidOf id) hd.nsems u).pass (lidOf id)).setUndo t
          us).setPlace t (.exiting none)) := by
  have hgood := run_good h
  refine ⟨hgood.valued.owed, hgood.valued.clear, fun t lid sops un doUndo hresult => ?_,
    fun t id u us hplace hus hlive => ?_⟩
  · rcases Cells.attempt_cases (hgood.valued.inRange lid) t sops un doUndo with
      ⟨-, -, hzero, -⟩ | hkept
    · exact absurd hzero hresult
    · exact hkept.2.2.2
  · rcases hgood.exitRecord_cases hplace hus with ⟨hnone, -⟩ | ⟨hd, hset, hid, hin, heq⟩
    · exact absurd hnone hlive
    have honce := hgood.linked.once (lidOf id)
    refine ⟨hd, hset, hid, List.count_eq_one_of_mem honce hin, ?_, fun n hn => ?_, ?_⟩
    · simp only [State.applyUndo, update_self]
      exact List.count_eq_zero.mpr honce.not_mem_erase
    · have howed := hgood.valued.owed t u (hus ▸ List.mem_cons_self) _ hd hset hid n
      simp only [State.applyUndo, update_self, if_pos hn]
      rw [adjust_le _ (hgood.valued.nonneg _ n) (hgood.valued.short u n) (hgood.valued.le _ n), howed,
        Int.sub_eq_add_neg]
    · simp only [exec, hplace, State.exitStep, hus, heq]

theorem semadj_exact_raised : ∃ s, Run Step boot (raisedForAWhile.take 5) s ∧
    s.semadj 0 0 = -owed s.log 1 0 0 ∧ owed s.log 1 0 0 = 1 ∧
    (exec s (.exit 1)).map (fun s' => s'.semval 0 0) = some 0 := by
  obtain ⟨s, hs, howed, hval, hundo, hset, hid⟩ : ∃ s,
      execAll exec boot (raisedForAWhile.take 5) = some s ∧ owed s.log 1 0 0 = 1 ∧
      (exec s (.exit 1)).map (fun s' => s'.semval 0 0) = some 0 ∧ s.semundo 1 = [0] ∧
      s.sets 0 = some ⟨0, 0, 1⟩ ∧ s.semid 0 = some 0 := ⟨_, rfl, rfl, rfl, rfl, rfl, rfl⟩
  have hrun : Run Step boot (raisedForAWhile.take 5) s := Run.of_execAll (fun _ _ _ h => h) hs
  exact ⟨s, hrun, (semadj_exact hrun).1 1 0 (by simp [hundo]) 0 _ hset hid 0, howed, hval⟩

/-! ## Sleepers -/

/-- When it goes on now, a process that was told to try again makes a pass and leaves. -/
theorem Good.resume_told {P : Int → Prop} {s : State} (h : Good P True s) {lid : Nat} {w : Queue}
    (hw : w ∈ s.pending lid) (hone : w.status = 1) (hfits : (s.cells lid).Fits w.sops w.undo) :
    w.sops.alters = true ∧
      ∃ s₁, exec s (.resume w.sleeper) = some ((State.pass s₁ lid).leave w.sleeper 0) := by
  have hplain := (h.calm trivial).plain lid w hw
  have halters : w.sops.alters = true := by
    have hdec := hplain.alter.symm.trans (hplain.told hone)
    unfold Sops.decreases Sops.alters at *
    grind
  obtain ⟨hplace, ⟨hd, hset, hid⟩, -⟩ := h.linked.queue lid w hw
  have hlid : lidOf w.id = lid := by rw [hid, lidOf_buildid (h.linked.lid lid hd hset)]
  have hfind : (s.pending lid).find? (·.sleeper = w.sleeper) = some w := by
    cases hq : (s.pending lid).find? (·.sleeper = w.sleeper) with
    | none => simpa using List.find?_eq_none.mp hq w hw
    | some q =>
      have hsame : q.sleeper = w.sleeper := by simpa using List.find?_some hq
      rw [List.inj_on_of_nodup_map (h.linked.sleepers lid) (List.mem_of_find?_eq_some hq) hw hsame]
  have hresult : (s.cells lid).result w.sleeper w.sops w.undo false = 0 :=
    (Cells.result_eq_zero (h.valued.inRange lid)).mpr hfits
  have hexec : exec s (.resume w.sleeper) = some (s.resume lid w) := by
    simp only [exec, hplace, hlid, hfind, Option.map_some]
  rw [hexec, State.resume]
  simp only [if_pos hone, if_pos hresult.le, State.leaveWith, State.finish, if_pos halters]
  rw [show ((s.setPending lid _).cells lid).result w.sleeper w.sops w.undo false = 0 from hresult]
  exact ⟨halters, _, rfl⟩

/-- In a run of plain operations, if a process that has not been woken could go on, one that has
been told to try again is on the list, and makes a pass before it leaves. -/
theorem waiter_heard {s : State} {ops : List Op} (h : Run (Meeting PlainOp Step) boot ops s)
    {lid : Nat} {q : Queue} (hq : q ∈ s.pending lid) (hasleep : q.status ≠ 1)
    (hfits : (s.cells lid).result q.sleeper q.sops q.undo false = 0) :
    ∃ w ∈ s.pending lid, w.status = 1 ∧ w.sops.alters = true ∧
      ∃ s₁, exec s (.resume w.sleeper) = some ((State.pass s₁ lid).leave w.sleeper 0) := by
  have hgood : Good (fun _ => True) True s :=
    h.invariant (fun _ _ _ hs hstep => step_good (fun _ _ _ => trivial) hs (fun _ _ _ _ => trivial)
      (fun _ => hstep.1) hstep.2) (boot_good trivial)
  obtain ⟨w, hw, hone, -, hfits'⟩ := (hgood.calm trivial).told lid nofun q hq hasleep
    ((Cells.result_eq_zero (hgood.valued.inRange lid)).mp hfits)
  exact ⟨w, hw, hone, hgood.resume_told hw hone hfits'⟩

def single (n : Nat) (semOp : Int) (h : -2 ^ 15 ≤ semOp ∧ semOp < 2 ^ 15) : Sops :=
  ⟨[⟨n, semOp, false, false⟩], by simpa [Sembuf.InRange] using h⟩

/-- Two processes wait for a semaphore, which is then raised for both. -/
def raisedForTwo : List Op :=
  [.semget 0 0 1, .semop 1 0 (single 0 (-1) (by decide)) true,
    .semop 2 0 (single 0 (-1) (by decide)) true, .semop 3 0 (single 0 2 (by decide)) true]

theorem waiter_heard_second : ∃ s, Run (Meeting PlainOp Step) boot raisedForTwo s ∧
    ∃ w ∈ s.pending 0, w.status = 1 ∧ w.sops.alters = true ∧
      ∃ s₁, exec s (.resume w.sleeper) = some ((State.pass s₁ 0).leave w.sleeper 0) := by
  obtain ⟨s, hs, q, hq, hstatus, hfits⟩ : ∃ s,
      execAll (execMeeting PlainOp exec) boot raisedForTwo = some s ∧
      ∃ q ∈ s.pending 0, q.status ≠ 1 ∧ (s.cells 0).result q.sleeper q.sops q.undo false = 0 :=
    ⟨_, rfl, _, List.mem_cons_of_mem _ List.mem_cons_self, nofun, rfl⟩
  have hrun : Run (Meeting PlainOp Step) boot raisedForTwo s := Run.of_execAll of_execMeeting hs
  exact ⟨s, hrun, waiter_heard hrun hq hstatus hfits⟩

/-- Process 1 waits for the first semaphore. Process 2 waits for the second one to become zero,
to raise the first one. Process 3 lowers the second one. -/
def raisedBySleeper : List Op :=
  [.semget 0 0 2, .setval 3 0 1 1 true, .semop 1 0 (single 0 (-1) (by decide)) true,
    .semop 2 0 ⟨[⟨1, 0, false, false⟩, ⟨0, 1, false, false⟩], by decide⟩ true,
    .semop 3 0 (single 1 (-1) (by decide)) true]

/-- Process 1 could go on, and nobody has been told. -/
theorem waiter_forgotten : ∃ s, Run Step boot raisedBySleeper s ∧
    ∃ q ∈ s.pending 0, q.status ≠ 1 ∧ (s.cells 0).result q.sleeper q.sops q.undo false = 0 ∧
      ∀ w ∈ s.pending 0, w.status ≠ 1 := by
  obtain ⟨s, hs, q, hpending, hstatus, hfits⟩ : ∃ s, execAll exec boot raisedBySleeper = some s ∧
      ∃ q, s.pending 0 = [q] ∧ q.status ≠ 1 ∧
        (s.cells 0).result q.sleeper q.sops q.undo false = 0 := ⟨_, rfl, _, rfl, nofun, rfl⟩
  refine ⟨s, Run.of_execAll (fun _ _ _ h => h) hs, q, ?_, hstatus, hfits, ?_⟩
  · simp [hpending]
  · simpa [hpending] using hstatus

end CustomKernel.Ipc.Sem

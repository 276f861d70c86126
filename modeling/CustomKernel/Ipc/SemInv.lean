import CustomKernel.Ipc.Sem
import CustomKernel.Lib.Transition
import Mathlib.Data.Fintype.Card

/-! # What holds of the semaphore sets in every run

The links between processes, records, sets and queues; the range of the values; and what a
record has to give back, which is what its process has done since the values were set. -/
namespace CustomKernel.Ipc.Sem
open Semop Function Lib.Transition

/-! ## Sets of operations -/

/-- The values that a `short` has. -/
def Short (x : Int) : Prop := -2 ^ 15 ≤ x ∧ x < 2 ^ 15

/-- What operations with `SEM_UNDO` add to a semaphore. -/
def undoSum : List Sembuf → Nat → Int
  | [], _ => 0
  | sop :: sops, n =>
    (if sop.undo = true ∧ sop.semNum = n then sop.semOp else 0) + undoSum sops n

theorem undoSum_eq_zero {sops : List Sembuf} (h : ∀ sop ∈ sops, sop.undo = false) (n : Nat) :
    undoSum sops n = 0 := by
  induction sops with
  | nil => rfl
  | cons sop sops ih =>
    rw [List.forall_mem_cons] at h
    simp [undoSum, h.1, ih h.2]

section
variable {v : Values} {sops : List Sembuf}

theorem applyAll_semadj (sops : List Sembuf) (v : Values) (n : Nat) :
    (applyAll sops v).semadj n = v.semadj n - undoSum sops n := by
  induction sops generalizing v with
  | nil => simp [applyAll, undoSum]
  | cons sop sops ih =>
    have hone : (v.apply sop).semadj n =
        v.semadj n - if sop.undo = true ∧ sop.semNum = n then sop.semOp else 0 := by
      unfold Values.apply
      grind
    exact (ih (v.apply sop)).trans (by rw [hone, undoSum]; omega)

/-- The cells of a semaphore stay, or its value has been checked. -/
theorem applyAll_cases (h : AllLegal sops v) (n : Nat) :
    ((applyAll sops v).semval n = v.semval n ∧ (applyAll sops v).semadj n = v.semadj n) ∨
      (0 ≤ (applyAll sops v).semval n ∧ (applyAll sops v).semval n ≤ semvmx) := by
  induction sops generalizing v with
  | nil => exact .inl ⟨rfl, rfl⟩
  | cons sop sops ih =>
    obtain ⟨hlegal, hrest⟩ := h
    rcases ih hrest with ⟨hval, hadj⟩ | hrange
    · have hone : (v.apply sop).semval n = v.semval n ∧ (v.apply sop).semadj n = v.semadj n ∨
          0 ≤ (v.apply sop).semval n ∧ (v.apply sop).semval n ≤ semvmx := by
        unfold Values.apply
        unfold Legal at hlegal
        grind
      rw [← hval, ← hadj] at hone
      exact hone
    · exact .inr hrange

theorem applyAll_short (h : AllLegal sops v) {n : Nat} (hv : Short (v.semadj n)) :
    Short ((applyAll sops v).semadj n) := by
  induction sops generalizing v with
  | nil => exact hv
  | cons sop sops ih =>
    refine ih h.2 ?_
    have hundo := h.1.2.2.2
    unfold Values.apply
    unfold semaem semvmx at hundo
    unfold Short at *
    grind

end

/-! ## Attempts -/

/-- All operations would succeed now. -/
def Cells.Fits (c : Cells) (sops : Sops) (un : Option Nat) : Prop := AllLegal sops.list (c.values un)

structure Cells.InRange (c : Cells) : Prop where
  semval : ∀ n, 0 ≤ c.semval n ∧ c.semval n < 2 ^ 31 - 2 ^ 15
  semadj : ∀ u n, Short (c.semadj u n)

theorem Cells.InRange.values {c : Cells} (hc : c.InRange) (un : Option Nat) :
    (c.values un).InRange := by
  have hval n : -2 ^ 31 ≤ c.semval n ∧ c.semval n < 2 ^ 31 := by
    have := hc.semval n
    omega
  cases un with
  | none => exact ⟨hval, fun _ => show Short 0 from ⟨by decide, by decide⟩⟩
  | some u => exact ⟨hval, hc.semadj u⟩

/-- An attempt does all operations, or leaves values and adjustments. -/
theorem Cells.attempt_cases {c : Cells} (hc : c.InRange) (t : Nat) (sops : Sops) (un : Option Nat)
    (doUndo : Bool) :
    (c.Fits sops un ∧ doUndo = false ∧ c.result t sops un doUndo = 0 ∧
      (c.after t sops un doUndo).semval = (applyAll sops.list (c.values un)).semval ∧
      ∀ u, (c.after t sops un doUndo).semadj u =
        if un = some u then (applyAll sops.list (c.values un)).semadj else c.semadj u) ∨
    ((c.result t sops un doUndo = 0 ↔ c.Fits sops un) ∧
      (c.result t sops un doUndo = 0 → doUndo = true) ∧
      (c.after t sops un doUndo).semval = c.semval ∧
      (c.after t sops un doUndo).semadj = c.semadj) := by
  have hsame : ∀ s : Semop.State, s.toValues = c.values un →
      (c.put un s).semval = c.semval ∧ (c.put un s).semadj = c.semadj := by
    intro s hs
    cases un with
    | none => exact ⟨congrArg Values.semval hs, rfl⟩
    | some u => exact ⟨congrArg Values.semval hs, update_eq_self_iff.mpr (congrArg Values.semadj hs)⟩
  rcases tryAtomicSemop_cases (s := ⟨c.values un, c.sempid⟩) (pidOf t) (hc.values un) sops.list
    sops.inRange doUndo with ⟨hall, hresult, hvalues⟩ | ⟨hnot, hresult, hvalues⟩
  · cases doUndo with
    | false =>
      refine .inl ⟨hall, rfl, hresult, congrArg Values.semval hvalues, fun u => ?_⟩
      have hadj := congrArg Values.semadj hvalues
      unfold Cells.after Cells.put
      cases un with
      | none => simp
      | some w =>
        grind
    | true => exact .inr ⟨iff_of_true hresult hall, fun _ => rfl, hsame _ hvalues⟩
  · exact .inr ⟨iff_of_false hresult hnot, fun h => absurd h hresult, hsame _ hvalues⟩

/-! ## A pass over the queue -/

section
variable {lid : Nat} {qs : List Queue} {c : Cells} {log : List Entry}

/-- What every attempt for a sleeper keeps, a pass keeps. -/
theorem updateQueue_invariant {I : Cells → List Entry → Prop}
    (hI : ∀ q ∈ qs, ∀ c log, I c log → I (c.after q.sleeper q.sops q.undo q.alter)
      ((if q.alter then [] else done q.sleeper lid q.sops
        (c.result q.sleeper q.sops q.undo q.alter)) ++ log))
    (h : I c log) : I (updateQueue lid qs c log).cells (updateQueue lid qs c log).log := by
  fun_induction updateQueue lid qs c log with
  | case1 => exact h
  | case2 q rest c log _ ih => exact ih (fun q hq => hI q (List.mem_cons_of_mem _ hq)) h
  | case3 q rest c log result c' _ _ hzero => simpa [hzero.2, c'] using hI q List.mem_cons_self c log h
  | case4 q rest c log result c' _ hle hzero ih =>
    refine ih (fun q hq => hI q (List.mem_cons_of_mem _ hq)) ?_
    have hone := hI q List.mem_cons_self c log h
    cases halter : q.alter with
    | false => simpa [halter, result, c'] using hone
    | true =>
      have hne : result ≠ 0 := fun h0 => hzero ⟨h0, halter⟩
      simpa [halter, done, hne, c'] using hone
  | case5 q rest c log result c' _ hle ih =>
    refine ih (fun q hq => hI q (List.mem_cons_of_mem _ hq)) ?_
    have hne : c.result q.sleeper q.sops q.undo q.alter ≠ 0 := fun h0 => hle h0.le
    simpa [done, hne] using hI q List.mem_cons_self c log h

/-- Two entries of a queue that differ at most in their status. -/
def Queue.Same (q q' : Queue) : Prop :=
  q.sleeper = q'.sleeper ∧ q.id = q'.id ∧ q.sops = q'.sops ∧ q.undo = q'.undo ∧ q.alter = q'.alter

/-- The entries that stay are old ones, of which one may have been told to try again. -/
theorem mem_updateQueue {q : Queue} (h : q ∈ (updateQueue lid qs c log).pending) :
    ∃ q₀ ∈ qs, q = q₀ ∨ q₀.alter = true ∧ q = { q₀ with status := 1 } := by
  fun_induction updateQueue lid qs c log with
  | case1 => exact absurd h List.not_mem_nil
  | case2 q' rest c log _ ih =>
    rcases List.mem_cons.mp h with rfl | h
    · exact ⟨q, List.mem_cons_self, .inl rfl⟩
    · obtain ⟨q₀, hmem, hq⟩ := ih h
      exact ⟨q₀, List.mem_cons_of_mem _ hmem, hq⟩
  | case3 q' rest c log _ _ _ _ hzero =>
    rcases List.mem_cons.mp h with rfl | h
    · exact ⟨q', List.mem_cons_self, .inr ⟨hzero.2, rfl⟩⟩
    · exact ⟨q, List.mem_cons_of_mem _ h, .inl rfl⟩
  | case4 q' rest c log _ _ _ _ _ ih =>
    obtain ⟨q₀, hmem, hq⟩ := ih h
    exact ⟨q₀, List.mem_cons_of_mem _ hmem, hq⟩
  | case5 q' rest c log _ _ _ _ ih =>
    rcases List.mem_cons.mp h with rfl | h
    · exact ⟨q, List.mem_cons_self, .inl rfl⟩
    · obtain ⟨q₀, hmem, hq⟩ := ih h
      exact ⟨q₀, List.mem_cons_of_mem _ hmem, hq⟩

/-- Every sleeper stays or is woken. -/
theorem updateQueue_sleepers (lid : Nat) (qs : List Queue) (c : Cells) (log : List Entry) :
    ((updateQueue lid qs c log).pending.map (·.sleeper) ++
      (updateQueue lid qs c log).woken.map (·.1.sleeper)).Perm (qs.map (·.sleeper)) := by
  fun_induction updateQueue lid qs c log with
  | case1 => exact .nil
  | case2 q _ _ _ _ ih => exact ih.cons q.sleeper
  | case3 => simp
  | case4 q _ _ _ _ _ _ _ _ ih => exact List.perm_middle.trans (ih.cons q.sleeper)
  | case5 q _ _ _ _ _ _ _ ih => exact ih.cons q.sleeper

theorem wake_cases (ws : List (Queue × Int)) (place : Nat → Place) (t : Nat) :
    ((∀ w ∈ ws, w.1.sleeper ≠ t) ∧ wake ws place t = place t) ∨
      ∃ id status, (∃ w ∈ ws, w.1.sleeper = t) ∧ wake ws place t = .woken id status := by
  unfold wake
  split
  · next w hw =>
    have ht : w.1.sleeper = t := by simpa using List.find?_some hw
    exact .inr ⟨_, _, ⟨w, List.mem_of_find?_eq_some hw, ht⟩, rfl⟩
  · next hnone => exact .inl ⟨by simpa using hnone, rfl⟩

theorem State.pass_pending (s : State) (lid : Nat) : (s.pass lid).pending = update s.pending lid
    (updateQueue lid (s.pending lid) (s.cells lid) s.log).pending := rfl

theorem State.mem_pass {s : State} {lid' : Nat} {q : Queue} (h : q ∈ (s.pass lid).pending lid') :
    ∃ q₀ ∈ s.pending lid', q = q₀ ∨ q₀.alter = true ∧ q = { q₀ with status := 1 } := by
  rw [State.pass_pending] at h
  rcases eq_or_ne lid' lid with rfl | hne
  · rw [update_self] at h
    exact mem_updateQueue h
  · rw [update_of_ne hne] at h
    exact ⟨q, h, .inl rfl⟩

end

/-! ## Links -/

/-- The undo record that a process uses for its operations. -/
def Undo (semid : Nat → Option Nat) (semundo : Nat → List Nat) (t id : Nat) (sops : Sops) :
    Option Nat → Prop
  | some u => u ∈ semundo t ∧ semid u = some id
  | none => ∀ sop ∈ sops.list, sop.undo = false

theorem Undo.mono {semid semid' : Nat → Option Nat} {semundo semundo' : Nat → List Nat} {t id : Nat}
    {sops : Sops} {un : Option Nat} (h : Undo semid semundo t id sops un)
    (hkeep : ∀ u ∈ semundo t, semid u = some id → u ∈ semundo' t ∧ semid' u = some id) :
    Undo semid' semundo' t id sops un := by
  cases un with
  | none => exact h
  | some u => exact hkeep u h.1 h.2

structure Links (sets : Nat → Option Head) (pending : Nat → List Queue) (undo : Nat → List Nat)
    (semid : Nat → Option Nat) (fresh : Nat) (semundo : Nat → List Nat) (place : Nat → Place) :
    Prop where
  lid : ∀ lid h, sets lid = some h → lid < seqMultiplier
  queue : ∀ lid, ∀ q ∈ pending lid, place q.sleeper = .asleep q.id ∧
    (∃ h, sets lid = some h ∧ q.id = buildid lid h.seq) ∧
    Undo semid semundo q.sleeper q.id q.sops q.undo
  sleepers : ∀ lid, ((pending lid).map (·.sleeper)).Nodup
  record : ∀ lid, ∀ u ∈ undo lid, ∃ t h, u ∈ semundo t ∧ sets lid = some h ∧
    semid u = some (buildid lid h.seq)
  linked : ∀ t, ∀ u ∈ semundo t, ∀ id, semid u = some id → u ∈ undo (lidOf id)
  owner : ∀ t t' u, u ∈ semundo t → u ∈ semundo t' → t = t'
  fresh : ∀ t, ∀ u ∈ semundo t, u < fresh
  once : ∀ lid, (undo lid).Nodup
  nodup : ∀ t, (semundo t).Nodup
  single : ∀ t, ∀ u ∈ semundo t, ∀ u' ∈ semundo t, ∀ id, semid u = some id → semid u' = some id →
    u = u'
  pids : ∀ t, semundo t ≠ [] → t < pidMax
  allocating : ∀ t id addr nsems sops, place t = .allocating id addr nsems sops →
    t < pidMax ∧ ∀ u ∈ semundo t, semid u ≠ some id
  exiting : ∀ t id, place t = .exiting (some id) →
    ∃ u us, semundo t = u :: us ∧ (semid u = some id ∨ semid u = none)

def State.Linked (s : State) : Prop :=
  Links s.sets s.pending s.undo s.semid s.fresh s.semundo s.place

/-- A place about which nothing has to hold. -/
def Idle : Place → Prop
  | .allocating .. => False
  | .exiting (some _) => False
  | _ => True

theorem wake_idle (ws : List (Queue × Int)) (place : Nat → Place) (t : Nat) :
    wake ws place t = place t ∨ Idle (wake ws place t) := by
  rcases wake_cases ws place t with ⟨-, heq⟩ | ⟨_, _, -, heq⟩
  · exact .inl heq
  · rw [heq]
    exact .inr trivial

section
variable {sets : Nat → Option Head} {pending pending' : Nat → List Queue} {undo : Nat → List Nat}
  {semid : Nat → Option Nat} {fresh : Nat} {semundo : Nat → List Nat} {place place' : Nat → Place}
  {s : State} {lid t : Nat} {hd : Head}

theorem lidOf_buildid (h : lid < seqMultiplier) (seq : Nat) : lidOf (buildid lid seq) = lid := by
  rw [lidOf, buildid, Nat.mul_add_mod, Nat.mod_eq_of_lt h]

section
variable (h : Links sets pending undo semid fresh semundo place) {u lid' : Nat}
include h

theorem Links.lidOf {hd : Head} (hset : sets lid = some hd) : lidOf (buildid lid hd.seq) = lid :=
  lidOf_buildid (h.lid lid hd hset) hd.seq

theorem Links.record_lid {id : Nat}
    (hu : u ∈ undo lid) (hid : semid u = some id) : Sem.lidOf id = lid := by
  obtain ⟨-, hd, -, hset, hid'⟩ := h.record lid u hu
  rw [hid, Option.some.injEq] at hid'
  rw [hid', h.lidOf hset]

/-- A record with the identifier of a set is on the list of that set only. -/
theorem Links.mem_undo {hd : Head} (hu : u ∈ semundo t) (hset : sets lid' = some hd)
    (hid : semid u = some (buildid lid' hd.seq)) : u ∈ undo lid ↔ lid' = lid := by
  have hin := h.linked t u hu _ hid
  rw [h.lidOf hset] at hin
  exact ⟨fun hu' => (h.lidOf hset).symm.trans (h.record_lid hu' hid), fun heq => heq ▸ hin⟩

theorem Links.fresh_undo (lid : Nat) : fresh ∉ undo lid := fun hu => by
  obtain ⟨t, -, hmem, -⟩ := h.record lid _ hu
  exact (h.fresh t _ hmem).ne rfl

/-- What is left of the records when a process has used up its first one. -/
theorem Links.mem_rest {us : List Nat} (hus : semundo t = u :: us) (t' u' : Nat) :
    u' ∈ update semundo t us t' ↔ u' ∈ semundo t' ∧ u' ≠ u := by
  have hnd := h.nodup t
  have := h.owner
  grind

/-- The queues are changed, and processes go to other places. -/
theorem Links.requeue (hq : ∀ lid, ∀ q ∈ pending' lid, (∃ q₀ ∈ pending lid, q.Same q₀) ∧
      place' q.sleeper = .asleep q.id)
    (hnd : ∀ lid, ((pending' lid).map (·.sleeper)).Nodup)
    (hp : ∀ t, place' t = place t ∨ Idle (place' t)) :
    Links sets pending' undo semid fresh semundo place' := by
  refine { h with queue := ?_, sleepers := hnd, allocating := ?_, exiting := ?_ }
  · intro lid q hmem
    obtain ⟨⟨q₀, hmem₀, hsleeper, hid, hsops, hundo, -⟩, hplace⟩ := hq lid q hmem
    obtain ⟨-, hset, hrecord⟩ := h.queue lid q₀ hmem₀
    exact ⟨hplace, by rwa [hid], by rwa [hsleeper, hid, hsops, hundo]⟩
  · intro t id addr nsems sops hplace
    rcases hp t with heq | hidle
    · exact h.allocating t id addr nsems sops (heq ▸ hplace)
    · rw [hplace] at hidle
      exact hidle.elim
  · intro t id hplace
    rcases hp t with heq | hidle
    · exact h.exiting t id (heq ▸ hplace)
    · rw [hplace] at hidle
      exact hidle.elim

theorem Links.move (hout : ∀ lid, ∀ q ∈ pending lid, q.sleeper ≠ t) {p : Place}
    (ha : ∀ id addr nsems sops, p = .allocating id addr nsems sops →
      t < pidMax ∧ ∀ u ∈ semundo t, semid u ≠ some id)
    (he : ∀ id, p = .exiting (some id) →
      ∃ u us, semundo t = u :: us ∧ (semid u = some id ∨ semid u = none)) :
    Links sets pending undo semid fresh semundo (update place t p) := by
  refine { h with
    queue := fun lid q hq => ?_, allocating := fun t' id addr nsems sops hp => ?_
    exiting := fun t' id hp => ?_ }
  · rw [update_of_ne (hout lid q hq)]
    exact h.queue lid q hq
  · rcases eq_of_update hp with ⟨rfl, hp'⟩ | ⟨-, hp⟩
    · exact ha id addr nsems sops hp'
    · exact h.allocating t' id addr nsems sops hp
  · rcases eq_of_update hp with ⟨rfl, hp'⟩ | ⟨-, hp⟩
    · exact he id hp'
    · exact h.exiting t' id hp

theorem Links.setPlace (hout : ∀ lid, ∀ q ∈ pending lid, q.sleeper ≠ t) {p : Place} (hp : Idle p) :
    Links sets pending undo semid fresh semundo (update place t p) :=
  h.move hout (fun _ _ _ _ heq => absurd hp (by rw [heq]; exact id)) fun _ heq =>
    absurd hp (by rw [heq]; exact id)

/-- Records of removed sets leave the list of their process. -/
theorem Links.setUndo {us : List Nat}
    (hsub : us.Sublist (semundo t)) (hkeep : ∀ u ∈ semundo t, u ∉ us → semid u = none)
    (hplace : ∀ id, place t ≠ .exiting (some id)) :
    Links sets pending undo semid fresh (update semundo t us) place := by
  have hle : ∀ t' u, u ∈ update semundo t us t' → u ∈ semundo t' := by grind
  have hlive : ∀ t' u id, u ∈ semundo t' → semid u = some id → u ∈ update semundo t us t' := by grind
  refine ⟨h.lid, fun lid q hq => ?_, h.sleepers, fun lid u hu => ?_, ?_, ?_, ?_, h.once, fun t' => ?_,
    ?_, ?_, ?_, ?_⟩
  · obtain ⟨hp, hset, hrecord⟩ := h.queue lid q hq
    exact ⟨hp, hset, hrecord.mono fun u hu hid => ⟨hlive _ _ _ hu hid, hid⟩⟩
  · obtain ⟨t', h', hmem, hset, hid⟩ := h.record lid u hu
    exact ⟨t', h', hlive _ _ _ hmem hid, hset, hid⟩
  · exact fun t' u hu => h.linked t' u (hle _ _ hu)
  · exact fun t₁ t₂ u h₁ h₂ => h.owner t₁ t₂ u (hle _ _ h₁) (hle _ _ h₂)
  · exact fun t' u hu => h.fresh t' u (hle _ _ hu)
  · have hnd := h.nodup t'
    grind [List.Nodup.sublist]
  · exact fun t' u hu u' hu' => h.single t' u (hle _ _ hu) u' (hle _ _ hu')
  · exact fun t' hne => h.pids t' (by grind)
  · exact fun t' id addr nsems sops hp =>
      ⟨(h.allocating t' id addr nsems sops hp).1, fun u hu =>
        (h.allocating t' id addr nsems sops hp).2 u (hle _ _ hu)⟩
  · intro t' id hp
    have hne : t' ≠ t := fun heq => hplace id (heq ▸ hp)
    rw [update_of_ne hne]
    exact h.exiting t' id hp

theorem Links.same_set {q q' : Queue} (hq : q ∈ pending lid) (hq' : q' ∈ pending lid')
    (hsleeper : q.sleeper = q'.sleeper) : lid = lid' := by
  obtain ⟨hp, ⟨h₁, hset, hid⟩, -⟩ := h.queue lid q hq
  obtain ⟨hp', ⟨h₂, hset', hid'⟩, -⟩ := h.queue lid' q' hq'
  rw [hsleeper, hp', Place.asleep.injEq] at hp
  rw [← h.lidOf hset, ← hid, ← hp, hid', h.lidOf hset']

theorem Links.not_queued
    (hp : ∀ id, place t ≠ .asleep id) (lid : Nat) (q : Queue) (hq : q ∈ pending lid) :
    q.sleeper ≠ t := by
  intro heq
  exact hp q.id (heq ▸ (h.queue lid q hq).1)

end

theorem State.Linked.pass (h : s.Linked) (lid : Nat) : (s.pass lid).Linked := by
  have hperm := updateQueue_sleepers lid (s.pending lid) (s.cells lid) s.log
  obtain ⟨hnd, -, hdisj⟩ := List.nodup_append.mp (hperm.nodup_iff.mpr (h.sleepers lid))
  refine Links.requeue h (fun lid' q hq => ?_) (fun lid' => ?_) fun t => ?_
  · -- a process that is still on a queue has not been woken
    have hold : (∃ q₀ ∈ s.pending lid', q.Same q₀) ∧ ∀ w ∈ (updateQueue lid (s.pending lid)
        (s.cells lid) s.log).woken, w.1.sleeper ≠ q.sleeper := by
      obtain ⟨q₀, hq₀, hsame⟩ := State.mem_pass hq
      have hsame : q.Same q₀ := by rcases hsame with rfl | ⟨-, rfl⟩ <;> exact ⟨rfl, rfl, rfl, rfl, rfl⟩
      refine ⟨⟨q₀, hq₀, hsame⟩, fun w hw heq => ?_⟩
      rw [State.pass_pending] at hq
      rcases eq_or_ne lid' lid with rfl | hne
      · rw [update_self] at hq
        exact hdisj _ (List.mem_map_of_mem hq) _ (List.mem_map_of_mem hw) heq.symm
      · have hw := hperm.mem_iff.mp (List.mem_append_right _ (List.mem_map_of_mem hw))
        obtain ⟨q', hq', hsleeper⟩ := List.mem_map.mp hw
        exact hne (h.same_set hq₀ hq' (hsame.1.symm.trans (heq.symm.trans hsleeper.symm)))
    obtain ⟨⟨q₀, hq₀, hsame⟩, hawake⟩ := hold
    refine ⟨⟨q₀, hq₀, hsame⟩, ?_⟩
    rcases wake_cases _ s.place q.sleeper with ⟨-, heq⟩ | ⟨_, _, ⟨w, hw, hsleeper⟩, -⟩
    · refine Eq.trans heq ?_
      rw [hsame.1, hsame.2.1]
      exact (h.queue lid' q₀ hq₀).1
    · exact absurd hsleeper (hawake w hw)
  · rw [State.pass_pending]
    rcases eq_or_ne lid' lid with rfl | hne
    · rwa [update_self]
    · rw [update_of_ne hne]
      exact h.sleepers lid'
  · exact wake_idle _ s.place t

/-- The process is on no queue. -/
def State.Out (s : State) (t : Nat) : Prop := ∀ lid, ∀ q ∈ s.pending lid, q.sleeper ≠ t

theorem State.Linked.leave (h : s.Linked) (hout : s.Out t) (error : Int) :
    (s.leave t error).Linked :=
  Links.setPlace h hout trivial

theorem State.Out.pass (hout : s.Out t) (lid : Nat) : (s.pass lid).Out t := by
  intro lid' q hq
  obtain ⟨q₀, hq₀, hsame⟩ := State.mem_pass hq
  have hsleeper : q.sleeper = q₀.sleeper := by
    rcases hsame with rfl | ⟨-, rfl⟩ <;> rfl
  exact hsleeper ▸ hout lid' q₀ hq₀

/-- A process that is on no queue goes to sleep on one. -/
theorem State.Linked.enqueue (h : s.Linked) (hout : s.Out t)
    (hset : s.sets lid = some hd) {sops : Sops} {un : Option Nat}
    (hun : Undo s.semid s.semundo t (buildid lid hd.seq) sops un) (alter : Bool) :
    ((s.setPending lid (enqueue ⟨t, buildid lid hd.seq, sops, un, -EINTR, alter⟩
      (s.pending lid))).setPlace t (.asleep (buildid lid hd.seq))).Linked := by
  have hmem : ∀ q, q ∈ Sem.enqueue ⟨t, buildid lid hd.seq, sops, un, -EINTR, alter⟩ (s.pending lid) ↔
      q = ⟨t, buildid lid hd.seq, sops, un, -EINTR, alter⟩ ∨ q ∈ s.pending lid := by
    intro q
    unfold Sem.enqueue
    split
    · simp [or_comm]
    · simp
  have hplaced := Links.setPlace h hout (p := .asleep (buildid lid hd.seq)) trivial
  unfold State.Linked State.setPending State.setPlace
  dsimp only
  refine { hplaced with queue := fun lid' q hq => ?_, sleepers := fun lid' => ?_ }
  · rcases eq_or_ne lid' lid with rfl | hne
    · rw [update_self, hmem] at hq
      rcases hq with rfl | hq
      · exact ⟨update_self .., ⟨hd, hset, rfl⟩, hun⟩
      · exact hplaced.queue lid' q hq
    · rw [update_of_ne hne] at hq
      exact hplaced.queue lid' q hq
  · rcases eq_or_ne lid' lid with rfl | hne
    · have hnew : t ∉ (s.pending lid').map (·.sleeper) := fun hin => by
        obtain ⟨q, hq, heq⟩ := List.mem_map.mp hin
        exact hout lid' q hq heq
      rw [update_self, Sem.enqueue]
      have hnd := h.sleepers lid'
      split <;> simp [List.nodup_append, hnd] <;> grind
    · rw [update_of_ne hne]
      exact h.sleepers lid'

/-- Entries leave a queue, or change their status. -/
theorem State.Linked.setPending (h : s.Linked) {qs : List Queue}
    (hsame : ∀ q ∈ qs, ∃ q₀ ∈ s.pending lid, q.Same q₀) (hnd : (qs.map (·.sleeper)).Nodup) :
    (s.setPending lid qs).Linked := by
  refine Links.requeue h (fun lid' q hq => ?_) (fun lid' => ?_) fun _ => .inl rfl
  · have hold : ∃ q₀ ∈ s.pending lid', q.Same q₀ := by
      rcases eq_or_ne lid' lid with rfl | hne
      · exact hsame q (by simpa [State.setPending] using hq)
      · exact ⟨q, by simpa [State.setPending, hne] using hq, rfl, rfl, rfl, rfl, rfl⟩
    obtain ⟨q₀, hq₀, hq₀'⟩ := hold
    refine ⟨⟨q₀, hq₀, hq₀'⟩, ?_⟩
    rw [hq₀'.1, hq₀'.2.1]
    exact (h.queue lid' q₀ hq₀).1
  · rcases eq_or_ne lid' lid with rfl | hne
    · simpa [State.setPending] using hnd
    · simpa [State.setPending, hne] using h.sleepers lid'

theorem State.Linked.link (h : s.Linked) {id : Nat} (ht : t < pidMax)
    (hset : s.sets lid = some hd) (hid : id = buildid lid hd.seq)
    (hnew : ∀ u ∈ s.semundo t, s.semid u ≠ some id) (hout : s.Out t) :
    (s.link t id).Linked := by
  have h : Links s.sets s.pending s.undo s.semid s.fresh s.semundo (update s.place t .user) :=
    Links.setPlace h hout trivial
  have hlid : lidOf id = lid := hid ▸ h.lidOf hset
  have hold : ∀ t' u, u ∈ s.semundo t' → u ≠ s.fresh := fun t' u hu => (h.fresh t' u hu).ne
  have hundo := h.fresh_undo
  unfold State.Linked State.link
  refine ⟨h.lid, fun lid' q hq => ?_, h.sleepers, fun lid' u hu => ?_, ?_, ?_, ?_, fun lid' => ?_,
    fun t' => ?_, ?_, ?_, fun t' id' addr nsems sops hplace => ?_, fun t' id' hplace => ?_⟩
  · obtain ⟨hp, hset', hun⟩ := h.queue lid' q hq
    refine ⟨hp, hset', hun.mono fun u hu _ => ?_⟩
    grind
  · have hcase : u = s.fresh ∧ lid' = lid ∨ u ∈ s.undo lid' := by grind
    rcases hcase with ⟨rfl, rfl⟩ | hu
    · exact ⟨t, hd, by simp, hset, by simp [hid]⟩
    · obtain ⟨t', h', hmem, hset', hid'⟩ := h.record lid' u hu
      exact ⟨t', h', by grind, hset', by grind⟩
  · have := h.linked
    grind
  · have := h.owner
    grind
  · have := h.fresh
    grind
  · have := h.once lid'
    grind
  · have := h.nodup t'
    grind
  · have := h.single
    grind
  · have := h.pids
    grind
  · have := h.allocating t' id' addr nsems sops hplace
    grind
  · obtain ⟨u, us, hus, hu⟩ := h.exiting t' id' hplace
    grind

theorem State.Linked.newary (h : s.Linked) (hfree : s.sets lid = none) (hlid : lid < seqMultiplier)
    (addr nsems : Nat) : (s.newary lid addr nsems).Linked := by
  have hset : ∀ lid' hd, s.sets lid' = some hd → update s.sets lid (some ⟨addr, s.seq, nsems⟩) lid' =
      some hd := by grind
  refine { h with lid := ?_, queue := fun lid' q hq => ?_, record := fun lid' u hu => ?_ }
  · have := h.lid
    unfold State.newary
    grind
  · obtain ⟨hp, ⟨hd, hset', hid⟩, hun⟩ := h.queue lid' q hq
    exact ⟨hp, ⟨hd, hset lid' hd hset', hid⟩, hun⟩
  · obtain ⟨t', hd, hmem, hset', hid⟩ := h.record lid' u hu
    exact ⟨t', hd, hmem, hset lid' hd hset', hid⟩

theorem State.Linked.freeary (h : s.Linked) (lid : Nat) : (s.freeary lid).Linked := by
  -- first the sleepers go, then the set with its records
  have hwoken : Links s.sets (update s.pending lid []) s.undo s.semid s.fresh s.semundo
      (wake ((s.pending lid).map fun q => (q, -EIDRM)) s.place) := by
    refine Links.requeue h (fun lid' q hq => ?_) (fun lid' => ?_) fun t => ?_
    · have hne : lid' ≠ lid := by
        rintro rfl
        simp at hq
      have hmem : q ∈ s.pending lid' := by simpa [hne] using hq
      refine ⟨⟨q, hmem, rfl, rfl, rfl, rfl, rfl⟩, ?_⟩
      rcases wake_cases ((s.pending lid).map fun q => (q, -EIDRM)) s.place q.sleeper with
        ⟨-, heq⟩ | ⟨_, _, ⟨w, hw, hsleeper⟩, -⟩
      · exact heq.trans (h.queue lid' q hmem).1
      · obtain ⟨q', hq', rfl⟩ := List.mem_map.mp hw
        exact absurd (h.same_set hmem hq' hsleeper.symm) hne
    · have := h.sleepers lid'
      grind
    · exact wake_idle _ s.place t
  have hlid : ∀ {lid u id}, u ∈ s.undo lid → s.semid u = some id → lidOf id = lid :=
    Links.record_lid h
  refine ⟨?_, fun lid' q hq => ?_, hwoken.sleepers, fun lid' u hu => ?_, ?_, h.owner, h.fresh, ?_,
    h.nodup, ?_, h.pids, fun t id addr nsems sops hp => ?_, fun t id hp => ?_⟩ <;>
    unfold State.freeary at * <;> dsimp only at *
  · have := h.lid
    grind
  · have hne : lid' ≠ lid := by
      rintro rfl
      simp at hq
    obtain ⟨hp, ⟨hd, hset, hid⟩, hun⟩ := hwoken.queue lid' q hq
    refine ⟨hp, ⟨hd, by simpa [hne] using hset, hid⟩, hun.mono fun u hu hid' => ⟨hu, ?_⟩⟩
    exact (if_neg fun hin => hne ((Links.mem_undo h hu hset (hid ▸ hid')).mp hin)).trans hid'
  · have hne : lid' ≠ lid := by
      rintro rfl
      simp at hu
    rw [update_of_ne hne] at hu
    obtain ⟨t, hd, hmem, hset, hid⟩ := h.record lid' u hu
    have hkeep : u ∉ s.undo lid := fun hu' => hne ((hlid hu hid).symm.trans (hlid hu' hid))
    exact ⟨t, hd, hmem, by rw [update_of_ne hne]; exact hset, (if_neg hkeep).trans hid⟩
  · have := h.linked
    grind
  · have := h.once
    grind
  · have := h.single
    grind
  · have := hwoken.allocating t id addr nsems sops hp
    grind
  · obtain ⟨u, us, hus, hu⟩ := hwoken.exiting t id hp
    exact ⟨u, us, hus, by grind⟩

/-- A record leaves its process and its set. -/
theorem State.Linked.applyUndo (h : s.Linked) {u : Nat} {us : List Nat}
    (hus : s.semundo t = u :: us) (hset : s.sets lid = some hd) (hu : u ∈ s.undo lid)
    (hp : ∀ id, s.place t ≠ .exiting (some id)) (hout : s.Out t) :
    ((s.setUndo t us).applyUndo t lid hd.nsems u).Linked := by
  have hmine : u ∈ s.semundo t := hus ▸ List.mem_cons_self
  have hle := Links.mem_rest h hus
  have hundo : ∀ lid' u', u' ∈ update s.undo lid ((s.undo lid).erase u) lid' ↔
      u' ∈ s.undo lid' ∧ u' ≠ u := by
    intro lid' u'
    rcases eq_or_ne lid' lid with rfl | hne
    · rw [update_self, (h.once lid').mem_erase_iff, and_comm]
    · rw [update_of_ne hne]
      refine ⟨fun hu' => ⟨hu', ?_⟩, fun hu' => hu'.1⟩
      rintro rfl
      obtain ⟨_, _, _, _, hid⟩ := h.record lid u' hu
      exact hne ((Links.record_lid h hu' hid).symm.trans (Links.record_lid h hu hid))
  refine ⟨h.lid, fun lid' q hq => ?_, h.sleepers, fun lid' u' hu' => ?_, ?_, ?_, ?_, ?_, ?_, ?_, ?_,
    fun t' id addr nsems sops hp' => ?_, fun t' id hp' => ?_⟩ <;>
    unfold State.applyUndo State.setUndo at * <;> dsimp only at *
  · obtain ⟨hp', hset', hun⟩ := h.queue lid' q hq
    refine ⟨hp', hset', hun.mono fun u' hu' hid => ⟨(hle _ _).mpr ⟨hu', ?_⟩, hid⟩⟩
    rintro rfl
    exact hout lid' q hq (h.owner _ _ _ hu' hmine)
  · obtain ⟨hu', hne⟩ := (hundo lid' u').mp hu'
    obtain ⟨t', hd', hmem, hset', hid⟩ := h.record lid' u' hu'
    exact ⟨t', hd', (hle _ _).mpr ⟨hmem, hne⟩, hset', hid⟩
  · intro t' u' hu' id hid
    obtain ⟨hu', hne⟩ := (hle t' u').mp hu'
    exact (hundo _ _).mpr ⟨h.linked t' u' hu' id hid, hne⟩
  · exact fun t₁ t₂ u' h₁ h₂ => h.owner t₁ t₂ u' ((hle _ _).mp h₁).1 ((hle _ _).mp h₂).1
  · exact fun t' u' hu' => h.fresh t' u' ((hle _ _).mp hu').1
  · have := h.once
    grind [List.Nodup.erase]
  · have := h.nodup
    grind
  · exact fun t' u₁ h₁ u₂ h₂ => h.single t' u₁ ((hle _ _).mp h₁).1 u₂ ((hle _ _).mp h₂).1
  · have := h.pids
    grind
  · have := h.allocating t' id addr nsems sops hp'
    grind
  · have hne : t' ≠ t := fun heq => hp id (heq ▸ hp')
    rw [update_of_ne hne]
    exact h.exiting t' id hp'

end

/-! ## Values -/

/-- What a process has done with `SEM_UNDO` on a semaphore since the value was set. -/
def owed : List Entry → Nat → Nat → Nat → Int
  | [], _, _, _ => 0
  | .done t' k sops :: log, t, lid, n =>
    (if t' = t ∧ k = lid then undoSum sops n else 0) + owed log t lid n
  | .set k lo hi :: log, t, lid, n =>
    if k = lid ∧ lo ≤ n ∧ n < hi then 0 else owed log t lid n
  | .created k :: log, t, lid, n => if k = lid then 0 else owed log t lid n
  | .undone t' k :: log, t, lid, n => if t' = t ∧ k = lid then 0 else owed log t lid n
  | .returned _ _ :: log, t, lid, n => owed log t lid n

/-- The values have the property `P`, which those that were checked have. They are no larger
than `SEMVMX` for every record that has something to add, and once more. -/
structure Values (P : Int → Prop) (sets : Nat → Option Head) (undo : Nat → List Nat)
    (semid : Nat → Option Nat) (semundo : Nat → List Nat) (semval : Nat → Nat → Int)
    (semadj : Nat → Nat → Int) (log : List Entry) : Prop where
  nonneg : ∀ lid n, 0 ≤ semval lid n
  value : ∀ lid n, P (semval lid n)
  short : ∀ u n, Short (semadj u n)
  bound : ∀ lid n, semval lid n + semvmx * ((undo lid).countP fun u => 0 < semadj u n : Nat) ≤
    semvmx * (pidMax + 1)
  owed : ∀ t, ∀ u ∈ semundo t, ∀ lid h, sets lid = some h → semid u = some (buildid lid h.seq) →
    ∀ n, semadj u n = -owed log t lid n
  clear : ∀ t lid h, sets lid = some h → (∀ u ∈ semundo t, semid u ≠ some (buildid lid h.seq)) →
    ∀ n, Sem.owed log t lid n = 0

def State.Valued (P : Int → Prop) (s : State) : Prop :=
  Values P s.sets s.undo s.semid s.semundo s.semval s.semadj s.log

section
variable {P : Int → Prop} {s : State} {lid t : Nat} {hd : Head} {sops : Sops} {un : Option Nat}

theorem State.Valued.le (h : s.Valued P) (lid n : Nat) : s.semval lid n ≤ semvmx * (pidMax + 1) := by
  have hbound := h.bound lid n
  unfold semvmx at *
  omega

theorem State.Valued.inRange (h : s.Valued P) (lid : Nat) : (s.cells lid).InRange := by
  refine ⟨fun n => ⟨h.nonneg lid n, ?_⟩, h.short⟩
  have hle := h.le lid n
  exact lt_of_le_of_lt hle (by decide)

theorem State.Linked.length_undo (h : s.Linked) (lid : Nat) : (s.undo lid).length ≤ pidMax := by
  choose owner howner using h.record lid
  have hinj : ∀ u hu u' hu', owner u hu = owner u' hu' → u = u' := by
    intro u hu u' hu' heq
    obtain ⟨hd, hmem, hset, hid⟩ := howner u hu
    obtain ⟨hd', hmem', hset', hid'⟩ := howner u' hu'
    rw [hset, Option.some.injEq] at hset'
    exact h.single _ u hmem u' (heq ▸ hmem') _ hid (hset' ▸ hid')
  have hnd : ((s.undo lid).pmap owner fun _ => id).Nodup :=
    (h.once lid).pmap fun u hu u' hu' => hinj u hu u' hu'
  have hsub : (s.undo lid).pmap owner (fun _ => id) ⊆ List.range pidMax := by
    intro t ht
    obtain ⟨u, hu, rfl⟩ := List.mem_pmap.mp ht
    obtain ⟨-, hmem, -⟩ := howner u hu
    exact List.mem_range.mpr (h.pids _ (List.ne_nil_of_mem hmem))
  have hlen := (List.subperm_of_subset hnd hsub).length_le
  rwa [List.length_pmap, List.length_range] at hlen

/-- The state after an attempt, with what it has done. -/
def State.tried (s : State) (t lid : Nat) (sops : Sops) (un : Option Nat) (doUndo : Bool) : State :=
  { s.putCells lid ((s.cells lid).after t sops un doUndo) with
    log := (if doUndo then [] else done t lid sops ((s.cells lid).result t sops un doUndo)) ++ s.log }

theorem State.Valued.tried (hl : s.Linked) (h : s.Valued P)
    (hP : ∀ x, 0 ≤ x → x ≤ semvmx → P x) (hset : s.sets lid = some hd)
    (hun : Undo s.semid s.semundo t (buildid lid hd.seq) sops un) (doUndo : Bool) :
    (s.tried t lid sops un doUndo).Valued P := by
  have hlid := Links.lidOf hl hset
  rcases Cells.attempt_cases (h.inRange lid) t sops un doUndo with
    ⟨hfits, rfl, hresult, hval, hadj⟩ | ⟨-, hzero, hval, hadj⟩
  · have hlog : (s.tried t lid sops un false).log = .done t lid sops.list :: s.log := by
      simp [State.tried, done, hresult]
    have hother : ∀ lid' n, lid' ≠ lid → (s.tried t lid sops un false).semval lid' n = s.semval lid' n :=
      fun lid' n hne => congrFun (update_of_ne hne _ _) n
    have hvalue n : (s.tried t lid sops un false).semval lid n =
        (applyAll sops.list ((s.cells lid).values un)).semval n := by
      rw [← hval]
      exact congrFun (update_self ..) n
    have hadj : ∀ u n, (s.tried t lid sops un false).semadj u n =
        s.semadj u n - if un = some u then undoSum sops.list n else 0 := by
      intro u n
      refine (congrFun (hadj u) n).trans ?_
      split
      · next heq => rw [applyAll_semadj, heq]; rfl
      · exact (Int.sub_zero _).symm
    have hcases n : ((s.tried t lid sops un false).semval lid n = s.semval lid n ∧
        ∀ u, (s.tried t lid sops un false).semadj u n = s.semadj u n) ∨
        0 ≤ (s.tried t lid sops un false).semval lid n ∧
          (s.tried t lid sops un false).semval lid n ≤ semvmx := by
      rw [hvalue]
      refine (applyAll_cases hfits n).imp_left fun ⟨hsame, hadj'⟩ => ?_
      rw [applyAll_semadj] at hadj'
      cases un with
      | none => exact ⟨hsame, fun u => by simp [hadj]⟩
      | some w => exact ⟨hsame, fun u => by rw [hadj]; grind⟩
    have hshort : ∀ u n, Short ((s.tried t lid sops un false).semadj u n) := by
      intro u n
      rw [hadj]
      split
      · next heq =>
        subst heq
        have hs := applyAll_short hfits (h.short u n)
        rwa [applyAll_semadj] at hs
      · simpa using h.short u n
    refine ⟨fun lid' n => ?_, fun lid' n => ?_, hshort, fun lid' n => ?_,
      fun t' u hu lid' h' hset' hid n => ?_, fun t' lid' h' hset' hnone n => ?_⟩
    · have := h.nonneg lid' n
      grind
    · have := h.value lid' n
      grind
    · have hbound := h.bound lid' n
      rcases eq_or_ne lid' lid with rfl | hne
      · rcases hcases n with ⟨hsame, hadj'⟩ | hrange
        · rw [hsame]
          simp only [hadj']
          exact hbound
        · have hcount := (List.countP_le_length
            (p := fun u => decide (0 < (s.tried t lid' sops un false).semadj u n))).trans
            (hl.length_undo lid')
          show _ + semvmx * ((s.undo lid').countP _ : Nat) ≤ _
          unfold semvmx at *
          omega
      · -- the record belongs to no other set
        have hcount : (s.undo lid').countP (fun u => decide (0 < (s.tried t lid sops un false).semadj u n))
            = (s.undo lid').countP fun u => decide (0 < s.semadj u n) := by
          refine List.countP_congr fun u hu => ?_
          have hne' : un ≠ some u := by
            rintro rfl
            exact hne ((Links.record_lid hl hu hun.2).symm.trans hlid)
          rw [hadj, if_neg hne', Int.sub_zero]
        rw [hother lid' n hne]
        show _ + semvmx * ((s.undo lid').countP _ : Nat) ≤ _
        rw [hcount]
        exact hbound
    · have howed := h.owed t' u hu lid' h' hset' hid n
      have hmine : un = some u → t = t' ∧ lid = lid' := by
        rintro rfl
        have hid' := Option.some.inj (hun.2.symm.trans hid)
        refine ⟨hl.owner _ _ _ hun.1 hu, ?_⟩
        rw [← hlid, hid', Links.lidOf hl hset']
      have hnot : t = t' ∧ lid = lid' → un ≠ some u → undoSum sops.list n = 0 := by
        rintro ⟨rfl, rfl⟩ hne
        cases un with
        | none => exact undoSum_eq_zero hun n
        | some w =>
          have heq : hd = h' := Option.some.inj (hset.symm.trans hset')
          exact absurd (congrArg some (hl.single t w hun.1 u hu _ hun.2 (heq ▸ hid))) hne
      rw [hadj, hlog, Sem.owed]
      grind
    · have hclear := h.clear t' lid' h' hset' hnone n
      have hnot : t = t' ∧ lid = lid' → undoSum sops.list n = 0 := by
        rintro ⟨rfl, rfl⟩
        cases un with
        | none => exact undoSum_eq_zero hun n
        | some w =>
          have heq : hd = h' := Option.some.inj (hset.symm.trans hset')
          exact absurd (heq ▸ hun.2) (hnone w hun.1)
      rw [hlog, Sem.owed]
      grind
  · have hlog : (s.tried t lid sops un doUndo).log = s.log := by
      unfold State.tried done
      grind
    have hsame : (s.tried t lid sops un doUndo).semval = s.semval := update_eq_self_iff.mpr hval
    have hadj' : (s.tried t lid sops un doUndo).semadj = s.semadj := hadj
    unfold State.Valued
    rw [hlog, hsame, hadj']
    exact h

/-- A pass keeps what an attempt keeps. -/
theorem State.Valued.pass (hl : s.Linked) (h : s.Valued P)
    (hP : ∀ x, 0 ≤ x → x ≤ semvmx → P x) (lid : Nat) : (s.pass lid).Valued P := by
  have hcells : ∀ c log, State.cells { s.putCells lid c with log := log } lid = c := by
    intro c log
    simp [State.cells, State.putCells]
  refine updateQueue_invariant (I := fun c log => State.Valued P { s.putCells lid c with log := log })
    (fun q hq c log hI => ?_) ?_
  · obtain ⟨-, ⟨hd, hset, hid⟩, hun⟩ := hl.queue lid q hq
    have htried := State.Valued.tried (s := { s.putCells lid c with log := log }) hl hI hP hset
      (hid ▸ hun) q.alter
    unfold State.tried at htried
    rw [hcells] at htried
    simpa [State.putCells] using htried
  · simpa [State.putCells, State.cells] using h

theorem State.Valued.setUndo (h : s.Valued P) {us : List Nat} (hsub : us ⊆ s.semundo t)
    (hkeep : ∀ u ∈ s.semundo t, u ∉ us → s.semid u = none) : (s.setUndo t us).Valued P := by
  refine { h with owed := fun t' u hu => ?_, clear := fun t' lid hd hset hnone => ?_ }
  · exact h.owed t' u (by unfold State.setUndo at hu; grind)
  · refine h.clear t' lid hd hset fun u hu heq => hnone u ?_ heq
    unfold State.setUndo
    grind

theorem State.Valued.link (hl : s.Linked) (h : s.Valued P) {id : Nat} (hset : s.sets lid = some hd)
    (hid : id = buildid lid hd.seq) (hnew : ∀ u ∈ s.semundo t, s.semid u ≠ some id) :
    (s.link t id).Valued P := by
  have hlid : lidOf id = lid := hid ▸ Links.lidOf hl hset
  have hold : ∀ t' u, u ∈ s.semundo t' → u ≠ s.fresh := fun t' u hu => (hl.fresh t' u hu).ne
  have hundo := Links.fresh_undo hl
  have hadj : ∀ u, u ≠ s.fresh → (s.link t id).semadj u = s.semadj u := fun u hne =>
    update_of_ne hne _ _
  refine ⟨h.nonneg, h.value, fun u n => ?_, fun lid' n => ?_,
    fun t' u hu lid' h' hset' hid' n => ?_, fun t' lid' h' hset' hnone => ?_⟩
  · rcases eq_or_ne u s.fresh with rfl | hne
    · simp [State.link, Short]
    · rw [hadj u hne]
      exact h.short u n
  · have hcount : ((s.link t id).undo lid').countP (fun u => decide (0 < (s.link t id).semadj u n)) =
        (s.undo lid').countP fun u => decide (0 < s.semadj u n) := by
      have hsame : (s.undo lid').countP (fun u => decide (0 < (s.link t id).semadj u n)) =
          (s.undo lid').countP fun u => decide (0 < s.semadj u n) :=
        List.countP_congr fun u hu => by rw [hadj u fun heq => hundo lid' (heq ▸ hu)]
      rw [← hsame]
      rcases eq_or_ne lid' lid with rfl | hne
      · have : (s.link t id).undo lid' = s.fresh :: s.undo lid' := by simp [State.link, hlid]
        rw [this, List.countP_cons_of_neg]
        simp [State.link]
      · rw [show (s.link t id).undo lid' = s.undo lid' by simp [State.link, hlid, hne]]
    rw [hcount]
    exact h.bound lid' n
  · rcases eq_or_ne u s.fresh with rfl | hne
    · have ht : t' = t := by
        by_contra hne
        exact hold t' _ (by simpa [State.link, hne] using hu) rfl
      have hid : id = buildid lid' h'.seq := by simpa [State.link] using hid'
      subst ht
      have hzero := h.clear t' lid' h' hset' (by rwa [hid] at hnew) n
      have hadj0 : (s.link t' id).semadj s.fresh n = 0 := by simp [State.link]
      rw [hadj0, show (s.link t' id).log = s.log from rfl, hzero, Int.neg_zero]
    · rw [hadj u hne]
      refine h.owed t' u ?_ lid' h' hset' (by simpa [State.link, hne] using hid') n
      unfold State.link at hu
      grind
  · refine h.clear t' lid' h' hset' fun u hu heq => hnone u ?_ ?_
    · unfold State.link
      grind
    · simpa [State.link, hold t' u hu] using heq

theorem State.Valued.set (hl : s.Linked) (h : s.Valued P) (hP : ∀ x, 0 ≤ x → x ≤ semvmx → P x)
    {lo hi : Nat} {vals : Nat → Int} (hvals : ∀ n, lo ≤ n → n < hi → 0 ≤ vals n ∧ vals n ≤ semvmx) :
    Values P s.sets s.undo s.semid s.semundo
      (update s.semval lid fun n => if lo ≤ n ∧ n < hi then vals n else s.semval lid n)
      (fun u n => if u ∈ s.undo lid ∧ lo ≤ n ∧ n < hi then 0 else s.semadj u n)
      (.set lid lo hi :: s.log) := by
  have hval : ∀ lid' n, update s.semval lid (fun n => if lo ≤ n ∧ n < hi then vals n
      else s.semval lid n) lid' n = s.semval lid' n ∨ lid' = lid ∧ (lo ≤ n ∧ n < hi) ∧
      update s.semval lid (fun n => if lo ≤ n ∧ n < hi then vals n else s.semval lid n) lid' n = vals n := by
    intro lid' n
    rcases eq_or_ne lid' lid with rfl | hne
    · grind
    · exact .inl (congrFun (update_of_ne hne _ _) n)
  refine ⟨fun lid' n => ?_, fun lid' n => ?_, fun u n => ?_, fun lid' n => ?_,
    fun t' u hu lid' h' hset' hid n => ?_, fun t' lid' h' hset' hnone n => ?_⟩
  · have := h.nonneg lid' n
    grind
  · have := h.value lid' n
    grind
  · split
    · exact ⟨by decide, by decide⟩
    · exact h.short u n
  · have hbound := h.bound lid' n
    rcases hval lid' n with heq | ⟨rfl, hn, heq⟩
    · have hcount := List.countP_mono_left (l := s.undo lid')
        (p := fun u => decide (0 < if u ∈ s.undo lid ∧ lo ≤ n ∧ n < hi then 0 else s.semadj u n))
        (q := fun u => decide (0 < s.semadj u n)) (by grind)
      unfold semvmx at *
      omega
    · have hcount : (s.undo lid').countP (fun u => decide
          (0 < if u ∈ s.undo lid' ∧ lo ≤ n ∧ n < hi then 0 else s.semadj u n)) = 0 :=
        List.countP_eq_zero.mpr (by grind)
      have hrange := (hvals n hn.1 hn.2).2
      unfold semvmx pidMax at *
      omega
  · have howed := h.owed t' u hu lid' h' hset' hid n
    have hiff : u ∈ s.undo lid ↔ _ := Links.mem_undo hl hu hset' hid
    rw [Sem.owed]
    grind
  · have hclear := h.clear t' lid' h' hset' hnone n
    rw [Sem.owed]
    grind

theorem State.Valued.newary (hl : s.Linked) (h : s.Valued P) (hP : ∀ x, 0 ≤ x → x ≤ semvmx → P x)
    (hfree : s.sets lid = none) (hlid : lid < seqMultiplier) (addr nsems : Nat) :
    (s.newary lid addr nsems).Valued P := by
  have hval : ∀ lid' n, (s.newary lid addr nsems).semval lid' n = 0 ∨
      (s.newary lid addr nsems).semval lid' n = s.semval lid' n := by
    intro lid' n
    rcases eq_or_ne lid' lid with rfl | hne
    · exact .inl (by simp [State.newary])
    · exact .inr (by simp [State.newary, hne])
  have hzero := hP 0 le_rfl (by decide)
  have hset : ∀ lid' hd, lid' ≠ lid → (s.newary lid addr nsems).sets lid' = some hd →
      s.sets lid' = some hd := fun lid' hd hne heq => (update_of_ne hne _ _).symm.trans heq
  refine ⟨fun lid' n => ?_, fun lid' n => ?_, h.short, fun lid' n => ?_,
    fun t' u hu lid' h' hset' hid n => ?_, fun t' lid' h' hset' hnone n => ?_⟩
  · have := h.nonneg lid' n
    grind
  · have := h.value lid' n
    grind
  · have := h.bound lid' n
    have := h.nonneg lid' n
    show _ + semvmx * ((s.undo lid').countP (fun u => decide (0 < s.semadj u n)) : Nat) ≤ _
    grind
  · have hne : lid' ≠ lid := by
      rintro rfl
      -- no record has the identifier of the new set
      have hin := hl.linked t' u hu _ hid
      rw [lidOf_buildid hlid] at hin
      obtain ⟨_, _, _, hset'', _⟩ := hl.record lid' u hin
      rw [hfree] at hset''
      cases hset''
    rw [State.newary, Sem.owed, if_neg hne.symm]
    exact h.owed t' u hu lid' h' (hset lid' h' hne hset') hid n
  · rw [State.newary, Sem.owed]
    split
    · rfl
    · next hne => exact h.clear t' lid' h' (hset lid' h' (Ne.symm hne) hset') hnone n

theorem State.Valued.freeary (hl : s.Linked) (h : s.Valued P) (lid : Nat) :
    (s.freeary lid).Valued P := by
  have hset : ∀ lid' hd, (s.freeary lid).sets lid' = some hd → lid' ≠ lid ∧ s.sets lid' = some hd := by
    intro lid' hd hset
    unfold State.freeary at hset
    grind
  have hid : ∀ u id, (s.freeary lid).semid u = some id ↔ u ∉ s.undo lid ∧ s.semid u = some id := by
    intro u id
    unfold State.freeary
    grind
  refine ⟨h.nonneg, h.value, h.short, fun lid' n => ?_, fun t' u hu lid' h' hset' hid' n => ?_,
    fun t' lid' h' hset' hnone n => ?_⟩
  · have hbound := h.bound lid' n
    have hle := h.le lid' n
    rcases eq_or_ne lid' lid with rfl | hne
    · simpa [State.freeary] using hle
    · have hundo : (s.freeary lid).undo lid' = s.undo lid' := update_of_ne hne _ _
      rw [hundo]
      exact hbound
  · exact h.owed t' u hu lid' h' (hset lid' h' hset').2 ((hid u _).mp hid').2 n
  · obtain ⟨hne, hset'⟩ := hset lid' h' hset'
    refine h.clear t' lid' h' hset' (fun u hu heq => hnone u hu ((hid u _).mpr ⟨?_, heq⟩)) n
    exact fun hin => hne ((Links.mem_undo hl hu hset' heq).mp hin)

theorem adjust_le (val : Int) {adj : Int} (hval : 0 ≤ val) (hadj : Short adj)
    (hle : val ≤ semvmx * (pidMax + 1)) : adjust val adj = max 0 (val + adj) := by
  unfold Short at hadj
  unfold semvmx pidMax at hle
  rw [adjust, int32_eq ⟨by omega, by omega⟩]
  split <;> omega

theorem State.Valued.applyUndo (hl : s.Linked) (h : s.Valued P) {u : Nat} {us : List Nat}
    (hus : s.semundo t = u :: us) (hset : s.sets lid = some hd) (hu₀ : u ∈ s.undo lid)
    (hadj : ∀ n < hd.nsems, P (adjust (s.semval lid n) (s.semadj u n))) :
    ((s.setUndo t us).applyUndo t lid hd.nsems u).Valued P := by
  have hmine : u ∈ s.semundo t := hus ▸ List.mem_cons_self
  obtain ⟨_, hd', _, hset', hid⟩ := hl.record lid u hu₀
  obtain rfl : hd = hd' := Option.some.inj (hset.symm.trans hset')
  have hother := Links.mem_rest hl hus
  have hval : ∀ lid' n, ((s.setUndo t us).applyUndo t lid hd.nsems u).semval lid' n =
      if lid' = lid ∧ n < hd.nsems then adjust (s.semval lid n) (s.semadj u n) else s.semval lid' n := by
    intro lid' n
    rcases eq_or_ne lid' lid with rfl | hne
    · simp [State.applyUndo, State.setUndo]
    · simp [State.applyUndo, State.setUndo, hne]
  have hmax n := adjust_le (s.semval lid n) (h.nonneg lid n) (h.short u n) (h.le lid n)
  refine ⟨fun lid' n => ?_, fun lid' n => ?_, h.short, fun lid' n => ?_,
    fun t' u' hu' lid' h' hset' hid' n => ?_, fun t' lid' h' hset' hnone n => ?_⟩
  · have := h.nonneg lid' n
    grind
  · have := h.value lid' n
    grind
  · have hbound := h.bound lid' n
    rw [hval]
    rcases eq_or_ne lid' lid with rfl | hne
    · have hcount : ((s.undo lid').erase u).countP (fun u => decide (0 < s.semadj u n)) +
          (if 0 < s.semadj u n then 1 else 0) = (s.undo lid').countP fun u => decide (0 < s.semadj u n) := by
        rw [(List.perm_cons_erase hu₀).countP_eq, List.countP_cons]
        simp
      have hshort := h.short u n
      show _ + semvmx * ((update s.undo lid' ((s.undo lid').erase u) lid').countP
        (fun u => decide (0 < s.semadj u n)) : Nat) ≤ _
      rw [update_self, hmax]
      have hnonneg := h.nonneg lid' n
      unfold Short at hshort
      unfold semvmx at *
      split at hcount <;> split <;> omega
    · rw [if_neg fun h => hne h.1]
      show _ + semvmx * ((update s.undo lid ((s.undo lid).erase u) lid').countP
        (fun u => decide (0 < s.semadj u n)) : Nat) ≤ _
      rw [update_of_ne hne]
      exact hbound
  · have hu' := (hother t' u').mp hu'
    have howed := h.owed t' u' hu'.1 lid' h' hset' hid' n
    have hne : ¬(t = t' ∧ lid = lid') := by
      rintro ⟨rfl, rfl⟩
      obtain rfl : hd = h' := Option.some.inj (hset.symm.trans hset')
      exact hu'.2 (hl.single t u' hu'.1 u hmine _ hid' hid)
    rw [State.applyUndo, Sem.owed, if_neg hne]
    exact howed
  · rw [State.applyUndo, Sem.owed]
    split
    · rfl
    next hne =>
    refine h.clear t' lid' h' hset' (fun u' hu' hid' => ?_) n
    rcases eq_or_ne u' u with rfl | hu
    · have ht := hl.owner t' t u' hu' hmine
      exact hne ⟨ht.symm, ((Links.mem_undo hl hu' hset' hid').mp hu₀).symm⟩
    · exact hnone u' ((hother t' u').mpr ⟨hu', hu⟩) hid'

end

end CustomKernel.Ipc.Sem

import Mathlib.Algebra.Order.Ring.Int

/-! # Sets of semaphore operations

`try_atomic_semop` applies the operations of a set one after the other and takes them back,
from the one at which it stops down to the first, when they cannot all be done. `semval` is
an `int`, `semadj` and `sem_op` are `short`. -/
namespace CustomKernel.Ipc.Semop
open Function

/-! ## Data -/

def semvmx : Int := 32767
def semaem : Int := semvmx

def EAGAIN : Int := 11
def ERANGE : Int := 34

/-- A value as an `int` holds it. -/
def int32 (x : Int) : Int := (x + 2 ^ 31) % 2 ^ 32 - 2 ^ 31

/-- A value as a `short` holds it. -/
def int16 (x : Int) : Int := (x + 2 ^ 15) % 2 ^ 16 - 2 ^ 15

structure Sembuf where
  semNum : Nat
  semOp : Int
  /-- `IPC_NOWAIT` -/
  nowait : Bool
  /-- `SEM_UNDO` -/
  undo : Bool
deriving DecidableEq, Repr

/-- The values of an array and the adjustments of an undo structure. -/
structure Values where
  semval : Nat → Int
  semadj : Nat → Int

structure State extends Values where
  sempid : Nat → BitVec 32

/-! ## One operation -/

def Values.addVal (v : Values) (n : Nat) (x : Int) : Values :=
  { v with semval := update v.semval n (int32 (v.semval n + x)) }

def Values.setAdj (v : Values) (n : Nat) (x : Int) : Values :=
  { v with semadj := update v.semadj n (int16 x) }

/-- The new process identifier is shifted in, above the one before. -/
def State.pushPid (s : State) (n : Nat) (pid : BitVec 32) : State :=
  { s with sempid := update s.sempid n (s.sempid n <<< 16 ||| pid) }

def State.popPid (s : State) (n : Nat) : State :=
  { s with sempid := update s.sempid n ((s.sempid n).sshiftRight 16) }

def State.addVal (s : State) (n : Nat) (x : Int) : State :=
  { s with toValues := s.toValues.addVal n x }

def State.setAdj (s : State) (n : Nat) (x : Int) : State :=
  { s with toValues := s.toValues.setAdj n x }

/-- One turn of the loop at `undo`. -/
def State.takeBack (s : State) (sop : Sembuf) : State :=
  let s := (s.addVal sop.semNum (-sop.semOp)).popPid sop.semNum
  if sop.undo then s.setAdj sop.semNum (s.semadj sop.semNum + sop.semOp) else s

/-! ## The whole set -/

/-- How the first loop ends, with the operations it has come to, the last one first. -/
inductive Scan where
  | fits (done : List Sembuf) (s : State)
  | stops (result : Int) (done : List Sembuf) (s : State)

def wouldBlock (sop : Sembuf) : Int := if sop.nowait then -EAGAIN else 1

def scan (pid : BitVec 32) : (done rest : List Sembuf) → State → Scan
  | done, [], s => .fits done s
  | done, sop :: rest, s =>
    if sop.semOp = 0 ∧ s.semval sop.semNum ≠ 0 then .stops (wouldBlock sop) (sop :: done) s
    else
      let s := (s.pushPid sop.semNum pid).addVal sop.semNum sop.semOp
      let undo := s.semadj sop.semNum - sop.semOp
      if sop.undo = true ∧ (undo < -semaem - 1 ∨ undo > semaem) then
        -- the undo is not undone
        .stops (-ERANGE) ({ sop with undo := false } :: done) s
      else
        let s := if sop.undo then s.setAdj sop.semNum undo else s
        if s.semval sop.semNum < 0 then .stops (wouldBlock sop) (sop :: done) s
        else if s.semval sop.semNum > semvmx then .stops (-ERANGE) (sop :: done) s
        else scan pid (sop :: done) rest s

def takeBackAll (done : List Sembuf) (s : State) : State := done.foldl State.takeBack s

def tryAtomicSemop (sops : List Sembuf) (pid : BitVec 32) (doUndo : Bool) (s : State) :
    Int × State :=
  match scan pid [] sops s with
  | .fits done s => if doUndo then (0, takeBackAll done s) else (0, s)
  | .stops result done s => (result, takeBackAll done s)

/-! ## What it is for -/

/-- The result of an operation, if it may be done. -/
def Values.apply (v : Values) (sop : Sembuf) : Values where
  semval := update v.semval sop.semNum (v.semval sop.semNum + sop.semOp)
  semadj :=
    if sop.undo then
      update v.semadj sop.semNum (v.semadj sop.semNum - sop.semOp)
    else v.semadj

def Legal (v : Values) (sop : Sembuf) : Prop :=
  (sop.semOp = 0 → v.semval sop.semNum = 0) ∧
    0 ≤ v.semval sop.semNum + sop.semOp ∧ v.semval sop.semNum + sop.semOp ≤ semvmx ∧
    (sop.undo = true →
      -semaem - 1 ≤ v.semadj sop.semNum - sop.semOp ∧ v.semadj sop.semNum - sop.semOp ≤ semaem)

def applyAll (sops : List Sembuf) (v : Values) : Values := sops.foldl Values.apply v

/-- Every operation may be done when its turn comes. -/
def AllLegal : List Sembuf → Values → Prop
  | [], _ => True
  | sop :: sops, v => Legal v sop ∧ AllLegal sops (v.apply sop)

/-- The values that the types can hold. -/
structure Values.InRange (v : Values) : Prop where
  semval : ∀ n, -2 ^ 31 ≤ v.semval n ∧ v.semval n < 2 ^ 31
  semadj : ∀ n, -2 ^ 15 ≤ v.semadj n ∧ v.semadj n < 2 ^ 15

def Sembuf.InRange (sop : Sembuf) : Prop := -2 ^ 15 ≤ sop.semOp ∧ sop.semOp < 2 ^ 15

instance (sop : Sembuf) : Decidable sop.InRange := inferInstanceAs (Decidable (_ ∧ _))

/-! ## Taking back -/

theorem int32_eq {x : Int} (h : -2 ^ 31 ≤ x ∧ x < 2 ^ 31) : int32 x = x := by
  unfold int32
  omega

theorem int16_eq {x : Int} (h : -2 ^ 15 ≤ x ∧ x < 2 ^ 15) : int16 x = x := by
  unfold int16
  omega

theorem int32_add_sub {x y : Int} (h : -2 ^ 31 ≤ x ∧ x < 2 ^ 31) :
    int32 (int32 (x + y) + -y) = x := by
  unfold int32
  omega

theorem int16_sub_add {x y : Int} (h : -2 ^ 15 ≤ x ∧ x < 2 ^ 15) :
    int16 (int16 (x - y) + y) = x := by
  unfold int16
  omega

section
variable {v : Values} {s : State} {sop : Sembuf} {n : Nat} {pid : BitVec 32}

theorem addVal_cancel (hv : v.InRange) (n : Nat) (x : Int) :
    (v.addVal n x).addVal n (-x) = v := by
  simp [Values.addVal, int32_add_sub (hv.semval n)]

theorem setAdj_cancel (hv : v.InRange) (n : Nat) (x : Int) :
    (v.setAdj n (v.semadj n - x)).setAdj n ((v.setAdj n (v.semadj n - x)).semadj n + x) = v := by
  simp [Values.setAdj, int16_sub_add (hv.semadj n)]

/-- The values after a turn of the loop at `undo`. -/
def Values.takeBack (v : Values) (sop : Sembuf) : Values :=
  let v := v.addVal sop.semNum (-sop.semOp)
  if sop.undo then v.setAdj sop.semNum (v.semadj sop.semNum + sop.semOp) else v

theorem takeBack_values (s : State) (sop : Sembuf) :
    (s.takeBack sop).toValues = s.toValues.takeBack sop := by
  unfold State.takeBack Values.takeBack
  split <;> rfl

theorem takeBackAll_values (done : List Sembuf) (s : State) :
    (takeBackAll done s).toValues = done.foldl Values.takeBack s.toValues := by
  induction done generalizing s with
  | nil => rfl
  | cons sop done ih =>
    rw [takeBackAll, List.foldl_cons, List.foldl_cons, ← takeBack_values]
    exact ih _

/-- The values after an operation that is in range for the undo. -/
def Values.applied (v : Values) (sop : Sembuf) : Values :=
  let v := v.addVal sop.semNum sop.semOp
  if sop.undo then v.setAdj sop.semNum (v.semadj sop.semNum - sop.semOp) else v

theorem addVal_inRange (hv : v.InRange) (n : Nat) (x : Int) : (v.addVal n x).InRange := by
  refine ⟨fun m => ?_, hv.semadj⟩
  rcases eq_or_ne m n with rfl | hne
  · simp only [Values.addVal, update_self]
    unfold int32
    omega
  · simp only [Values.addVal, update_of_ne hne]
    exact hv.semval m

theorem setAdj_inRange (hv : v.InRange) (n : Nat) (x : Int) : (v.setAdj n x).InRange := by
  refine ⟨hv.semval, fun m => ?_⟩
  rcases eq_or_ne m n with rfl | hne
  · simp only [Values.setAdj, update_self]
    unfold int16
    omega
  · simp only [Values.setAdj, update_of_ne hne]
    exact hv.semadj m

theorem applied_inRange (hv : v.InRange) (sop : Sembuf) : (v.applied sop).InRange := by
  unfold Values.applied
  split
  · exact setAdj_inRange (addVal_inRange hv _ _) _ _
  · exact addVal_inRange hv _ _

theorem takeBack_applied (hv : v.InRange) (sop : Sembuf) : (v.applied sop).takeBack sop = v := by
  unfold Values.takeBack Values.applied
  cases sop.undo with
  | false => exact addVal_cancel hv _ _
  | true =>
    -- the two parts of an operation do not touch each other
    have hcancel := setAdj_cancel hv sop.semNum sop.semOp
    calc _ = ((v.addVal sop.semNum sop.semOp).addVal sop.semNum (-sop.semOp)
          |>.setAdj sop.semNum (v.semadj sop.semNum - sop.semOp)
          |>.setAdj sop.semNum
            ((v.setAdj sop.semNum (v.semadj sop.semNum - sop.semOp)).semadj sop.semNum +
              sop.semOp)) := rfl
      _ = v := by rw [addVal_cancel hv, hcancel]

theorem takeBack_zero (hv : v.InRange) (hop : sop.semOp = 0) : v.takeBack sop = v := by
  have hadd : ∀ n, v.addVal n (-0) = v := by
    intro n
    simp [Values.addVal, int32_eq (hv.semval n)]
  have hadj : ∀ n, v.setAdj n (v.semadj n + 0) = v := by
    intro n
    simp [Values.setAdj, int16_eq (hv.semadj n)]
  simp only [Values.takeBack, hop, hadd, hadj, ite_self]

theorem applied_eq (hlegal : Legal v sop) : v.applied sop = v.apply sop := by
  obtain ⟨-, hlow, hhigh, hundo⟩ := hlegal
  have hval : int32 (v.semval sop.semNum + sop.semOp) = v.semval sop.semNum + sop.semOp :=
    int32_eq ⟨by omega, by unfold semvmx at hhigh; omega⟩
  unfold Values.applied Values.apply
  cases hu : sop.undo with
  | false => simp [Values.addVal, hval]
  | true =>
    have hadj := hundo hu
    unfold semaem semvmx at hadj
    have hadj' : int16 (v.semadj sop.semNum - sop.semOp) = v.semadj sop.semNum - sop.semOp :=
      int16_eq ⟨by omega, by omega⟩
    simp [Values.addVal, Values.setAdj, hval, hadj']

theorem wouldBlock_ne_zero (sop : Sembuf) : wouldBlock sop ≠ 0 := by
  unfold wouldBlock
  split <;> decide

/-- The state after an operation that is in range for the undo. -/
def State.applied (pid : BitVec 32) (s : State) (sop : Sembuf) : State :=
  let s := (s.pushPid sop.semNum pid).addVal sop.semNum sop.semOp
  if sop.undo then s.setAdj sop.semNum (s.semadj sop.semNum - sop.semOp) else s

theorem State.applied_values : (s.applied pid sop).toValues = s.toValues.applied sop := by
  unfold State.applied Values.applied
  split <;> rfl

theorem State.applied_sempid :
    (s.applied pid sop).sempid = (s.pushPid sop.semNum pid).sempid := by
  unfold State.applied
  split <;> rfl

theorem applied_semval :
    (v.applied sop).semval sop.semNum = int32 (v.semval sop.semNum + sop.semOp) := by
  unfold Values.applied
  split <;> exact update_self ..

/-- The operation waits for zero in vain. -/
def Waits (v : Values) (sop : Sembuf) : Prop := sop.semOp = 0 ∧ v.semval sop.semNum ≠ 0

instance (v : Values) (sop : Sembuf) : Decidable (Waits v sop) :=
  inferInstanceAs (Decidable (_ ∧ _))

/-- A turn of the first loop: it stops, or the operation is legal. An operation that waits for
zero stops it before the process identifier is shifted in. -/
theorem scan_cons (pid : BitVec 32) (hs : s.toValues.InRange) (hop : sop.InRange)
    (done rest : List Sembuf) :
    (∃ result sop' s', scan pid done (sop :: rest) s = .stops result (sop' :: done) s' ∧
      ¬ Legal s.toValues sop ∧ result ≠ 0 ∧ s'.toValues.takeBack sop' = s.toValues ∧
      sop'.semNum = sop.semNum ∧
      s'.sempid = (if Waits s.toValues sop then s else s.pushPid sop.semNum pid).sempid) ∨
    scan pid done (sop :: rest) s = scan pid (sop :: done) rest (s.applied pid sop) ∧
      Legal s.toValues sop := by
  have hback : (s.applied pid sop).toValues.takeBack sop = s.toValues := by
    rw [State.applied_values, takeBack_applied hs]
  have hval : (s.applied pid sop).semval sop.semNum =
      int32 (s.semval sop.semNum + sop.semOp) := by
    rw [State.applied_values, applied_semval]
  have hpid : (s.applied pid sop).sempid = (s.pushPid sop.semNum pid).sempid :=
    State.applied_sempid
  by_cases hzero : sop.semOp = 0 ∧ s.semval sop.semNum ≠ 0
  · refine .inl ⟨_, _, _, ?_, fun h => hzero.2 (h.1 hzero.1), wouldBlock_ne_zero sop,
      takeBack_zero hs hzero.1, rfl, ?_⟩
    · rw [scan, if_pos hzero]
    · rw [if_pos (show Waits s.toValues sop from hzero)]
  have hwaits : ¬ Waits s.toValues sop := hzero
  simp only [if_neg hwaits]
  by_cases hrange : sop.undo = true ∧
      (s.semadj sop.semNum - sop.semOp < -semaem - 1 ∨ s.semadj sop.semNum - sop.semOp > semaem)
  · refine .inl ⟨-ERANGE, { sop with undo := false },
      (s.pushPid sop.semNum pid).addVal sop.semNum sop.semOp, ?_, fun h => ?_, by decide,
      addVal_cancel hs _ _, rfl, rfl⟩
    · rw [scan, if_neg hzero]
      exact if_pos hrange
    · have hundo := h.2.2.2 hrange.1
      omega
  have hscan : scan pid done (sop :: rest) s =
      if (s.applied pid sop).semval sop.semNum < 0 then
        .stops (wouldBlock sop) (sop :: done) (s.applied pid sop)
      else if (s.applied pid sop).semval sop.semNum > semvmx then
        .stops (-ERANGE) (sop :: done) (s.applied pid sop)
      else scan pid (sop :: done) rest (s.applied pid sop) := by
    rw [scan, if_neg hzero]
    exact if_neg hrange
  rw [hscan, hval]
  have hlegal : Legal s.toValues sop ↔ 0 ≤ s.semval sop.semNum + sop.semOp ∧
      s.semval sop.semNum + sop.semOp ≤ semvmx := by
    refine ⟨fun h => ⟨h.2.1, h.2.2.1⟩, fun h => ⟨?_, h.1, h.2, ?_⟩⟩
    · intro h0
      by_contra hne
      exact hzero ⟨h0, hne⟩
    · intro hu
      by_contra hnot
      exact hrange ⟨hu, by omega⟩
  -- a sum that is legal does not wrap
  have hwrap : 0 ≤ s.semval sop.semNum + sop.semOp ∧ s.semval sop.semNum + sop.semOp ≤ semvmx →
      int32 (s.semval sop.semNum + sop.semOp) = s.semval sop.semNum + sop.semOp := by
    intro h
    unfold semvmx at h
    exact int32_eq ⟨by omega, by omega⟩
  by_cases hneg : int32 (s.semval sop.semNum + sop.semOp) < 0
  · refine .inl ⟨_, _, _, if_pos hneg, fun h => ?_, wouldBlock_ne_zero sop, hback, rfl, hpid⟩
    have hsum := hlegal.mp h
    omega
  rw [if_neg hneg]
  by_cases hbig : int32 (s.semval sop.semNum + sop.semOp) > semvmx
  · refine .inl ⟨_, _, _, if_pos hbig, fun h => ?_, by decide, hback, rfl, hpid⟩
    have hsum := hlegal.mp h
    omega
  refine .inr ⟨if_neg hbig, hlegal.mpr ?_⟩
  have hin := hs.semval sop.semNum
  unfold Sembuf.InRange at hop
  unfold int32 at hneg hbig
  unfold semvmx at hbig ⊢
  omega

def push (pid w : BitVec 32) : BitVec 32 := w <<< 16 ||| pid

instance (v : Values) (sop : Sembuf) : Decidable (Legal v sop) :=
  inferInstanceAs (Decidable (_ ∧ _ ∧ _ ∧ _))

/-- The semaphores that a set comes to change, in turn, until it ends or stops. -/
def changed : List Sembuf → Values → List Nat
  | [], _ => []
  | sop :: rest, v =>
    if Waits v sop then []
    else if Legal v sop then sop.semNum :: changed rest (v.apply sop)
    else [sop.semNum]

/-- The semaphore that a set stops at to wait for zero. -/
def awaited : List Sembuf → Values → Option Nat
  | [], _ => none
  | sop :: rest, v =>
    if Waits v sop then some sop.semNum
    else if Legal v sop then awaited rest (v.apply sop)
    else none

theorem Legal.not_waits {v : Values} (h : Legal v sop) : ¬ Waits v sop := fun hw => hw.2 (h.1 hw.1)

theorem pushPid_sempid (s : State) (m : Nat) (pid : BitVec 32) (n : Nat) :
    (s.pushPid m pid).sempid n = (push pid)^[[m].count n] (s.sempid n) := by
  rcases eq_or_ne m n with rfl | hne
  · simp [State.pushPid, push]
  · rw [List.count_singleton, beq_false_of_ne hne]
    exact Function.update_of_ne hne.symm _ _

/-- The semaphores that the set has come to change are stamped, and they are those to be taken
back after `done`, but for the one that it waits on. -/
def Stamped (pid : BitVec 32) (sops done : List Sembuf) (s : State) (done' : List Sembuf)
    (s' : State) : Prop :=
  ∀ n, (done'.map (·.semNum)).count n = (done.map (·.semNum)).count n +
      (changed sops s.toValues).count n + (awaited sops s.toValues == some n).toNat ∧
    s'.sempid n = (push pid)^[(changed sops s.toValues).count n] (s.sempid n)

/-- The loop comes to the end of the set when all of it may be done, and wherever it ends,
what is taken back from there is what it has done. -/
theorem scan_spec (pid : BitVec 32) (sops : List Sembuf) (hops : ∀ sop ∈ sops, sop.InRange)
    (hs : s.toValues.InRange) (done : List Sembuf) :
    (∃ result done' s', scan pid done sops s = .stops result done' s' ∧
      ¬ AllLegal sops s.toValues ∧ result ≠ 0 ∧
      done'.foldl Values.takeBack s'.toValues = done.foldl Values.takeBack s.toValues ∧
      Stamped pid sops done s done' s') ∨
    ∃ done' s', scan pid done sops s = .fits done' s' ∧
      AllLegal sops s.toValues ∧ s'.toValues = applyAll sops s.toValues ∧
      changed sops s.toValues = sops.map (·.semNum) ∧
      done'.foldl Values.takeBack s'.toValues = done.foldl Values.takeBack s.toValues ∧
      Stamped pid sops done s done' s' := by
  induction sops generalizing s done with
  | nil => exact .inr ⟨done, s, rfl, trivial, rfl, rfl, rfl, fun n => ⟨rfl, rfl⟩⟩
  | cons sop sops ih =>
    rw [List.forall_mem_cons] at hops
    rcases scan_cons pid hs hops.1 done sops with
      ⟨result, sop', s', heq, hnot, hresult, hback, hnum, hpid⟩ | ⟨heq, hlegal⟩
    · refine .inl ⟨result, sop' :: done, s', heq, fun h => hnot h.1, hresult, ?_, fun n => ?_⟩
      · rw [List.foldl_cons, hback]
      rw [List.map_cons, hnum, hpid]
      by_cases hwaits : Waits s.toValues sop
      · by_cases hn : sop.semNum = n <;> simp [changed, awaited, hwaits, hn]
      · refine ⟨?_, ?_⟩
        · simp [changed, awaited, hwaits, hnot, List.count_cons]
        · rw [if_neg hwaits, pushPid_sempid, changed, if_neg hwaits, if_neg hnot]
    · have hvalues : (s.applied pid sop).toValues = s.toValues.apply sop := by
        rw [State.applied_values, applied_eq hlegal]
      have hback : (s.toValues.apply sop).takeBack sop = s.toValues := by
        rw [← applied_eq hlegal, takeBack_applied hs]
      have hrest := ih hops.2 (by rw [State.applied_values]; exact applied_inRange hs sop)
        (sop :: done) (s := s.applied pid sop)
      unfold Stamped at hrest ⊢
      rw [← heq, hvalues, List.foldl_cons, hback] at hrest
      have hchanged : changed (sop :: sops) s.toValues =
          sop.semNum :: changed sops (s.toValues.apply sop) := by
        rw [changed, if_neg hlegal.not_waits, if_pos hlegal]
      have hawaited : awaited (sop :: sops) s.toValues = awaited sops (s.toValues.apply sop) := by
        rw [awaited, if_neg hlegal.not_waits, if_pos hlegal]
      -- the stamp of this operation comes before those of the rest
      have hword : ∀ n, (push pid)^[(changed sops (s.toValues.apply sop)).count n]
            ((s.applied pid sop).sempid n) =
          (push pid)^[(changed (sop :: sops) s.toValues).count n] (s.sempid n) := fun n => by
        rw [State.applied_sempid, pushPid_sempid, ← Function.iterate_add_apply, hchanged,
          List.count_singleton, List.count_cons]
      have hcount : ∀ n, ((sop :: done).map (·.semNum)).count n +
            (changed sops (s.toValues.apply sop)).count n =
          (done.map (·.semNum)).count n + (changed (sop :: sops) s.toValues).count n :=
        fun n => by
          rw [hchanged, List.map_cons, List.count_cons, List.count_cons]
          omega
      simp only [hword, hcount] at hrest
      rw [hawaited]
      refine hrest.imp ?_ ?_
      · rintro ⟨result, done', s', hstop, hnot, hrest⟩
        exact ⟨result, done', s', hstop, fun h => hnot h.2, hrest⟩
      · rintro ⟨done', s', hfits, hall, hvalues, hmap, hrest⟩
        exact ⟨done', s', hfits, ⟨hlegal, hall⟩, hvalues, by rw [hchanged, hmap]; rfl, hrest⟩

theorem tryAtomicSemop_cases (pid : BitVec 32) (hs : s.toValues.InRange) (sops : List Sembuf)
    (hops : ∀ sop ∈ sops, sop.InRange) (doUndo : Bool) :
    AllLegal sops s.toValues ∧ (tryAtomicSemop sops pid doUndo s).1 = 0 ∧
      (tryAtomicSemop sops pid doUndo s).2.toValues =
        (if doUndo then s.toValues else applyAll sops s.toValues) ∨
    ¬ AllLegal sops s.toValues ∧ (tryAtomicSemop sops pid doUndo s).1 ≠ 0 ∧
      (tryAtomicSemop sops pid doUndo s).2.toValues = s.toValues := by
  unfold tryAtomicSemop
  rcases scan_spec pid sops hops hs [] with
    ⟨result, done, s', heq, hnot, hresult, hback, -⟩ |
    ⟨done, s', heq, hall, hvalues, -, hback, -⟩
  · rw [heq]
    exact .inr ⟨hnot, hresult, (takeBackAll_values done s').trans hback⟩
  · rw [heq]
    cases doUndo with
    | false => exact .inl ⟨hall, rfl, hvalues⟩
    | true => exact .inl ⟨hall, rfl, (takeBackAll_values done s').trans hback⟩

/-- A set succeeds just when every operation is legal in its turn. What it leaves is then the
result of all of them, unless it was only tried, and in every other case what was there. -/
theorem semop_all_or_nothing (hs : s.toValues.InRange) (sops : List Sembuf)
    (hops : ∀ sop ∈ sops, sop.InRange) (doUndo : Bool) :
    ((tryAtomicSemop sops pid doUndo s).1 = 0 ↔ AllLegal sops s.toValues) ∧
    ((tryAtomicSemop sops pid doUndo s).1 = 0 → doUndo = false →
      (tryAtomicSemop sops pid doUndo s).2.toValues = applyAll sops s.toValues) ∧
    ((tryAtomicSemop sops pid doUndo s).1 ≠ 0 ∨ doUndo = true →
      (tryAtomicSemop sops pid doUndo s).2.toValues = s.toValues) := by
  rcases tryAtomicSemop_cases pid hs sops hops doUndo with
    ⟨hall, hresult, hvalues⟩ | ⟨hnot, hresult, hvalues⟩
  · refine ⟨iff_of_true hresult hall, fun _ hundo => ?_, fun h => ?_⟩
    · rw [hvalues, hundo]
      rfl
    · rw [hvalues, if_pos (h.resolve_left (not_not_intro hresult))]
  · exact ⟨iff_of_false hresult hnot, fun h => absurd h hresult, fun _ => hvalues⟩

end

/-- One semaphore with the value 1, and no adjustments. -/
def oneUp : State := ⟨⟨fun n => if n = 0 then 1 else 0, fun _ => 0⟩, fun _ => 0⟩

/-- It is taken twice: the second operation has to sleep. -/
def takeTwice : List Sembuf := [⟨0, -1, false, true⟩, ⟨0, -1, false, true⟩]

theorem oneUp_inRange : oneUp.toValues.InRange := by
  refine ⟨fun n => ?_, fun n => by simp [oneUp]⟩
  unfold oneUp
  dsimp only
  split <;> decide

theorem semop_all_or_nothing_sleeps :
    (tryAtomicSemop takeTwice 7 false oneUp).1 = 1 ∧
      (tryAtomicSemop takeTwice 7 false oneUp).2.toValues = oneUp.toValues :=
  ⟨by decide, (semop_all_or_nothing oneUp_inRange takeTwice (by decide) false).2.2 (.inl (by decide))⟩

/-- A set that is only tried for somebody who sleeps succeeds and changes nothing. -/
theorem semop_only_tried :
    (tryAtomicSemop [⟨0, -1, false, false⟩] 7 true oneUp).1 = 0 ∧
      (tryAtomicSemop [⟨0, -1, false, false⟩] 7 true oneUp).2.semval 0 = 1 ∧
      (applyAll [⟨0, -1, false, false⟩] oneUp.toValues).semval 0 = 0 := by
  decide

end CustomKernel.Ipc.Semop

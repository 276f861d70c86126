import CustomKernel.Policy.Overlap

/-! # A read in two parts

A read of `n` records and then of `m` hands out what one read of `n + m` does, and leaves a log that
no later read can tell from the one the single read leaves: the indices may differ, since a read of
the whole log moves both to 0. The exception is a full log that is first asked for nothing. It
clears `full`, and what was full is empty then. -/
namespace CustomKernel.Policy.Split
open Lib.Transition
open Policy.Heap Policy.Syscalls Policy.Log
open Policy.Effects Policy.Ownership Policy.Outcomes
open Policy.Bounds Policy.Spec Policy.Refinement
open Policy.Overlap

/-! ## States that are reached without overflow -/

/-- No refused call meets a full log, and no request wraps. -/
structure NoOverflow (k : Kernel) (e : Call × Reply) : Prop where
  room : ∀ l, Writes k e.1 l → unreadCount l < l.size
  nowrap : Call.NoWrap e.1

section Consistency
variable {k k' : Kernel} {c : Call} {r : Reply} {l : LogArray} {size : Int}

theorem run_consistent {es : List (Call × Reply)} (hb : Boot k)
    (h : Run (Meeting NoOverflow Step) k es k') : Sound k' ∧ Logs Consistent k' := by
  refine h.invariant (I := fun k => Sound k ∧ Logs Consistent k) ?_
    ⟨hb.sound, boot_logs hb Consistent⟩
  rintro k e k' ⟨hs, hl⟩ ⟨hc, hstep⟩
  have ho := step_outcome hs hstep
  exact ⟨(outcome_sound hs ho).1, outcome_consistent (Lib.Queue.fifo _) hs hl ho hc.nowrap fun l hw => .inl (hc.room l hw)⟩

end Consistency

/-! ## One read -/

/-- What a read of `size` records leaves of the unread ones, in a log of `cap` cells. -/
def leftOver (cap size : Int) (xs : List ForbiddenActivityInfo) : List ForbiddenActivityInfo :=
  if size = 0 ∧ (xs.length : Int) = cap then [] else xs.drop size.toNat

/-- A read, as its caller sees it. `served` says that the allocation and the copy succeed. -/
def readReply (size : Int) (xs : List ForbiddenActivityInfo) (served : Prop) [Decidable served] :
    Reply :=
  if 0 ≤ size ∧ size ≤ (xs.length : Int) then
    if served then ⟨0, xs.take size.toNat, true⟩ else .ofRet (-ENOMEM)
  else .ofRet (-EINVAL)

def readLeaves (cap size : Int) (xs : List ForbiddenActivityInfo) (served : Prop)
    [Decidable served] : List ForbiddenActivityInfo :=
  if (0 ≤ size ∧ size ≤ (xs.length : Int)) ∧ served then leftOver cap size xs else xs

instance (k : Kernel) (a : Addr) : Decidable (Fresh k a) := inferInstanceAs (Decidable (_ ∧ _))

/-- The process `pid`, whose task is at `p`, has a log of `cap` cells in which `xs` are unread. -/
structure Held (k : Kernel) (pid : Int) (p : Addr) (cap : Int) (xs : List ForbiddenActivityInfo) :
    Prop where
  sound : Sound k
  logs : Logs Consistent k
  hash : k.pidhash pid = some p
  log : ∃ t l, k.mem p = some (.task t) ∧ t.policyOn = 1 ∧ k.mem t.logArray = some (.log l) ∧
    l.size = cap ∧ contents k l = xs

section Read
variable {k : Kernel} {pid size cap : Int} {p a : Addr} {t : TaskStruct} {l : LogArray}
  {xs : List ForbiddenActivityInfo}

theorem contents_afterRead {data : List ForbiddenActivityInfo} {fs : List Fault} (hs : Sound k)
    (hl : Logs Consistent k) (hm : k.mem t.logArray = some (.log l)) (hon : t.policyOn = 1)
    (hc : ReadOk t l size)
    (hhit : ∀ e, Hits k l size.toNat e → data = picked l size.toNat e ∧ fs = []) :
    data = (contents k l).take size.toNat ∧
      contents { k.set t.logArray (.log (afterCommit (afterReads l size.toNat) size)) with
        faults := fs ++ k.faults } (afterCommit (afterReads l size.toNat) size) =
          leftOver l.size size (contents k l) := by
  obtain ⟨hdata, hleft⟩ := read_contents hs hl hm hon hc hhit
  refine ⟨hdata, hleft.trans ?_⟩
  unfold leftOver
  rcases hl _ l hm with hi | hu
  · rw [contents_idle hi]
    simp
  · have hfull : l.full = 1 ↔ ((contents k l).length : Int) = l.size := by
      rw [length_contents hs hm hu]
      exact full_iff hu.holds
    simp [hfull]

theorem exec_getProcessLog {ret : Int} {out : List ForbiddenActivityInfo} {k' : Kernel} {copied : Bool}
    (h : (sysGetProcessLog pid size a copied).run k = ((ret, out), k')) :
    (Call.getProcessLog pid size a copied).exec.run k = (⟨ret, out, true⟩, k') := by
  simp [Call.exec, h]

/-- What a read does, in terms of the unread records only. -/
theorem Held.read (h : Held k pid p cap xs) (size : Int) (a : Addr) (copied : Bool) :
    ((Call.getProcessLog pid size a copied).exec.run k).1 =
        readReply size xs (Fresh k a ∧ copied = true) ∧
      Held ((Call.getProcessLog pid size a copied).exec.run k).2 pid p cap
        (readLeaves cap size xs (Fresh k a ∧ copied = true)) ∧
      ∀ b, ((Call.getProcessLog pid size a copied).exec.run k).2.mem b = none ↔ k.mem b = none := by
  have ho := read_outcome h.sound pid size a copied
  have hsound := (outcome_sound h.sound ho).1
  have hlogs : Logs Consistent ((Call.getProcessLog pid size a copied).exec.run k).2 :=
    outcome_consistent (Lib.Queue.fifo _) h.sound h.logs ho nofun fun _ => not_writes rfl
  obtain ⟨t, l, ht, hon, hm, hcap, hxs⟩ := h.log
  have hok : ReadOk t l size ↔ 0 ≤ size ∧ size ≤ (xs.length : Int) := by
    rw [readOk_iff h.sound h.logs hm hon, hxs]
  unfold readReply readLeaves
  rcases run_sysGetProcessLog h.hash ht (fun _ => hm) size a copied with
    ⟨hc, hrun⟩ | ⟨hc, ⟨ha, hrun⟩ | ⟨h0, ha, data, fs, hrun, _, hhit⟩⟩
  · have hno := mt hok.mpr hc
    rw [exec_getProcessLog hrun, if_neg hno, if_neg (fun hp => hno hp.1)]
    exact ⟨rfl, h, fun b => Iff.rfl⟩
  · have hserved : ¬ (Fresh k a ∧ copied = true) := fun hp => ha hp.1
    rw [exec_getProcessLog hrun, if_pos (hok.mp hc), if_neg hserved,
      if_neg (fun hp => hserved hp.2)]
    exact ⟨rfl, h, fun b => Iff.rfl⟩
  · have hpl := k.ne_of_mem ht hm (by simp)
    have hfree : ∀ v b, (k.set t.logArray v).mem b = none ↔ k.mem b = none := by
      intro v b
      rcases eq_or_ne b t.logArray with rfl | hne
      · simp [hm]
      · simp [hne]
    cases copied with
    | true =>
      have hserved : Fresh k a ∧ true = true := ⟨⟨h0, ha⟩, rfl⟩
      obtain ⟨hdata, hleft⟩ := contents_afterRead h.sound h.logs hm hon hc hhit
      have hexec := exec_getProcessLog hrun
      simp only [if_true] at hexec
      rw [hexec] at hsound hlogs
      rw [hexec, if_pos (hok.mp hc), if_pos hserved, if_pos ⟨hok.mp hc, hserved⟩]
      refine ⟨by rw [hdata, hxs], ⟨hsound, hlogs, h.hash, t,
        afterCommit (afterReads l size.toNat) size, ?_, hon, ?_, ?_, ?_⟩, hfree _⟩
      · simp [hpl, ht]
      · simp
      · simp [hcap]
      · rw [← hcap, ← hxs]
        exact hleft
    | false =>
      have hserved : ¬ (Fresh k a ∧ false = true) := nofun
      have hexec := exec_getProcessLog hrun
      have hsame : k.set t.logArray (.log l) = k := by
        simp only [Kernel.set]
        rw [← hm, Function.update_eq_self]
      simp only [Bool.false_eq_true, if_false, hsame] at hexec
      rw [hexec] at hsound hlogs
      rw [hexec, if_pos (hok.mp hc), if_neg hserved, if_neg (fun hp => hserved hp.2)]
      exact ⟨rfl, ⟨hsound, hlogs, h.hash, t, l, ht, hon, hm, hcap, hxs⟩, fun b => Iff.rfl⟩

end Read

/-! ## Reads that no reader can tell apart -/

/-- A later read of the same log. -/
structure Later where
  size : Int
  tempMem : Addr
  copied : Bool

def Later.call (pid : Int) (r : Later) : Call := .getProcessLog pid r.size r.tempMem r.copied

section Agree
variable {k k' : Kernel} {pid cap : Int} {p : Addr} {xs : List ForbiddenActivityInfo}

/-- Two logs with the same unread records answer every sequence of reads alike, if the same
addresses are free. -/
theorem reads_agree (h : Held k pid p cap xs) (h' : Held k' pid p cap xs)
    (hfree : ∀ b, k.mem b = none ↔ k'.mem b = none) (rs : List Later) :
    (trace k (rs.map (Later.call pid))).1 = (trace k' (rs.map (Later.call pid))).1 := by
  induction rs generalizing k k' xs with
  | nil => rfl
  | cons r rs ih =>
    obtain ⟨hreply, hheld, hmem⟩ := h.read r.size r.tempMem r.copied
    obtain ⟨hreply', hheld', hmem'⟩ := h'.read r.size r.tempMem r.copied
    have hserved : (Fresh k r.tempMem ∧ r.copied = true) = (Fresh k' r.tempMem ∧ r.copied = true) := by
      simp [Fresh, hfree r.tempMem]
    have hheads : readReply r.size xs (Fresh k r.tempMem ∧ r.copied = true) =
        readReply r.size xs (Fresh k' r.tempMem ∧ r.copied = true) := by
      simp [hserved]
    have hleaves : readLeaves cap r.size xs (Fresh k r.tempMem ∧ r.copied = true) =
        readLeaves cap r.size xs (Fresh k' r.tempMem ∧ r.copied = true) := by
      simp [hserved]
    rw [hleaves] at hheld
    have hrest := ih hheld hheld' fun b => (hmem b).trans ((hfree b).trans (hmem' b).symm)
    have hcall : r.call pid = .getProcessLog pid r.size r.tempMem r.copied := rfl
    simp only [List.map_cons, trace, hcall]
    rw [hrest, hreply, hreply', hheads]

end Agree

/-- The read of `n` records and the one of `m` after it succeed, hand out the records of the single
read of `n + m`, and leave a log with the same unread records, which answers all later reads alike. -/
def SplitAgrees (k : Kernel) (pid : Int) (p : Addr) (n m : Nat) (a b c : Addr) : Prop :=
  let first := (Call.getProcessLog pid n a true).exec.run k
  let second := (Call.getProcessLog pid m b true).exec.run first.2
  let whole := (Call.getProcessLog pid (n + m : Nat) c true).exec.run k
  first.1.ret = 0 ∧ second.1.ret = 0 ∧ whole.1.ret = 0 ∧
    first.1.out ++ second.1.out = whole.1.out ∧
    unreadOf second.2 p = unreadOf whole.2 p ∧
    ∀ rs : List Later, (trace second.2 (rs.map (Later.call pid))).1 =
      (trace whole.2 (rs.map (Later.call pid))).1

section Split
variable {k : Kernel} {pid cap : Int} {p a b c : Addr} {xs : List ForbiddenActivityInfo} {n m : Nat}

theorem Held.unreadOf_eq (h : Held k pid p cap xs) : unreadOf k p = some xs := by
  obtain ⟨t, l, ht, _, hm, _, hxs⟩ := h.log
  rw [Overlap.unreadOf_eq ht hm, hxs]

theorem Held.read_served (h : Held k pid p cap xs) (hn : n ≤ xs.length) (ha : Fresh k a) :
    ((Call.getProcessLog pid n a true).exec.run k).1 = ⟨0, xs.take n, true⟩ ∧
      Held ((Call.getProcessLog pid n a true).exec.run k).2 pid p cap (leftOver cap n xs) ∧
      ∀ b, ((Call.getProcessLog pid n a true).exec.run k).2.mem b = none ↔ k.mem b = none := by
  have hok : (0 : Int) ≤ n ∧ (n : Int) ≤ xs.length := ⟨by omega, by omega⟩
  obtain ⟨hreply, hheld, hmem⟩ := h.read n a true
  refine ⟨hreply.trans ?_, ?_, hmem⟩
  · rw [readReply, if_pos hok, if_pos ⟨ha, rfl⟩, Int.toNat_natCast]
  · rwa [readLeaves, if_pos ⟨hok, ha, rfl⟩] at hheld

/-- The first read loses everything only if it asks a full log for nothing. -/
theorem leftOver_of_ne (h : 1 ≤ n ∨ (xs.length : Int) ≠ cap) : leftOver cap n xs = xs.drop n := by
  have hne : ¬ ((n : Int) = 0 ∧ (xs.length : Int) = cap) := by
    rintro ⟨h0, hcap⟩
    rcases h with h | h
    · omega
    · exact h hcap
  rw [leftOver, if_neg hne, Int.toNat_natCast]

theorem leftOver_leftOver (hnm : n + m ≤ xs.length) (hle : (xs.length : Int) ≤ cap)
    (h : 1 ≤ n ∨ m = 0 ∨ (xs.length : Int) < cap) :
    leftOver cap m (leftOver cap n xs) = leftOver cap (n + m : Nat) xs := by
  by_cases hn : 1 ≤ n ∨ (xs.length : Int) ≠ cap
  · have hrest : leftOver cap m (xs.drop n) = (xs.drop n).drop m := by
      refine leftOver_of_ne (.inr ?_)
      rw [List.length_drop]
      rcases hn with hn | hn <;> omega
    rw [leftOver_of_ne hn, hrest, List.drop_drop, leftOver_of_ne (hn.imp_left (by omega))]
  · -- nothing is asked of a full log, in one read or in two
    rw [not_or, not_not] at hn
    have hn0 : n = 0 := by omega
    have hm0 : m = 0 := by
      rcases h with h | h | h
      · exact absurd h hn.1
      · exact h
      · exact absurd hn.2 (ne_of_lt h)
    subst hn0 hm0
    have hnil : leftOver cap ((0 : Nat) : Int) xs = [] := by
      rw [leftOver, if_pos ⟨rfl, hn.2⟩]
    rw [Nat.zero_add, hnil]
    unfold leftOver
    split <;> rfl

theorem Held.length_le (h : Held k pid p cap xs) : (xs.length : Int) ≤ cap := by
  obtain ⟨t, l, _, _, hm, rfl, rfl⟩ := h.log
  rcases h.logs _ l hm with hi | hu
  · rw [contents_idle hi, hi.1]
    rfl
  · rw [length_contents h.sound hm hu]
    exact (unreadCount_bounds hu.holds.toInRange).2

theorem Held.split_iff (h : Held k pid p cap xs) (hnm : n + m ≤ xs.length) (ha : Fresh k a)
    (hb : Fresh k b) (hc : Fresh k c) :
    SplitAgrees k pid p n m a b c ↔ 1 ≤ n ∨ m = 0 ∨ (xs.length : Int) < cap := by
  obtain ⟨hreply, hheld, hmem⟩ := h.read_served (n := n) (by omega) ha
  obtain ⟨hwhole, hheldw, hmemw⟩ := h.read_served hnm hc
  have hbfirst : Fresh ((Call.getProcessLog pid n a true).exec.run k).2 b := ⟨hb.1, (hmem b).mpr hb.2⟩
  unfold SplitAgrees
  dsimp only
  constructor
  · intro hagree
    by_contra hno
    rw [not_or, not_or] at hno
    obtain ⟨hn, hm, hfull⟩ := hno
    -- the log was full, and the first read of nothing has left it empty
    have hempty : leftOver cap n xs = [] := by
      rw [leftOver, if_pos ⟨by omega, le_antisymm h.length_le (not_lt.mp hfull)⟩]
    rw [hempty] at hheld
    obtain ⟨hsecond, _, _⟩ := hheld.read m b true
    have hrefused : ¬ ((0 : Int) ≤ m ∧ (m : Int) ≤ ([] : List ForbiddenActivityInfo).length) := by
      rw [List.length_nil]
      omega
    rw [readReply, if_neg hrefused] at hsecond
    rw [hsecond] at hagree
    exact absurd hagree.2.1 (by decide)
  · intro hcond
    have hleft : leftOver cap n xs = xs.drop n ∨ m = 0 := by
      rcases hcond with hn | hm | hlt
      · exact .inl (leftOver_of_ne (.inl hn))
      · exact .inr hm
      · exact .inl (leftOver_of_ne (.inr (ne_of_lt hlt)))
    have hlen : m ≤ (leftOver cap n xs).length := by
      rcases hleft with hleft | hm
      · rw [hleft, List.length_drop]
        omega
      · rw [hm]
        exact Nat.zero_le _
    obtain ⟨hsecond, hheld2, hmem2⟩ := hheld.read_served hlen hbfirst
    rw [leftOver_leftOver hnm h.length_le hcond] at hheld2
    rw [hreply, hsecond, hwhole]
    refine ⟨rfl, rfl, rfl, ?_, ?_, ?_⟩
    · rcases hleft with hleft | hm
      · rw [hleft, List.take_add]
      · rw [hm, List.take_zero, List.append_nil, Nat.add_zero]
    · rw [hheld2.unreadOf_eq, hheldw.unreadOf_eq]
    · exact reads_agree hheld2 hheldw fun x =>
        (hmem2 x).trans ((hmem x).trans (hmemw x).symm)

end Split

/-- In every state reached without overflow, a read in two parts agrees with one read exactly when
its first part asks for something, or its second for nothing, or the log is not full. -/
theorem split_read_iff {k0 k : Kernel} {es : List (Call × Reply)} {pid : Int} {p a b c : Addr}
    {t : TaskStruct} {l : LogArray} {n m : Nat} (hboot : Boot k0)
    (hrun : Run (Meeting NoOverflow Step) k0 es k) (hp : k.pidhash pid = some p)
    (ht : k.mem p = some (.task t)) (hon : t.policyOn = 1)
    (hm : k.mem t.logArray = some (.log l)) (hnm : n + m ≤ (contents k l).length)
    (ha : Fresh k a) (hb : Fresh k b) (hc : Fresh k c) :
    SplitAgrees k pid p n m a b c ↔
      1 ≤ n ∨ m = 0 ∨ ((contents k l).length : Int) < l.size := by
  obtain ⟨hs, hl⟩ := run_consistent hboot hrun
  have hheld : Held k pid p l.size (contents k l) := ⟨hs, hl, hp, t, l, ht, hon, hm, rfl, rfl⟩
  exact hheld.split_iff hnm ha hb hc

/-- One refusal does not overflow a log of one record, nor one of four. -/
theorem refusedOnce_noOverflow {size : Int} (hsize : size = 1 ∨ size = 4) :
    Run (Meeting NoOverflow Step) twoTasks (trace twoTasks (refusedOnce size)).1
      (trace twoTasks (refusedOnce size)).2 := by
  refine .cons ⟨⟨fun l => not_writes rfl, ?_⟩, rfl⟩
    (.cons ⟨⟨fun l => not_writes rfl, nofun⟩, rfl⟩ (.cons ⟨⟨?_, nofun⟩, rfl⟩ (.nil _)))
  · intro _ _ _ _ he
    cases he
    rcases hsize with rfl | rfl <;> decide
  · rintro l ⟨g, p, t, hg, hp, ht, _, hl⟩
    rcases hsize with rfl | rfl <;> cases hg <;> cases hp <;> cases ht <;> cases hl <;> decide

/-- A log of four with two records is read one by one. -/
theorem split_read_four :
    unreadOf (refusedTimes 4 2) 2 = some [⟨1, 0, 100⟩, ⟨1, 0, 101⟩] ∧
      SplitAgrees (refusedTimes 4 2) 2 2 1 1 5 5 5 := by
  have hrun : Run (Meeting NoOverflow Step) twoTasks
      (trace twoTasks (refusedOnce 4 ++ [.schedYield 2 101])).1 (refusedTimes 4 2) := by
    refine (refusedOnce_noOverflow (.inr rfl)).append (.cons ⟨⟨?_, nofun⟩, rfl⟩ (.nil _))
    rintro l ⟨g, p, t, hg, hp, ht, _, hl⟩
    cases hg
    cases hp
    cases ht
    cases hl
    decide
  have hfresh : Fresh (refusedTimes 4 2) 5 := ⟨by decide, rfl⟩
  have ht : (refusedTimes 4 2).mem 2 = some (.task ⟨2, 1, 0, 3⟩) := rfl
  have hm : (refusedTimes 4 2).mem 3 = some (.log ⟨2, 0, 4, 0, 4⟩) := rfl
  exact ⟨by decide, (split_read_iff twoTasks_boot hrun rfl ht rfl hm (by decide)
    hfresh hfresh hfresh).mpr (.inl (Nat.le_refl 1))⟩

/-- A log of one record is full. After a read of nothing the record is gone. -/
theorem split_read_loses :
    Boot twoTasks ∧
      Run (Meeting NoOverflow Step) twoTasks (trace twoTasks (refusedOnce 1)).1 (refusedTimes 1 1) ∧
      unreadOf (refusedTimes 1 1) 2 = some [⟨1, 0, 100⟩] ∧
      ((Call.getProcessLog 2 1 5 true).exec.run (refusedTimes 1 1)).1 = ⟨0, [⟨1, 0, 100⟩], true⟩ ∧
      ((Call.getProcessLog 2 0 5 true).exec.run (refusedTimes 1 1)).1 = ⟨0, [], true⟩ ∧
      ((Call.getProcessLog 2 1 5 true).exec.run
        ((Call.getProcessLog 2 0 5 true).exec.run (refusedTimes 1 1)).2).1 = .ofRet (-EINVAL) :=
  ⟨twoTasks_boot, refusedOnce_noOverflow (.inl rfl), by decide, by decide, by decide, by decide⟩

end CustomKernel.Policy.Split

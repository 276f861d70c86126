import CustomKernel.Proc.Pid

/-! # The end of the search

`get_pid` gives up when the search is back at the pid it has started from. That pid
has not been looked at: the search begins behind it. `last_pid` is below 300 only
before the first wrap, when `next_safe` is still at its initial value and nothing is
searched, so a search comes back to where it began. -/
namespace CustomKernel.Proc.Pid
open Lib.Transition Proc.Tasks Function

section Cache
variable {ts : List Task} {last next beginpid fuel n pid last' next' : Nat}

/-- What earlier calls leave in `last_pid` and `next_safe`, whatever the task list was at
each of them. -/
inductive Left : Nat → Nat → Prop
  | boot : Left 0 pidMax
  | call {fuel : Nat} {ts : List Task} {last next pid last' next' : Nat} (h : Left last next)
      (hcall : getPid fuel ts last next = some (pid, last', next')) : Left last' next'

/-- `get_pid` comes to its end with this pid and these values of `last_pid` and `next_safe`. -/
def Returns (ts : List Task) (last next : Nat) (r : Nat × Nat × Nat) : Prop :=
  ∃ fuel, getPid fuel ts last next = some r

def Taken (ts : List Task) (n : Nat) : Prop := ∃ t ∈ ts, n ∈ ids t

theorem Left.bounds (h : Left last next) : last < pidMax ∧ (last < 300 → next = pidMax) := by
  induction h with
  | boot => exact ⟨by decide, fun _ => rfl⟩
  | @call fuel ts last next pid last' next' _ hcall ih =>
    refine ⟨getPid_last ih.1 hcall, fun hlow => ?_⟩
    by_cases hroom : Room last next
    · rw [getPid_room hroom] at hcall
      cases hcall
      exact ih.2 (Nat.lt_of_succ_lt hlow)
    · have hstart : 300 ≤ if last + 1 = pidMax then 300 else last + 1 := by
        split
        · exact le_rfl
        next hne =>
          by_contra hless
          refine hroom ⟨?_, Nat.lt_of_le_of_ne ih.1 hne⟩
          rw [ih.2 (by omega)]
          exact Nat.lt_of_le_of_ne ih.1 hne
      rw [getPid_search ih.1 hroom] at hcall
      have hge := scan_ge (start_bounds ih.1) hstart hcall
      omega

/-- A search begins above 300, or at the wrap. -/
theorem Left.search (h : Left last next) (hroom : ¬Room last next) : 300 ≤ last := by
  obtain ⟨hlt, hlow⟩ := h.bounds
  by_contra hless
  have h300 : 301 < pidMax := by decide
  refine hroom ⟨?_, by omega⟩
  omega

theorem Left.start (h : Left last next) (hroom : ¬Room last next) :
    300 ≤ (if last + 1 = pidMax then 300 else last + 1) ∧
      (if last + 1 = pidMax then 300 else last + 1) ≠ last := by
  have hge := h.search hroom
  have h300 : 301 < pidMax := by decide
  split <;> omega

theorem Left.ends (h : Left last next) (ts : List Task) : ∃ r, Returns ts last next r := by
  obtain ⟨hlt, _⟩ := h.bounds
  by_cases hroom : Room last next
  · exact ⟨_, 0, getPid_room hroom⟩
  · have hge := h.search hroom
    have hsearch (fuel : Nat) : getPid fuel ts last next = _ := getPid_search hlt hroom
    have hb := start_bounds hlt
    have hne := (h.start hroom).2
    generalize (if last + 1 = pidMax then 300 else last + 1) = l at hsearch hb hne
    have hfuel : (if last < l then pidMax - l + last else last - l) < 2 * pidMax := by
      split <;> omega
    obtain ⟨r, hr⟩ := scan_ends hb hge hlt hne hfuel
    exact ⟨r, _, (hsearch _).trans hr⟩

/-- The search does not take the pid it has begun behind. -/
theorem scan_ne_begin (hne : last ≠ beginpid)
    (h : scan ts beginpid fuel last next = some (pid, last', next')) :
    pid = 0 ∨ pid ≠ beginpid := by
  induction fuel generalizing last next with
  | zero => cases h
  | succ fuel ih =>
    rw [scan_succ] at h
    split at h
    · cases h
      exact .inr hne
    · dsimp only at h
      split at h
      · cases h
        exact .inl rfl
      next hback => exact ih hback h

/-- What a search finds is one of the other pids from 300 on. -/
theorem Left.found (h : Left last next) (hroom : ¬Room last next)
    (hr : Returns ts last next (pid, last', next')) (hpid : pid ≠ 0) :
    pid = last' ∧ 300 ≤ pid ∧ pid < pidMax ∧ pid ≠ last ∧
      ∀ v, Taken ts v → v ≠ pid ∧ (pid < v → next' ≤ v) := by
  obtain ⟨fuel, hr⟩ := hr
  obtain ⟨hlt, _⟩ := h.bounds
  obtain ⟨hge, hne⟩ := h.start hroom
  rw [getPid_search hlt hroom] at hr
  obtain ⟨hb, hspec⟩ := scan_spec (start_bounds hlt) hr
  obtain ⟨rfl, hfree⟩ := hspec hpid
  refine ⟨rfl, scan_ge (start_bounds hlt) hge hr, hb.last_lt, ?_, ?_⟩
  · exact (scan_ne_begin hne hr).resolve_left hpid
  · rintro v ⟨t, ht, hmem⟩
    exact hfree t ht v hmem

/-- A search without a result leaves `last_pid` alone. -/
theorem Left.gives_up (h : Left last next) (hroom : ¬Room last next)
    (hall : ∀ v, 300 ≤ v → v < pidMax → v ≠ last → Taken ts v) :
    ∃ fuel next', getPid fuel ts last next = some (0, last, next') ∧
      (last = 300 ∨ last + 1 = pidMax → next' = pidMax) := by
  obtain ⟨hlt, _⟩ := h.bounds
  obtain ⟨⟨pid, l, x⟩, fuel, hr⟩ := h.ends ts
  have hzero : pid = 0 := by
    by_contra hpid
    obtain ⟨_, hge, hlt, hne, hfree⟩ := h.found hroom ⟨fuel, hr⟩ hpid
    exact (hfree pid (hall pid hge hlt hne)).1 rfl
  subst hzero
  have hscan := hr
  rw [getPid_search hlt hroom] at hscan
  obtain ⟨rfl, hnext⟩ := scan_gives_up (start_bounds hlt) (h.start hroom).1 hscan
  refine ⟨fuel, x, hr, ?_⟩
  rintro (h300 | hend)
  · exact hnext h300
  · have hb := (scan_spec (start_bounds hlt) hscan).1
    exact le_antisymm hb.next_le (hend ▸ hb.lt_next)

/-- `get_pid` always ends. It gives up with a free pid left exactly if that is the only one,
and the one that was given out last. -/
theorem pid_search_complete_iff (h : Left last next) (ts : List Task) :
    (∃ r, Returns ts last next r) ∧
      ((∀ l x, Returns ts last next (0, l, x) → ∀ n, 300 ≤ n → n < pidMax → Taken ts n) ↔
        Room last next ∨ Taken ts last ∨ ∃ n, 300 ≤ n ∧ n < pidMax ∧ n ≠ last ∧ ¬Taken ts n) := by
  obtain ⟨hlt, _⟩ := h.bounds
  refine ⟨h.ends ts, fun hall => ?_, fun hcond l x hr n hge hn => ?_⟩
  · by_cases hroom : Room last next
    · exact .inl hroom
    obtain ⟨⟨pid, l, x⟩, hr⟩ := h.ends ts
    rcases Nat.eq_zero_or_pos pid with rfl | hpos
    · exact .inr (.inl (hall l x hr last (h.search hroom) hlt))
    · obtain ⟨_, hge, hlt, hne, hfree⟩ := h.found hroom hr hpos.ne'
      exact .inr (.inr ⟨pid, hge, hlt, hne, fun hused => (hfree pid hused).1 rfl⟩)
  · obtain ⟨fuel, hr⟩ := hr
    -- the search passes every pid but the one it has begun behind
    have hother : ∀ m, 300 ≤ m → m < pidMax → m ≠ last → Taken ts m := by
      intro m hm hmlt hne
      by_contra hfree
      exact getPid_ne_zero hlt ⟨hne, hmlt, .inr hm, fun t ht hmem => hfree ⟨t, ht, hmem⟩⟩ hr rfl
    rcases hcond with hroom | hused | ⟨m, hm, hmlt, hne, hfree⟩
    · rw [getPid_room hroom] at hr
      cases hr
    · rcases eq_or_ne n last with rfl | hne
      · exact hused
      · exact hother n hge hn hne
    · exact absurd (hother m hm hmlt hne) hfree

end Cache

/-! ## A full table -/

section Full
variable {k n : Nat}

/-- Before the first wrap one pid after the other is given out. -/
theorem left_before_wrap (h : k < pidMax) : Left k pidMax := by
  induction k with
  | zero => exact .boot
  | succ k ih =>
    have hcall : getPid 0 [] k pidMax = some (k + 1, k + 1, pidMax) := getPid_room ⟨h, h⟩
    exact .call (ih (Nat.lt_of_succ_lt h)) hcall

/-- A process that never left the group and session of the swapper. -/
def plain (k : Nat) : Task := { initTask with pid := k, tgid := k }

theorem mem_plain : n ∈ ids (plain k) ↔ n = k ∨ n = 0 := by
  simp only [ids, plain, initTask, List.mem_cons, List.not_mem_nil, or_false]
  tauto

theorem taken_row : Taken ((List.range' 1 k).map plain) n ↔ n = 0 ∧ 0 < k ∨ 0 < n ∧ n ≤ k := by
  simp only [Taken, List.mem_map, List.mem_range'_1, exists_exists_and_eq_and, mem_plain]
  constructor
  · rintro ⟨j, hj, rfl | rfl⟩ <;> omega
  · rintro (⟨rfl, hk⟩ | hn)
    · exact ⟨1, by omega, .inr rfl⟩
    · exact ⟨n, by omega, .inl rfl⟩

/-- All pids were given out, and the last process has gone. -/
theorem pid_search_incomplete :
    Left (pidMax - 1) pidMax ∧
      Returns ((List.range' 1 (pidMax - 2)).map plain) (pidMax - 1) pidMax
        (0, pidMax - 1, pidMax) ∧
      ¬Taken ((List.range' 1 (pidMax - 2)).map plain) (pidMax - 1) := by
  have hleft : Left (pidMax - 1) pidMax := left_before_wrap (by decide)
  have hall : ∀ v, 300 ≤ v → v < pidMax → v ≠ pidMax - 1 →
      Taken ((List.range' 1 (pidMax - 2)).map plain) v := by
    intro v h1 h2 h3
    exact taken_row.mpr (.inr ⟨by omega, by omega⟩)
  obtain ⟨fuel, next', hget, hnext⟩ := hleft.gives_up (fun h => absurd h.1 (by decide)) hall
  rw [hnext (.inr (by decide))] at hget
  refine ⟨hleft, ⟨fuel, hget⟩, fun hused => ?_⟩
  have := taken_row.mp hused
  revert this
  decide

/-- With the last process still there the answer is right. -/
theorem pid_search_complete_full :
    Left (pidMax - 1) pidMax ∧
      (∃ r, Returns ((List.range' 1 (pidMax - 1)).map plain) (pidMax - 1) pidMax r) ∧
      ∀ l x, Returns ((List.range' 1 (pidMax - 1)).map plain) (pidMax - 1) pidMax (0, l, x) →
        ∀ n, 300 ≤ n → n < pidMax → Taken ((List.range' 1 (pidMax - 1)).map plain) n := by
  have hleft : Left (pidMax - 1) pidMax := left_before_wrap (by decide)
  have hused : Taken ((List.range' 1 (pidMax - 1)).map plain) (pidMax - 1) :=
    taken_row.mpr (.inr ⟨by decide, le_rfl⟩)
  obtain ⟨hends, hiff⟩ := pid_search_complete_iff hleft ((List.range' 1 (pidMax - 1)).map plain)
  exact ⟨hleft, hends, hiff.mpr (.inr (.inl hused))⟩

end Full

/-! ## A run that uses up the pids

Process 1 makes children until all pids but one are in use. The last pid is given
out, the next call finds none, and the call after that does not search. -/

section Exhaustion
variable {s : State} {l : List Nat} {last next fuel n k pid : Nat}

/-- Each task on the list is plain, with one of these pids; process 1 can fork, and tasks
above `n` are fresh. -/
structure Crowd (s : State) (l : List Nat) (n : Nat) : Prop where
  taken : ∀ v ∈ l, ∃ q ∈ s.list, ids (s.tasks q) = ids (plain v)
  only : ∀ q ∈ s.list, ∃ v ∈ l, ids (s.tasks q) = ids (plain v)
  left : Left s.lastPid s.nextSafe
  making : s.making = []
  fresh : ∀ q ∈ s.list, q ≤ n
  parent : 1 ∈ s.list
  alive : (s.tasks 1).stage = .alive
  one : ids (s.tasks 1) = ids (plain 1)

theorem Crowd.used (h : Crowd s l n) {v : Nat} (hv : v ∈ l) : Taken (s.list.map s.tasks) v := by
  obtain ⟨q, hq, hids⟩ := h.taken v hv
  exact ⟨_, List.mem_map_of_mem hq, hids ▸ mem_plain.mpr (.inl rfl)⟩

theorem Crowd.start (h : Crowd s l n)
    (hget : getPid fuel (s.list.map s.tasks) s.lastPid s.nextSafe = some (pid, last, next)) :
    ∃ s', Step s (.forkStart (n + 1) 1 noFlags) s' ∧ s'.lastPid = last ∧ s'.nextSafe = next ∧
      (pid = 0 → Crowd s' l n) ∧
      (pid ≠ 0 → s'.making = [⟨n + 1, 1, noFlags⟩] ∧ ids (s'.tasks (n + 1)) = [pid, 0, 1, 0] ∧
        Crowd { s' with making := [] } l n) := by
  have hone := h.one
  simp only [ids, plain, initTask, List.cons.injEq] at hone
  have hpid : (s.tasks 1).pid ≠ 0 := by
    rw [hone.1]
    exact Nat.one_ne_zero
  have hfresh : n + 1 ∉ s.list := fun hmem => Nat.not_succ_le_self n (h.fresh _ hmem)
  have hleft : Left last next := h.left.call hget
  have hallowed : (Op.forkStart (n + 1) 1 noFlags).Allowed s := by
    refine ⟨.inl ⟨h.parent, h.alive, ?_⟩, Nat.succ_ne_zero n, hfresh, ?_⟩
    all_goals simp [h.making]
  let cached : State := { s with lastPid := last, nextSafe := next }
  let child : Task := { s.tasks 1 with
    pid := pid, leader := false, didExec := false, ptraced := (s.tasks 1).ptraced && false, cptr := none }
  have hexec : forkStart fuel (n + 1) 1 noFlags s = some (if pid = 0 ∧ (s.tasks 1).pid ≠ 0 then cached
      else { cached.setTask (n + 1) fun _ => child with making := ⟨n + 1, 1, noFlags⟩ :: s.making }) := by
    unfold forkStart
    rw [if_neg (by simp [noFlags]), hget]
    rfl
  refine ⟨_, ⟨hallowed, fuel, hexec⟩, ?_, ?_, ?_, ?_⟩
  · split <;> rfl
  · split <;> rfl
  · intro hzero
    rw [if_pos ⟨hzero, hpid⟩]
    exact ⟨h.taken, h.only, hleft, h.making, h.fresh, h.parent, h.alive, h.one⟩
  · intro hne
    rw [if_neg fun hboth => hne hboth.1]
    have hold (q : TaskId) (hq : q ∈ s.list) :
        (cached.setTask (n + 1) fun _ => child).tasks q = s.tasks q :=
      update_of_ne (ne_of_mem_of_not_mem hq hfresh) _ _
    have hone' := hold 1 h.parent
    refine ⟨by rw [h.making], ?_, ?_, ?_, hleft, rfl, h.fresh, h.parent, ?_, ?_⟩
    · simp [ids, State.setTask, child, hone]
    · intro v hv
      obtain ⟨q, hq, hids⟩ := h.taken v hv
      exact ⟨q, hq, (congrArg ids (hold q hq)).trans hids⟩
    · intro q hq
      obtain ⟨v, hv, hids⟩ := h.only q hq
      exact ⟨v, hv, (congrArg ids (hold q hq)).trans hids⟩
    · exact (congrArg Task.stage hone').trans h.alive
    · exact (congrArg ids hone').trans h.one

theorem Crowd.fork (h : Crowd s l n) (hpid : pid ≠ 0)
    (hget : getPid fuel (s.list.map s.tasks) s.lastPid s.nextSafe = some (pid, last, next)) :
    ∃ es s', Run Step s es s' ∧ s'.lastPid = last ∧ s'.nextSafe = next ∧
      Crowd s' (l ++ [pid]) (n + 1) := by
  obtain ⟨s1, hstep, hlast, hnext, _, hgot⟩ := h.start hget
  obtain ⟨hmaking, hchild, hcrowd⟩ := hgot hpid
  have hm : (⟨n + 1, 1, noFlags⟩ : Making) ∈ s1.making := by simp [hmaking]
  obtain ⟨hlist, hmaking', hlast', hnext', htasks⟩ := forkLink_frame ⟨n + 1, 1, noFlags⟩ s1
  have hids := ids_forkLink ⟨n + 1, 1, noFlags⟩ s1
  have hold (q : TaskId) (hq : q ∈ s1.list) : q ≠ n + 1 :=
    Nat.ne_of_lt (Nat.lt_succ_of_le (hcrowd.fresh q hq))
  have hnew : ids ((forkLink ⟨n + 1, 1, noFlags⟩ s1).tasks (n + 1)) = ids (plain pid) := by
    simp only [ids, List.cons.injEq] at hchild
    rw [hids, if_pos rfl]
    simp [brought, noFlags, ids, plain, initTask, hchild]
  refine ⟨[_, .forkLink ⟨n + 1, 1, noFlags⟩], _, .cons hstep (.cons ⟨hm, 0, rfl⟩ (.nil _)),
    hlast'.trans hlast, hnext'.trans hnext, ?_⟩
  constructor
  case taken =>
    intro v hv
    rw [hlist]
    rcases List.mem_append.mp hv with hv | hv
    · obtain ⟨q, hq, heq⟩ := hcrowd.taken v hv
      exact ⟨q, List.mem_append_left _ hq, by rw [hids, if_neg (hold q hq), heq]⟩
    · exact ⟨n + 1, List.mem_append_right _ (List.mem_singleton_self _),
        (List.mem_singleton.mp hv) ▸ hnew⟩
  case only =>
    intro q hq
    rw [hlist, List.mem_append, List.mem_singleton] at hq
    rcases hq with hq | rfl
    · obtain ⟨v, hv, heq⟩ := hcrowd.only q hq
      exact ⟨v, List.mem_append_left _ hv, by rw [hids, if_neg (hold q hq), heq]⟩
    · exact ⟨pid, List.mem_append_right _ (List.mem_singleton_self _), hnew⟩
  case left =>
    rw [hlast', hnext']
    exact hcrowd.left
  case making =>
    rw [hmaking', hmaking]
    simp
  case fresh =>
    intro q hq
    rw [hlist, List.mem_append, List.mem_singleton] at hq
    rcases hq with hq | rfl
    · exact Nat.le_succ_of_le (hcrowd.fresh q hq)
    · exact Nat.le_refl _
  case parent =>
    rw [hlist]
    exact List.mem_append_left _ hcrowd.parent
  case alive =>
    obtain ⟨c, y, o, hone⟩ := htasks 1
    rw [hone, update_of_ne (hold 1 hcrowd.parent)]
    exact hcrowd.alive
  case one =>
    rw [hids, if_neg (hold 1 hcrowd.parent)]
    exact hcrowd.one

theorem Crowd.fill (h : Crowd s l n) (hlast : s.lastPid = last)
    (hnext : s.nextSafe = pidMax) (hk : last + k < pidMax) :
    ∃ es s', Run Step s es s' ∧ s'.lastPid = last + k ∧ s'.nextSafe = pidMax ∧
      Crowd s' (l ++ List.range' (last + 1) k) (n + k) := by
  induction k generalizing s l n last with
  | zero => exact ⟨[], s, .nil s, hlast, hnext, by simpa using h⟩
  | succ k ih =>
    have hget : getPid 0 (s.list.map s.tasks) s.lastPid s.nextSafe =
        some (last + 1, last + 1, pidMax) := by
      rw [hlast, hnext]
      exact getPid_room ⟨by omega, by omega⟩
    obtain ⟨es, s1, hrun, hlast1, hnext1, h1⟩ := h.fork (Nat.succ_ne_zero last) hget
    obtain ⟨es', s2, hrun', hlast2, hnext2, h2⟩ := ih h1 hlast1 hnext1 (by omega)
    refine ⟨es ++ es', s2, hrun.append hrun', by omega, hnext2, ?_⟩
    rwa [List.append_assoc, List.singleton_append, ← List.range'_succ, Nat.add_right_comm] at h2

theorem boot_crowd : ∃ es s, Run Step boot es s ∧ s.lastPid = 1 ∧ s.nextSafe = pidMax ∧
    Crowd s [1] 1 := by
  refine ⟨_, _, .cons boot_starting (.cons starting_linked (.nil _)), rfl, rfl, ?_, ?_,
    left_before_wrap (by decide), rfl, ?_, List.mem_singleton_self 1, rfl, rfl⟩
  · intro v hv
    obtain rfl := List.mem_singleton.mp hv
    exact ⟨1, List.mem_singleton_self 1, rfl⟩
  · intro q hq
    obtain rfl := List.mem_singleton.mp hq
    exact ⟨1, List.mem_singleton_self 1, rfl⟩
  · intro q hq
    exact (List.mem_singleton.mp hq).le

/-- The wrap finds the only pid that is free. -/
theorem Crowd.lastFree (h : Crowd s l n) (hlast : s.lastPid = pidMax - 1)
    (hl : ∀ v, v ∈ l ↔ 0 < v ∧ v < pidMax ∧ v ≠ 300) :
    ∃ fuel next, getPid fuel (s.list.map s.tasks) s.lastPid s.nextSafe = some (300, 300, next) ∧
      next ≤ 301 := by
  have hmax : pidMax = 32768 := rfl
  obtain ⟨⟨pid, last, next⟩, fuel, hget⟩ := h.left.ends (s.list.map s.tasks)
  have hspare : Spare (s.list.map s.tasks) s.lastPid 300 := by
    refine ⟨by omega, by omega, .inr le_rfl, fun t ht hmem => ?_⟩
    obtain ⟨q, hq, rfl⟩ := List.mem_map.mp ht
    obtain ⟨v, hv, hids⟩ := h.only q hq
    rcases mem_plain.mp (hids ▸ hmem) with rfl | h0
    · exact ((hl 300).mp hv).2.2 rfl
    · cases h0
  have hpid := getPid_ne_zero h.left.bounds.1 hspare hget
  obtain ⟨rfl, hge, hlt, _, hfree⟩ :=
    h.left.found (fun hroom => absurd hroom.2 (by omega)) ⟨fuel, hget⟩ hpid
  have h300 : pid = 300 := by
    by_contra hne
    exact (hfree pid (h.used ((hl pid).mpr ⟨by omega, hlt, hne⟩))).1 rfl
  subst h300
  exact ⟨fuel, next, hget, (hfree 301 (h.used ((hl 301).mpr (by omega)))).2 (by decide)⟩

/-- A pid is given to a second process: its first owner is still on the task list. -/
theorem getPid_reused : ∃ es s fuel pid last next, Run Step boot es s ∧
    getPid fuel (s.list.map s.tasks) s.lastPid s.nextSafe = some (pid, last, next) ∧ pid ≠ 0 ∧
    ∃ q ∈ s.list, (s.tasks q).pid = pid := by
  obtain ⟨n, hn⟩ : ∃ n, 301 + n = pidMax := ⟨32467, rfl⟩
  have hmax : pidMax = 32768 := rfl
  -- the row 1, ..., 299
  obtain ⟨es0, s0, hrun0, hlast0, hnext0, h0⟩ := boot_crowd
  obtain ⟨es1, s1, hrun1, hlast1, hnext1, h1⟩ := h0.fill (k := 298) hlast0 hnext0 (by omega)
  -- a process that cannot be made has taken 300
  have hget1 : getPid 0 (s1.list.map s1.tasks) s1.lastPid s1.nextSafe = some (300, 300, pidMax) := by
    rw [hlast1, hnext1]
    exact getPid_room ⟨by decide, by decide⟩
  obtain ⟨s2, hstep2, hlast2, hnext2, _, hgot⟩ := h1.start hget1
  obtain ⟨hmaking, _, h2⟩ := hgot (by decide)
  have habort : Step s2 (.forkAbort ⟨300, 1, noFlags⟩) { s2 with making := [] } := by
    refine ⟨by simp [Op.Allowed, hmaking], 0, ?_⟩
    simp [Op.exec, forkAbort, hmaking]
  -- the row 301, ..., 32767, and then 300 as well
  obtain ⟨es3, s3, hrun3, hlast3, hnext3, h3⟩ := h2.fill (k := n) hlast2 hnext2 (by omega)
  have hrow (v : Nat) : v ∈ [1] ++ List.range' 2 298 ++ List.range' 301 n ↔
      0 < v ∧ v < pidMax ∧ v ≠ 300 := by
    simp only [List.mem_append, List.mem_singleton, List.mem_range'_1]
    omega
  obtain ⟨fuel3, next3, hget3, hle⟩ := h3.lastFree (by omega) hrow
  obtain ⟨es4, s4, hrun4, hlast4, hnext4, h4⟩ := h3.fork (by decide) hget3
  -- no pid is left
  have hall (v : Nat) (h1 : 300 ≤ v) (h2 : v < pidMax) (hne : v ≠ s4.lastPid) :
      Taken (s4.list.map s4.tasks) v :=
    h4.used (List.mem_append_left _ ((hrow v).mpr (by omega)))
  obtain ⟨fuel4, next4, hget4, hmax4⟩ :=
    h4.left.gives_up (fun hroom => absurd hroom.1 (by omega)) hall
  obtain ⟨s5, hstep5, hlast5, hnext5, h5, _⟩ := h4.start hget4
  obtain ⟨q, hq, hids⟩ := (h5 rfl).taken 301 (List.mem_append_left _ ((hrow 301).mpr (by omega)))
  refine ⟨_, s5, 0, 301, 301, pidMax, (hrun0.append hrun1).append (.cons hstep2 (.cons habort
    ((hrun3.append hrun4).append (.cons hstep5 (.nil s5))))), ?_, by decide, q, hq, ?_⟩
  · rw [hlast5, hlast4, hnext5, hmax4 (.inl hlast4)]
    exact getPid_room ⟨by decide, by decide⟩
  · simp only [ids, plain, initTask, List.cons.injEq] at hids
    exact hids.1

end Exhaustion

end CustomKernel.Proc.Pid

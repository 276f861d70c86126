import CustomKernel.Ipc.Msg
import CustomKernel.Lib.Transition

/-! # Messages are neither lost nor doubled nor reordered

Every message that was sent is in one place: on the queue, with the receiver that has got it, or
received. A receiver on `q_receivers` matches nothing on the queue, so that a message handed to it
is the first one that it matches. -/
namespace CustomKernel.Ipc.Msg
open Lib.Census Function

variable {n : Nat} {p : Phase}

/-! ## The search -/

section
variable {mode : Mode} {q : List Msg} {msgtyp : Int} {found : Option Msg} {m : Msg}

theorem scan_none (h : (scan mode q msgtyp none).1 = none) :
    (scan mode q msgtyp none).2 = msgtyp ∧ ∀ m ∈ q, testmsg m msgtyp mode = false := by
  -- a message once found is never forgotten
  have hkeep : ∀ q msgtyp m, (scan mode q msgtyp (some m)).1 ≠ none := by
    intro q
    induction q with
    | nil => exact fun _ _ => Option.some_ne_none _
    | cons x q ih =>
      intro msgtyp m
      rw [scan]
      split
      · split
        · exact ih _ _
        · exact Option.some_ne_none _
      · exact ih _ _
  induction q with
  | nil => exact ⟨rfl, fun _ hm => by cases hm⟩
  | cons x q ih =>
    rw [scan] at h ⊢
    split at h
    · split at h
      · exact absurd h (hkeep _ _ _)
      · cases h
    case isFalse hx =>
      rw [if_neg hx]
      obtain ⟨hsame, hrest⟩ := ih h
      exact ⟨hsame, List.forall_mem_cons.mpr ⟨Bool.eq_false_iff.mpr hx, hrest⟩⟩

/-- Without a bound the first message that passes the test is taken. -/
theorem scan_first (hmode : mode ≠ .lessEqual) (h : (scan mode q msgtyp none).1 = some m) :
    ∃ before after, q = before ++ m :: after ∧ testmsg m msgtyp mode = true ∧
      ∀ x ∈ before, testmsg x msgtyp mode = false := by
  induction q with
  | nil => cases h
  | cons x q ih =>
    rw [scan] at h
    split at h
    case isTrue hx =>
      rw [if_neg (fun hc => hmode hc.1)] at h
      cases h
      exact ⟨[], q, rfl, hx, fun _ hb => by cases hb⟩
    case isFalse hx =>
      obtain ⟨before, after, rfl, htest, hbefore⟩ := ih h
      exact ⟨x :: before, after, rfl, htest,
        List.forall_mem_cons.mpr ⟨Bool.eq_false_iff.mpr hx, hbefore⟩⟩

/-- With a bound, the first of the smallest types is taken, or nothing is below the bound and the
message that was found before stays. -/
theorem scan_lowest (h : (scan .lessEqual q msgtyp found).1 = some m) :
    (found = some m ∧ ∀ x ∈ q, msgtyp < x.type) ∨
      ∃ before after, q = before ++ m :: after ∧ m.type ≤ msgtyp ∧
        (∀ x ∈ before, x.type ≤ msgtyp → m.type < x.type) ∧ ∀ x ∈ after, m.type ≤ x.type := by
  induction q generalizing msgtyp found with
  | nil => exact .inl ⟨h, fun _ hx => by cases hx⟩
  | cons x q ih =>
    rw [scan] at h
    split at h
    case isTrue hx =>
      have hle : x.type ≤ msgtyp := of_decide_eq_true hx
      split at h
      · -- the bound goes down below the type of `x`
        rcases ih h with ⟨hsame, hrest⟩ | ⟨before, after, rfl, hm, hbefore, hafter⟩
        · cases hsame
          refine .inr ⟨[], q, rfl, hle, (fun _ hb => by cases hb), fun y hy => ?_⟩
          have := hrest y hy
          omega
        · refine .inr ⟨x :: before, after, rfl, by omega, fun y hy _ => ?_, hafter⟩
          rcases List.mem_cons.mp hy with rfl | hy
          · omega
          · by_cases hlow : y.type ≤ x.type - 1
            · exact hbefore y hy hlow
            · omega
      case isFalse hone =>
        have htype : x.type = 1 := by
          by_contra hne
          exact hone ⟨rfl, hne⟩
        cases h
        refine .inr ⟨[], q, rfl, hle, (fun _ hb => by cases hb), fun y _ => ?_⟩
        exact htype ▸ y.type_pos
    case isFalse hx =>
      have hlt : msgtyp < x.type := not_le.mp fun hle => hx (decide_eq_true hle)
      rcases ih h with ⟨hsame, hrest⟩ | ⟨before, after, rfl, hm, hbefore, hafter⟩
      · exact .inl ⟨hsame, List.forall_mem_cons.mpr ⟨hlt, hrest⟩⟩
      · exact .inr ⟨x :: before, after, rfl, hm,
          List.forall_mem_cons.mpr ⟨fun hle => absurd hle (not_le.mpr hlt), hbefore⟩, hafter⟩

end

/-! ## Selectors -/

/-- The arguments that `Careful` lets through. -/
def Request.Ok (r : Request) : Prop := -2 ^ 31 < r.msgtyp ∧ r.msgtyp < 2 ^ 31

section
variable {r : Request} {m : Msg} {q : List Msg}

theorem long_neg {x : Int} (h : -2 ^ 31 < x ∧ x < 0) : long (-x) = -x :=
  Int.bmod_eq_of_le (by omega) (by omega)

theorem testmsg_iff (hr : r.Ok) : testmsg m r.type r.mode = true ↔ r.Matches m := by
  unfold Request.type Request.mode Request.Matches convertMode
  split
  · exact ⟨fun _ => trivial, fun _ => rfl⟩
  · split
    case isTrue hneg =>
      dsimp only [testmsg]
      rw [long_neg ⟨hr.1, hneg⟩, decide_eq_true_iff]
    · split <;> exact decide_eq_true_iff

theorem mode_lessEqual : r.mode = .lessEqual ↔ r.msgtyp < 0 := by
  unfold Request.mode convertMode
  split
  case isTrue hzero => simp [hzero]
  · split
    case isTrue hneg => simp [hneg]
    case isFalse hneg => split <;> simp [hneg]

theorem lessEqual_type (hr : r.Ok) (h : r.msgtyp < 0) : r.type = -r.msgtyp := by
  unfold Request.type convertMode
  rw [if_neg (ne_of_lt h), if_pos h]
  exact long_neg ⟨hr.1, h⟩

theorem matches_neg (h : r.msgtyp < 0) : r.Matches m ↔ m.type ≤ -r.msgtyp := by
  unfold Request.Matches
  rw [if_neg (ne_of_lt h), if_pos h]

theorem scan_picks (hr : r.Ok) (h : (scan r.mode q r.type none).1 = some m) : r.Picks q m := by
  by_cases hneg : r.msgtyp < 0
  · have hle := lessEqual_type hr hneg
    rw [mode_lessEqual.mpr hneg, hle] at h
    rcases scan_lowest h with ⟨hnone, _⟩ | ⟨before, after, hq, hm, hbefore, hafter⟩
    · cases hnone
    · refine ⟨before, after, hq, (matches_neg hneg).mpr hm, fun x hx hmatch => ?_, fun x hx _ _ =>
        hafter x hx⟩
      exact ⟨hneg, hbefore x hx ((matches_neg hneg).mp hmatch)⟩
  · obtain ⟨before, after, hq, htest, hbefore⟩ := scan_first (fun hm => hneg (mode_lessEqual.mp hm)) h
    refine ⟨before, after, hq, (testmsg_iff hr).mp htest, fun x hx hmatch => ?_, fun _ _ _ h => absurd h hneg⟩
    rw [← testmsg_iff hr, hbefore x hx] at hmatch
    cases hmatch

/-- A message that arrives is the first one for a receiver that matches nothing on the queue. -/
theorem arrival_picks (hr : r.Ok) (hq : ∀ x ∈ q, testmsg x r.type r.mode = false)
    (hm : testmsg m r.type r.mode = true) : r.Picks (q ++ [m]) m := by
  refine ⟨q, [], rfl, (testmsg_iff hr).mp hm, fun x hx hmatch => ?_, fun _ hx => by cases hx⟩
  rw [← testmsg_iff hr, hq x hx] at hmatch
  cases hmatch

end

/-! ## The books

`extra` are messages that have been sent and are on the way to their place. -/

def Phase.loading (m : Msg) (p : Phase) : Int := if p.loaded = some m then 1 else 0

def Phase.carrying (m : Msg) (p : Phase) : Int := if p.carried.map Prod.snd = some m then 1 else 0

def State.delivered (s : State n) : List Msg := s.received.map Receipt.msg

structure Books (s : State n) (extra : List Msg) : Prop where
  unique : ∀ m, (s.sent.count m : Int) + census (Phase.loading m) s.phase ≤
    if m.id < s.nextId then 1 else 0
  placed : ∀ m, (s.sent.count m : Int) = s.messages.count m + extra.count m +
    census (Phase.carrying m) s.phase + s.delivered.count m
  order : s.messages.Sublist s.sent
  qnum : s.qnum = s.messages.length
  cbytes : s.cbytes = (s.messages.map Msg.ts).sum
  memory : footprints s.messages + footprints extra + census Phase.weight s.phase < 2 ^ 32

theorem footprints_cons (m : Msg) (q : List Msg) : footprints (m :: q) = m.footprint + footprints q := by
  simp [footprints]

theorem footprints_append (p q : List Msg) : footprints (p ++ q) = footprints p + footprints q := by
  simp [footprints]

/-- What is on the queue takes at least as much memory as the counters say. -/
theorem counters_le (q : List Msg) :
    (q.length : Int) + (q.map Msg.ts).sum ≤ footprints q := by
  induction q with
  | nil => exact le_rfl
  | cons m q ih =>
    simp only [List.length_cons, List.map_cons, List.sum_cons, footprints_cons, Msg.footprint, headerSize]
    omega

theorem weight_nonneg (p : Phase) : 0 ≤ p.weight := by
  unfold Phase.weight
  split <;> omega

theorem weight_of_loaded {m : Msg} (h : p.loaded = some m) : p.weight = m.footprint := by
  simp [Phase.weight, h]

theorem weight_of_carried {r : Request} {m : Msg} (hl : p.loaded = none)
    (h : p.carried = some (r, m)) : p.weight = m.footprint := by
  simp [Phase.weight, hl, h]

theorem weight_of_none (hl : p.loaded = none) (hc : p.carried = none) : p.weight = 0 := by
  simp [Phase.weight, hl, hc]

theorem loading_nonneg (m : Msg) (p : Phase) : 0 ≤ p.loading m := by
  unfold Phase.loading
  split <;> decide

theorem carrying_nonneg (m : Msg) (p : Phase) : 0 ≤ p.carrying m := by
  unfold Phase.carrying
  split <;> decide

theorem loading_of_none (m : Msg) (h : p.loaded = none) : p.loading m = 0 := by
  simp [Phase.loading, h]

theorem carrying_of_none (m : Msg) (h : p.carried = none) : p.carrying m = 0 := by
  simp [Phase.carrying, h]

theorem loading_of_some {x : Msg} (m : Msg) (h : p.loaded = some x) :
    p.loading m = [x].count m := by
  simp [Phase.loading, h, List.count_singleton]

theorem carrying_of_some {r : Request} {x : Msg} (m : Msg) (h : p.carried = some (r, x)) :
    p.carrying m = [x].count m := by
  simp [Phase.carrying, h, List.count_singleton]

section
variable {s : State n} {t : Fin n} {a b : Phase} {extra extra' sent : List Msg} {m : Msg} {r : Request}
  {received : List (Receipt n)}

/-- A task moves on, and messages with it. -/
theorem Books.moved (h : Books s extra) (ht : s.phase t = a) (horder : s.sent.Sublist sent)
    (hunique : ∀ x, (sent.count x : Int) + b.loading x ≤ s.sent.count x + a.loading x)
    (hplaced : ∀ x, (sent.count x : Int) + extra.count x + a.carrying x + s.delivered.count x =
      s.sent.count x + extra'.count x + b.carrying x + (received.map Receipt.msg).count x)
    (hmemory : footprints extra' + b.weight ≤ footprints extra + a.weight) :
    Books ({ s with sent := sent, received := received }.set t b) extra' where
  unique x := by
    have hle := h.unique x
    have hmoved := hunique x
    change (sent.count x : Int) + census (Phase.loading x) (update s.phase t b) ≤
      if x.id < s.nextId then 1 else 0
    rw [census_update, ht]
    omega
  placed x := by
    have heq := h.placed x
    have hmoved := hplaced x
    change (sent.count x : Int) = s.messages.count x + _ + census (Phase.carrying x) (update s.phase t b) +
      (received.map Receipt.msg).count x
    rw [census_update, ht]
    omega
  order := h.order.trans horder
  qnum := h.qnum
  cbytes := h.cbytes
  memory := by
    have hlt := h.memory
    change footprints s.messages + _ + census Phase.weight (update s.phase t b) < _
    rw [census_update, ht]
    omega

theorem Books.set (h : Books s extra) (ht : s.phase t = a)
    (hloaded : b.loaded = a.loaded ∨ b.loaded = none ∧ a.carried = none) (hcarried : b.carried = a.carried) :
    Books (s.set t b) extra := by
  refine h.moved ht (List.Sublist.refl _) (fun x => ?_) (fun x => ?_) ?_
  · rcases hloaded with hl | hl
    · simp [Phase.loading, hl]
    · rw [loading_of_none x hl.1]
      exact add_le_add_right (loading_nonneg x a) _
  · rw [Phase.carrying, Phase.carrying, hcarried]
    rfl
  · rcases hloaded with hl | hl
    · simp [Phase.weight, hl, hcarried]
    · rw [weight_of_none hl.1 (hcarried.trans hl.2)]
      exact add_le_add_right (weight_nonneg a) _

theorem Books.lists (h : Books s extra) (receivers senders : List (Fin n)) (qbytes : Nat) :
    Books { s with receivers := receivers, senders := senders, qbytes := qbytes } extra :=
  ⟨h.unique, h.placed, h.order, h.qnum, h.cbytes, h.memory⟩

theorem Books.load (h : Books s []) (ht : s.phase t = a) (hl : a.loaded = none) (hc : a.carried = none)
    (hid : m.id = s.nextId) (hfits : ¬ 2 ^ 32 ≤ s.live + m.footprint) (nowait : Bool) :
    Books ({ s with nextId := s.nextId + 1 }.set t (.sending m nowait)) [] where
  unique x := by
    have hx := h.unique x
    have hnone := loading_of_none x hl
    change (s.sent.count x : Int) + census (Phase.loading x) (update s.phase t (.sending m nowait)) ≤
      if x.id < s.nextId + 1 then 1 else 0
    rw [census_update, ht, hnone, loading_of_some x (p := .sending m nowait) rfl, List.count_singleton]
    by_cases hxm : m = x
    · subst hxm
      rw [if_neg (by omega)] at hx
      rw [beq_self_eq_true, if_pos rfl, if_pos (by omega)]
      omega
    · rw [if_neg (fun hbeq => hxm (eq_of_beq hbeq))]
      split at hx
      · rw [if_pos (by omega)]
        omega
      · split <;> omega
  placed x := by
    change _ = _ + _ + census (Phase.carrying x) (update s.phase t (.sending m nowait)) + _
    rw [census_update, ht, carrying_of_none x hc, carrying_of_none x (p := .sending m nowait) rfl, sub_zero, add_zero]
    exact h.placed x
  order := h.order
  qnum := h.qnum
  cbytes := h.cbytes
  memory := by
    change footprints s.messages + footprints [] + census Phase.weight (update s.phase t (.sending m nowait)) < _
    rw [census_update, ht, weight_of_none hl hc, weight_of_loaded (p := .sending m nowait) rfl]
    change ¬ 2 ^ 32 ≤ footprints s.messages + census Phase.weight s.phase + m.footprint at hfits
    have : footprints [] = 0 := rfl
    omega

theorem Books.depart (h : Books s []) (ht : s.phase t = a) (hl : a.loaded = some m)
    (hc : a.carried = none) : Books (s.depart t m) [m] := by
  refine h.moved ht (List.sublist_append_left _ _) (fun x => ?_) (fun x => ?_) ?_
  · rw [loading_of_some x hl, loading_of_none x rfl, List.count_append]
    omega
  · rw [carrying_of_none x hc, carrying_of_none x rfl, List.count_append, List.count_nil]
    exact add_right_comm _ _ _
  · rw [weight_of_loaded hl, weight_of_none rfl rfl, footprints_cons]
    omega

theorem Books.give (h : Books s [m]) (ht : s.phase t = a) (hl : a.loaded = none) (hc : a.carried = none)
    (hbl : b.loaded = none) (hbc : b.carried = some (r, m)) : Books (s.set t b) [] := by
  refine h.moved ht (List.Sublist.refl _) (fun x => ?_) (fun x => ?_) ?_
  · rw [loading_of_none x hl, loading_of_none x hbl]
  · rw [carrying_of_none x hc, carrying_of_some x hbc, List.count_nil]
    change _ = _ + (s.delivered.count x : Int)
    omega
  · rw [weight_of_none hl hc, weight_of_carried hbl hbc, footprints_cons]
    omega

theorem ulong_eq {x : Nat} (h : x < 2 ^ 32) : ulong x = x := Nat.mod_eq_of_lt h

theorem Books.enqueue (h : Books s [m]) (horder : (s.messages ++ [m]).Sublist s.sent) :
    Books (s.enqueue m) [] := by
  have hmem := h.memory
  have hcensus := census_nonneg (p := s.phase) weight_nonneg
  have hle := counters_le (s.messages ++ [m])
  rw [footprints_append] at hle
  simp only [List.length_append, List.length_singleton, List.map_append, List.map_cons, List.map_nil,
    List.sum_append, List.sum_cons, List.sum_nil] at hle
  have hqnum := h.qnum
  have hcbytes := h.cbytes
  refine ⟨h.unique, ?_, horder, ?_, ?_, ?_⟩
  · intro x
    have := h.placed x
    change (s.sent.count x : Int) = (s.messages ++ [m]).count x + ([] : List Msg).count x + _ + s.delivered.count x
    rw [List.count_append, List.count_nil]
    change _ = _ + census (Phase.carrying x) s.phase + _
    omega
  · change ulong (s.qnum + 1) = (s.messages ++ [m]).length
    rw [ulong_eq (by omega), hqnum]
    simp
  · change ulong (s.cbytes + m.ts) = ((s.messages ++ [m]).map Msg.ts).sum
    rw [ulong_eq (by omega), hcbytes]
    simp
  · change footprints (s.messages ++ [m]) + 0 + census Phase.weight s.phase < _
    rw [footprints_append]
    omega

theorem Books.unlink (h : Books s []) (hm : m ∈ s.messages) : Books (s.unlink m) [m] := by
  have hperm := List.perm_cons_erase hm
  have hfoot : footprints s.messages = footprints (s.messages.erase m) + footprints [m] := by
    have hsum := (hperm.map fun m => (m.footprint : Int)).sum_eq
    simp only [footprints, List.map_cons, List.sum_cons, List.map_nil, List.sum_nil] at hsum ⊢
    omega
  have hlength : s.messages.length = (s.messages.erase m).length + 1 := hperm.length_eq
  have hbytes : (s.messages.map Msg.ts).sum = m.ts + ((s.messages.erase m).map Msg.ts).sum := by
    rw [(hperm.map Msg.ts).sum_eq, List.map_cons, List.sum_cons]
  have hmem := h.memory
  have hcensus := census_nonneg (p := s.phase) weight_nonneg
  have hle := counters_le s.messages
  have hnil : footprints [] = 0 := rfl
  have hqnum := h.qnum
  have hcbytes := h.cbytes
  refine ⟨h.unique, ?_, List.erase_sublist.trans h.order, ?_, ?_, ?_⟩
  · intro x
    have := h.placed x
    rw [hperm.count_eq x, List.count_cons, List.count_nil] at this
    change (s.sent.count x : Int) = (s.messages.erase m).count x + [m].count x +
      census (Phase.carrying x) s.phase + s.delivered.count x
    rw [List.count_singleton]
    omega
  · change ulong (s.qnum + 2 ^ 32 - 1) = (s.messages.erase m).length
    unfold ulong
    omega
  · change ulong (s.cbytes + 2 ^ 32 - m.ts) = ((s.messages.erase m).map Msg.ts).sum
    unfold ulong
    omega
  · change footprints (s.messages.erase m) + footprints [m] + census Phase.weight s.phase < _
    omega

theorem Books.store (h : Books s []) (ht : s.phase t = .taken r m) :
    Books (s.store t r m true) [] := by
  refine h.moved ht (List.Sublist.refl _) (fun x => ?_) (fun x => ?_) ?_
  · rw [loading_of_none x rfl, loading_of_none x rfl]
  · rw [carrying_of_some x rfl, carrying_of_none x rfl, List.map_append,
      List.count_append]
    change _ = _ + (((s.delivered.count x + [m].count x : Nat)) : Int)
    omega
  · exact add_le_add_right (weight_nonneg _) _

end

end CustomKernel.Ipc.Msg

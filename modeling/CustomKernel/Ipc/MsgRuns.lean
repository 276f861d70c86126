import CustomKernel.Ipc.MsgQueue

/-! # Runs of senders and receivers

Every section is made of the moves of `Books`, and of a few on the list of receivers. From one step
that keeps both, and that gives a receiver only what it is to get, follows what holds in every run. -/
namespace CustomKernel.Ipc.Msg
open Lib.Census Lib.Transition
open Function (forall_update_iff update update_of_ne update_self)

variable {n : Nat}

/-! ## The receivers -/

def Phase.waits : Phase → Bool
  | .waiting .. => true
  | _ => false

/-- The local variables of `sys_msgrcv` are those of a request that `Careful` lets through. -/
def Phase.Asked : Phase → Prop
  | .receiving r msgtyp => msgtyp = r.type ∧ r.Ok
  | .waiting r msgtyp _ => msgtyp = r.type ∧ r.Ok
  | .refused r _ => r.Ok
  | .handed r _ _ => r.Ok
  | .taken r _ => r.Ok
  | _ => True

structure Waits (s : State n) : Prop where
  nodup : s.receivers.Nodup
  listed : ∀ t, t ∈ s.receivers ↔ (s.phase t).waits = true
  asked : ∀ t, (s.phase t).Asked
  unmatched : ∀ t r msgtyp st, s.phase t = .waiting r msgtyp st →
    ∀ m ∈ s.messages, testmsg m msgtyp r.mode = false

theorem waits_iff {p : Phase} : p.waits = true ↔ ∃ r msgtyp st, p = .waiting r msgtyp st := by
  cases p with
  | waiting r msgtyp st => exact ⟨fun _ => ⟨r, msgtyp, st, rfl⟩, fun _ => rfl⟩
  | done | sending | blocked | receiving | refused | handed | taken =>
    refine ⟨(fun h => by cases h), ?_⟩
    rintro ⟨_, _, _, h⟩
    cases h

section
variable {s s' : State n} {t : Fin n} {a b : Phase} {m : Msg} {r : Request} {msgtyp : Int}

theorem Waits.asks (h : Waits s) (ht : s.phase t = a) : a.Asked := ht ▸ h.asked t

theorem Waits.asked_update (h : Waits s) (hb : b.Asked) : ∀ u, (update s.phase t b u).Asked :=
  (forall_update_iff _ fun _ => Phase.Asked).mpr ⟨hb, fun u _ => h.asked u⟩

theorem Waits.set (h : Waits s) (ht : s.phase t = a) (ha : a.waits = false) (hb : b.waits = false)
    (hasked : b.Asked) : Waits (s.set t b) where
  nodup := h.nodup
  listed u := by
    change u ∈ s.receivers ↔ (update s.phase t b u).waits = true
    rw [h.listed]
    rcases eq_or_ne u t with rfl | hne
    · rw [update_self, ht, ha, hb]
    · rw [update_of_ne hne]
  asked := h.asked_update hasked
  unmatched u r msgtyp st hu := by
    rcases eq_of_update hu with ⟨-, rfl⟩ | ⟨-, hu⟩
    · cases hb
    · exact h.unmatched u r msgtyp st hu

theorem Waits.join (h : Waits s) (ht : s.phase t = a) (ha : a.waits = false) (hok : r.Ok)
    (hnone : ∀ m ∈ s.messages, testmsg m r.type r.mode = false) :
    Waits ({ s with receivers := s.receivers ++ [t] }.set t (.waiting r r.type .asleep)) where
  nodup := by
    have hnot : t ∉ s.receivers := by
      rw [h.listed, ht, ha]
      exact Bool.false_ne_true
    change (s.receivers ++ [t]).Nodup
    exact h.nodup.append (List.nodup_singleton t) (List.disjoint_singleton.mpr hnot)
  listed u := by
    change u ∈ s.receivers ++ [t] ↔ (update s.phase t _ u).waits = true
    rw [List.mem_append, List.mem_singleton, h.listed]
    rcases eq_or_ne u t with rfl | hne
    · rw [update_self]
      exact ⟨fun _ => rfl, fun _ => .inr rfl⟩
    · rw [update_of_ne hne]
      exact ⟨fun hu => hu.resolve_right hne, .inl⟩
  asked := h.asked_update ⟨rfl, hok⟩
  unmatched u r' msgtyp st hu := by
    rcases eq_of_update hu with ⟨-, hu⟩ | ⟨-, hu⟩
    · cases hu
      exact hnone
    · exact h.unmatched u r' msgtyp st hu

theorem Waits.unlist (h : Waits s) (hb : b.waits = false) (hasked : b.Asked) :
    Waits ({ s with receivers := s.receivers.erase t }.set t b) where
  nodup := h.nodup.erase t
  listed u := by
    change u ∈ s.receivers.erase t ↔ (update s.phase t b u).waits = true
    rcases eq_or_ne u t with rfl | hne
    · rw [update_self, hb]
      exact ⟨fun hu => absurd hu h.nodup.not_mem_erase, fun hf => by cases hf⟩
    · rw [update_of_ne hne, List.mem_erase_of_ne hne]
      exact h.listed u
  asked := h.asked_update hasked
  unmatched u r msgtyp st hu := by
    rcases eq_of_update hu with ⟨-, rfl⟩ | ⟨-, hu⟩
    · cases hb
    · exact h.unmatched u r msgtyp st hu

theorem Waits.enqueue (h : Waits s)
    (hm : ∀ t ∈ s.receivers, ∀ r msgtyp st, s.phase t = .waiting r msgtyp st →
      testmsg m msgtyp r.mode = false) : Waits (s.enqueue m) where
  nodup := h.nodup
  listed := h.listed
  asked := h.asked
  unmatched u r msgtyp st hu x hx := by
    change x ∈ s.messages ++ [m] at hx
    rcases List.mem_append.mp hx with hx | hx
    · exact h.unmatched u r msgtyp st hu x hx
    · rw [List.mem_singleton.mp hx]
      have hlisted : u ∈ s.receivers := (h.listed u).mpr (waits_iff.mpr ⟨r, msgtyp, st, hu⟩)
      exact hm u hlisted r msgtyp st hu

theorem Waits.unlink (h : Waits s) (m : Msg) : Waits (s.unlink m) where
  nodup := h.nodup
  listed := h.listed
  asked := h.asked
  unmatched u r msgtyp st hu x hx := h.unmatched u r msgtyp st hu x (List.mem_of_mem_erase hx)

/-! ## Wake-ups -/

/-- The same but for being awake. -/
inductive Alike : Phase → Phase → Prop where
  | same (p : Phase) : Alike p p
  | blocked (m : Msg) (w w' : Bool) : Alike (.blocked m w) (.blocked m w')
  | waiting (r : Request) (msgtyp : Int) (st st' : Stage) :
      Alike (.waiting r msgtyp st) (.waiting r msgtyp st')
  | refused (r : Request) (st st' : Stage) : Alike (.refused r st) (.refused r st')
  | handed (r : Request) (m : Msg) (st st' : Stage) : Alike (.handed r m st) (.handed r m st')

theorem Alike.loaded_eq (h : Alike a b) : b.loaded = a.loaded := by cases h <;> rfl
theorem Alike.carried_eq (h : Alike a b) : b.carried = a.carried := by cases h <;> rfl
theorem Alike.waits_eq (h : Alike a b) : b.waits = a.waits := by cases h <;> rfl

theorem Alike.asked (h : Alike a b) (ha : a.Asked) : b.Asked := by cases h <;> exact ha

theorem Alike.waiting_of {st : Stage} (h : Alike a b) (hb : b = .waiting r msgtyp st) :
    ∃ st, a = .waiting r msgtyp st := by
  cases h with
  | same => exact ⟨st, hb⟩
  | waiting r' msgtyp' st' =>
    cases hb
    exact ⟨st', rfl⟩
  | blocked | refused | handed => cases hb

end

/-- All that the proofs need of a state. -/
structure Good (s : State n) (extra : List Msg) : Prop extends Books s extra, Waits s

section
variable {s s' : State n} {t : Fin n} {a b : Phase} {extra : List Msg} {m : Msg} {r : Request}
  {msgtyp : Int} {st : Stage}

theorem Good.alike (h : Good s extra) {p : Fin n → Phase} (hp : ∀ u, Alike (s.phase u) (p u)) :
    Good { s with phase := p } extra where
  unique x := by
    have hsame : census (Phase.loading x) p = census (Phase.loading x) s.phase :=
      Finset.sum_congr rfl fun u _ => by rw [Phase.loading, Phase.loading, (hp u).loaded_eq]
    dsimp only
    rw [hsame]
    exact h.unique x
  placed x := by
    have hsame : census (Phase.carrying x) p = census (Phase.carrying x) s.phase :=
      Finset.sum_congr rfl fun u _ => by rw [Phase.carrying, Phase.carrying, (hp u).carried_eq]
    dsimp only
    rw [hsame]
    exact h.placed x
  order := h.order
  qnum := h.qnum
  cbytes := h.cbytes
  memory := by
    have hsame : census Phase.weight p = census Phase.weight s.phase :=
      Finset.sum_congr rfl fun u _ => by
        rw [Phase.weight, Phase.weight, (hp u).loaded_eq, (hp u).carried_eq]
    dsimp only
    rw [hsame]
    exact h.memory
  nodup := h.nodup
  listed u := by
    dsimp only
    rw [(hp u).waits_eq]
    exact h.listed u
  asked u := (hp u).asked (h.asked u)
  unmatched u r msgtyp st hu := by
    obtain ⟨st', hu'⟩ := (hp u).waiting_of hu
    exact h.unmatched u r msgtyp st' hu'

theorem alike_update (h : Alike (s.phase t) b) : ∀ u, Alike (s.phase u) (update s.phase t b u) :=
  (forall_update_iff _ fun u => Alike (s.phase u)).mpr ⟨h, fun _ _ => .same _⟩

theorem carried_update (h : b.carried = (s.phase t).carried) :
    ∀ u, (update s.phase t b u).carried = (s.phase u).carried :=
  (forall_update_iff _ fun u (p : Phase) => p.carried = (s.phase u).carried).mpr ⟨h, fun _ _ => rfl⟩

theorem alike_ssWakeup (s : State n) (u : Fin n) : Alike (s.phase u) (s.ssWakeup.phase u) := by
  unfold State.ssWakeup
  dsimp only
  split
  case h_1 m w hu => exact hu ▸ .blocked m w _
  case h_2 => exact .same _

theorem alike_expungeAll (s : State n) (u : Fin n) : Alike (s.phase u) (s.expungeAll.phase u) := by
  unfold State.expungeAll
  dsimp only
  split
  case h_1 r msgtyp st hu => exact hu ▸ .waiting r msgtyp st _
  case h_2 => exact .same _

/-! ## Moves -/

theorem Good.set (h : Good s extra) (ht : s.phase t = a)
    (hloaded : b.loaded = a.loaded ∨ b.loaded = none ∧ a.carried = none)
    (hcarried : b.carried = a.carried) (ha : a.waits = false) (hb : b.waits = false)
    (hasked : b.Asked) : Good (s.set t b) extra :=
  ⟨h.toBooks.set ht hloaded hcarried, h.toWaits.set ht ha hb hasked⟩

theorem Good.senders (h : Good s extra) (senders : List (Fin n)) :
    Good { s with senders := senders } extra :=
  ⟨h.toBooks.lists s.receivers senders s.qbytes, { h.toWaits with }⟩

theorem Good.refuse (h : Good s extra) (ht : s.phase t = .waiting r msgtyp st) :
    Good (s.refuse t r st) extra :=
  ⟨(h.toBooks.lists _ s.senders s.qbytes).set (b := .refused r st.rouse) ht (.inl rfl) rfl,
    h.toWaits.unlist rfl (h.asks ht).2⟩

theorem Good.hand (h : Good s [m]) (ht : s.phase t = .waiting r msgtyp st) :
    Good (s.hand t r m st) [] :=
  ⟨(h.toBooks.lists _ s.senders s.qbytes).give (b := .handed r m st.rouse) ht rfl rfl rfl rfl,
    h.toWaits.unlist rfl (h.asks ht).2⟩

theorem Good.leave (h : Good s extra) (ht : s.phase t = .waiting r msgtyp st) :
    Good (s.leave t r msgtyp) extra :=
  ⟨(h.toBooks.lists _ s.senders s.qbytes).set (b := .receiving r msgtyp) ht (.inl rfl) rfl,
    h.toWaits.unlist rfl (h.asks ht :)⟩

theorem Good.depart (h : Good s []) (ht : s.phase t = a) (hl : a.loaded = some m)
    (hc : a.carried = none) (ha : a.waits = false) : Good (s.depart t m) [m] :=
  ⟨h.toBooks.depart ht hl hc, { h.toWaits.set (b := .done 0) ht ha rfl trivial with }⟩

/-! ## Sending -/

/-- `pipelined_send` goes to a state with the property `I`, in which no other task waits than
before. There it hands the message to a receiver that it matches, or it matches none of `q`. -/
def Piped (I : State n → Prop) (m : Msg) (q : List (Fin n)) (s : State n) : Prop :=
  ∃ s1, I s1 ∧
    (∀ u r msgtyp st, s1.phase u = .waiting r msgtyp st → s.phase u = .waiting r msgtyp st) ∧
    ((pipelinedSend m q s = (false, s1) ∧ ∀ t ∈ q, ∀ r msgtyp st,
        s1.phase t = .waiting r msgtyp st → testmsg m msgtyp r.mode = false) ∨
      ∃ t r msgtyp st, s1.phase t = .waiting r msgtyp st ∧ testmsg m msgtyp r.mode = true ∧
        pipelinedSend m q s = (true, s1.hand t r m st))

theorem pipelinedSend_piped {I : State n → Prop} {q : List (Fin n)}
    (hrefuse : ∀ s t r msgtyp st, I s → s.phase t = .waiting r msgtyp st → I (s.refuse t r st))
    (hs : I s) : Piped I m q s := by
  induction q generalizing s with
  | nil => exact ⟨s, hs, fun _ _ _ _ hu => hu, .inl ⟨rfl, fun _ ht => by cases ht⟩⟩
  | cons t q ih =>
    -- the receivers behind `t`, from a state in which `t` waits only if it does not match
    have hrest : ∀ s0, I s0 →
        (∀ u r msgtyp st, s0.phase u = .waiting r msgtyp st → s.phase u = .waiting r msgtyp st) →
        (∀ r msgtyp st, s0.phase t = .waiting r msgtyp st → testmsg m msgtyp r.mode = false) →
        pipelinedSend m (t :: q) s = pipelinedSend m q s0 → Piped I m (t :: q) s := by
      intro s0 hs0 hback hhead heq
      obtain ⟨s1, hs1, hsame, hcases⟩ := ih hs0
      refine ⟨s1, hs1, fun u r msgtyp st hu => hback u r msgtyp st (hsame u r msgtyp st hu), ?_⟩
      rw [heq]
      refine hcases.imp (fun ⟨hfalse, hnone⟩ => ⟨hfalse, fun u hu => ?_⟩) id
      rcases List.mem_cons.mp hu with rfl | hu
      · exact fun r msgtyp st hw => hhead r msgtyp st (hsame u r msgtyp st hw)
      · exact hnone u hu
    cases ht : s.phase t with
    | waiting r msgtyp st =>
      by_cases htest : testmsg m msgtyp r.mode = true
      · by_cases hsmall : r.maxsize < m.ts
        · refine hrest (s.refuse t r st) (hrefuse s t r msgtyp st hs ht) ?_ ?_
            (by simp [pipelinedSend, ht, htest, hsmall])
          · intro u r' msgtyp' st' hu
            rcases eq_of_update hu with ⟨-, hu⟩ | ⟨-, hu⟩
            · cases hu
            · exact hu
          · intro r' msgtyp' st' hu
            change update s.phase t _ t = _ at hu
            rw [update_self] at hu
            cases hu
        · exact ⟨s, hs, fun _ _ _ _ hu => hu, .inr ⟨t, r, msgtyp, st, ht, htest,
            by simp [pipelinedSend, ht, htest, hsmall]⟩⟩
      · refine hrest s hs (fun _ _ _ _ hu => hu) ?_ (by simp [pipelinedSend, ht, htest])
        intro r' msgtyp' st' hu
        rw [ht] at hu
        cases hu
        exact Bool.eq_false_iff.mpr htest
    | done | sending | blocked | receiving | refused | handed | taken =>
      refine hrest s hs (fun _ _ _ _ hu => hu) ?_ (by simp [pipelinedSend, ht])
      intro r' msgtyp' st' hu
      rw [ht] at hu
      cases hu

/-- Whoever has got a message between two states, of those in `avail`, has got the right one. -/
def Gets (s s' : State n) (avail : List Msg) : Prop :=
  ∀ t r m, (s'.phase t).carried = some (r, m) →
    (s.phase t).carried = some (r, m) ∨ r.Picks avail m

variable {avail : List Msg}

theorem Gets.of_same (h : ∀ u, (s'.phase u).carried = (s.phase u).carried) : Gets s s' avail :=
  fun t _ _ hm => .inl (h t ▸ hm)

theorem Gets.keep {p : Fin n → Phase} (hp : ∀ u, (p u).carried = (s.phase u).carried)
    (hphase : s'.phase = update p t b)
    (hb : ∀ r m, b.carried = some (r, m) → (s.phase t).carried = some (r, m) ∨ r.Picks avail m) :
    Gets s s' avail := by
  intro u r m hm
  rw [hphase] at hm
  rcases eq_or_ne u t with rfl | hne
  · rw [update_self] at hm
    exact hb r m hm
  · rw [update_of_ne hne, hp] at hm
    exact .inl hm

theorem Gets.none (hphase : s'.phase = update s.phase t b)
    (hb : b.carried = (s.phase t).carried ∨ b.carried = .none) : Gets s s' avail := by
  refine .keep (fun _ => rfl) hphase fun r m hm => ?_
  rcases hb with hb | hb
  · exact .inl (hb ▸ hm)
  · rw [hb] at hm
    cases hm

/-- What a section comes to. -/
def Goes (s s' : State n) (avail : List Msg) : Prop := Good s' [] ∧ Gets s s' avail

/-- Before, nobody got or lost a message. -/
theorem Goes.after (h : Goes s s' avail) {s0 : State n}
    (hsame : ∀ u, (s.phase u).carried = (s0.phase u).carried) : Goes s0 s' avail :=
  ⟨h.1, fun u r m hm => hsame u ▸ h.2 u r m hm⟩

theorem Good.quit (h : Good s []) (ht : s.phase t = a) (hc : a.carried = none)
    (ha : a.waits = false) (ret : Int) : Goes s (s.set t (.done ret)) avail :=
  ⟨h.set ht (.inr ⟨rfl, hc⟩) hc.symm ha rfl trivial, .none rfl (.inr rfl)⟩

theorem send_good (h : Good s []) (ht : s.phase t = a) (hl : a.loaded = some m)
    (hc : a.carried = none) (ha : a.waits = false) : Goes s (s.send t m) (s.messages ++ [m]) := by
  have hdepart := h.depart ht hl hc ha
  have hcarried : ∀ u, ((s.depart t m).phase u).carried = (s.phase u).carried :=
    carried_update (by rw [ht, hc]; rfl)
  have hpiped : Piped (fun s1 => Good s1 [m] ∧ s1.messages = s.messages ∧
      s1.sent = s.sent ++ [m] ∧ ∀ u, (s1.phase u).carried = (s.phase u).carried)
      m (s.depart t m).receivers (s.depart t m) := by
    refine pipelinedSend_piped ?_ ⟨hdepart, rfl, rfl, hcarried⟩
    rintro s1 u r msgtyp st ⟨hgood, hmessages, hsent, hsame⟩ hu
    refine ⟨hgood.refuse hu, hmessages, hsent, fun v => (carried_update ?_ v).trans (hsame v)⟩
    rw [hu]
    rfl
  obtain ⟨s1, ⟨hgood, hmessages, hsent, hsame⟩, hback, hcases⟩ := hpiped
  unfold State.send
  dsimp only
  rcases hcases with ⟨heq, hnone⟩ | ⟨u, r, msgtyp, st, hu, htest, heq⟩
  · rw [heq]
    refine ⟨⟨hgood.toBooks.enqueue ?_, hgood.toWaits.enqueue ?_⟩, .of_same hsame⟩
    · rw [hmessages, hsent]
      exact h.order.append (List.Sublist.refl _)
    · intro u hu r msgtyp st hw
      have hlisted : u ∈ (s.depart t m).receivers :=
        (hdepart.listed u).mpr (waits_iff.mpr ⟨r, msgtyp, st, hback u r msgtyp st hw⟩)
      exact hnone u hlisted r msgtyp st hw
  · rw [heq]
    refine ⟨hgood.hand hu, .keep hsame rfl fun r' m' hm => ?_⟩
    cases hm
    obtain ⟨rfl, hok⟩ := hgood.asks hu
    exact .inr (arrival_picks hok (hmessages ▸ hgood.unmatched u r _ st hu) htest)

theorem trySend_good (h : Good s []) (ht : s.phase t = a) (hl : a.loaded = some m)
    (hc : a.carried = none) (ha : a.waits = false) (nowait allowed : Bool) :
    Goes s (s.trySend t m nowait allowed) (s.messages ++ [m]) := by
  unfold State.trySend
  split
  · exact h.quit ht hc ha _
  · split
    · split
      · exact h.quit ht hc ha _
      · exact ⟨(h.senders _).set ht (.inl hl.symm) hc.symm ha rfl trivial,
          .none rfl (.inr rfl)⟩
    · exact send_good h ht hl hc ha

/-! ## Receiving -/

theorem tryRecv_good (h : Good s []) (ht : s.phase t = .receiving r msgtyp) (allowed : Bool) :
    Goes s (s.tryRecv t r msgtyp allowed) s.messages := by
  obtain ⟨rfl, hok⟩ := h.asks ht
  unfold State.tryRecv
  split
  · exact h.quit ht rfl rfl _
  · split
    case h_1 m msgtyp heq =>
      have hpick : r.Picks s.messages m := scan_picks hok (by rw [heq])
      split
      · exact h.quit ht rfl rfl _
      · have hmem : m ∈ s.messages := by
          obtain ⟨before, after, hq, _⟩ := hpick
          rw [hq]
          exact List.mem_append_right _ List.mem_cons_self
        have hunlink : Good (s.unlink m) [m] := ⟨h.toBooks.unlink hmem, h.toWaits.unlink m⟩
        have hwoken : Good (s.unlink m).ssWakeup [m] := hunlink.alike (alike_ssWakeup _)
        have htw : (s.unlink m).ssWakeup.phase t = .receiving r r.type := by
          simp [State.ssWakeup, State.unlink, ht]
        refine ⟨⟨hwoken.toBooks.give htw rfl rfl rfl rfl, hwoken.toWaits.set htw rfl rfl hok⟩,
          .keep (fun u => (alike_ssWakeup (s.unlink m) u).carried_eq) rfl fun r' m' hm => ?_⟩
        cases hm
        exact .inr hpick
    case h_2 msgtyp heq =>
      have hfst : (scan r.mode s.messages r.type none).1 = none := by rw [heq]
      obtain ⟨hsame, hnone⟩ := scan_none hfst
      rw [heq] at hsame
      subst hsame
      split
      · exact h.quit ht rfl rfl _
      · exact ⟨⟨(h.toBooks.lists _ s.senders s.qbytes).set ht
          (.inl rfl) rfl, h.toWaits.join ht rfl hok hnone⟩, .none rfl (.inr rfl)⟩

/-! ## One step -/

section
variable (h : Good s [])
include h

theorem load_good {ret : Int} (ht : s.phase t = .done ret) (type : Int)
    (text : List UInt8) (nowait readable : Bool) :
    Goes s (s.load t type text nowait readable) avail := by
  unfold State.load
  split
  · exact h.quit ht rfl rfl _
  · split
    case isTrue htype =>
      dsimp only
      split
      · exact h.quit ht rfl rfl _
      · split
        · exact h.quit ht rfl rfl _
        case isFalse hfits =>
          have hwaits := h.toWaits.set (b := .sending ⟨s.nextId, type, htype, text⟩ nowait) ht rfl rfl
            trivial
          exact ⟨⟨h.toBooks.load ht rfl rfl rfl hfits nowait, { hwaits with }⟩, .none rfl (.inr rfl)⟩
    · exact h.quit ht rfl rfl _

theorem store_good (ht : s.phase t = .taken r m) : Goes s (s.store t r m true) avail := by
  have hwaits := h.toWaits.set (b := .done (min r.msgsz m.ts : Nat)) ht rfl rfl trivial
  exact ⟨⟨h.toBooks.store ht, { hwaits with }⟩, .none rfl (.inr rfl)⟩

/-- A wake-up, of one task or of many. -/
theorem restage_good (hb : Alike (s.phase t) b) : Goes s (s.set t b) avail :=
  ⟨h.alike (alike_update hb), .of_same fun u => (alike_update hb u).carried_eq⟩

theorem arrive_good (ht : s.phase t = .handed r m st) : Goes s (s.set t (.taken r m)) avail :=
  ⟨h.set ht (.inl rfl) rfl rfl rfl (h.asks ht :), .none rfl (.inl (by rw [ht]; rfl))⟩

theorem relock_good (ht : s.phase t = .waiting r msgtyp st) (pending allowed : Bool) :
    Goes s (if pending then (s.leave t r msgtyp).set t (.done (-EINTR))
      else (s.leave t r msgtyp).tryRecv t r msgtyp allowed) s.messages := by
  have hleave := h.leave ht
  have hphase : (s.leave t r msgtyp).phase t = .receiving r msgtyp := update_self ..
  have hsame : ∀ u, ((s.leave t r msgtyp).phase u).carried = (s.phase u).carried :=
    carried_update (by rw [ht]; rfl)
  split
  · exact (hleave.quit hphase rfl rfl _).after hsame
  · exact (tryRecv_good hleave hphase allowed).after hsame

theorem resend_good (ht : s.phase t = .blocked m true) (pending allowed : Bool) :
    Goes s (if pending then { s with senders := s.senders.erase t }.set t (.done (-EINTR))
      else { s with senders := s.senders.erase t }.trySend t m false allowed)
      (s.messages ++ [m]) := by
  have hout := h.senders (s.senders.erase t)
  split
  · exact hout.quit ht rfl rfl _
  · exact trySend_good hout ht rfl rfl rfl false allowed

theorem step_good {e : Event n} (hcareful : Careful s e) (hstep : Step s e s') :
    Goes s s' (s.messages ++ incoming s e) := by
  cases e with simp only [Step, exec] at hstep
  | msgsnd t type text nowait readable =>
    split at hstep <;> cases hstep
    exact load_good h ‹_› type text nowait readable
  | sendSection t allowed =>
    split at hstep <;> cases hstep
    case h_1 m nowait ht =>
      simp only [incoming, ht]
      exact trySend_good h ht rfl rfl rfl nowait allowed
  | resend t pending allowed =>
    split at hstep <;> cases hstep
    case h_1 m ht =>
      simp only [incoming, ht]
      exact resend_good h ht pending allowed
  | msgrcv t r =>
    split at hstep
    case h_1 ret ht =>
      split at hstep <;> cases hstep
      case isTrue hargs =>
        have hok : r.Ok := ⟨lt_of_le_of_ne hargs.2.1 (Ne.symm hcareful), hargs.2.2⟩
        exact ⟨h.set ht (.inl rfl) rfl rfl rfl ⟨rfl, hok⟩, .none rfl (.inr rfl)⟩
      · exact h.quit ht rfl rfl _
    · cases hstep
  | recvSection t allowed =>
    split at hstep <;> cases hstep
    rw [show incoming s (.recvSection t allowed) = [] from rfl, List.append_nil]
    exact tryRecv_good h ‹_› allowed
  | poll t =>
    split at hstep <;> cases hstep
    case h_1 r msgtyp ht => exact restage_good h (ht ▸ .waiting r msgtyp _ _)
    case h_2 r ht => exact restage_good h (ht ▸ .refused r _ _)
    case h_3 r m ht => exact arrive_good h ht
  | relock t pending allowed =>
    rw [show incoming s (.relock t pending allowed) = [] from rfl, List.append_nil]
    split at hstep <;> cases hstep
    case h_1 r msgtyp ht => exact relock_good h ht pending allowed
    case h_2 r ht => exact h.quit ht rfl rfl _
    case h_3 r m ht => exact arrive_good h ht
  | store t copied =>
    split at hstep <;> cases hstep
    case h_1 r m ht =>
      cases hcareful
      exact store_good h ht
  | signal t =>
    split at hstep <;> cases hstep
    case h_1 m w ht => exact restage_good h (ht ▸ .blocked m w true)
    case h_2 r msgtyp st ht => exact restage_good h (ht ▸ .waiting r msgtyp st _)
    case h_3 r st ht => exact restage_good h (ht ▸ .refused r st _)
    case h_4 r m st ht => exact restage_good h (ht ▸ .handed r m st _)
  | ipcSet qbytes =>
    cases hstep
    have hset : Good { s with qbytes := ulong qbytes } [] :=
      ⟨h.toBooks.lists s.receivers s.senders _, { h.toWaits with }⟩
    refine ⟨(hset.alike (alike_expungeAll _)).alike (alike_ssWakeup _), .of_same fun u => ?_⟩
    exact (alike_ssWakeup _ u).carried_eq.trans (alike_expungeAll { s with qbytes := ulong qbytes } u).carried_eq

end

theorem good_init (ctlmax qbytes : Nat) : Good (State.init ctlmax qbytes : State n) [] where
  unique m := by
    simp [State.init, census, Phase.loading, Phase.loaded]
  placed m := by
    simp [State.init, State.delivered, census, Phase.carrying, Phase.carried]
  order := List.Sublist.refl _
  qnum := rfl
  cbytes := rfl
  memory := by
    simp [State.init, census, footprints, Phase.weight, Phase.loaded, Phase.carried]
  nodup := List.nodup_nil
  listed t := by simp [State.init, Phase.waits]
  asked _ := trivial
  unmatched _ _ _ _ h := by cases h

/-! ## Whole runs -/

/-- In every state of a careful run: a message that was sent is in exactly one place, on the queue,
with the receiver that has got it, or received; the queue is in the order of arrival; a receiver
gets the message that it is to get of those there are; a message that a waiting receiver asks for is
not on the queue; and the counters are right. -/
theorem queue_sound {ctlmax qbytes : Nat} {es : List (Event n)}
    (hrun : Run (Meeting Careful Step) (State.init ctlmax qbytes) es s) :
    (s.sent.Nodup ∧ s.messages.Sublist s.sent ∧
      (∀ m ∈ s.delivered, m ∈ s.sent) ∧
      ∀ m ∈ s.sent, (s.messages.count m : Int) + census (Phase.carrying m) s.phase +
        s.delivered.count m = 1) ∧
    (∀ e s' t r m, Meeting Careful Step s e s' → (s.phase t).carried = none →
      (s'.phase t).carried = some (r, m) → r.Picks (s.messages ++ incoming s e) m) ∧
    (∀ t r msgtyp st, s.phase t = .waiting r msgtyp st → ∀ m ∈ s.messages, ¬ r.Matches m) ∧
    s.qnum = s.messages.length ∧ s.cbytes = (s.messages.map Msg.ts).sum := by
  have h : Good s [] := hrun.invariant (I := fun s => Good s [])
    (fun _ _ _ hgood ⟨hcareful, hstep⟩ => (step_good hgood hcareful hstep).1)
    (good_init ctlmax qbytes)
  have hcount : ∀ m, s.sent.count m ≤ 1 := by
    intro m
    have hle := h.unique m
    have := census_nonneg (p := s.phase) (loading_nonneg m)
    split at hle <;> omega
  refine ⟨⟨List.nodup_iff_count_le_one.mpr hcount, h.order, ?_, ?_⟩, ?_, ?_, h.qnum, h.cbytes⟩
  · intro m hm
    have hplaced := h.placed m
    have hpos := List.count_pos_iff.mpr hm
    have := census_nonneg (p := s.phase) (carrying_nonneg m)
    exact List.count_pos_iff.mp (by omega)
  · intro m hm
    have hplaced := h.placed m
    have hpos := List.count_pos_iff.mpr hm
    have hone := hcount m
    rw [List.count_nil] at hplaced
    omega
  · rintro e s' t r m ⟨hcareful, hstep⟩ hnone hm
    rcases (step_good h hcareful hstep).2 t r m hm with hold | hpick
    · rw [hnone] at hold
      cases hold
    · exact hpick
  · intro t r msgtyp st ht m hm hmatch
    obtain ⟨rfl, hok⟩ := h.asks ht
    have := h.unmatched t r _ st ht m hm
    rw [(testmsg_iff hok).mpr hmatch] at this
    cases this

end

/-- `exec`, for careful steps. -/
def execCareful (s : State n) (e : Event n) : Option (State n) :=
  if Careful s e then exec s e else none

theorem step_of_execCareful (s : State n) (e : Event n) (s' : State n)
    (h : execCareful s e = some s') : Meeting Careful Step s e s' := by
  unfold execCareful at h
  split at h
  · exact ⟨‹_›, h⟩
  · cases h

def receiver : Fin 2 := ⟨0, Nat.two_pos⟩

def sender : Fin 2 := ⟨1, Nat.one_lt_two⟩

/-- A receiver sleeps for the types up to 3. A message of type 5 is queued, and one of type 2 is
handed to it. -/
def lowTypes : List (Event 2) :=
  [.msgrcv receiver ⟨-3, 10, false, false, false⟩, .recvSection receiver true,
    .msgsnd sender 5 [7] false true, .sendSection sender true,
    .msgsnd sender 2 [8, 9] false true, .sendSection sender true, .poll receiver,
    .store receiver true]

theorem queue_sound_lowTypes : ∃ s, execAll execCareful (State.init 8192 16384) lowTypes = some s ∧
      s.received.map (fun x => (x.task, x.msg.type, x.text)) = [(0, 2, [8, 9])] ∧
      s.messages.map Msg.type = [5] ∧ s.qnum = s.messages.length := by
  obtain ⟨s, hs, hreceived, hmessages⟩ : ∃ s,
      execAll execCareful (State.init 8192 16384) lowTypes = some s ∧
      s.received.map (fun x => (x.task, x.msg.type, x.text)) = [(0, 2, [8, 9])] ∧
      s.messages.map Msg.type = [5] := ⟨_, rfl, by decide, by decide⟩
  exact ⟨s, hs, hreceived, hmessages,
    (queue_sound (Run.of_execAll step_of_execCareful hs)).2.2.2.1⟩

/-- The first message of a run, of type 5. -/
def typeFive : Msg := ⟨0, 5, by decide, [7]⟩

/-- A receiver asks for all types up to `-LONG_MIN`. -/
def lowestBound : List (Event 2) :=
  [.msgrcv receiver ⟨-2 ^ 31, 10, false, false, false⟩, .recvSection receiver true,
    .msgsnd sender 5 [7] false true, .sendSection sender true]

/-- A receiver's buffer cannot be written. -/
def badBuffer : List (Event 2) :=
  [.msgsnd sender 5 [7] false true, .sendSection sender true,
    .msgrcv receiver ⟨0, 10, false, false, false⟩, .recvSection receiver true,
    .store receiver false]

/-- The first receiver sleeps with a message on the queue that it asks for; the second one loses
its message. -/
theorem queue_unsound : (∃ s r msgtyp, Run Step (State.init 8192 16384) lowestBound s ∧
      s.phase 0 = .waiting r msgtyp .asleep ∧ typeFive ∈ s.messages ∧ r.Matches typeFive) ∧
    ∃ s, Run Step (State.init 8192 16384) badBuffer s ∧ typeFive ∈ s.sent ∧
      typeFive ∉ s.messages ∧ typeFive ∉ s.delivered ∧ ∀ t, (s.phase t).carried = none := by
  have hstep : ∀ (s : State 2) e s', exec s e = some s' → Step s e s' := fun _ _ _ h => h
  constructor
  · obtain ⟨s, hs, hphase, hmem⟩ : ∃ s,
        execAll exec (State.init 8192 16384) lowestBound = some s ∧
        s.phase 0 = .waiting ⟨-2 ^ 31, 10, false, false, false⟩ (-2 ^ 31) .asleep ∧
        typeFive ∈ s.messages := ⟨_, rfl, by decide, by decide⟩
    exact ⟨s, _, _, Run.of_execAll hstep hs, hphase, hmem, by simp [Request.Matches, typeFive]⟩
  · obtain ⟨s, hs, hsent, hqueue, hdelivered, hnone⟩ : ∃ s,
        execAll exec (State.init 8192 16384) badBuffer = some s ∧
        typeFive ∈ s.sent ∧ typeFive ∉ s.messages ∧
        typeFive ∉ s.delivered ∧ ∀ t, (s.phase t).carried = none :=
      ⟨_, rfl, by decide, by decide, by decide, by decide⟩
    exact ⟨s, Run.of_execAll hstep hs, hsent, hqueue, hdelivered, hnone⟩

end CustomKernel.Ipc.Msg

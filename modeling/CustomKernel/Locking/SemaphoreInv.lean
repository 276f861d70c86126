import CustomKernel.Lib.Census
import CustomKernel.Lib.Transition
import CustomKernel.Locking.Semaphore

/-! # No semaphore is given twice, and no wake-up is lost

A decrement of `count` is a permit that somebody has, one that `sleepers` stands for, or one of a
task that has not come to its section yet. A task that rests is watched: somebody is still on the
way who will look at the semaphore or wake the next one, or there is no permit. -/
namespace CustomKernel.Locking.Semaphore
open Lib.Census Lib.Transition Function

variable {N : Nat}

/-- The decrements that `sleepers` does not know of yet. -/
def Phase.pending : Phase → Int
  | .failed _ => 1
  | .entering _ _ => 1
  | _ => 0

/-- The task goes on by itself, and will look at the semaphore or wake somebody. -/
def Phase.active : Phase → Bool
  | .idle => false
  | .asleep _ => false
  | .drowsy _ flag => !flag
  | _ => true

/-- It sleeps, or is going to. -/
def Phase.resting : Phase → Bool
  | .asleep _ => true
  | .drowsy _ flag => flag
  | _ => false

def Phase.onQueue : Phase → Bool
  | .idle => false
  | .failed _ => false
  | .waking => false
  | _ => true

theorem pending_nonneg (p : Phase) : 0 ≤ p.pending := by
  unfold Phase.pending
  split <;> decide

theorem active_of_pending {p : Phase} (h : 0 < p.pending) : p.active = true := by
  cases p with
  | failed | entering => rfl
  | idle | again | drowsy | asleep | awake | leaving | waking => exact absurd h (lt_irrefl 0)

theorem onQueue_of_resting {p : Phase} (h : p.resting = true) : p.onQueue = true := by
  cases p with
  | asleep | drowsy => rfl
  | idle | failed | entering | again | awake | leaving | waking => cases h

/-! ## Wake-ups -/

/-- What a wake-up does to a task that it meets. -/
inductive Roused : Phase → Phase → Prop where
  | same (a : Phase) : Roused a a
  | asleep (intr : Bool) : Roused (.asleep intr) (.awake intr)
  | entering (intr : Bool) : Roused (.entering intr true) (.entering intr false)
  | again (intr : Bool) : Roused (.again intr true) (.again intr false)
  | drowsy (intr : Bool) : Roused (.drowsy intr true) (.drowsy intr false)

section
variable {a b c : Phase}

theorem Roused.trans (h : Roused a b) (h' : Roused b c) : Roused a c := by
  cases h with
  | same => exact h'
  | asleep intr => cases h'; exact .asleep intr
  | entering intr => cases h'; exact .entering intr
  | again intr => cases h'; exact .again intr
  | drowsy intr => cases h'; exact .drowsy intr

theorem Roused.active (h : Roused a b) (ha : a.active = true) : b.active = true := by
  cases h with
  | same => exact ha
  | asleep | entering | again | drowsy => rfl

theorem Roused.resting (h : Roused a b) (hb : b.resting = true) : a.resting = true := by
  cases h with
  | same => exact hb
  | asleep | entering | again | drowsy => cases hb

theorem Roused.pending_eq (h : Roused a b) : b.pending = a.pending := by
  cases h <;> rfl

theorem Roused.onQueue_eq (h : Roused a b) : b.onQueue = a.onQueue := by
  cases h <;> rfl

end

/-- The first entry is woken and the walk ends, it is passed and will not sleep, or it is left
alone since it does not rest. -/
theorem wakeUp_cons (t : Fin N) (q : List (Fin N)) (p : Fin N → Phase) :
    (∃ intr, p t = .asleep intr ∧ wakeUp (t :: q) p = update p t (.awake intr)) ∨
      (∃ b, Roused (p t) b ∧ b.active = true ∧
        wakeUp (t :: q) p = wakeUp q (update p t b)) ∨
      (p t).resting = false ∧ wakeUp (t :: q) p = wakeUp q p := by
  cases h : p t with
  | asleep intr => exact .inl ⟨intr, rfl, by simp [wakeUp, h]⟩
  | entering intr flag =>
    cases flag with
    | true => exact .inr (.inl ⟨_, .entering intr, rfl, by simp [wakeUp, h]⟩)
    | false => exact .inr (.inr ⟨rfl, by simp [wakeUp, h]⟩)
  | again intr flag =>
    cases flag with
    | true => exact .inr (.inl ⟨_, .again intr, rfl, by simp [wakeUp, h]⟩)
    | false => exact .inr (.inr ⟨rfl, by simp [wakeUp, h]⟩)
  | drowsy intr flag =>
    cases flag with
    | true => exact .inr (.inl ⟨_, .drowsy intr, rfl, by simp [wakeUp, h]⟩)
    | false => exact .inr (.inr ⟨rfl, by simp [wakeUp, h]⟩)
  | idle | failed | awake | leaving | waking => exact .inr (.inr ⟨rfl, by simp [wakeUp, h]⟩)

theorem roused_update {p : Fin N → Phase} {t : Fin N} {b : Phase} (h : Roused (p t) b) :
    ∀ u, Roused (p u) (update p t b u) :=
  (forall_update_iff _ fun u => Roused (p u)).mpr ⟨h, fun _ _ => .same _⟩

theorem wakeUp_roused (q : List (Fin N)) (p : Fin N → Phase) (u : Fin N) :
    Roused (p u) (wakeUp q p u) := by
  induction q generalizing p with
  | nil => exact .same _
  | cons t q ih =>
    rcases wakeUp_cons t q p with ⟨intr, ht, heq⟩ | ⟨b, hb, _, heq⟩ | ⟨_, heq⟩
    · rw [heq]
      exact roused_update (ht ▸ .asleep intr) u
    · rw [heq]
      exact (roused_update hb u).trans (ih _)
    · rw [heq]
      exact ih p

/-- If somebody on the queue rests, somebody is active afterwards. -/
theorem wakeUp_wakes {q : List (Fin N)} {p : Fin N → Phase} {u : Fin N} (hu : u ∈ q)
    (hrest : (p u).resting = true) : ∃ v, (wakeUp q p v).active = true := by
  induction q generalizing p with
  | nil => cases hu
  | cons t q ih =>
    rcases wakeUp_cons t q p with ⟨intr, _, heq⟩ | ⟨b, _, hact, heq⟩ | ⟨ht, heq⟩
    · exact ⟨t, by rw [heq, update_self]; rfl⟩
    · refine ⟨t, heq ▸ (wakeUp_roused q _ t).active ?_⟩
      rw [update_self]
      exact hact
    · rw [heq]
      refine ih ((List.mem_cons.mp hu).resolve_left ?_) hrest
      rintro rfl
      rw [ht] at hrest
      cases hrest

/-! ## The invariant -/

structure Inv (n : Int) (s : State N) : Prop where
  count : s.count + (s.acquired - s.ups) + census Phase.pending s.phase + s.sleepers = n
  sleepers : s.sleepers = 0 ∨ s.sleepers = 1
  permits : (s.acquired : Int) - s.ups ≤ n
  queue : ∀ t, (s.phase t).onQueue = true → t ∈ s.wait
  watched : (∃ t, (s.phase t).resting = true) →
    (∃ t, (s.phase t).active = true) ∨ s.sleepers = 1 ∧ s.count < 0

section
variable {n : Int} {s s' : State N} {t : Fin N} {a b : Phase}

theorem inv_init (hn : 0 ≤ n) : Inv n (State.init n : State N) where
  count := by simp [State.init, census, Phase.pending]
  sleepers := .inl rfl
  permits := by simpa [State.init] using hn
  queue := fun _ h => by cases h
  watched := fun ⟨_, h⟩ => by cases h

/-- A task goes from one phase to another, and the permits move along. -/
theorem Inv.move (h : Inv n s) (ht : s.phase t = a) (hphase : s'.phase = update s.phase t b)
    (hcount : s'.count + (s'.acquired - s'.ups) + b.pending + s'.sleepers =
      s.count + (s.acquired - s.ups) + a.pending + s.sleepers)
    (hsleepers : s'.sleepers = 0 ∨ s'.sleepers = 1)
    (hpermits : (s'.acquired : Int) - s'.ups ≤ s.acquired - s.ups ∨ 0 ≤ s'.count)
    (hwait : ∀ u, u ≠ t → u ∈ s.wait → u ∈ s'.wait) (hqueue : b.onQueue = true → t ∈ s'.wait)
    (hwatched : (∃ u, (s'.phase u).resting = true) →
      (∃ u, (s'.phase u).active = true) ∨ s'.sleepers = 1 ∧ s'.count < 0) : Inv n s' := by
  have hcensus : census Phase.pending s'.phase = census Phase.pending s.phase - a.pending + b.pending := by
    rw [hphase, census_update, ht]
  have hsum : s'.count + (s'.acquired - s'.ups) + census Phase.pending s'.phase + s'.sleepers = n := by
    have := h.count
    omega
  refine ⟨hsum, hsleepers, ?_, ?_, hwatched⟩
  · rcases hpermits with hle | hpos
    · exact hle.trans h.permits
    · have := census_nonneg (p := s'.phase) pending_nonneg
      omega
  · intro u hu
    rw [hphase] at hu
    rcases eq_or_ne u t with rfl | hne
    · rw [update_self] at hu
      exact hqueue hu
    · rw [update_of_ne hne] at hu
      exact hwait u hne (h.queue u hu)

/-! ### Who watches -/

theorem watched_of_active (hphase : s'.phase = update s.phase t b)
    (hb : b.active = true) :
    (∃ u, (s'.phase u).resting = true) →
      (∃ u, (s'.phase u).active = true) ∨ s'.sleepers = 1 ∧ s'.count < 0 :=
  fun _ => .inl ⟨t, by rw [hphase, update_self]; exact hb⟩

/-- A task that was not active moves, and does not begin to rest. -/
theorem Inv.watched_still (h : Inv n s) (ht : s.phase t = a)
    (hphase : s'.phase = update s.phase t b) (ha : a.active = false)
    (hrest : b.resting = true → a.resting = true)
    (hkeep : s.sleepers = 1 ∧ s.count < 0 → s'.sleepers = 1 ∧ s'.count < 0) :
    (∃ u, (s'.phase u).resting = true) →
      (∃ u, (s'.phase u).active = true) ∨ s'.sleepers = 1 ∧ s'.count < 0 := by
  rintro ⟨u, hu⟩
  have hbefore : (s.phase u).resting = true := by
    rw [hphase] at hu
    rcases eq_or_ne u t with rfl | hne
    · rw [update_self] at hu
      rw [ht]
      exact hrest hu
    · rwa [update_of_ne hne] at hu
  rcases h.watched ⟨u, hbefore⟩ with ⟨v, hv⟩ | hnone
  · refine .inl ⟨v, ?_⟩
    have hne : v ≠ t := by
      rintro rfl
      rw [ht, ha] at hv
      cases hv
    rw [hphase, update_of_ne hne]
    exact hv
  · exact .inr (hkeep hnone)

/-- A negative count that `sleepers` does not explain is the decrement of a task on its way. -/
theorem exists_active_of_count_neg
    (hcount : s.count + (s.acquired - s.ups) + census Phase.pending s.phase + s.sleepers = n)
    (hpermits : (s.acquired : Int) - s.ups ≤ n) (hsleepers : s.sleepers = 0) (hneg : s.count < 0) :
    ∃ u, (s.phase u).active = true := by
  have hpos : 0 < census Phase.pending s.phase := by omega
  obtain ⟨u, hu⟩ := exists_of_census_pos hpos
  exact ⟨u, active_of_pending hu⟩

/-! ## One step -/

theorem int32_eq {x : Int} (h : -2 ^ 31 ≤ x ∧ x < 2 ^ 31) : int32 x = x :=
  Int.bmod_eq_of_le (by omega) (by omega)

section
variable (h : Inv n s)
include h

theorem down_inv (ht : s.phase t = .idle) (k : Kind) (hfit : int32 (s.count + -1) = s.count + -1) :
    Inv n (if (s.add (-1)).count < 0 then (s.add (-1)).set t (.failed k) else (s.add (-1)).acquire) := by
  have hadd : (s.add (-1)).count = s.count + -1 := hfit
  split
  · refine h.move ht rfl ?_ h.sleepers (.inl le_rfl) (fun _ _ hu => hu) (by intro hq; cases hq)
      (watched_of_active rfl rfl)
    change (s.add (-1)).count + (s.acquired - s.ups) + 1 + s.sleepers = _
    change _ = s.count + (s.acquired - s.ups) + 0 + s.sleepers
    omega
  case isFalse hpos =>
    have hphase : (s.add (-1)).acquire.phase = update s.phase t .idle := by
      rw [← ht, update_eq_self]
      rfl
    refine h.move ht hphase ?_ h.sleepers (.inr (not_lt.mp hpos)) (fun _ _ hu => hu)
      (by intro hq; cases hq) (h.watched_still ht hphase rfl (fun hr => hr) ?_)
    · change (s.add (-1)).count + ((s.acquired + 1 : Nat) - s.ups) + 0 + s.sleepers = _
      change _ = s.count + (s.acquired - s.ups) + 0 + s.sleepers
      omega
    · rintro ⟨_, hneg⟩
      omega

theorem up_inv (ht : s.phase t = .idle) (hfit : int32 (s.count + 1) = s.count + 1) :
    Inv n ({ s.add 1 with ups := s.ups + 1 }.set t (if s.count + 1 ≤ 0 then .waking else .idle)) := by
  have hups : (s.acquired : Int) - (s.ups + 1 : Nat) ≤ s.acquired - s.ups := by omega
  split
  · refine h.move ht rfl ?_ h.sleepers (.inl hups) (fun _ _ hu => hu)
      (by intro hq; cases hq) (watched_of_active rfl rfl)
    simp only [State.set, State.add, hfit, Phase.pending]
    omega
  case isFalse hpos =>
    refine h.move ht rfl ?_ h.sleepers (.inl hups) (fun _ _ hu => hu)
      (by intro hq; cases hq) (h.watched_still ht rfl rfl (fun hr => hr) ?_)
    · simp only [State.set, State.add, hfit, Phase.pending]
      omega
    · -- nobody rests here without an active task: the count was not negative
      rintro ⟨_, hneg⟩
      omega

theorem enqueue_inv {k : Kind} (ht : s.phase t = .failed k) (intr : Bool) :
    Inv n ({ s with wait := s.wait ++ [t] }.set t (.entering intr true)) :=
  h.move (b := .entering intr true) ht rfl rfl h.sleepers (.inl le_rfl)
    (fun _ _ hu => List.mem_append_left _ hu) (fun _ => List.mem_append_right _ (List.mem_singleton_self t))
    (watched_of_active rfl rfl)

/-- The section of a waiter, which takes over the decrement that it has brought along. -/
theorem body_inv {intr signal : Bool} {sleepers : Int} (ht : s.phase t = a)
    (ha : a.onQueue = true) (hsleepers : sleepers = s.sleepers + a.pending)
    (hintr : (intr && signal) = true → int32 (s.count + sleepers) = s.count + sleepers)
    (hfit : ¬ (intr && signal) = true → int32 (s.count + (sleepers - 1)) = s.count + (sleepers - 1)) :
    Inv n (s.body t intr signal sleepers) := by
  have hon : t ∈ s.wait := h.queue t (ht ▸ ha)
  unfold State.body
  split
  case isTrue hsig =>
    refine h.move ht rfl ?_ (.inl rfl) (.inl le_rfl) (fun _ _ hu => hu) (fun _ => hon)
      (watched_of_active rfl rfl)
    simp only [State.set, State.add, hintr hsig, show Phase.leaving.pending = 0 from rfl]
    omega
  case isFalse hsig =>
    dsimp only
    split
    case isTrue hpos =>
      refine h.move ht rfl ?_ (.inl rfl) (.inr hpos) (fun _ _ hu => hu) (fun _ => hon)
        (watched_of_active rfl rfl)
      simp only [State.set, State.acquire, State.add, hfit hsig,
        show Phase.leaving.pending = 0 from rfl]
      omega
    case isFalse hneg =>
      refine h.move ht rfl ?_ (.inr rfl) (.inl le_rfl) (fun _ _ hu => hu)
        (fun _ => hon) (fun _ => .inr ⟨rfl, not_le.mp hneg⟩)
      simp only [State.set, State.add, hfit hsig, show (Phase.drowsy intr true).pending = 0 from rfl]
      omega

theorem trylockFailed_inv {k : Kind} (ht : s.phase t = .failed k)
    (hfit : int32 (s.count + (s.sleepers + 1)) = s.count + (s.sleepers + 1)) :
    Inv n (s.trylockFailed t) := by
  have hsum : ∀ b : Phase, b.pending = 0 →
      int32 (s.count + (s.sleepers + 1)) + (s.acquired - s.ups) + b.pending + 0 =
        s.count + (s.acquired - s.ups) + (Phase.failed k).pending + s.sleepers := by
    intro b hb
    rw [hfit, hb]
    simp only [Phase.pending]
    omega
  unfold State.trylockFailed
  dsimp only
  split
  · exact h.move ht rfl (hsum _ rfl) (.inl rfl) (.inl le_rfl) (fun _ _ hu => hu)
      (by intro hq; cases hq) (watched_of_active rfl rfl)
  case isFalse hneg =>
    -- without the decrements of the sleepers the count is still negative: others are on their way
    refine h.move ht rfl (hsum _ rfl) (.inl rfl) (.inl le_rfl) (fun _ _ hu => hu)
      (by intro hq; cases hq) (fun _ => .inl (exists_active_of_count_neg ?_ h.permits rfl
        (not_le.mp hneg)))
    have hcensus := census_update Phase.pending s.phase t .idle
    rw [ht] at hcensus
    have hbefore := h.count
    have hsum := hsum .idle rfl
    change int32 (s.count + (s.sleepers + 1)) + (s.acquired - s.ups) +
      census Phase.pending (update s.phase t .idle) + 0 = n
    omega

/-- A step that changes only the phase of a waiter: it is active then, or goes on to rest. -/
theorem rephase_inv (ht : s.phase t = a) (hpending : b.pending = a.pending)
    (ha : a.onQueue = true) (hb : b.active = true ∨ a.active = false ∧ a.resting = true) :
    Inv n (s.set t b) := by
  refine h.move ht rfl ?_ h.sleepers (.inl le_rfl) (fun _ _ hu => hu)
    (fun _ => h.queue t (ht ▸ ha)) ?_
  · rw [hpending]
    rfl
  · rcases hb with hb | ⟨hact, hrest⟩
    · exact watched_of_active rfl hb
    · exact h.watched_still ht rfl hact (fun _ => hrest) id

theorem remove_inv (ht : s.phase t = .leaving) :
    Inv n ({ s with wait := s.wait.erase t }.set t .waking) :=
  h.move (b := .waking) ht rfl rfl h.sleepers (.inl le_rfl)
    (fun _ hne hu => (List.mem_erase_of_ne hne).mpr hu) (by intro hq; cases hq)
    (watched_of_active rfl rfl)

theorem wake_inv (ht : s.phase t = .waking) :
    Inv n { s with phase := wakeUp s.wait (update s.phase t .idle) } := by
  have hroused := wakeUp_roused s.wait (update s.phase t .idle)
  have hcensus : census Phase.pending (wakeUp s.wait (update s.phase t .idle)) =
      census Phase.pending s.phase := by
    have hsame : census Phase.pending (wakeUp s.wait (update s.phase t .idle)) =
        census Phase.pending (update s.phase t .idle) :=
      Finset.sum_congr rfl fun u _ => (hroused u).pending_eq
    rw [hsame, census_update, ht]
    simp only [Phase.pending]
    omega
  have hqueue : ∀ u, (update s.phase t .idle u).onQueue = true → u ∈ s.wait := by
    intro u hu
    rcases eq_or_ne u t with rfl | hne
    · rw [update_self] at hu
      cases hu
    · rw [update_of_ne hne] at hu
      exact h.queue u hu
  refine ⟨?_, h.sleepers, h.permits, ?_, ?_⟩
  · rw [hcensus]
    exact h.count
  · intro u hu
    exact hqueue u ((hroused u).onQueue_eq ▸ hu)
  · rintro ⟨u, hu⟩
    have hrest := (hroused u).resting hu
    exact .inl (wakeUp_wakes (hqueue u (onQueue_of_resting hrest)) hrest)

theorem step_inv {e : Event N} (hfit : NoOverflow s e) (hstep : Step s e s') :
    Inv n s' := by
  have hint := int32_eq hfit
  cases e with simp only [Step, exec] at hstep
  | down t k =>
    split at hstep <;> cases hstep
    exact down_inv h ‹_› k hint
  | up t =>
    split at hstep <;> cases hstep
    exact up_inv h ‹_› hint
  | enqueue t =>
    split at hstep <;> cases hstep
    · exact enqueue_inv h ‹_› false
    · exact enqueue_inv h ‹_› true
  | sect t signal =>
    split at hstep <;> cases hstep
    case h_1 intr flag ht =>
      simp only [delta, ht] at hint
      refine body_inv h ht rfl rfl (fun hs => ?_) (fun hs => ?_)
      · rwa [if_pos hs] at hint
      · rw [if_neg hs] at hint
        rw [add_sub_cancel_right]
        exact hint
    case h_2 intr flag ht =>
      simp only [delta, ht] at hint
      refine body_inv h ht rfl (add_zero _).symm (fun hs => ?_) (fun hs => ?_)
      · rwa [if_pos hs] at hint
      · rwa [if_neg hs] at hint
    case h_3 ht =>
      simp only [delta, ht] at hint
      exact trylockFailed_inv h ht hint
  | sleep t =>
    split at hstep <;> cases hstep
    case h_1 intr ht => exact rephase_inv h ht rfl rfl (.inr ⟨rfl, rfl⟩)
    case h_2 intr ht => exact rephase_inv h ht rfl rfl (.inl rfl)
  | mark t =>
    split at hstep <;> cases hstep
    case h_1 intr ht => exact rephase_inv h ht rfl rfl (.inl rfl)
  | remove t =>
    split at hstep <;> cases hstep
    exact remove_inv h ‹_›
  | wake t =>
    split at hstep <;> cases hstep
    exact wake_inv h ‹_›
  | signal t =>
    split at hstep <;> cases hstep
    case h_1 flag ht => exact rephase_inv h ht rfl rfl (.inl rfl)
    case h_2 flag ht => exact rephase_inv h ht rfl rfl (.inl rfl)
    case h_3 flag ht => exact rephase_inv h ht rfl rfl (.inl rfl)
    case h_4 ht => exact rephase_inv h ht rfl rfl (.inl rfl)

end

/-! ## Whole runs -/

/-- Without an overflow of `count`, never more tasks have the semaphore than it was made for, and
when all tasks rest, one of them sleeps only if that many have it. -/
theorem semaphore_sound {n : Int} {s : State N} {es : List (Event N)} (hn : 0 ≤ n)
    (hrun : Run (Meeting NoOverflow Step) (State.init n) es s) :
    (s.acquired : Int) - s.ups ≤ n ∧
      (Quiet s → ∀ t intr, s.phase t = .asleep intr → (s.acquired : Int) - s.ups = n) := by
  have h : Inv n s :=
    Run.invariant (fun _ _ _ hinv ⟨hfit, hstep⟩ => step_inv hinv hfit hstep) hrun (inv_init hn)
  refine ⟨h.permits, fun hquiet t intr ht => ?_⟩
  have hnone : ¬ ∃ u, (s.phase u).active = true := by
    rintro ⟨u, hu⟩
    rcases hquiet u with hp | ⟨i, hp⟩ <;> rw [hp] at hu <;> cases hu
  obtain ⟨hone, hneg⟩ := (h.watched ⟨t, by rw [ht]; rfl⟩).resolve_left hnone
  have hpending : census Phase.pending s.phase = 0 := by
    refine Finset.sum_eq_zero fun u _ => ?_
    rcases hquiet u with hp | ⟨i, hp⟩ <;> rw [hp] <;> rfl
  have hcount := h.count
  have hpermits := h.permits
  omega

end

/-- `exec`, where no update overflows. -/
def execFits (s : State N) (e : Event N) : Option (State N) :=
  if NoOverflow s e then exec s e else none

theorem step_of_execFits (s : State N) (e : Event N) (s' : State N) (h : execFits s e = some s') :
    Meeting NoOverflow Step s e s' := by
  unfold execFits at h
  split at h
  · exact ⟨‹_›, h⟩
  · cases h

def first : Fin 2 := ⟨0, Nat.two_pos⟩

def second : Fin 2 := ⟨1, Nat.one_lt_two⟩

/-- One task has the semaphore and another one sleeps for it. -/
def contended : List (Event 2) :=
  [.down first .down, .down second .downInterruptible, .enqueue second, .sect second false,
    .sleep second]

theorem semaphore_sound_contended :
    ∃ s, execAll execFits (State.init 1) contended = some s ∧ s.phase 1 = .asleep true ∧
      (s.acquired : Int) - s.ups = 1 := by
  obtain ⟨s, hs, hzero, hone⟩ : ∃ s, execAll execFits (State.init 1) contended = some s ∧
      s.phase 0 = .idle ∧ s.phase 1 = .asleep true := ⟨_, rfl, by decide, by decide⟩
  have hquiet : Quiet s := fun t => by
    match t with
    | 0 => exact .inl hzero
    | 1 => exact .inr ⟨true, hone⟩
  exact ⟨s, hs, hone, (semaphore_sound Int.one_nonneg (Run.of_execAll step_of_execFits hs)).2
    hquiet 1 true hone⟩

/-- `count` has its largest value, and `up` is called twice. -/
def overflowing : List (Event 2) :=
  [.up first, .up first, .wake first, .down second .down, .enqueue second, .sect second false,
    .sleep second]

/-- A task sleeps though nobody has the semaphore. -/
theorem semaphore_overflow :
    ∃ s, Run Step (State.init (2 ^ 31 - 1)) overflowing s ∧ Quiet s ∧ s.phase 1 = .asleep false ∧
      (s.acquired : Int) - s.ups < 2 ^ 31 - 1 := by
  obtain ⟨s, hs, hzero, hone, hless⟩ : ∃ s, execAll exec (State.init (2 ^ 31 - 1)) overflowing = some s ∧
      s.phase 0 = .idle ∧ s.phase 1 = .asleep false ∧ (s.acquired : Int) - s.ups < 2 ^ 31 - 1 :=
    ⟨_, rfl, by decide, by decide, by decide⟩
  refine ⟨s, Run.of_execAll (fun _ _ _ h => h) hs, fun t => ?_, hone, hless⟩
  match t with
  | 0 => exact .inl hzero
  | 1 => exact .inr ⟨false, hone⟩

end CustomKernel.Locking.Semaphore

import CustomKernel.Time.Calendar

/-! # Five wheels keep a calendar

Where a timer hangs on the wheels is a function of the tick it is due in. On `tv1` it is
fewer than 256 ticks ahead, and its list is that of its tick. A list of a level above holds
the timers of one period of that level's unit, and what is due in it goes down when the
period begins. The wheels lag behind while a tick begins, level by level, so the invariant
has a bound of its own for each level. -/
namespace CustomKernel.Time.Wheel
open Lib Lib.Filing Lib.Transition Function
open Time.Timer Time.Calendar

/-! ## Where a timer hangs -/

/-- The ticks of one list of a level above `tv1`. -/
def unit : Nat → Nat
  | 1 => 2 ^ 8
  | 2 => 2 ^ 14
  | 3 => 2 ^ 20
  | _ => 2 ^ 26

/-- How far ahead a timer of the level is at most. -/
def span : Nat → Nat
  | 1 => 2 ^ 14
  | 2 => 2 ^ 20
  | 3 => 2 ^ 26
  | _ => 2 ^ 31

/-- A timer that is due in tick `d` hangs on the list. Of a level, every list up to the one
of tick `low` has gone down. Those set while a tick is processed count from `base`, and
otherwise there are none of them. -/
def Place (now : Nat) (low : Nat → Nat) (base : Option Nat) (expires d : Nat) : Slot → Prop
  | .tv 0 i => i = d % 2 ^ 8 ∧ now ≤ d ∧ d < now + 2 ^ 8
  | .tv n i =>
    n ≤ 4 ∧ i = d / unit n % 2 ^ 6 ∧ low n ≤ d / unit n * unit n ∧ d < now + span n ∧
      expires = d % 2 ^ 32
  | .queued => ∃ b, base = some b ∧ d = b + ahead b expires

/-- The list of a level that goes down next is that of the period which begins in `low` or
after it. -/
structure Hangs (s : Timer.State) (now : Nat) (low : Nat → Nat) (base : Option Nat)
    (due : TimerId → Option Nat) (loc : TimerId → Option Slot) : Prop where
  jiffies : s.timerJiffies = now % 2 ^ 32
  root : s.index 0 = now % 2 ^ 8
  index : ∀ n, 1 ≤ n → n ≤ 4 → s.index n = (low n + unit n - 1) / unit n % 2 ^ 6
  filed : Filed s.vec loc
  pending : ∀ t, s.pending t = (loc t).isSome
  placed : ∀ t slot, loc t = some slot →
    ∃ d, due t = some d ∧ Place now low base (s.expires t) d slot
  unset : ∀ t, loc t = none → due t = none
  range : ∀ t, s.expires t < 2 ^ 32

/-! ## Arithmetic of the wheels -/

theorem sub32_lt (a b : Nat) : sub32 a b < 2 ^ 32 := Nat.mod_lt _ (by decide)

theorem sub32_mod (a b : Nat) : sub32 a (b % 2 ^ 32) = sub32 a b := by
  simp [sub32]

/-- Of a tick that is near enough, the clock shows how far ahead it is. -/
theorem sub32_ahead {now d : Nat} (hle : now ≤ d) (hlt : d < now + 2 ^ 32) :
    sub32 (d % 2 ^ 32) now = d - now := by
  unfold sub32
  omega

theorem ahead_of_near {now d : Nat} (hle : now ≤ d) (hlt : d < now + 2 ^ 31) :
    now + ahead now (d % 2 ^ 32) = d := by
  unfold ahead
  rw [sub32_ahead hle (by omega), if_pos (by omega)]
  omega

theorem add_sub32_mod (now : Nat) {e : Nat} (he : e < 2 ^ 32) : (now + sub32 e now) % 2 ^ 32 = e := by
  unfold sub32
  omega

theorem level_cases {P : Nat → Prop} (h1 : P 1) (h2 : P 2) (h3 : P 3) (h4 : P 4) {n : Nat}
    (hpos : 1 ≤ n) (hle : n ≤ 4) : P n := by
  obtain rfl | rfl | rfl | rfl : n = 1 ∨ n = 2 ∨ n = 3 ∨ n = 4 := by omega
  · exact h1
  · exact h2
  · exact h3
  · exact h4

theorem place_tv {now e d n i : Nat} {low : Nat → Nat} {base : Option Nat} (hpos : 1 ≤ n) :
    Place now low base e d (.tv n i) ↔
      n ≤ 4 ∧ i = d / unit n % 2 ^ 6 ∧ low n ≤ d / unit n * unit n ∧ d < now + span n ∧
        e = d % 2 ^ 32 := by
  cases n with
  | zero => omega
  | succ n => rfl

theorem unit_pos (n : Nat) : 0 < unit n := by
  unfold unit
  split <;> decide

/-- The clock shows the digits of a tick that pick the list. -/
theorem digit_mod {n : Nat} (hpos : 1 ≤ n) (hle : n ≤ 4) (d : Nat) :
    d % 2 ^ 32 / unit n % 2 ^ 6 = d / unit n % 2 ^ 6 := by
  refine level_cases (P := fun n => d % 2 ^ 32 / unit n % 2 ^ 6 = d / unit n % 2 ^ 6)
    ?_ ?_ ?_ ?_ hpos hle <;> simp only [unit] <;> omega

/-- A timer that is at least one unit of the level ahead: its period has not begun. -/
theorem place_level {now e idx : Nat} {low : Nat → Nat} {base : Option Nat}
    (hlow : ∀ n, low n ≤ now + 1)
    (hmod : (now + idx) % 2 ^ 32 = e) {n : Nat} (hpos : 1 ≤ n) (hle : n ≤ 4)
    (hunit : unit n ≤ idx) (hspan : idx < span n) :
    Place now low base e (now + idx) (.tv n (e / unit n % 2 ^ 6)) := by
  have hdigit : e / unit n % 2 ^ 6 = (now + idx) / unit n % 2 ^ 6 := by
    rw [← hmod, digit_mod hpos hle]
  have hbegin : now + 1 ≤ (now + idx) / unit n * unit n := by
    have hrest := Nat.mod_lt (now + idx) (unit_pos n)
    have hdiv := Nat.div_add_mod' (now + idx) (unit n)
    omega
  rw [place_tv hpos]
  exact ⟨hle, hdigit, Nat.le_trans (hlow n) hbegin, by omega, hmod.symm⟩

/-- The list that `internal_add_timer` picks outside of the handlers. -/
theorem slot_place {s : Timer.State} {now e : Nat} {low : Nat → Nat} {base : Option Nat}
    (hrun : s.running = false) (hj : s.timerJiffies = now % 2 ^ 32)
    (hroot : s.index 0 = now % 2 ^ 8) (hlow : ∀ n, low n ≤ now + 1) (he : e < 2 ^ 32) :
    Place now low base e (now + ahead now e) (s.slot e) := by
  have hlt := sub32_lt e now
  have hmod := add_sub32_mod now he
  simp only [Timer.State.slot, hrun, hj, sub32_mod, Bool.false_eq_true, if_false, ahead]
  generalize sub32 e now = idx at hlt hmod ⊢
  by_cases hnear : idx < 2 ^ 31
  · rw [if_pos hnear, if_neg (Nat.not_le.mpr hnear)]
    split
    · exact ⟨by omega, by omega, by omega⟩
    split
    · exact place_level hlow hmod (by decide) (by decide) (by simp only [unit]; omega) ‹_›
    split
    · exact place_level hlow hmod (by decide) (by decide) (by simp only [unit]; omega) ‹_›
    split
    · exact place_level hlow hmod (by decide) (by decide) (by simp only [unit]; omega) ‹_›
    · exact place_level hlow hmod (by decide) (by decide) (by simp only [unit]; omega)
        hnear
  · rw [if_neg hnear, if_neg (by omega), if_neg (by omega), if_neg (by omega), if_neg (by omega),
      if_pos (Nat.not_lt.mp hnear)]
    exact ⟨hroot, by omega, by omega⟩

/-- A timer that is less than a unit of a level ahead goes to a lower level. -/
theorem slot_below {s : Timer.State} {now e n : Nat} (hrun : s.running = false)
    (hj : s.timerJiffies = now % 2 ^ 32) (hpos : 1 ≤ n) (hle : n ≤ 4)
    (hlt : sub32 e now < unit n) (i : Nat) : s.slot e ≠ .tv n i := by
  simp only [Timer.State.slot, hrun, hj, sub32_mod, Bool.false_eq_true, if_false]
  obtain rfl | rfl | rfl | rfl : n = 1 ∨ n = 2 ∨ n = 3 ∨ n = 4 := by omega
  all_goals
    simp only [unit] at hlt
    split_ifs <;> first | omega | simp

theorem slot_ne_queued {s : Timer.State} (hrun : s.running = false) (e : Nat) :
    s.slot e ≠ .queued := by
  simp only [Timer.State.slot, hrun, Bool.false_eq_true, if_false]
  split_ifs <;> simp

/-- In the tick in which a period of the level begins, its list holds the timers of this
period and no others. -/
theorem same_period {n now d : Nat} (hpos : 1 ≤ n) (hle : n ≤ 4) (hbegin : unit n ∣ now)
    (hlow : now ≤ d / unit n * unit n) (hspan : d < now + span n)
    (hlist : d / unit n % 2 ^ 6 = (now + unit n - 1) / unit n % 2 ^ 6) : d < now + unit n := by
  revert hbegin hlow hspan hlist
  refine level_cases (P := fun n => unit n ∣ now → now ≤ d / unit n * unit n → d < now + span n →
    d / unit n % 2 ^ 6 = (now + unit n - 1) / unit n % 2 ^ 6 → d < now + unit n)
    ?_ ?_ ?_ ?_ hpos hle <;> simp only [unit, span] <;> omega

theorem span_le {n : Nat} (hpos : 1 ≤ n) (hle : n ≤ 4) : span n ≤ 2 ^ 31 :=
  level_cases (P := fun n => span n ≤ 2 ^ 31) (by decide) (by decide) (by decide) (by decide)
    hpos hle

/-! ## One timer -/

section
variable {s : Timer.State} {now n d : Nat} {low : Nat → Nat} {base : Option Nat}
  {due : TimerId → Option Nat} {loc : TimerId → Option Slot}

theorem Hangs.take (h : Hangs s now low base due loc) (t : TimerId) :
    Hangs ((s.listDel t).forget t) now low base (update due t none)
      (update loc t none) where
  jiffies := h.jiffies
  root := h.root
  index := h.index
  filed := h.filed.remove t
  pending u := by
    rcases eq_or_ne u t with rfl | hne
    · simp [State.forget]
    · simp [State.forget, State.listDel, hne, h.pending]
  placed u slot hu := by
    rcases eq_or_ne u t with rfl | hne
    · rw [update_self] at hu
      cases hu
    · rw [update_of_ne hne] at hu ⊢
      exact h.placed u slot hu
  unset u hu := by
    rcases eq_or_ne u t with rfl | hne
    · exact update_self ..
    · rw [update_of_ne hne] at hu ⊢
      exact h.unset u hu
  range := h.range

theorem arm_vec (s : Timer.State) (t : TimerId) (e : Nat) :
    (internalAddTimer t ((s.setExpires t e).listDel t)).vec =
      Filing.insert (Filing.remove s.vec t) (s.slot e) t := by
  have hexp : (s.setExpires t e).expires t = e := update_self ..
  exact congrArg (fun e' => Filing.insert (Filing.remove s.vec t) (s.slot e') t) hexp

theorem arm_expires (s : Timer.State) (t : TimerId) (e : Nat) :
    (internalAddTimer t ((s.setExpires t e).listDel t)).expires = update s.expires t e :=
  rfl

/-- A timer goes from where it hangs, if it does, to the list that is picked for it. -/
theorem Hangs.arm (h : Hangs s now low base due loc) (t : TimerId) {e : Nat} (he : e < 2 ^ 32)
    (hplace : Place now low base e d (s.slot e)) :
    Hangs (internalAddTimer t ((s.setExpires t e).listDel t)) now low base
      (update due t (some d)) (update loc t (some (s.slot e))) := by
  refine ⟨h.jiffies, h.root, h.index, ?_, ?_, ?_, ?_, ?_⟩
  · rw [arm_vec]
    exact h.filed.move t (s.slot e)
  · intro u
    rcases eq_or_ne u t with rfl | hne
    · simp [internalAddTimer, State.listAddTail]
    · simp [internalAddTimer, State.listAddTail, State.listDel, State.setExpires, hne, h.pending]
  · intro u slot hu
    rw [arm_expires]
    rcases eq_or_ne u t with rfl | hne
    · rw [update_self] at hu
      cases hu
      simp only [update_self]
      exact ⟨d, rfl, hplace⟩
    · rw [update_of_ne hne] at hu ⊢
      rw [update_of_ne hne]
      exact h.placed u slot hu
  · intro u hu
    rcases eq_or_ne u t with rfl | hne
    · rw [update_self] at hu
      cases hu
    · rw [update_of_ne hne] at hu ⊢
      exact h.unset u hu
  · intro u
    rw [arm_expires]
    rcases eq_or_ne u t with rfl | hne
    · rwa [update_self]
    · rw [update_of_ne hne]
      exact h.range u

/-- A timer that stays due in the same tick. -/
theorem Hangs.again (h : Hangs s now low base due loc) (hrun : s.running = false)
    (hlow : ∀ n, low n ≤ now + 1) {t : TimerId}
    (hdue : due t = some (now + ahead now (s.expires t))) :
    Hangs (internalAddTimer t (s.listDel t)) now low base due
      (update loc t (some (s.slot (s.expires t)))) := by
  have hplace : Place now low base (s.expires t) (now + ahead now (s.expires t))
      (s.slot (s.expires t)) :=
    slot_place hrun h.jiffies h.root hlow (h.range t)
  have harm := h.arm t (h.range t) hplace
  rw [← hdue, update_eq_self] at harm
  have hsame : s.setExpires t (s.expires t) = s := by
    simp [State.setExpires, update_eq_self]
  rwa [hsame] at harm

/-! ## A list of timers -/

theorem rehash_frame (s : Timer.State) (slot : Slot) :
    ∃ vec pending, rehash slot s = { s with vec := vec, pending := pending } := by
  suffices hfold : ∀ (ts : List TimerId) (s : Timer.State), ∃ vec pending,
      ts.foldl (fun s t => internalAddTimer t (s.listDel t)) s =
        { s with vec := vec, pending := pending } by
    obtain ⟨vec, pending, heq⟩ := hfold (s.vec slot) s
    refine ⟨update vec slot [], pending, ?_⟩
    simp [rehash, heq]
  intro ts
  induction ts with
  | nil => exact fun s => ⟨s.vec, s.pending, rfl⟩
  | cons t ts ih =>
    intro s
    obtain ⟨vec, pending, heq⟩ := ih (internalAddTimer t (s.listDel t))
    exact ⟨vec, pending, heq⟩

/-- The timers that the loop has not come to are those that still hang on the list. -/
theorem Hangs.fold {slot : Slot} (hlow : ∀ n, low n ≤ now + 1) (ts : List TimerId)
    (hnodup : ts.Nodup) (h : Hangs s now low base due loc) (hrun : s.running = false)
    (hall : ∀ t, loc t = some slot ↔ t ∈ ts)
    (hback : ∀ t ∈ ts, due t = some (now + ahead now (s.expires t)) ∧
      s.slot (s.expires t) ≠ slot) :
    ∃ loc', Hangs (ts.foldl (fun s t => internalAddTimer t (s.listDel t)) s) now low base due loc' ∧
      ∀ t, loc' t ≠ some slot := by
  induction ts generalizing s loc with
  | nil => exact ⟨loc, h, fun t ht => by simpa using (hall t).mp ht⟩
  | cons t ts ih =>
    rw [List.nodup_cons] at hnodup
    rw [List.forall_mem_cons] at hback
    refine ih hnodup.2 (h.again hrun hlow hback.1.1) hrun ?_ hback.2
    intro u
    rcases eq_or_ne u t with rfl | hne
    · rw [update_self, Option.some.injEq]
      exact iff_of_false hback.1.2 hnodup.1
    · rw [update_of_ne hne, hall, List.mem_cons]
      exact or_iff_right hne

theorem Hangs.rehash (h : Hangs s now low base due loc) (hrun : s.running = false)
    (hlow : ∀ n, low n ≤ now + 1) (slot : Slot)
    (hback : ∀ t, loc t = some slot → due t = some (now + ahead now (s.expires t)) ∧
      s.slot (s.expires t) ≠ slot) :
    ∃ loc', Hangs (Timer.rehash slot s) now low base due loc' ∧ ∀ t, loc' t ≠ some slot := by
  obtain ⟨loc', h', hnone⟩ := h.fold hlow (s.vec slot) (h.filed.nodup slot) hrun
    (fun t => (h.filed.mem t slot).symm) fun t ht => hback t ((h.filed.mem t slot).mp ht)
  refine ⟨loc', ?_, hnone⟩
  have hempty : (List.foldl (fun s t => internalAddTimer t (s.listDel t)) s (s.vec slot)).vec slot
      = [] :=
    List.eq_nil_iff_forall_not_mem.mpr fun t ht => hnone t ((h'.filed.mem t slot).mp ht)
  unfold Timer.rehash
  simp only [← hempty, update_eq_self]
  exact h'

/-! ## The wheels turn -/

/-- A bound of a level can be raised to the next tick when its lists are those of later
periods, and its index with it. -/
theorem Hangs.raise (h : Hangs s now low base due loc) (low' index' : Nat → Nat)
    (hroot : index' 0 = s.index 0)
    (hindex : ∀ n, 1 ≤ n → n ≤ 4 → index' n = (low' n + unit n - 1) / unit n % 2 ^ 6)
    (hplace : ∀ t n i d, loc t = some (.tv n i) → 1 ≤ n → n ≤ 4 → i = d / unit n % 2 ^ 6 →
      low n ≤ d / unit n * unit n → low' n ≤ d / unit n * unit n) :
    Hangs { s with index := index' } now low' base due loc := by
  refine ⟨h.jiffies, hroot.trans h.root, hindex, h.filed, h.pending, ?_, h.unset, h.range⟩
  intro t slot ht
  obtain ⟨d, hd, hp⟩ := h.placed t slot ht
  refine ⟨d, hd, ?_⟩
  match slot with
  | .queued => exact hp
  | .tv 0 i => exact hp
  | .tv (n + 1) i =>
    obtain ⟨hle, hi, hl, hrest⟩ := hp
    exact ⟨hle, hi, hplace t (n + 1) i d ht (by omega) hle hi hl, hrest⟩

/-- Where no period begins, nothing has to go down. -/
theorem between_periods (hnot : ¬ unit n ∣ now)
    (hlow : now ≤ d / unit n * unit n) : now + 1 ≤ d / unit n * unit n :=
  Nat.lt_of_le_of_ne hlow fun heq => hnot (heq ▸ Nat.dvd_mul_left ..)

theorem index_begin (hbegin : unit n ∣ now) :
    (now + unit n - 1) / unit n = now / unit n := by
  obtain ⟨q, rfl⟩ := hbegin
  have hpos := unit_pos n
  rw [Nat.add_sub_assoc hpos, Nat.mul_add_div hpos, Nat.mul_div_cancel_left q hpos,
    Nat.div_eq_of_lt (by omega), Nat.add_zero]

theorem index_between (hpos : 1 ≤ n) (hle : n ≤ 4) (hnot : ¬ unit n ∣ now) :
    (now + unit n - 1) / unit n = (now + 1 + unit n - 1) / unit n := by
  revert hnot
  refine level_cases (P := fun n => ¬ unit n ∣ now →
    (now + unit n - 1) / unit n = (now + 1 + unit n - 1) / unit n)
    ?_ ?_ ?_ ?_ hpos hle <;> simp only [unit] <;> omega

/-- Levels whose lists have gone down, and those that need not. -/
theorem Hangs.settle (h : Hangs s now low base due loc)
    (hlow : ∀ n, 1 ≤ n → n ≤ 4 → low n = now + 1 ∨ low n = now ∧ ¬ unit n ∣ now) :
    Hangs s now (fun _ => now + 1) base due loc := by
  refine h.raise _ s.index rfl ?_ ?_
  · intro n hpos hle
    rw [h.index n hpos hle]
    rcases hlow n hpos hle with heq | ⟨heq, hnot⟩
    · rw [heq]
    · rw [heq, index_between hpos hle hnot]
  · intro t n i d _ hpos hle _ hl
    rcases hlow n hpos hle with heq | ⟨heq, hnot⟩
    · rwa [heq] at hl
    · rw [heq] at hl
      exact between_periods hnot hl

/-- The list of a level that goes down when its period begins. -/
theorem Hangs.cascade (h : Hangs s now low base due loc) (hrun : s.running = false)
    (hlow : ∀ n, low n ≤ now + 1) (hpos : 1 ≤ n) (hle : n ≤ 4) (hnow : low n = now)
    (hbegin : unit n ∣ now) :
    ∃ loc', Hangs (cascadeTimers n s) now (update low n (now + 1)) base due loc' := by
  have hindex := h.index n hpos hle
  rw [hnow] at hindex
  have hback : ∀ t, loc t = some (.tv n (s.index n)) →
      due t = some (now + ahead now (s.expires t)) ∧
        s.slot (s.expires t) ≠ .tv n (s.index n) := by
    intro t ht
    obtain ⟨d, hd, hp⟩ := h.placed t _ ht
    rw [place_tv hpos, hnow] at hp
    obtain ⟨-, hi, hl, hspan, he⟩ := hp
    have hd31 : d < now + 2 ^ 31 := Nat.lt_of_lt_of_le hspan (Nat.add_le_add_left (span_le hpos hle) _)
    have hge : now ≤ d := Nat.le_trans hl (Nat.div_mul_le_self d (unit n))
    have hunit := same_period hpos hle hbegin hl hspan (hi.symm.trans hindex)
    refine ⟨by rw [hd, he, ahead_of_near hge hd31], ?_⟩
    refine slot_below hrun h.jiffies hpos hle ?_ _
    rw [he, sub32_ahead hge (by omega)]
    omega
  obtain ⟨loc', h', hnone⟩ := h.rehash hrun hlow _ hback
  obtain ⟨vec, pending, heq⟩ := rehash_frame s (.tv n (s.index n))
  have hindex' : (Timer.rehash (.tv n (s.index n)) s).index = s.index := by rw [heq]
  refine ⟨loc', ?_⟩
  refine h'.raise _ _ (by simp [show 0 ≠ n by omega]) ?_ ?_
  · intro m hpos' hle'
    rcases eq_or_ne m n with rfl | hne
    · simp only [update_self]
      have hnext : (now + 1 + unit m - 1) / unit m = now / unit m + 1 := by
        rw [show now + 1 + unit m - 1 = now + unit m by omega, Nat.add_div_right _ (unit_pos m)]
      rw [hindex', hindex, index_begin hbegin, hnext, Nat.mod_add_mod]
    · simp only [update_of_ne hne]
      rw [hindex', h.index m hpos' hle']
  · intro t m i d ht hpos' hle' hi hl
    rcases eq_or_ne m n with rfl | hne
    · rw [update_self]
      rw [hnow] at hl
      refine Nat.lt_of_le_of_ne hl fun hsame => hnone t ?_
      have hq : d / unit m = now / unit m := by
        rw [hsame, Nat.mul_div_cancel _ (unit_pos m)]
      rw [ht, hi, hq, hindex, index_begin hbegin]
    · rwa [update_of_ne hne]

theorem cascade_running (n : Nat) (s : Timer.State) :
    (cascadeTimers n s).running = s.running := by
  obtain ⟨vec, pending, heq⟩ := rehash_frame s (.tv n (s.index n))
  rw [cascadeTimers, heq]

/-- The index is 1 after a cascade just when a period of the next level begins too. -/
theorem next_begins (hpos : 1 ≤ n) (hlt : n < 4) (hbegin : unit n ∣ now) :
    (now + 1 + unit n - 1) / unit n % 2 ^ 6 = 1 ↔ unit (n + 1) ∣ now := by
  revert hbegin
  obtain rfl | rfl | rfl : n = 1 ∨ n = 2 ∨ n = 3 := by omega
  all_goals simp only [unit, Nat.reduceAdd]; omega

theorem unit_dvd_succ : ∀ {n : Nat}, 1 ≤ n → unit n ∣ unit (n + 1)
  | 1, _ | 2, _ | 3, _ => by decide
  | _ + 4, _ => Nat.dvd_refl _

theorem unit_dvd {m : Nat} (hpos : 1 ≤ n) (hle : n ≤ m) : unit n ∣ unit m := by
  induction hle with
  | refl => exact Nat.dvd_refl _
  | step hle ih => exact Nat.dvd_trans ih (unit_dvd_succ (Nat.le_trans hpos hle))

/-- The loop over the levels, from one at which a period begins. -/
theorem Hangs.cascades {k : Nat} (hnk : n + k = 5) (hpos : 1 ≤ n) (hbegin : n ≤ 4 → unit n ∣ now)
    (h : Hangs s now (fun m => if m < n then now + 1 else now) base due loc)
    (hrun : s.running = false) :
    ∃ loc', Hangs (Timer.cascades (List.range' n k) s) now (fun _ => now + 1) base due loc' := by
  induction k generalizing n s loc with
  | zero => exact ⟨loc, h.settle fun m _ hm => .inl (if_pos (by omega))⟩
  | succ k ih =>
    have hle : n ≤ 4 := by omega
    have hbegin := hbegin hle
    obtain ⟨loc₁, h₁⟩ := h.cascade hrun (fun m => by split <;> omega) hpos hle
      (if_neg (Nat.lt_irrefl n)) hbegin
    have hlow : update (fun m => if m < n then now + 1 else now) n (now + 1) =
        fun m => if m < n + 1 then now + 1 else now := by
      funext m
      rcases eq_or_ne m n with rfl | hne
      · simp
      · have hlt : m < n ↔ m < n + 1 := by omega
        rw [update_of_ne hne]
        exact if_congr hlt rfl rfl
    rw [hlow] at h₁
    have hindex : (cascadeTimers n s).index n = (now + 1 + unit n - 1) / unit n % 2 ^ 6 := by
      rw [h₁.index n hpos hle, if_pos (Nat.lt_succ_self n)]
    rw [List.range'_succ, Timer.cascades]
    split
    · rename_i hone
      rw [hindex] at hone
      exact ih (by omega) (by omega) (fun h4 => (next_begins hpos h4 hbegin).mp hone) h₁
        (by rw [cascade_running, hrun])
    · rename_i hone
      rw [hindex] at hone
      refine ⟨loc₁, h₁.settle fun m _ hm => ?_⟩
      by_cases hlt : m < n + 1
      · exact .inl (if_pos hlt)
      · refine .inr ⟨if_neg hlt, fun hdvd => hone ?_⟩
        exact (next_begins hpos (by omega) hbegin).mpr
          (Nat.dvd_trans (unit_dvd (by omega) (by omega)) hdvd)

/-- As long as no timer waits for the next tick, it does not matter which one this is. -/
theorem Hangs.rebase (h : Hangs s now low base due loc) (hnone : ∀ t, loc t ≠ some .queued)
    (base' : Option Nat) : Hangs s now low base' due loc := by
  refine ⟨h.jiffies, h.root, h.index, h.filed, h.pending, ?_, h.unset, h.range⟩
  intro t slot ht
  obtain ⟨d, hd, hp⟩ := h.placed t slot ht
  cases slot with
  | queued => exact absurd ht (hnone t)
  | tv n i =>
    cases n with
    | zero => exact ⟨d, hd, hp⟩
    | succ n => exact ⟨d, hd, hp⟩

theorem Hangs.none_queued (h : Hangs s now low none due loc) (t : TimerId) :
    loc t ≠ some .queued := by
  intro ht
  obtain ⟨d, -, b, hb, -⟩ := h.placed t _ ht
  cases hb

/-- A tick begins: in every level, what is due in a period that begins goes down. -/
theorem Hangs.start (h : Hangs s now (fun _ => now) none due loc) (hrun : s.running = false) :
    ∃ loc', Hangs (startTick s) now (fun _ => now + 1) (some (now + 1)) due loc' := by
  have hqueued : s.vec .queued = [] :=
    List.eq_nil_iff_forall_not_mem.mpr fun t ht => h.none_queued t ((h.filed.mem t _).mp ht)
  have hclear : { s with vec := update s.vec .queued [] } = s := by
    rw [← hqueued, update_eq_self]
  obtain ⟨loc', h'⟩ : ∃ loc', Hangs
      (if s.index 0 = 0 then Timer.cascades [1, 2, 3, 4] s else s) now (fun _ => now + 1) none due
      loc' := by
    split
    · rename_i hzero
      have hbegin : unit 1 ∣ now := Nat.dvd_of_mod_eq_zero (h.root.symm.trans hzero)
      have hfirst : Hangs s now (fun m => if m < 1 then now + 1 else now) none due loc := by
        refine h.raise _ s.index rfl ?_ ?_
        · intro n hpos hle
          rw [if_neg (by omega), h.index n hpos hle]
        · intro t n i d _ hpos _ _ hl
          rwa [if_neg (by omega)]
      exact hfirst.cascades (k := 4) rfl (Nat.le_refl 1) (fun _ => hbegin) hrun
    · rename_i hnonzero
      refine ⟨loc, h.settle fun n hpos _ => .inr ⟨rfl, fun hdvd => hnonzero ?_⟩⟩
      rw [h.root]
      exact Nat.mod_eq_zero_of_dvd (Nat.dvd_trans (unit_dvd (Nat.le_refl 1) hpos) hdvd)
  have h'' := h'.rebase h'.none_queued (some (now + 1))
  refine ⟨loc', ?_⟩
  unfold startTick
  rw [hclear]
  exact ⟨h''.jiffies, h''.root, h''.index, h''.filed, h''.pending, h''.placed, h''.unset, h''.range⟩

/-- The tick of a timer at the head of the list that is run. -/
theorem Hangs.due_now (h : Hangs s now low base due loc) {t : TimerId}
    (ht : t ∈ s.vec (.tv 0 (s.index 0))) : due t = some now := by
  obtain ⟨d, hd, hi, hge, hlt⟩ := h.placed t _ ((h.filed.mem t _).mp ht)
  rw [h.root] at hi
  rw [hd]
  congr 1
  omega

/-- When the list is empty, no timer is left that is due. -/
theorem Hangs.none_due (h : Hangs s now (fun _ => now + 1) (some (now + 1)) due loc)
    (hempty : s.vec (.tv 0 (s.index 0)) = []) (t : TimerId) : due t ≠ some now := by
  intro hnow
  cases hloc : loc t with
  | none => rw [h.unset t hloc] at hnow; cases hnow
  | some slot =>
    obtain ⟨d, hd, hp⟩ := h.placed t slot hloc
    rw [hnow, Option.some.injEq] at hd
    subst hd
    match slot with
    | .queued =>
      obtain ⟨b, hb, hd⟩ := hp
      cases hb
      omega
    | .tv 0 i =>
      obtain ⟨rfl, -⟩ := hp
      rw [← h.filed.mem, ← h.root, hempty] at hloc
      cases hloc
    | .tv (n + 1) i =>
      rw [place_tv (by omega)] at hp
      have hle := Nat.div_mul_le_self now (unit (n + 1))
      omega

/-- A tick ends: the timers that were set in it are put on the wheels. -/
theorem Hangs.finish (h : Hangs s now (fun _ => now + 1) (some (now + 1)) due loc)
    (hempty : s.vec (.tv 0 (s.index 0)) = []) :
    ∃ loc', Hangs (endTick s) (now + 1) (fun _ => now + 1) none due loc' := by
  have hnone := h.none_due hempty
  have hnext : Hangs
      { s with
        running := false
        timerJiffies := (s.timerJiffies + 1) % 2 ^ 32
        index := update s.index 0 ((s.index 0 + 1) % 2 ^ 8) }
      (now + 1) (fun _ => now + 1) (some (now + 1)) due loc := by
    refine ⟨?_, ?_, ?_, h.filed, h.pending, ?_, h.unset, h.range⟩
    · simp [h.jiffies]
    · simp [h.root]
    · intro n hpos hle
      simp only [update_of_ne (show n ≠ 0 by omega)]
      exact h.index n hpos hle
    · intro t slot ht
      obtain ⟨d, hd, hp⟩ := h.placed t slot ht
      refine ⟨d, hd, ?_⟩
      match slot with
      | .queued => exact hp
      | .tv 0 i =>
        obtain ⟨hi, hge, hlt⟩ := hp
        have hne : d ≠ now := fun heq => hnone t (heq ▸ hd)
        exact ⟨hi, by omega, by omega⟩
      | .tv (n + 1) i =>
        obtain ⟨hle, hi, hl, hspan, he⟩ := hp
        exact ⟨hle, hi, hl, by omega, he⟩
  obtain ⟨loc', h', hgone⟩ := hnext.rehash rfl (fun _ => Nat.le_succ _) .queued fun t ht => by
    obtain ⟨d, hd, b, hb, hdue⟩ := hnext.placed t _ ht
    cases hb
    exact ⟨hd.trans (congrArg some hdue), slot_ne_queued rfl _⟩
  exact ⟨loc', h'.rebase hgone none⟩

end

/-! ## The calendar is kept -/

/-- The tick from which timers are counted that are set while one is processed. -/
def queueBase (c : Calendar.State) : Option Nat := if c.running then some c.base else none

structure Tracks (s : Timer.State) (c : Calendar.State) : Prop where
  running : s.running = c.running
  hangs : ∃ loc, Hangs s c.now (fun _ => c.base) (queueBase c) c.due loc

theorem init_tracks : Tracks init blank where
  running := rfl
  hangs := by
    refine ⟨fun _ => none, rfl, rfl, ?_, filed_empty, fun _ => rfl, ?_, fun _ _ => rfl, ?_⟩
    · intro n hpos hle
      exact level_cases (P := fun n => 0 = (0 + unit n - 1) / unit n % 2 ^ 6) rfl rfl rfl rfl hpos hle
    · intro t slot ht
      cases ht
    · intro t
      exact Nat.two_pow_pos 32

section
variable {s s' : Timer.State} {c : Calendar.State} {o : Op} {e : Nat}

theorem Tracks.pending (h : Tracks s c) (t : TimerId) : s.pending t = (c.due t).isSome := by
  obtain ⟨loc, hh⟩ := h.hangs
  rw [hh.pending]
  cases hloc : loc t with
  | none => rw [hh.unset t hloc]; rfl
  | some slot =>
    obtain ⟨d, hd, -⟩ := hh.placed t slot hloc
    rw [hd]
    rfl

theorem Tracks.arm (h : Tracks s c) (t : TimerId) (he : e < 2 ^ 32) :
    Tracks (internalAddTimer t ((s.setExpires t e).listDel t)) (c.set t e) := by
  obtain ⟨loc, hh⟩ := h.hangs
  have hplace : Place c.now (fun _ => c.base) (queueBase c) e (c.base + ahead c.base e)
      (s.slot e) := by
    cases hrun : c.running with
    | true =>
      rw [show s.slot e = .queued by simp [Timer.State.slot, h.running, hrun]]
      exact ⟨c.base, by rw [queueBase, hrun]; rfl, rfl⟩
    | false =>
      have hbase : c.base = c.now := by simp [Calendar.State.base, hrun]
      rw [hbase]
      exact slot_place (h.running.trans hrun) hh.jiffies hh.root (fun _ => Nat.le_succ _) he
  exact ⟨h.running, _, hh.arm t he hplace⟩

theorem Tracks.listDel_eq (h : Tracks s c) {t : TimerId} (ht : s.pending t = false) :
    s.listDel t = s := by
  obtain ⟨loc, hh⟩ := h.hangs
  have hloc : loc t = none := by rwa [hh.pending, Option.isSome_eq_false_iff, Option.isNone_iff_eq_none] at ht
  rw [Timer.State.listDel, hh.filed.remove_absent hloc]

theorem Tracks.clear (h : Tracks s c) (t : TimerId) :
    Tracks ((detachTimer t s).2.forget t) (c.clear t) := by
  have hdel : (detachTimer t s).2 = s.listDel t := by
    unfold detachTimer
    split
    · rfl
    · rename_i hnot
      exact (h.listDel_eq (Bool.eq_false_iff.mpr hnot)).symm
  obtain ⟨loc, hh⟩ := h.hangs
  rw [hdel]
  exact ⟨h.running, _, hh.take t⟩

theorem Tracks.detach_eq (h : Tracks s c) (t : TimerId) (e : Nat) :
    (detachTimer t (s.setExpires t e)).2 = (s.setExpires t e).listDel t := by
  unfold detachTimer
  split
  · rfl
  · rename_i hnot
    exact (congrArg (fun s => s.setExpires t e) (h.listDel_eq (Bool.eq_false_iff.mpr hnot))).symm

theorem detachTimer_fst (t : TimerId) (s : Timer.State) : (detachTimer t s).1 = s.pending t := by
  unfold detachTimer
  split
  · exact Eq.symm ‹_›
  · exact (Bool.eq_false_iff.mpr ‹_›).symm

/-- Every step of the kernel is one of the calendar. -/
theorem step_tracks (h : Tracks s c) (hstep : Timer.Step s o s') :
    ∃ c', Calendar.Step c o c' ∧ Tracks s' c' := by
  obtain ⟨hallowed, rfl⟩ := hstep
  cases o with
  | interrupt =>
    obtain ⟨loc, hh⟩ := h.hangs
    exact ⟨c, rfl, h.running, loc, hh.jiffies, hh.root, hh.index, hh.filed, hh.pending, hh.placed,
      hh.unset, hh.range⟩
  | add t e =>
    refine ⟨_, rfl, ?_⟩
    simp only [Op.exec, addTimer, ← h.pending]
    split
    · exact h
    · rename_i hnot
      have hsame : (s.setExpires t e).listDel t = s.setExpires t e :=
        congrArg (fun s => s.setExpires t e) (h.listDel_eq (Bool.eq_false_iff.mpr hnot))
      rw [← hsame]
      exact h.arm t hallowed
  | mod t e ret =>
    refine ⟨c.set t e, ⟨?_, rfl⟩, ?_⟩
    · rw [hallowed.2, modTimer, detachTimer_fst, ← h.pending]
      rfl
    · rw [Op.exec, modTimer, h.detach_eq]
      exact h.arm t hallowed.1
  | del t ret =>
    refine ⟨c.clear t, ⟨?_, rfl⟩, h.clear t⟩
    rw [hallowed, delTimer, detachTimer_fst, h.pending]
  | start =>
    have hrun : c.running = false := h.running.symm.trans hallowed.1
    obtain ⟨loc, hh⟩ := h.hangs
    simp only [queueBase, Calendar.State.base, hrun] at hh
    obtain ⟨loc', h'⟩ := hh.start hallowed.1
    exact ⟨{ c with running := true }, ⟨hrun, rfl⟩, rfl, loc', h'⟩
  | run t =>
    obtain ⟨loc, hh⟩ := h.hangs
    exact ⟨c.clear t, ⟨h.running.symm.trans hallowed.1,
      hh.due_now (List.mem_of_head? hallowed.2), rfl⟩, h.clear t⟩
  | finish =>
    have hrun : c.running = true := h.running.symm.trans hallowed.1
    obtain ⟨loc, hh⟩ := h.hangs
    simp only [queueBase, Calendar.State.base, hrun] at hh
    obtain ⟨loc', h'⟩ := hh.finish hallowed.2
    refine ⟨{ c with running := false, now := c.now + 1 }, ⟨hrun, hh.none_due hallowed.2, rfl⟩, ?_,
      loc', h'⟩
    obtain ⟨vec, pending, heq⟩ := rehash_frame _ .queued
    rw [Op.exec, endTick, heq]

/-! ## Runs -/

variable {os : List Op}

theorem run_tracks (h : Run Timer.Step s os s') (hc : Tracks s c) :
    ∃ c', Run Calendar.Step c os c' ∧ Tracks s' c' :=
  h.simulation (fun _ _ _ _ => step_tracks) hc

/-- However a run goes on in which no call names the timer, the timer runs in it once at
most, when `timer_jiffies` is `tick`, and it has run when that tick is over. -/
def RunsOnce (s : Timer.State) (t : TimerId) (wait tick : Nat) : Prop :=
  ∀ os s', Run Timer.Step s os s' → (∀ o ∈ os, o.names t = false) →
    (∀ os₁ os₂ m, os = os₁ ++ .run t :: os₂ → Run Timer.Step s os₁ m →
      m.timerJiffies = tick ∧ ticks os₁ = wait ∧ .run t ∉ os₁ ∧ .run t ∉ os₂) ∧
    (wait < ticks os → .run t ∈ os)

theorem Tracks.jiffies (h : Tracks s c) : s.timerJiffies = c.now % 2 ^ 32 := by
  obtain ⟨loc, hh⟩ := h.hangs
  exact hh.jiffies

/-- What the calendar says of a timer, the kernel does. -/
theorem Tracks.runsOnce (h : Tracks s c) (hc : Timely c) {t : TimerId} {d : Nat}
    (hdue : c.due t = some d) : RunsOnce s t (d - c.now) (d % 2 ^ 32) := by
  intro os s' hrun hleft
  obtain ⟨c', hcal, -⟩ := run_tracks hrun h
  refine ⟨?_, fun hwait => runs_by hcal hc hleft hdue (by omega)⟩
  rintro os₁ os₂ m rfl hm
  obtain ⟨hd, hnone⟩ := runs_in_tick hcal hleft hdue
  obtain ⟨cm, hcm, htm⟩ := run_tracks hm h
  refine ⟨?_, by omega, hnone⟩
  rw [htm.jiffies, run_now hcm, hd]

/-- The tick of the calendar as the clock shows it. -/
theorem Tracks.tickOf_eq (h : Tracks s c) (he : e < 2 ^ 32) :
    (c.base + ahead c.base e) % 2 ^ 32 = s.tickOf e ∧
      c.base + ahead c.base e - c.now = sub32 (s.tickOf e) s.timerJiffies := by
  have hnext : s.nextTick = c.base % 2 ^ 32 := by
    rw [Timer.State.nextTick, Calendar.State.base, h.running, h.jiffies]
    split
    · exact Nat.mod_add_mod ..
    · rfl
  have hbase : c.now ≤ c.base ∧ c.base ≤ c.now + 1 := by
    rw [Calendar.State.base]
    split <;> omega
  rw [Timer.State.tickOf, hnext, sub32_mod, h.jiffies, sub32_mod, ahead]
  split
  · have hmod := add_sub32_mod c.base he
    have hfar := sub32_ahead (d := c.base + sub32 e c.base) (Nat.le_add_right_of_le hbase.1)
      (by omega)
    rw [hmod] at hfar
    exact ⟨hmod, hfar.symm⟩
  · rw [Nat.add_zero, sub32_ahead hbase.1 (by omega)]
    exact ⟨rfl, rfl⟩

theorem set_runsOnce (h : Tracks s c) (hc : Timely c) {t : TimerId} (he : e < 2 ^ 32)
    (h' : Tracks s' (c.set t e)) :
    RunsOnce s' t (sub32 (s.tickOf e) s.timerJiffies) (s.tickOf e) := by
  obtain ⟨htick, hwait⟩ := h.tickOf_eq he
  rw [← hwait, ← htick]
  exact h'.runsOnce (hc.set t e) (update_self ..)

/-- After any run, a timer that is set runs once, in the tick it is set for, and `del_timer`
and `mod_timer` say whether it was still to run. -/
theorem timers_run_once (h : Run Timer.Step init os s) (t : TimerId) :
    (∀ ret s', Timer.Step s (.del t ret) s' → ret = armed t os) ∧
    (∀ e ret s', Timer.Step s (.mod t e ret) s' →
      ret = armed t os ∧ RunsOnce s' t (sub32 (s.tickOf e) s.timerJiffies) (s.tickOf e)) ∧
    (∀ e s', armed t os = false → Timer.Step s (.add t e) s' →
      RunsOnce s' t (sub32 (s.tickOf e) s.timerJiffies) (s.tickOf e)) := by
  obtain ⟨c, hcal, htracks⟩ := run_tracks h init_tracks
  have htimely : Timely c := run_timely hcal fun t d ht => by cases ht
  have harmed : (c.due t).isSome = armed t os := run_isSome hcal t
  refine ⟨?_, ?_, ?_⟩
  · intro ret s' hstep
    obtain ⟨c', hc', -⟩ := step_tracks htracks hstep
    rw [hc'.1, harmed]
  · intro e ret s' hstep
    obtain ⟨c', ⟨hret, rfl⟩, h'⟩ := step_tracks htracks hstep
    exact ⟨hret.trans harmed, set_runsOnce htracks htimely hstep.1.1 h'⟩
  · intro e s' hnot hstep
    obtain ⟨c', hc', h'⟩ := step_tracks htracks hstep
    rw [← harmed] at hnot
    rw [Calendar.Step, hnot, if_neg Bool.false_ne_true] at hc'
    exact set_runsOnce htracks htimely hstep.1 (hc' ▸ h')

/-- The first timer is due at once, and its handler sets the second one for three ticks on. -/
def handlerOps : List Op := [.add 1 0, .start, .run 1]

theorem timers_run_once_from_handler :
    ∃ s, Run Timer.Step init handlerOps s ∧ s.running = true ∧
      RunsOnce (addTimer 2 3 s) 2 3 3 := by
  refine ⟨_, run_after handlerOps init (by decide +kernel), by decide +kernel, ?_⟩
  have hrun := run_after handlerOps init (by decide +kernel)
  exact (timers_run_once hrun 2).2.2 3 _ (by decide +kernel) ⟨by decide +kernel, rfl⟩

/-- A handler that sets a timer for the tick it runs in: the timer runs in the next one. -/
theorem handler_timer_next_tick :
    ∃ s s₁ s₂ s₃, Run Timer.Step init handlerOps s ∧ s.timerJiffies = 0 ∧
      Timer.Step s (.add 2 0) s₁ ∧ Run Timer.Step s₁ [.finish, .interrupt, .start] s₂ ∧
      Timer.Step s₂ (.run 2) s₃ ∧ s₂.timerJiffies = 1 := by
  refine ⟨_, _, _, _, run_after handlerOps init (by decide +kernel), by decide +kernel,
    ⟨by decide +kernel, rfl⟩, run_after _ _ (by decide +kernel), ⟨by decide +kernel, rfl⟩,
    by decide +kernel⟩

end

end CustomKernel.Time.Wheel

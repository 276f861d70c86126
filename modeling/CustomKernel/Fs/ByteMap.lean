import Mathlib.Data.List.Nodup
import CustomKernel.Fs.Locks

/-! # Record locks as a map of bytes

`posix_lock_file` changes the locks of one owner in one pass over the list. The locks of
an owner are in order and apart, so the pass meets first those that lie below the range,
then one that reaches into it from the left, those that it swallows, one that reaches out
of it to the right, and those above. What it leaves is the map of bytes with the range
set to the new type, unless the range ends at `OFFSET_MAX`, where the next offset wraps. -/
namespace CustomKernel.Fs.ByteMap
open Lib.Transition Fs.Locks

/-! ## Ranges -/

section Ranges
variable {c fl u v : FileLock} {x : Int}

/-- A range of offsets. -/
structure Ranged (fl : FileLock) : Prop where
  nonneg : 0 ≤ fl.flStart
  le : fl.flStart ≤ fl.flEnd
  max : fl.flEnd ≤ offsetMax

theorem Ranged.pred (h : Ranged c) : wrap64 (c.flStart - 1) = c.flStart - 1 := by
  obtain ⟨h0, h1, h2⟩ := h
  unfold wrap64
  unfold offsetMax at h2
  omega

theorem Ranged.succ (h : Ranged c) (hmax : c.flEnd < offsetMax) : wrap64 (c.flEnd + 1) = c.flEnd + 1 := by
  obtain ⟨h0, h1, _⟩ := h
  unfold wrap64
  unfold offsetMax at hmax
  omega

/-- What a record lock on the list is like. -/
structure Held (fl : FileLock) : Prop extends Ranged fl where
  posix : fl.flFlags = .posix
  type : fl.flType = .rdlck ∨ fl.flType = .wrlck

/-- One lock lies in front of another, and they need not be one. -/
def Apart (u v : FileLock) : Prop :=
  u.flEnd < v.flStart ∧ (u.flType = v.flType → u.flEnd + 1 < v.flStart)

theorem Apart.far (h : u.flEnd + 1 < v.flStart) : Apart u v := ⟨by omega, fun _ => h⟩

/-- Offset `x` has type `t`. -/
def At (l : List FileLock) (x : Int) (t : LockType) : Prop :=
  ∃ u ∈ l, u.flStart ≤ x ∧ x ≤ u.flEnd ∧ u.flType = t

end Ranges

/-! ## Steps of the pass -/

section Steps
variable {c fl : FileLock} {added : Bool} {self left : Option Nat} {sk rest : List FileLock}

theorem pass_other (h : ¬locksSameOwner c fl) :
    pass c added self left sk (fl :: rest) = ⟨sk, fl :: rest, c, added, self, left, false⟩ := by
  rw [Locks.pass, if_pos h]

theorem pass_below (hc : Ranged c) (ho : locksSameOwner c fl) (h : Apart fl c) :
    pass c added self left sk (fl :: rest) = pass c added self left (sk ++ [fl]) rest := by
  rw [Locks.pass, if_neg (not_not.mpr ho)]
  split
  next heq =>
    have := h.2 heq.symm
    rw [if_pos]
    rw [hc.pred]
    omega
  · rw [if_pos h.1]

theorem pass_above (hc : Ranged c) (hfl : Ranged fl) (ho : locksSameOwner c fl) (h : Apart c fl) :
    pass c added self left sk (fl :: rest) = ⟨sk, fl :: rest, c, added, self, left, false⟩ := by
  have := hc.le
  have := hfl.le
  have := h.1
  rw [Locks.pass, if_neg (not_not.mpr ho)]
  split
  next heq =>
    have hlt := h.2 heq
    rw [if_neg, if_pos]
    · rw [hc.succ (by have := hfl.max; omega)]
      exact hlt
    · rw [hc.pred]
      omega
  · rw [if_neg (by omega : ¬fl.flEnd < c.flStart)]

theorem pass_merge (hc : Ranged c) (hmax : c.flEnd < offsetMax) (ho : locksSameOwner c fl)
    (ht : c.flType = fl.flType) (hlo : c.flStart - 1 ≤ fl.flEnd) (hhi : fl.flStart ≤ c.flEnd + 1) :
    pass c added self left sk (fl :: rest) =
      if added then
        pass { c with flStart := min c.flStart fl.flStart, flEnd := max c.flEnd fl.flEnd } true self
          left sk rest
      else
        let fl := { fl with flStart := min c.flStart fl.flStart, flEnd := max c.flEnd fl.flEnd }
        pass fl true (some sk.length) left (sk ++ [fl]) rest := by
  have hmin : (if fl.flStart > c.flStart then c.flStart else fl.flStart) = min c.flStart fl.flStart := by
    split <;> omega
  have hmaxEq : (if fl.flEnd < c.flEnd then c.flEnd else fl.flEnd) = max c.flEnd fl.flEnd := by
    split <;> omega
  rw [Locks.pass, if_neg (not_not.mpr ho), if_pos ht, if_neg, if_neg]
  · rw [hmin, hmaxEq]
    cases added <;> rfl
  · rw [hc.succ hmax]
    omega
  · rw [hc.pred]
    omega

theorem pass_skip (hc : Ranged c) {A : List FileLock} (hA : ∀ u ∈ A, locksSameOwner c u ∧ Apart u c) :
    pass c added self left sk (A ++ rest) = pass c added self left (sk ++ A) rest := by
  induction A generalizing sk with
  | nil => rw [List.nil_append, List.append_nil]
  | cons u A ih =>
    obtain ⟨ho, hu⟩ := hA u List.mem_cons_self
    rw [List.cons_append, pass_below hc ho hu, ih fun v hv => hA v (List.mem_cons_of_mem _ hv),
      List.append_assoc, List.singleton_append]

end Steps

/-! ## The pass over the locks of the owner -/

section Own
variable {c d d1 fl y : FileLock} {added : Bool} {self : Option Nat}
  {A B L R S Z sk ys own : List FileLock} {x : Int} {t : LockType}

/-- What follows the locks of the owner. -/
def Foreign (c : FileLock) (S : List FileLock) : Prop := ∀ fl ∈ S.head?, ¬locksSameOwner c fl

/-- A lock of the owner of `c` on the list. -/
structure Mine (c fl : FileLock) : Prop extends Held fl where
  owner : locksSameOwner c fl

theorem Foreign.of_owner (h : Foreign c S) (ho : locksSameOwner c d) : Foreign d S :=
  fun fl hfl hsame => h fl hfl ⟨ho.1.trans hsame.1, ho.2.trans hsame.2⟩

theorem Mine.of_owner (h : Mine c fl) (ho : locksSameOwner c d) : Mine d fl :=
  ⟨h.toHeld, ho.1.symm.trans h.owner.1, ho.2.symm.trans h.owner.2⟩

theorem Held.ne_unlck (h : Held fl) : fl.flType ≠ .unlck := by
  rcases h.type with ht | ht <;> rw [ht] <;> decide

theorem pass_stop {left : Option Nat} (hd : Ranged d) (hS : Foreign d S) (hmine : ∀ y ∈ ys, Mine d y)
    (habove : ∀ y ∈ ys, Apart d y) :
    pass d added self left sk (ys ++ S) = ⟨sk, ys ++ S, d, added, self, left, false⟩ := by
  cases ys with
  | nil =>
    cases S with
    | nil => rfl
    | cons fl S => exact pass_other (hS fl rfl)
  | cons y ys =>
    have hm := hmine y List.mem_cons_self
    exact pass_above hd hm.toRanged hm.owner (habove y List.mem_cons_self)

/-- Behind a lock that lies above all the others do. -/
theorem Apart.all (h : Apart c y) (hle : y.flStart ≤ y.flEnd)
    (hy : ∀ z ∈ ys, Apart y z) : ∀ z ∈ y :: ys, Apart c z := by
  refine List.forall_mem_cons.mpr ⟨h, fun z hz => ?_⟩
  have := (hy z hz).1
  have := h.1
  exact .far (by omega)

/-! ### What the pass has met -/

/-- A lock for the owner and the type of `c`. -/
structure Like (c d : FileLock) : Prop extends Ranged d where
  posix : d.flFlags = .posix
  type : d.flType = c.flType
  owner : locksSameOwner c d

/-- The pass has met the locks `Z`, and the range of `c` has grown to the one of `d`. `L` holds a
lock that reaches into the range of `c` from the left, and `R` one that reaches out of it to the
right. -/
structure Met (c d : FileLock) (Z L R : List FileLock) : Prop extends Like c d where
  lo : d.flStart ≤ c.flStart
  hi : c.flEnd ≤ d.flEnd
  filled : ∀ x, d.flStart ≤ x → x ≤ d.flEnd → x < c.flStart ∨ c.flEnd < x → At Z x c.flType
  same : ∀ z ∈ Z, z.flType = c.flType → d.flStart ≤ z.flStart ∧ z.flEnd ≤ d.flEnd
  other : ∀ z ∈ Z, z.flType ≠ c.flType →
    (z.flStart < c.flStart → z ∈ L) ∧ (c.flEnd < z.flEnd → z ∈ R)
  left : ∀ l ∈ L, l ∈ Z ∧ l.flType ≠ c.flType ∧ l.flStart < c.flStart ∧ c.flStart ≤ l.flEnd ∧
    d.flStart = c.flStart
  right : ∀ r ∈ R, r ∈ Z ∧ r.flType ≠ c.flType ∧ r.flStart ≤ c.flEnd ∧ c.flEnd < r.flEnd ∧
    d.flEnd = c.flEnd
  few : L.length ≤ 1 ∧ R.length ≤ 1

theorem forall_mem_snoc {P : FileLock → Prop} (h : ∀ z ∈ Z, P z) (hy : P y) : ∀ z ∈ Z ++ [y], P z :=
  List.forall_mem_append.mpr ⟨h, List.forall_mem_singleton.mpr hy⟩

/-- Nothing is met yet, or one lock that reaches into the range. -/
theorem Met.first (hc : Like c c) (hZ : ∀ z ∈ Z, z ∈ L) (hleft : ∀ l ∈ L, l ∈ Z ∧ l.flType ≠ c.flType ∧
    l.flStart < c.flStart ∧ c.flStart ≤ l.flEnd)
    (hright : ∀ z ∈ Z, c.flEnd < z.flEnd ↔ z ∈ R) (hR : ∀ r ∈ R, r ∈ Z)
    (hfew : L.length ≤ 1 ∧ R.length ≤ 1) : Met c c Z L R where
  toLike := hc
  lo := le_rfl
  hi := le_rfl
  filled := fun x h1 h2 h3 => absurd h3 (by omega)
  same := fun z hz ht => absurd ht (hleft z (hZ z hz)).2.1
  other := fun z hz _ => ⟨fun _ => hZ z hz, (hright z hz).mp⟩
  left := fun l hl => ⟨(hleft l hl).1, (hleft l hl).2.1, (hleft l hl).2.2.1, (hleft l hl).2.2.2, rfl⟩
  right := by
    intro r hr
    obtain ⟨_, ht, hlo, _⟩ := hleft r (hZ r (hR r hr))
    have := hc.le
    exact ⟨hR r hr, ht, by omega, (hright r (hR r hr)).mpr hr, rfl⟩
  few := hfew

/-- The next lock is swallowed. -/
theorem Met.snoc (h : Met c d Z L []) (hd1 : Like c d1) (hlo : d1.flStart ≤ d.flStart)
    (hhi : d.flEnd ≤ d1.flEnd)
    (hfill : ∀ x, d1.flStart ≤ x → x ≤ d1.flEnd → x < d.flStart ∨ d.flEnd < x →
      y.flStart ≤ x ∧ x ≤ y.flEnd ∧ y.flType = c.flType)
    (hsame : y.flType = c.flType → d1.flStart ≤ y.flStart ∧ y.flEnd ≤ d1.flEnd)
    (hother : y.flType ≠ c.flType → c.flStart ≤ y.flStart ∧ y.flEnd ≤ c.flEnd)
    (hL : L ≠ [] → d1.flStart = d.flStart) : Met c d1 (Z ++ [y]) L [] where
  toLike := hd1
  lo := hlo.trans h.lo
  hi := h.hi.trans hhi
  filled := by
    intro x h1 h2 hout
    by_cases hx : x < d.flStart ∨ d.flEnd < x
    · exact ⟨y, by simp, hfill x h1 h2 hx⟩
    · obtain ⟨z, hz, hx⟩ := h.filled x (by omega) (by omega) hout
      exact ⟨z, List.mem_append_left _ hz, hx⟩
  same := by
    refine forall_mem_snoc (fun z hz ht => ?_) hsame
    have := h.same z hz ht
    omega
  other := by
    refine forall_mem_snoc h.other fun ht => ?_
    have := hother ht
    exact ⟨fun hlt => absurd hlt (by omega), fun hlt => absurd hlt (by omega)⟩
  left := by
    intro l hl
    obtain ⟨hz, ht, h1, h2, h3⟩ := h.left l hl
    exact ⟨List.mem_append_left _ hz, ht, h1, h2, (hL (List.ne_nil_of_mem hl)).trans h3⟩
  right := by simp
  few := h.few

/-- The next lock reaches out of the range. -/
theorem Met.out (h : Met c d Z L []) (ht : y.flType ≠ c.flType) (hlo : c.flStart ≤ y.flStart)
    (hhi : y.flStart ≤ c.flEnd) (hout : c.flEnd < y.flEnd) (hend : d.flEnd = c.flEnd) :
    Met c d (Z ++ [y]) L [y] where
  toLike := h.toLike
  lo := h.lo
  hi := h.hi
  filled := by
    intro x h1 h2 hx
    obtain ⟨z, hz, hx⟩ := h.filled x h1 h2 hx
    exact ⟨z, List.mem_append_left _ hz, hx⟩
  same := forall_mem_snoc h.same fun heq => absurd heq ht
  other := by
    refine forall_mem_snoc (fun z hz hzt => ?_) fun _ => ⟨fun hlt => absurd hlt (by omega), by simp⟩
    exact (h.other z hz hzt).imp_right fun hn hlt => absurd (hn hlt) (by simp)
  left := fun l hl => (h.left l hl).imp_left (List.mem_append_left _)
  right := List.forall_mem_singleton.mpr ⟨by simp, ht, hhi, hout, hend⟩
  few := ⟨h.few.1, le_rfl⟩

/-- A lock of another type behind those met is in the range only where that has not grown. -/
theorem Met.end_eq (h : Met c d Z L R) (hZ : ∀ z ∈ Z, Apart z y) (hhi : y.flStart ≤ d.flEnd) :
    d.flEnd = c.flEnd := by
  by_contra hne
  have := h.hi
  obtain ⟨z, hz, h1, h2, _⟩ := h.filled d.flEnd h.le le_rfl (.inr (by omega))
  have := (hZ z hz).1
  omega

/-! ### Behind the pass -/

/-- The place of the lock in `L`, if there is one. -/
def mark (A L : List FileLock) : Option Nat := L.head?.map fun _ => A.length

def toLeft (c fl : FileLock) : FileLock := { fl with flEnd := c.flStart - 1 }

def toRight (c fl : FileLock) : FileLock := { fl with flStart := c.flEnd + 1 }

theorem modify_append (A : List FileLock) (l : FileLock) (B : List FileLock) (f : FileLock → FileLock) :
    (A ++ l :: B).modify A.length f = A ++ f l :: B := by
  induction A with
  | nil => rfl
  | cons a A ih => rw [List.cons_append, List.length_cons, List.modify_succ_cons, ih, List.cons_append]

theorem modify_mark (hL : L.length ≤ 1) (B : List FileLock) (f : FileLock → FileLock) :
    (match mark A L with
      | some i => (A ++ L ++ B).modify i f
      | none => A ++ L ++ B) = A ++ L.map f ++ B := by
  rcases L with _ | ⟨l, _ | ⟨l', L⟩⟩
  · rfl
  · simp only [mark, List.head?_cons, Option.map_some, List.append_assoc, List.singleton_append,
      List.map_cons, List.map_nil]
    exact modify_append ..
  · simp at hL

theorem modifyHead_toRight (hR : R.length ≤ 1) (hsucc : R ≠ [] → wrap64 (c.flEnd + 1) = c.flEnd + 1) :
    (if !R.isEmpty then (R ++ B).modifyHead fun fl => { fl with flStart := wrap64 (c.flEnd + 1) }
      else R ++ B) = R.map (toRight c) ++ B := by
  rcases R with _ | ⟨r, _ | ⟨r', R⟩⟩
  · rfl
  · rw [hsucc (by simp)]
    rfl
  · simp at hR

/-- The new lock, if it is one. -/
def newLock (c d : FileLock) : List FileLock := if c.flType = .unlck then [] else [d]

/-- What stands for the locks that are met. -/
def middle (c d : FileLock) (L R : List FileLock) : List FileLock :=
  L.map (toLeft d) ++ newLock c d ++ R.map (toRight d)

/-- How the pass goes on: nothing is done yet, the locks are only taken away, or the new lock
has its place. -/
inductive Placed (c : FileLock) (A L : List FileLock) : FileLock → Bool → Option Nat → List FileLock → Prop
  | fresh (h : c.flType = .unlck → L = []) : Placed c A L c false none (A ++ L)
  | gone (d : FileLock) (h : c.flType = .unlck) : Placed c A L d true none (A ++ L)
  | kept (d f : FileLock) (h : c.flType ≠ .unlck) :
    Placed c A L d true (some (A ++ L).length) (A ++ L ++ [f])

theorem Placed.or (h : Placed c A L d added self sk) :
    Placed c A L d (added || decide (c.flType = .unlck)) self sk := by
  cases h with
  | fresh h =>
    by_cases ht : c.flType = .unlck
    · simpa [ht] using Placed.gone c ht
    · simpa [ht] using Placed.fresh h
  | gone d h => exact .gone d h
  | kept d f h => exact .kept d f h

theorem finish_eq {X : List FileLock} (hL : L.length ≤ 1) (hR : R.length ≤ 1)
    (hpred : wrap64 (d.flStart - 1) = d.flStart - 1)
    (hsucc : R ≠ [] → wrap64 (d.flEnd + 1) = d.flEnd + 1)
    (hgo : added = false → d.flType ≠ .unlck) (hlen : (A ++ L).length ≤ sk.length)
    (hset : self = none ∧ sk = A ++ L ++ X ∨ ∃ i, self = some i ∧ sk.set i d = A ++ L ++ X) :
    Pass.finish ⟨sk, R ++ B, d, added, self, mark A L, !R.isEmpty⟩ =
      A ++ (L.map (toLeft d) ++ (X ++ if added then [] else [d]) ++ R.map (toRight d)) ++ B := by
  have hmark : mark A L ≠ some sk.length := by
    intro heq
    obtain ⟨l, hl, heq⟩ := Option.map_eq_some_iff.mp heq
    have hpos : 0 < L.length := List.length_pos_of_mem (List.mem_of_mem_head? hl)
    rw [List.length_append] at hlen
    omega
  have hgo' : ¬(¬added = true ∧ d.flType = .unlck) :=
    fun ⟨h1, h2⟩ => hgo (Bool.eq_false_iff.mpr h1) h2
  have hleft := modify_mark (A := A) hL X (toLeft d)
  have hright := modifyHead_toRight (B := B) hR hsucc
  unfold Pass.finish
  simp only [hpred, hmark, and_false, if_false, hgo', List.append_nil]
  rcases hset with ⟨rfl, hset⟩ | ⟨i, rfl, hset⟩
  all_goals
    simp only [hset]
    calc
      _ = A ++ L.map (toLeft d) ++ X ++ (if added then [] else [d]) ++ (R.map (toRight d) ++ B) :=
        congrArg₂ (· ++ ·) (congrArg (· ++ _) hleft) hright
      _ = _ := by simp only [List.append_assoc]

theorem finish_placed (h : Placed c A L d added self sk) (hmet : Met c d Z L R)
    (hmax : ∀ r ∈ R, r.flEnd ≤ offsetMax) (hnone : added = false → c.flType = .unlck → R = []) :
    Pass.finish ⟨sk, R ++ B, d, added, self, mark A L, !R.isEmpty⟩ =
      A ++ middle c d L R ++ B := by
  obtain ⟨hL, hR⟩ := hmet.few
  have hpred := hmet.pred
  -- in front of a lock that reaches out of the range there is an offset behind its end
  have hsucc : R ≠ [] → wrap64 (d.flEnd + 1) = d.flEnd + 1 := by
    intro hne
    obtain ⟨r, hr⟩ := List.exists_mem_of_ne_nil R hne
    obtain ⟨_, _, _, hlt, heq⟩ := hmet.right r hr
    have := hmax r hr
    exact hmet.succ (by omega)
  cases h with
  | fresh h =>
    by_cases ht : c.flType = .unlck
    · rw [middle, newLock, if_pos ht, h ht, hnone rfl ht, Pass.finish, if_pos ⟨by simp, ht⟩]
      simp
    · rw [middle, newLock, if_neg ht]
      exact finish_eq hL hR hpred hsucc (fun _ => ht) le_rfl
        (.inl ⟨rfl, (List.append_nil _).symm⟩)
  | gone d h =>
    rw [middle, newLock, if_pos h]
    exact finish_eq hL hR hpred hsucc (by simp) le_rfl
      (.inl ⟨rfl, (List.append_nil _).symm⟩)
  | kept d f h =>
    rw [middle, newLock, if_neg h]
    exact finish_eq (X := [d]) hL hR hpred hsucc (by simp) (by simp) (.inr ⟨_, rfl, by simp⟩)

theorem finish_split (hpred : wrap64 (c.flStart - 1) = c.flStart - 1)
    (hsucc : wrap64 (c.flEnd + 1) = c.flEnd + 1) :
    Pass.finish ⟨A, y :: B, c, decide (c.flType = .unlck), none, some A.length, true⟩ =
      A ++ middle c c [y] [y] ++ B := by
  have hmod (g : FileLock → FileLock) : A.modify A.length g = A := by
    rw [List.modify_eq_set_getElem?]
    simp
  unfold Pass.finish middle newLock
  by_cases ht : c.flType = .unlck <;> simp [ht, hpred, hsucc, hmod, toLeft, toRight]

/-! ### The whole pass -/

/-- What the pass makes of the locks `own` of the owner behind `A`. -/
def Settles (c : FileLock) (A own S : List FileLock) (p : Pass) : Prop :=
  ∃ d Z L R B, own = Z ++ B ∧ Met c d Z L R ∧ (∀ y ∈ B, Apart d y) ∧
    p.finish = A ++ middle c d L R ++ (B ++ S)

theorem settles_stop (hmet : Met c d Z L []) (hplaced : Placed c A L d added self sk)
    (hS : Foreign c S) (hmine : ∀ y ∈ ys, Mine c y) (habove : ∀ y ∈ ys, Apart d y) :
    Settles c A (Z ++ ys) S (pass d added self (mark A L) sk (ys ++ S)) := by
  refine ⟨d, Z, L, [], ys, rfl, hmet, habove, ?_⟩
  rw [pass_stop hmet.toRanged (hS.of_owner hmet.owner)
    (fun y hy => (hmine y hy).of_owner hmet.owner) habove]
  exact finish_placed hplaced hmet (by simp) fun _ _ => rfl

theorem reach_of_not_apart (h : ¬Apart y c) :
    c.flStart - 1 ≤ y.flEnd ∧ (y.flType ≠ c.flType → c.flStart ≤ y.flEnd) := by
  refine ⟨not_lt.mp fun hlt => h (.far (by omega)), fun ht => not_lt.mp fun hlt => ?_⟩
  exact h ⟨hlt, fun heq => absurd heq ht⟩

/-- The pass, from where no lock lies below the range. -/
theorem pass_met (hc : Like c c) (hmet : Met c d Z L []) (hplaced : Placed c A L d added self sk)
    (hS : Foreign c S) (hsorted : (Z ++ ys).Pairwise Apart) (hmine : ∀ y ∈ ys, Mine c y)
    (hreach : ∀ y ∈ ys, ¬Apart y c)
    (hbehind : added = true ∨ Z ≠ [] → ∀ y ∈ ys, c.flStart ≤ y.flStart)
    (hroom : ∀ y ∈ ys, y.flType = c.flType → d.flEnd < offsetMax) :
    Settles c A (Z ++ ys) S (pass d added self (mark A L) sk (ys ++ S)) := by
  induction ys generalizing d Z L added self sk with
  | nil => exact settles_stop hmet hplaced hS hmine (by simp)
  | cons y ys ih =>
    have hm := hmine y List.mem_cons_self
    have howner := (hm.of_owner hmet.owner).owner
    have hle := hm.le
    have hlo := hmet.lo
    obtain ⟨_, hys, hZ⟩ := List.pairwise_append.mp hsorted
    have hZ : ∀ z ∈ Z, Apart z y := fun z hz => hZ z hz y List.mem_cons_self
    have hy := (List.pairwise_cons.mp hys).1
    obtain ⟨hfrom, hfromOther⟩ := reach_of_not_apart (hreach y List.mem_cons_self)
    have habove (h : Apart d y) := settles_stop hmet hplaced hS hmine (h.all hle hy)
    -- the rest of the pass, with `y` among the locks that are met
    have hnext {d1 : FileLock} {L1 : List FileLock} {added1 : Bool} {self1 : Option Nat}
        {sk1 : List FileLock} (hmet1 : Met c d1 (Z ++ [y]) L1 [])
        (hplaced1 : Placed c A L1 d1 added1 self1 sk1)
        (hroom1 : ∀ z ∈ ys, z.flType = c.flType → d1.flEnd < offsetMax) :
        Settles c A (Z ++ y :: ys) S (pass d1 added1 self1 (mark A L1) sk1 (ys ++ S)) := by
      have hsnoc : Z ++ [y] ++ ys = Z ++ y :: ys := by simp
      rw [← hsnoc] at hsorted ⊢
      refine ih hmet1 hplaced1 hsorted (fun z hz => hmine z (List.mem_cons_of_mem _ hz))
        (fun z hz => hreach z (List.mem_cons_of_mem _ hz)) (fun _ z hz => ?_) hroom1
      have := (hy z hz).1
      omega
    by_cases ht : y.flType = c.flType
    · by_cases htouch : y.flStart ≤ d.flEnd + 1
      · have hmax := hroom y List.mem_cons_self ht
        have hroom1 : ∀ z ∈ ys, z.flType = c.flType → max d.flEnd y.flEnd < offsetMax := by
          intro z hz _
          have := (hy z hz).1
          have := (hmine z (List.mem_cons_of_mem _ hz)).le
          have := (hmine z (List.mem_cons_of_mem _ hz)).max
          omega
        have hgrown : ∀ d1, Like c d1 → d1.flStart = min d.flStart y.flStart →
            d1.flEnd = max d.flEnd y.flEnd → Met c d1 (Z ++ [y]) L [] := by
          intro d1 hd1 hstart hend
          refine hmet.snoc hd1 (by omega) (by omega) (fun x h1 h2 hx => ⟨by omega, by omega, ht⟩)
            (fun _ => by omega) (fun hne => absurd ht hne) fun hL => ?_
          obtain ⟨l, hl⟩ := List.exists_mem_of_ne_nil L hL
          have hin := (hmet.left l hl).1
          have := hbehind (.inr (List.ne_nil_of_mem hin)) y List.mem_cons_self
          omega
        rw [List.cons_append, pass_merge hmet.toRanged hmax howner (hmet.type.trans ht.symm)
          (by omega) htouch]
        have hrange : Ranged { d with flStart := min d.flStart y.flStart, flEnd := max d.flEnd y.flEnd } :=
          ⟨le_min hmet.nonneg hm.nonneg, (min_le_left ..).trans (hmet.le.trans (le_max_left ..)),
            max_le hmet.max hm.max⟩
        cases hplaced with
        | fresh h =>
          exact hnext (hgrown _ ⟨⟨hrange.nonneg, hrange.le, hrange.max⟩, hm.posix, ht, hm.owner⟩ rfl rfl)
            (.kept _ _ (ht ▸ hm.ne_unlck)) hroom1
        | gone d h => exact absurd (ht.trans h) hm.ne_unlck
        | kept d f h =>
          exact hnext (hgrown _ ⟨hrange, hmet.posix, hmet.type, hmet.owner⟩ rfl rfl) (.kept _ f h) hroom1
      · exact habove (.far (by omega))
    · by_cases hin : y.flStart ≤ d.flEnd
      · have hend := hmet.end_eq hZ hin
        have hcross := hfromOther ht
        rw [List.cons_append, Locks.pass, if_neg (not_not.mpr howner),
          if_neg fun heq => ht (heq.symm.trans hmet.type), if_neg (by omega), if_neg (by omega), hmet.type]
        by_cases hleft : y.flStart < c.flStart
        · -- it is the first one, and reaches into the range
          have hfirst : ¬(added = true ∨ Z ≠ []) := fun hor =>
            absurd (hbehind hor y List.mem_cons_self) (not_le.mpr hleft)
          obtain ⟨hadded, rfl⟩ : added = false ∧ Z = [] := by simpa using hfirst
          have hL : L = [] := List.eq_nil_iff_forall_not_mem.mpr fun l hl => by simpa using (hmet.left l hl).1
          subst hL hadded
          cases hplaced
          have hy1 : ∀ R, (c.flEnd < y.flEnd ↔ y ∈ R) → R.length ≤ 1 → (∀ r ∈ R, r ∈ [y]) →
              Met c c [y] [y] R := by
            intro R hright hlen hR
            exact Met.first hc (by simp) (by simpa using ⟨ht, hleft, hcross⟩) (by simpa using hright) hR
              ⟨le_rfl, hlen⟩
          rw [if_pos hleft, Bool.false_or, List.append_nil]
          by_cases hout : c.flEnd < y.flEnd
          · rw [if_pos hout]
            have := hm.max
            refine ⟨c, [y], [y], [y], ys, rfl, hy1 [y] (by simpa using hout) le_rfl (by simp), ?_,
              finish_split hc.pred (hc.succ (by omega))⟩
            intro z hz
            have := (hy z hz).1
            exact .far (by omega)
          · rw [if_neg hout, if_neg (by omega)]
            have hmet1 : Met c c ([] ++ [y]) [y] [] := hy1 [] (by simpa using hout) (by simp) (by simp)
            refine hnext hmet1 ?_ ?_
            · by_cases hunlck : c.flType = .unlck
              · exact decide_eq_true hunlck ▸ .gone c hunlck
              · exact decide_eq_false hunlck ▸ .fresh fun h => absurd h hunlck
            · exact fun z hz => hroom z (List.mem_cons_of_mem _ hz)
        · rw [if_neg (by omega : ¬y.flStart < d.flStart)]
          have hplaced := hplaced.or
          generalize hadd : (added || decide (c.flType = .unlck)) = added1 at hplaced ⊢
          have hlock (h : added1 = false) : c.flType ≠ .unlck := by
            subst h
            simpa using (Bool.or_eq_false_iff.mp hadd).2
          by_cases hout : c.flEnd < y.flEnd
          · rw [if_pos (by omega)]
            have hmet1 := hmet.out ht (by omega) (by omega) hout hend
            refine ⟨d, Z ++ [y], L, [y], ys, by simp, hmet1, ?_, ?_⟩
            · intro z hz
              have := (hy z hz).1
              exact .far (by omega)
            · exact finish_placed hplaced hmet1 (by simpa using hm.max)
                fun h1 h2 => absurd h2 (hlock h1)
          · rw [if_neg (by omega), if_pos (by omega)]
            have hgrown : ∀ d1, Like c d1 → d1.flStart = d.flStart → d1.flEnd = d.flEnd →
                Met c d1 (Z ++ [y]) L [] := by
              intro d1 hd1 hstart hend
              exact hmet.snoc hd1 (by omega) (by omega) (fun x h1 h2 hx => absurd hx (by omega))
                (fun heq => absurd heq ht) (fun _ => by omega) fun _ => hstart
            have hroom1 := fun z hz => hroom z (List.mem_cons_of_mem y hz)
            cases hplaced with
            | fresh h =>
              exact hnext (hgrown _ ⟨⟨hc.nonneg, hc.le, hc.max⟩, hm.posix, rfl, hm.owner⟩ rfl rfl)
                (.kept _ _ (hlock rfl)) hroom1
            | gone d h =>
              exact hnext (hgrown d hmet.toLike rfl rfl) (.gone d h) hroom1
            | kept d f h =>
              exact hnext (hgrown d hmet.toLike rfl rfl) (.kept d f h) hroom1
      · exact habove ⟨by omega, fun heq => absurd (heq.symm.trans hmet.type) ht⟩

/-! ### What the pass replaces -/

/-- The locks `Z` in the middle become `N`, and the bytes of the range get the new type. -/
structure Patch (c : FileLock) (A Z B N : List FileLock) : Prop where
  below : ∀ u ∈ A, u.flEnd < c.flStart
  above : ∀ y ∈ B, c.flEnd < y.flStart
  mine : ∀ n ∈ N, Mine c n
  apart : (A ++ N ++ B).Pairwise Apart
  bytes : ∀ x t, At N x t ↔
    if c.flStart ≤ x ∧ x ≤ c.flEnd then c.flType = t ∧ t ≠ .unlck else At Z x t

theorem mem_middle : fl ∈ middle c d L R ↔
    (∃ l ∈ L, toLeft d l = fl) ∨ (fl = d ∧ c.flType ≠ .unlck) ∨ ∃ r ∈ R, toRight d r = fl := by
  have hnew : fl ∈ newLock c d ↔ fl = d ∧ c.flType ≠ .unlck := by
    unfold newLock
    split <;> simp_all
  simp [middle, hnew]

/-- Outside of the range the middle says what it said. -/
theorem Met.bytes (h : Met c d Z L R) (hlock : ∀ z ∈ Z, z.flType ≠ .unlck) :
    At (middle c d L R) x t ↔
      if c.flStart ≤ x ∧ x ≤ c.flEnd then c.flType = t ∧ t ≠ .unlck else At Z x t := by
  have hlo := h.lo
  have hhi := h.hi
  constructor
  · intro ⟨n, hn, h1, h2, h3⟩
    rcases mem_middle.mp hn with ⟨l, hl, rfl⟩ | ⟨rfl, hne⟩ | ⟨r, hr, rfl⟩
    · obtain ⟨hz, _, _, _, _⟩ := h.left l hl
      change x ≤ d.flStart - 1 at h2
      rw [if_neg (by omega)]
      exact ⟨l, hz, h1, by omega, h3⟩
    · rw [h.type] at h3
      split
      next hin => exact ⟨h3, h3 ▸ hne⟩
      next hout => exact h3 ▸ h.filled x h1 h2 (by omega)
    · obtain ⟨hz, _, _, _, _⟩ := h.right r hr
      change d.flEnd + 1 ≤ x at h1
      rw [if_neg (by omega)]
      exact ⟨r, hz, by omega, h2, h3⟩
  · have hnew (h1 : d.flStart ≤ x) (h2 : x ≤ d.flEnd) (ht : c.flType = t) (hne : t ≠ .unlck) :
        At (middle c d L R) x t :=
      ⟨d, mem_middle.mpr (.inr (.inl ⟨rfl, ht ▸ hne⟩)), h1, h2, h.type.trans ht⟩
    split
    next hin => exact fun ⟨ht, hne⟩ => hnew (by omega) (by omega) ht hne
    next hout =>
    intro ⟨z, hz, h1, h2, h3⟩
    by_cases ht : z.flType = c.flType
    · have := h.same z hz ht
      exact hnew (by omega) (by omega) (ht.symm.trans h3) (h3 ▸ hlock z hz)
    · rcases lt_or_ge x c.flStart with hlt | hge
      · have hl := (h.other z hz ht).1 (by omega)
        obtain ⟨_, _, _, _, hstart⟩ := h.left z hl
        refine ⟨toLeft d z, mem_middle.mpr (.inl ⟨z, hl, rfl⟩), h1, ?_, h3⟩
        change x ≤ d.flStart - 1
        omega
      · have hr := (h.other z hz ht).2 (by omega)
        obtain ⟨_, _, _, _, hend⟩ := h.right z hr
        refine ⟨toRight d z, mem_middle.mpr (.inr (.inr ⟨z, hr, rfl⟩)), ?_, h2, h3⟩
        change d.flEnd + 1 ≤ x
        omega

theorem pairwise_of_length_le {l : List FileLock} (h : l.length ≤ 1) : l.Pairwise Apart := by
  rcases l with _ | ⟨a, _ | ⟨b, l⟩⟩
  · exact .nil
  · exact List.pairwise_singleton ..
  · simp at h

/-- The locks in the middle are apart, -/
theorem Met.middle_apart (h : Met c d Z L R) (hc : c.flStart ≤ c.flEnd) :
    (middle c d L R).Pairwise Apart := by
  have hlo := h.lo
  have hnew : ∀ n ∈ newLock c d, n = d := by
    unfold newLock
    split <;> simp
  refine List.pairwise_append.mpr ⟨List.pairwise_append.mpr ⟨pairwise_of_length_le ?_,
    pairwise_of_length_le ?_, ?_⟩, pairwise_of_length_le ?_, ?_⟩
  · simpa using h.few.1
  · unfold newLock
    split <;> simp
  · intro n hn k hk
    obtain ⟨l, hl, rfl⟩ := List.mem_map.mp hn
    obtain ⟨_, ht, _⟩ := h.left l hl
    rw [hnew k hk]
    refine ⟨?_, fun heq => absurd (heq.trans h.type) ht⟩
    change d.flStart - 1 < d.flStart
    omega
  · simpa using h.few.2
  · intro n hn k hk
    obtain ⟨r, hr, rfl⟩ := List.mem_map.mp hk
    obtain ⟨_, ht, _⟩ := h.right r hr
    rcases List.mem_append.mp hn with hn | hn
    · obtain ⟨l, hl, rfl⟩ := List.mem_map.mp hn
      exact .far (show d.flStart - 1 + 1 < d.flEnd + 1 by omega)
    · rw [hnew n hn]
      refine ⟨?_, fun heq => absurd (heq.symm.trans h.type) ht⟩
      change d.flEnd < d.flEnd + 1
      omega

/-- and lie between those that stay. -/
theorem Met.apart (h : Met c d Z L R) (hA : ∀ u ∈ A, Apart u c) (hB : ∀ y ∈ B, Apart d y)
    (hc : c.flStart ≤ c.flEnd) (hown : (A ++ Z ++ B).Pairwise Apart) :
    (A ++ middle c d L R ++ B).Pairwise Apart := by
  obtain ⟨hAZ, hBp, hAZB⟩ := List.pairwise_append.mp hown
  obtain ⟨hAp, _, hAZ⟩ := List.pairwise_append.mp hAZ
  have hlo := h.lo
  have hhi := h.hi
  refine List.pairwise_append.mpr ⟨List.pairwise_append.mpr ⟨hAp, h.middle_apart hc, ?_⟩, hBp, ?_⟩
  · intro u hu n hn
    have hbelow := hA u hu
    rcases mem_middle.mp hn with ⟨l, hl, rfl⟩ | ⟨rfl, _⟩ | ⟨r, hr, rfl⟩
    · exact hAZ u hu l (h.left l hl).1
    · rcases hlo.eq_or_lt with heq | hlt
      · rwa [Apart, h.type, heq]
      · -- the lock that the range has grown to
        obtain ⟨z, hz, h1, h2, ht⟩ := h.filled _ le_rfl h.le (.inl hlt)
        have hstart := (h.same z hz ht).1
        have := hAZ u hu z hz
        rwa [Apart, ht, le_antisymm h1 hstart, ← h.type] at this
    · have := hbelow.1
      exact .far (show u.flEnd + 1 < d.flEnd + 1 by omega)
  · intro n hn y hy
    have habove := hB y hy
    rcases List.mem_append.mp hn with hn | hn
    · exact hAZB n (List.mem_append_left _ hn) y hy
    · rcases mem_middle.mp hn with ⟨l, hl, rfl⟩ | ⟨rfl, _⟩ | ⟨r, hr, rfl⟩
      · have := habove.1
        exact .far (show d.flStart - 1 + 1 < y.flStart by omega)
      · exact habove
      · exact hAZB r (List.mem_append_right _ (h.right r hr).1) y hy

theorem Met.patch (h : Met c d Z L R) (hc : Ranged c)
    (htype : c.flType = .rdlck ∨ c.flType = .wrlck ∨ c.flType = .unlck) (hA : ∀ u ∈ A, Apart u c)
    (hB : ∀ y ∈ B, Apart d y) (hown : (A ++ Z ++ B).Pairwise Apart) (hmine : ∀ z ∈ Z, Mine c z) :
    Patch c A Z B (middle c d L R) where
  below := fun u hu => (hA u hu).1
  above := fun y hy => h.hi.trans_lt (hB y hy).1
  mine := by
    have hcle := hc.le
    intro n hn
    rcases mem_middle.mp hn with ⟨l, hl, rfl⟩ | ⟨rfl, hne⟩ | ⟨r, hr, rfl⟩
    · obtain ⟨hz, _, _, _, hstart⟩ := h.left l hl
      have hm := hmine l hz
      have := hc.max
      refine ⟨⟨⟨hm.nonneg, ?_, ?_⟩, hm.posix, hm.type⟩, hm.owner⟩
      · change l.flStart ≤ d.flStart - 1
        omega
      · change d.flStart - 1 ≤ offsetMax
        omega
    · have ht := htype.imp_right fun h => h.resolve_right hne
      exact ⟨⟨h.toRanged, h.posix, by rwa [h.type]⟩, h.owner⟩
    · obtain ⟨hz, _, _, _, hend⟩ := h.right r hr
      have hm := hmine r hz
      have := hc.nonneg
      refine ⟨⟨⟨?_, ?_, hm.max⟩, hm.posix, hm.type⟩, hm.owner⟩
      · change 0 ≤ d.flEnd + 1
        omega
      · change d.flEnd + 1 ≤ r.flEnd
        omega
  apart := h.apart hA hB hc.le hown
  bytes := fun _ _ => h.bytes fun z hz => (hmine z hz).ne_unlck

/-- Those below come first. -/
theorem split_below (hapart : own.Pairwise Apart) (hle : ∀ y ∈ own, y.flStart ≤ y.flEnd) (c : FileLock) :
    ∃ A ys, own = A ++ ys ∧ (∀ u ∈ A, Apart u c) ∧ ∀ y ∈ ys, ¬Apart y c := by
  induction own with
  | nil => exact ⟨[], [], rfl, by simp, by simp⟩
  | cons u own ih =>
    obtain ⟨hu, hapart⟩ := List.pairwise_cons.mp hapart
    obtain ⟨hule, hle⟩ := List.forall_mem_cons.mp hle
    by_cases hc : Apart u c
    · obtain ⟨A, ys, heq, hA, hys⟩ := ih hapart hle
      exact ⟨u :: A, ys, by rw [heq]; rfl, List.forall_mem_cons.mpr ⟨hc, hA⟩, hys⟩
    · refine ⟨[], u :: own, rfl, by simp, List.forall_mem_cons.mpr ⟨hc, fun y hy hyc => hc ?_⟩⟩
      have := (hu y hy).1
      have := hle y hy
      have := hyc.1
      exact .far (by omega)

/-- The pass over the locks of the owner of `c`. Where a lock of the same type touches the
range, the range does not end at `OFFSET_MAX`. -/
theorem pass_own (hc : Ranged c) (hposix : c.flFlags = .posix)
    (htype : c.flType = .rdlck ∨ c.flType = .wrlck ∨ c.flType = .unlck) (hS : Foreign c S)
    (hapart : own.Pairwise Apart) (hmine : ∀ y ∈ own, Mine c y)
    (hclear : ∀ y ∈ own, c.flType = y.flType → c.flStart - 1 ≤ y.flEnd → c.flEnd < offsetMax) :
    ∃ A Z B N, own = A ++ Z ++ B ∧ Patch c A Z B N ∧
      (pass c false none none [] (own ++ S)).finish = A ++ N ++ B ++ S := by
  obtain ⟨A, ys, rfl, hA, hreach⟩ := split_below hapart (fun y hy => (hmine y hy).le) c
  have hys : ∀ y ∈ ys, Mine c y := fun y hy => hmine y (List.mem_append_right A hy)
  have hlike : Like c c := ⟨hc, hposix, rfl, rfl, rfl⟩
  have hsettles : Settles c A ([] ++ ys) S (pass c false none (mark A []) (A ++ []) (ys ++ S)) := by
    refine pass_met hlike (Met.first hlike (by simp) (by simp) (by simp) (by simp) (by simp))
      (.fresh fun _ => rfl) hS (List.pairwise_append.mp hapart).2.1 hys hreach (by simp) fun y hy ht => ?_
    exact hclear y (List.mem_append_right A hy) ht.symm (reach_of_not_apart (hreach y hy)).1
  obtain ⟨d, Z, L, R, B, rfl, hmet, hB, hfin⟩ := hsettles
  have hown : A ++ (Z ++ B) = A ++ Z ++ B := (List.append_assoc ..).symm
  rw [hown] at hapart hmine ⊢
  refine ⟨A, Z, B, _, rfl, hmet.patch hc htype hA hB hapart fun z hz => ?_, ?_⟩
  · exact hmine z (List.mem_append_left B (List.mem_append_right A hz))
  · rw [List.append_assoc, List.append_assoc, pass_skip hc]
    · rw [List.append_nil, List.append_assoc, ← List.append_assoc (A ++ _)] at hfin
      exact hfin
    · exact fun u hu => ⟨(hmine u (List.mem_append_left B (List.mem_append_left Z hu))).owner, hA u hu⟩

end Own

/-! ## The list of all owners -/

abbrev Owner := Option Nat × Nat

def ownerOf (fl : FileLock) : Owner := (fl.flOwner, fl.flPid)

theorem sameOwner_iff {c fl : FileLock} : locksSameOwner c fl ↔ ownerOf c = ownerOf fl := by
  simp [locksSameOwner, ownerOf]

/-- The locks of one owner. -/
def own (o : Owner) (l : List FileLock) : List FileLock := l.filter fun fl => ownerOf fl = o

section Lists
variable {l : List FileLock} {bs bs1 bs2 : List (Owner × List FileLock)} {c : FileLock} {o : Owner}
  {ys : List FileLock}

/-- The list is made of one block for each owner. -/
structure Blocks (l : List FileLock) (bs : List (Owner × List FileLock)) : Prop where
  eq : l = bs.flatMap Prod.snd
  owners : (bs.map Prod.fst).Nodup
  held : ∀ b ∈ bs, ∀ fl ∈ b.2, Held fl ∧ ownerOf fl = b.1
  apart : ∀ b ∈ bs, b.2.Pairwise Apart

theorem own_eq_nil (h : ∀ fl ∈ l, ownerOf fl ≠ o) : own o l = [] := by
  refine List.filter_eq_nil_iff.mpr fun fl hfl => ?_
  simpa using h fl hfl

theorem Blocks.others (h : Blocks l (bs1 ++ (o, ys) :: bs2)) :
    (∀ fl ∈ bs1.flatMap Prod.snd, ownerOf fl ≠ o) ∧ ∀ fl ∈ bs2.flatMap Prod.snd, ownerOf fl ≠ o := by
  have hnd := h.owners
  rw [List.map_append, List.map_cons, List.nodup_middle, List.nodup_cons, ← List.map_append] at hnd
  have hother : ∀ b ∈ bs1 ++ bs2, b ∈ bs1 ++ (o, ys) :: bs2 → ∀ fl ∈ b.2, ownerOf fl ≠ o := by
    intro b hb hmem fl hfl heq
    rw [(h.held b hmem fl hfl).2] at heq
    exact hnd.1 (List.mem_map.mpr ⟨b, hb, heq⟩)
  simp only [List.mem_flatMap]
  refine ⟨fun fl ⟨b, hb, hfl⟩ => ?_, fun fl ⟨b, hb, hfl⟩ => ?_⟩
  · exact hother b (List.mem_append_left _ hb) (List.mem_append_left _ hb) fl hfl
  · exact hother b (List.mem_append_right _ hb) (by simp [hb]) fl hfl

theorem Blocks.own_eq (h : Blocks l (bs1 ++ (o, ys) :: bs2)) : own o l = ys := by
  obtain ⟨h1, h2⟩ := h.others
  have hys : own o ys = ys := by
    refine List.filter_eq_self.mpr fun fl hfl => ?_
    simpa using (h.held (o, ys) (List.mem_append_right _ List.mem_cons_self) fl hfl).2
  rw [h.eq, List.flatMap_append, List.flatMap_cons, own, List.filter_append, List.filter_append]
  change own o (bs1.flatMap Prod.snd) ++ (own o ys ++ own o (bs2.flatMap Prod.snd)) = ys
  rw [own_eq_nil h1, own_eq_nil h2, hys, List.nil_append, List.append_nil]

/-- There is a block of the owner; an empty one is at the end. -/
theorem Blocks.find (h : Blocks l bs) (o : Owner) :
    ∃ bs1 ys bs2, Blocks l (bs1 ++ (o, ys) :: bs2) ∧ (ys = [] → bs2 = []) := by
  have habsent {bs : List (Owner × List FileLock)} (h : Blocks l bs) (ho : o ∉ bs.map Prod.fst) :
      ∃ bs1 ys bs2, Blocks l (bs1 ++ (o, ys) :: bs2) ∧ (ys = [] → bs2 = []) := by
    refine ⟨bs, [], [], ⟨?_, ?_, ?_, ?_⟩, fun _ => rfl⟩
    · rw [h.eq, List.flatMap_append]
      simp
    · rw [List.map_append]
      exact h.owners.append (List.nodup_singleton o) (List.disjoint_singleton.mpr ho)
    · exact List.forall_mem_append.mpr ⟨h.held, by simp⟩
    · exact List.forall_mem_append.mpr ⟨h.apart, by simp⟩
  by_cases ho : o ∈ bs.map Prod.fst
  · obtain ⟨b, hb, rfl⟩ := List.mem_map.mp ho
    obtain ⟨bs1, bs2, rfl⟩ := List.append_of_mem hb
    cases hys : b.2 with
    | cons y ys => exact ⟨bs1, b.2, bs2, h, fun heq => by rw [hys] at heq; cases heq⟩
    | nil =>
      have hsub : (bs1 ++ bs2).Sublist (bs1 ++ b :: bs2) :=
        (List.Sublist.refl bs1).append (List.sublist_cons_self b bs2)
      have hnd := h.owners
      rw [List.map_append, List.map_cons, List.nodup_middle, List.nodup_cons, ← List.map_append] at hnd
      refine habsent ⟨?_, hnd.2, fun b' hb' => h.held b' (hsub.subset hb'),
        fun b' hb' => h.apart b' (hsub.subset hb')⟩ hnd.1
      rw [h.eq, List.flatMap_append, List.flatMap_cons, hys, List.flatMap_append, List.nil_append]
  · exact habsent h ho

theorem own_append (o : Owner) (l l' : List FileLock) : own o (l ++ l') = own o l ++ own o l' :=
  List.filter_append ..

theorem Blocks.setLock (h : Blocks l bs) (hc : Ranged c) (hposix : c.flFlags = .posix)
    (htype : c.flType = .rdlck ∨ c.flType = .wrlck ∨ c.flType = .unlck)
    (hclear : ∀ y ∈ own (ownerOf c) l, c.flType = y.flType → c.flStart - 1 ≤ y.flEnd →
      c.flEnd < offsetMax) :
    ∃ bs' A Z B N, Blocks (setLock c l) bs' ∧ own (ownerOf c) l = A ++ Z ++ B ∧ Patch c A Z B N ∧
      own (ownerOf c) (setLock c l) = A ++ N ++ B ∧
      ∀ o, o ≠ ownerOf c → own o (setLock c l) = own o l := by
  obtain ⟨bs1, ys, bs2, h, hempty⟩ := h.find (ownerOf c)
  obtain ⟨h1, h2⟩ := h.others
  have hin : (ownerOf c, ys) ∈ bs1 ++ (ownerOf c, ys) :: bs2 :=
    List.mem_append_right bs1 List.mem_cons_self
  have hblock : ∀ fl ∈ ys, Held fl ∧ ownerOf fl = ownerOf c := h.held _ hin
  have hapart : ys.Pairwise Apart := h.apart _ hin
  have hl : l = bs1.flatMap Prod.snd ++ (ys ++ bs2.flatMap Prod.snd) := by
    rw [h.eq, List.flatMap_append, List.flatMap_cons]
  rw [h.own_eq] at hclear
  have hmine : ∀ y ∈ ys, Mine c y := fun y hy =>
    ⟨(hblock y hy).1, sameOwner_iff.mpr (hblock y hy).2.symm⟩
  have hforeign : Foreign c (bs2.flatMap Prod.snd) := fun fl hfl hsame =>
    h2 fl (List.mem_of_mem_head? hfl) (sameOwner_iff.mp hsame).symm
  obtain ⟨A, Z, B, N, hys, hpatch, hfin⟩ := pass_own hc hposix htype hforeign hapart hmine hclear
  -- the search for the first lock of the owner
  have hset : Locks.setLock c l = bs1.flatMap Prod.snd ++ (A ++ N ++ B ++ bs2.flatMap Prod.snd) := by
    have hother : ∀ fl ∈ bs1.flatMap Prod.snd,
        decide (fl.flFlags ≠ .posix ∨ ¬locksSameOwner c fl) = true := by
      intro fl hfl
      refine decide_eq_true (.inr fun hsame => ?_)
      exact h1 fl hfl (sameOwner_iff.mp hsame).symm
    unfold Locks.setLock
    dsimp only
    rw [hl, List.takeWhile_append_of_pos hother, List.dropWhile_append_of_pos hother]
    cases hcase : ys with
    | nil =>
      rw [hempty hcase, hcase] at hfin
      rw [hempty hcase, ← hfin]
      simp
    | cons y ys' =>
      have hy := hmine y (hcase ▸ List.mem_cons_self)
      have hstop : decide (y.flFlags ≠ .posix ∨ ¬locksSameOwner c y) = false := by
        simp [hy.posix, hy.owner]
      rw [List.cons_append, List.takeWhile_cons_of_neg (by simp [hstop]),
        List.dropWhile_cons_of_neg (by simp [hstop]), ← List.cons_append, ← hcase, hfin, List.append_nil]
  have hnew : ∀ fl ∈ A ++ N ++ B, Held fl ∧ ownerOf fl = ownerOf c := by
    intro fl hfl
    have hm : Mine c fl := by
      by_cases hN : fl ∈ N
      · exact hpatch.mine fl hN
      · refine hmine fl (hys ▸ ?_)
        simp only [List.mem_append, hN, or_false] at hfl ⊢
        exact hfl.imp_left .inl
    exact ⟨hm.toHeld, (sameOwner_iff.mp hm.owner).symm⟩
  have hblocks : Blocks (Locks.setLock c l) (bs1 ++ (ownerOf c, A ++ N ++ B) :: bs2) := by
    obtain ⟨hheld1, hheld2⟩ := List.forall_mem_append.mp h.held
    obtain ⟨hapart1, hapart2⟩ := List.forall_mem_append.mp h.apart
    refine ⟨?_, ?_, ?_, ?_⟩
    · rw [hset, List.flatMap_append, List.flatMap_cons]
    · have hnd := h.owners
      rwa [List.map_append, List.map_cons] at hnd ⊢
    · exact List.forall_mem_append.mpr
        ⟨hheld1, List.forall_mem_cons.mpr ⟨hnew, (List.forall_mem_cons.mp hheld2).2⟩⟩
    · exact List.forall_mem_append.mpr
        ⟨hapart1, List.forall_mem_cons.mpr ⟨hpatch.apart, (List.forall_mem_cons.mp hapart2).2⟩⟩
  refine ⟨_, A, Z, B, N, hblocks, h.own_eq.trans hys, hpatch, hblocks.own_eq, fun o ho => ?_⟩
  rw [hset, hl]
  simp only [own_append]
  rw [own_eq_nil fun fl hfl heq => ho (heq.symm.trans (hblock fl hfl).2)]
  have hgone := own_eq_nil fun fl hfl heq => ho (heq.symm.trans (hnew fl hfl).2)
  simp only [own_append] at hgone
  rw [hgone]

end Lists

/-! ## The map of bytes -/

/-- The type that an offset is locked with. -/
def byteMap (l : List FileLock) (o : Owner) (x : Int) : Option LockType :=
  (l.find? fun fl => fl.flFlags = .posix ∧ ownerOf fl = o ∧ fl.flStart ≤ x ∧ x ≤ fl.flEnd).map
    FileLock.flType

section Bytes
variable {l : List FileLock} {bs : List (Owner × List FileLock)} {c fl : FileLock} {o : Owner}
  {x : Int} {t : LockType}

theorem mem_own : fl ∈ own o l ↔ fl ∈ l ∧ ownerOf fl = o := by
  simp [own, List.mem_filter]

theorem Blocks.mem_held (h : Blocks l bs) (hfl : fl ∈ l) : Held fl := by
  rw [h.eq] at hfl
  obtain ⟨b, hb, hfl⟩ := List.mem_flatMap.mp hfl
  exact (h.held b hb fl hfl).1

theorem Blocks.own_block (h : Blocks l bs) (o : Owner) :
    (own o l).Pairwise Apart ∧ own o l <:+: l := by
  obtain ⟨bs1, ys, bs2, h, _⟩ := h.find o
  rw [h.own_eq]
  refine ⟨h.apart _ (List.mem_append_right bs1 List.mem_cons_self), bs1.flatMap Prod.snd,
    bs2.flatMap Prod.snd, ?_⟩
  rw [h.eq, List.flatMap_append, List.flatMap_cons, List.append_assoc]

/-- An offset is in one lock at most. -/
theorem apart_unique {ys : List FileLock} (h : ys.Pairwise Apart) {u v : FileLock} (hu : u ∈ ys)
    (hv : v ∈ ys) (hxu : u.flStart ≤ x ∧ x ≤ u.flEnd) (hxv : v.flStart ≤ x ∧ x ≤ v.flEnd) : u = v := by
  let R (u v : FileLock) := u.flStart ≤ x ∧ x ≤ u.flEnd → v.flStart ≤ x ∧ x ≤ v.flEnd → u = v
  have hsep (u v : FileLock) (h : Apart u v) : R u v ∧ R v u := by
    have := h.1
    exact ⟨fun hu hv => by omega, fun hv hu => by omega⟩
  exact List.Pairwise.forall_of_forall_of_flip (fun _ _ _ _ => rfl)
    (h.imp fun huv => (hsep _ _ huv).1) (h.imp fun huv => (hsep _ _ huv).2) hu hv hxu hxv

theorem Blocks.byteMap_iff (h : Blocks l bs) : byteMap l o x = some t ↔ At (own o l) x t := by
  unfold byteMap
  rw [Option.map_eq_some_iff]
  constructor
  · intro ⟨fl, hfind, ht⟩
    have hfl := List.find?_some hfind
    simp only [decide_eq_true_eq] at hfl
    obtain ⟨_, ho, h1, h2⟩ := hfl
    exact ⟨fl, mem_own.mpr ⟨List.mem_of_find?_eq_some hfind, ho⟩, h1, h2, ht⟩
  · intro ⟨fl, hfl, h1, h2, ht⟩
    obtain ⟨hmem, ho⟩ := mem_own.mp hfl
    have hsome : (l.find? fun fl => fl.flFlags = .posix ∧ ownerOf fl = o ∧ fl.flStart ≤ x ∧
        x ≤ fl.flEnd).isSome := by
      rw [List.find?_isSome]
      exact ⟨fl, hmem, decide_eq_true ⟨(h.mem_held hmem).posix, ho, h1, h2⟩⟩
    obtain ⟨fl', hfind⟩ := Option.isSome_iff_exists.mp hsome
    have hfl' := List.find?_some hfind
    simp only [decide_eq_true_eq] at hfl'
    obtain ⟨_, ho', hx'⟩ := hfl'
    have heq : fl' = fl := apart_unique (h.own_block o).1
      (mem_own.mpr ⟨List.mem_of_find?_eq_some hfind, ho'⟩) hfl hx' ⟨h1, h2⟩
    exact ⟨fl', hfind, heq ▸ ht⟩

theorem at_append {l' : List FileLock} : At (l ++ l') x t ↔ At l x t ∨ At l' x t := by
  simp [At, or_and_right, exists_or]

/-- The range of the caller gets the type, and nothing else changes. -/
theorem Blocks.setLock_byteMap (h : Blocks l bs) (hc : Ranged c) (hposix : c.flFlags = .posix)
    (htype : c.flType = .rdlck ∨ c.flType = .wrlck ∨ c.flType = .unlck)
    (hclear : ∀ y ∈ own (ownerOf c) l, c.flType = y.flType → c.flStart - 1 ≤ y.flEnd →
      c.flEnd < offsetMax) :
    (∃ bs', Blocks (Locks.setLock c l) bs') ∧ ∀ o x, byteMap (Locks.setLock c l) o x =
      if o = ownerOf c ∧ c.flStart ≤ x ∧ x ≤ c.flEnd then
        if c.flType = .unlck then none else some c.flType
      else byteMap l o x := by
  obtain ⟨bs', A, Z, B, N, h', hown, hpatch, hown', hothers⟩ := h.setLock hc hposix htype hclear
  refine ⟨⟨bs', h'⟩, fun o x => Option.ext fun t => ?_⟩
  rw [h'.byteMap_iff]
  by_cases ho : o = ownerOf c
  · rw [ho, hown', at_append, at_append, hpatch.bytes]
    by_cases hx : c.flStart ≤ x ∧ x ≤ c.flEnd
    · rw [if_pos hx, if_pos ⟨rfl, hx⟩]
      have hA : ¬At A x t := by
        intro ⟨u, hu, _, h2, _⟩
        have := hpatch.below u hu
        omega
      have hB : ¬At B x t := by
        intro ⟨y, hy, h1, _⟩
        have := hpatch.above y hy
        omega
      have hrange : (if c.flType = .unlck then none else some c.flType) = some t ↔
          c.flType = t ∧ t ≠ .unlck := by
        split
        next hunlck =>
          exact ⟨fun h => absurd h (by simp), fun ⟨h1, h2⟩ => absurd (h1.symm.trans hunlck) h2⟩
        next hne =>
          rw [Option.some.injEq]
          exact ⟨fun h => ⟨h, h ▸ hne⟩, fun h => h.1⟩
      rw [hrange]
      simp [hA, hB]
    · rw [if_neg hx, if_neg fun h => hx h.2, h.byteMap_iff, hown, at_append, at_append]
  · rw [if_neg fun h => ho h.1, hothers o ho, h.byteMap_iff]

/-- A lock is in the way exactly if another owner holds a byte of the range in a way that
does not go with it. -/
theorem Blocks.conflict_iff (h : Blocks l bs) (hcle : c.flStart ≤ c.flEnd)
    (htype : c.flType = .rdlck ∨ c.flType = .wrlck) :
    (∃ fl ∈ l, posixLocksConflict c fl) ↔ ∃ o, o ≠ ownerOf c ∧ ∃ x, c.flStart ≤ x ∧ x ≤ c.flEnd ∧
      ∃ t, byteMap l o x = some t ∧ (c.flType = .wrlck ∨ t = .wrlck) := by
  constructor
  · intro ⟨fl, hfl, _, howner, hover, hconf⟩
    have hle := (h.mem_held hfl).le
    obtain ⟨h1, h2⟩ := hover
    refine ⟨ownerOf fl, fun heq => howner (sameOwner_iff.mpr heq.symm), max c.flStart fl.flStart,
      by omega, by omega, fl.flType, ?_, ?_⟩
    · rw [h.byteMap_iff]
      exact ⟨fl, mem_own.mpr ⟨hfl, rfl⟩, by omega, by omega, rfl⟩
    · rcases htype with ht | ht
      · rw [locksConflict, ht] at hconf
        exact .inr hconf
      · exact .inl ht
  · intro ⟨o, ho, x, h1, h2, t, hbyte, hconf⟩
    obtain ⟨fl, hfl, h3, h4, ht⟩ := h.byteMap_iff.mp hbyte
    obtain ⟨hmem, rfl⟩ := mem_own.mp hfl
    refine ⟨fl, hmem, (h.mem_held hmem).posix, fun hsame => ho (sameOwner_iff.mp hsame).symm,
      ⟨by omega, by omega⟩, ?_⟩
    unfold locksConflict
    rcases htype with hrd | hwr
    · rw [hrd] at hconf ⊢
      exact ht.trans (hconf.resolve_left (by decide))
    · rw [hwr]
      trivial

end Bytes

/-! ## Runs -/

structure Call where
  caller : FileLock
  deadlock : FileLock → FileLock → Bool
  allocated : Bool
  wait : Bool

def Call.exec (r : Call) (l : List FileLock) : Outcome :=
  posixLockFile r.deadlock r.allocated r.wait r.caller l

/-- What `fcntl` lets through. -/
structure Call.Valid (r : Call) : Prop where
  posix : r.caller.flFlags = .posix
  type : r.caller.flType = .rdlck ∨ r.caller.flType = .wrlck ∨ r.caller.flType = .unlck
  range : Ranged r.caller

/-- A call that sleeps will start again as another one. -/
def Step (l : List FileLock) (r : Call) (l' : List FileLock) : Prop :=
  r.Valid ∧ ∃ error, r.exec l = .returned error l'

section Runs
variable {l l' : List FileLock} {es : List Call} {r : Call}

/-- A lock up to `OFFSET_MAX` is asked for only where the owner has no lock of the same
type that reaches to its start. -/
def Clear (l : List FileLock) (r : Call) : Prop :=
  r.caller.flEnd = offsetMax → ∀ fl ∈ l, ownerOf fl = ownerOf r.caller →
    fl.flType = r.caller.flType → fl.flEnd < r.caller.flStart - 1

theorem Clear.room (h : Clear l r) (hr : r.Valid) :
    ∀ y ∈ own (ownerOf r.caller) l, r.caller.flType = y.flType →
      r.caller.flStart - 1 ≤ y.flEnd → r.caller.flEnd < offsetMax := by
  intro y hy ht hreach
  refine lt_of_le_of_ne hr.range.max fun heq => ?_
  obtain ⟨hmem, ho⟩ := mem_own.mp hy
  have := h heq y hmem ho ht.symm
  omega

theorem step_blocks (h : ∃ bs, Blocks l bs) (hclear : Clear l r) (hstep : Step l r l') :
    ∃ bs, Blocks l' bs := by
  obtain ⟨bs, h⟩ := h
  obtain ⟨hr, error, hexec⟩ := hstep
  rcases posixLockFile_returned hexec with ⟨_, rfl⟩ | ⟨_, rfl⟩
  · exact ⟨bs, h⟩
  · exact (h.setLock_byteMap hr.range hr.posix hr.type (hclear.room hr)).1

theorem run_blocks (h : Run (Meeting Clear Step) [] es l) : ∃ bs, Blocks l bs := by
  refine h.invariant (I := fun l => ∃ bs, Blocks l bs) (fun _ _ _ hi h1 => step_blocks hi h1.1 h1.2) ?_
  exact ⟨[], rfl, List.nodup_nil, by simp, by simp⟩

/-- The locks of each owner are contiguous, in order, and no two of them could be one. -/
def Tidy (l : List FileLock) : Prop :=
  ∀ o, own o l <:+: l ∧ (own o l).Pairwise Apart ∧ ∀ fl ∈ own o l, fl.flStart ≤ fl.flEnd

theorem Blocks.tidy {bs : List (Owner × List FileLock)} (h : Blocks l bs) : Tidy l := by
  intro o
  obtain ⟨hapart, hpart⟩ := h.own_block o
  exact ⟨hpart, hapart, fun fl hfl => (h.mem_held (mem_own.mp hfl).1).le⟩

theorem exec_zero_iff (l : List FileLock) (halloc : r.allocated = true) : (∃ l', r.exec l = .returned 0 l') ↔
      ¬(r.caller.flType ≠ .unlck ∧ ∃ fl ∈ l, posixLocksConflict r.caller fl) := by
  unfold Call.exec posixLockFile
  rw [if_neg (by simp [halloc])]
  by_cases hunlck : r.caller.flType = .unlck
  · rw [if_pos hunlck]
    exact ⟨fun _ hand => hand.1 hunlck, fun _ => ⟨_, rfl⟩⟩
  · rw [if_neg hunlck]
    cases hfind : l.find? fun fl => fl.flFlags = .posix ∧ posixLocksConflict r.caller fl with
    | none =>
      refine ⟨fun _ ⟨_, fl, hfl, hconf⟩ => ?_, fun _ => ⟨_, rfl⟩⟩
      have hno := List.find?_eq_none.mp hfind fl hfl
      exact hno (decide_eq_true ⟨hconf.1, hconf⟩)
    | some fl =>
      have hfl := List.find?_some hfind
      simp only [decide_eq_true_eq] at hfl
      refine ⟨fun ⟨l', heq⟩ => ?_, fun hno => ?_⟩
      · dsimp only at heq
        split at heq
        · cases heq
        · split at heq <;> cases heq
      · exact absurd ⟨hunlck, fl, List.mem_of_find?_eq_some hfind, hfl.2⟩ hno

/-- In a run whose calls all meet the condition, and for the next call that does:
if it returns 0 the bytes of its range have its type, and no other byte changes; if it
fails nothing changes; and it fails exactly if another owner is in the way. -/
theorem posix_lock_byteMap (h : Run (Meeting Clear Step) [] es l) (hr : r.Valid) (hclear : Clear l r) :
    (∀ error l', r.exec l = .returned error l' → Tidy l' ∧ (error ≠ 0 → l' = l) ∧
      (error = 0 → ∀ o x, byteMap l' o x =
        if o = ownerOf r.caller ∧ r.caller.flStart ≤ x ∧ x ≤ r.caller.flEnd then
          if r.caller.flType = .unlck then none else some r.caller.flType
        else byteMap l o x)) ∧
    (r.allocated = true → ((∃ l', r.exec l = .returned 0 l') ↔
      ¬(r.caller.flType ≠ .unlck ∧ ∃ o, o ≠ ownerOf r.caller ∧ ∃ x,
        r.caller.flStart ≤ x ∧ x ≤ r.caller.flEnd ∧
        ∃ t, byteMap l o x = some t ∧ (r.caller.flType = .wrlck ∨ t = .wrlck)))) := by
  obtain ⟨bs, hb⟩ := run_blocks h
  obtain ⟨⟨bs', hb'⟩, hbytes⟩ := hb.setLock_byteMap hr.range hr.posix hr.type (hclear.room hr)
  refine ⟨fun error l' hexec => ?_, fun halloc => ?_⟩
  · rcases posixLockFile_returned hexec with ⟨hne, rfl⟩ | ⟨rfl, rfl⟩
    · exact ⟨hb.tidy, fun _ => rfl, fun heq => absurd heq hne⟩
    · exact ⟨hb'.tidy, fun hne => absurd rfl hne, fun _ => hbytes⟩
  · rw [exec_zero_iff l halloc]
    refine not_congr (and_congr_right fun hne => ?_)
    refine hb.conflict_iff hr.range.le ?_
    exact hr.type.imp_right fun h => h.resolve_right hne

/-! ### Two runs -/

/-- A process asks for a record lock. -/
def request (type : LockType) (lo hi : Int) : Call where
  caller := ⟨some 1, 1, 1, .posix, type, lo, hi⟩
  deadlock := fun _ _ => false
  allocated := true
  wait := false

theorem request_valid {type : LockType} {lo hi : Int}
    (ht : type = .rdlck ∨ type = .wrlck ∨ type = .unlck) (h : 0 ≤ lo ∧ lo ≤ hi ∧ hi ≤ offsetMax) :
    (request type lo hi).Valid := ⟨rfl, ht, h.1, h.2.1, h.2.2⟩

/-- The only lock of the process. -/
def firstLock : List FileLock := [(request .rdlck 0 9).caller]

theorem first_step : Step [] (request .rdlck 0 9) firstLock :=
  ⟨request_valid (.inl rfl) (by decide), 0, rfl⟩

/-- A write lock inside of a read lock. -/
theorem posix_lock_byteMap_inside :
    (request .wrlck 3 5).exec firstLock = .returned 0 [(request .rdlck 0 2).caller,
      (request .wrlck 3 5).caller, (request .rdlck 6 9).caller] ∧
    (∀ error l', (request .wrlck 3 5).exec firstLock = .returned error l' → Tidy l' ∧
      (error ≠ 0 → l' = firstLock) ∧ (error = 0 → ∀ o x, byteMap l' o x =
        if o = ownerOf (request .wrlck 3 5).caller ∧ 3 ≤ x ∧ x ≤ 5 then some .wrlck
        else byteMap firstLock o x)) := by
  have hrun : Run (Meeting Clear Step) [] [request .rdlck 0 9] firstLock :=
    .cons ⟨fun _ fl hfl => (List.not_mem_nil hfl).elim, first_step⟩ (.nil _)
  have hclear : Clear firstLock (request .wrlck 3 5) := fun heq => absurd heq (by decide)
  exact ⟨by decide,
    (posix_lock_byteMap hrun (request_valid (.inr (.inl rfl)) (by decide)) hclear).1⟩

/-- A read lock up to `OFFSET_MAX` does not merge with the one that is inside of it, and
when the bytes from 5 to 20 are unlocked byte 7 is still locked. -/
theorem lock_to_end_not_merged : ∃ l l',
    Run Step [] [request .rdlck 0 9, request .rdlck 0 offsetMax] l ∧
    l.map (fun fl => (fl.flStart, fl.flEnd)) = [(0, offsetMax), (0, 9)] ∧
    Step l (request .unlck 5 20) l' ∧ byteMap l' (some 1, 1) 7 = some .rdlck := by
  have hsecond : Step firstLock (request .rdlck 0 offsetMax)
      ((request .rdlck 0 offsetMax).caller :: firstLock) :=
    ⟨request_valid (.inl rfl) (by decide), 0, by decide⟩
  refine ⟨_, _, .cons first_step (.cons hsecond (.nil _)), by decide,
    ⟨request_valid (.inr (.inr rfl)) (by decide), 0, rfl⟩, by decide⟩

end Runs

end CustomKernel.Fs.ByteMap

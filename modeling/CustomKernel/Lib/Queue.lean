import Mathlib.Logic.Basic

/-! # Queue disciplines

What a buffer of a given capacity does with the records pushed to it. A
discipline says how a buffer is made from its capacity and contents, and how
records enter and leave; all disciplines agree while there is room. -/
namespace CustomKernel.Lib.Queue

structure Discipline (α Q : Type) where
  /-- the buffer of the given capacity that holds these, oldest first -/
  ofList : Int → List α → Q
  items : Q → List α
  push : Q → α → Q
  pop : Nat → Q → Q
  items_ofList : ∀ n xs, items (ofList n xs) = xs
  pop_ofList : ∀ n xs i, pop i (ofList n xs) = ofList n (xs.drop i)
  push_room : ∀ n xs r, (xs.length : Int) < n → push (ofList n xs) r = ofList n (xs ++ [r])

variable {α : Type}

/-- The unbounded queue. -/
def fifo (α : Type) : Discipline α (List α) where
  ofList _ xs := xs
  items q := q
  push q r := q ++ [r]
  pop i q := q.drop i
  items_ofList _ _ := rfl
  pop_ofList _ _ _ := rfl
  push_room _ _ _ _ := rfl

structure Bounded (α : Type) where
  cap : Int
  items : List α

/-- A record pushed to a full buffer drives out the oldest. -/
def Bounded.push (q : Bounded α) (r : α) : Bounded α :=
  ⟨q.cap, (q.items ++ [r]).drop (q.items.length + 1 - q.cap.toNat)⟩

/-- The bounded queue that keeps the newest records. -/
def dropOldest (α : Type) : Discipline α (Bounded α) where
  ofList := Bounded.mk
  items := Bounded.items
  push := Bounded.push
  pop i q := ⟨q.cap, q.items.drop i⟩
  items_ofList _ _ := rfl
  pop_ofList _ _ _ := rfl
  push_room n xs r h := by
    have h0 : xs.length + 1 - n.toNat = 0 := by omega
    simp [Bounded.push, h0]

/-- In a buffer of one cell the newest record is the only one. -/
theorem dropOldest_push_single (xs : List α) (r : α) :
    (dropOldest α).push ((dropOldest α).ofList 1 xs) r = (dropOldest α).ofList 1 [r] := by
  simp [dropOldest, Bounded.push]

end CustomKernel.Lib.Queue

import CustomKernel.Lib.Filing
import CustomKernel.Lib.Transition
import Mathlib.Algebra.Order.Ring.Nat

/-! # The pages of a zone

`__free_pages_ok`, `expand` and `rmqueue`, with the pool of pages that each processor keeps.
A page is its number counted from `zone_mem_map`. What a function returns is an error when
it comes to a `BUG()`, or when it changes a bit outside of the bitmap it was given at boot.
`unsigned long` has 32 bits. -/
namespace CustomKernel.Mm.PageAlloc
open Lib Lib.Transition Function

/-! ## Data -/

def maxOrder : Nat := 10

/-- What is looked at in a `struct page`. `swapCache` is `mapping == &swapper_space`. -/
structure Page where
  lru : Bool
  reserved : Bool
  buffers : Bool
  mapping : Bool
  swapCache : Bool
  locked : Bool
  active : Bool
  inactiveDirty : Bool
  inactiveClean : Bool
  pteChain : Bool
  referenced : Bool
  dirty : Bool
deriving DecidableEq, Repr

structure Zone where
  startMapnr : Nat
  size : Nat
  maxMapnr : Nat
  /-- `max_nr_pages` of the pools -/
  maxNrPages : Nat
  mapped : startMapnr + size ≤ maxMapnr
  word : size < 2 ^ 32

/-- The heads a page can hang on. -/
inductive Head where
  | area (order : Nat)
  | cpu (c : Nat)
deriving DecidableEq, Repr

structure State where
  lists : Head → List Nat
  /-- the bits of `free_area[order].map` -/
  map : Nat → Nat → Bool
  freePages : Nat
  /-- `nr_pages` of the pools -/
  nrPages : Nat → Nat
  page : Nat → Page

inductive Fault where
  | bug
  /-- a bit outside of the bitmap -/
  | wild
deriving DecidableEq, Repr

/-! ## Pages -/

/-- `BAD_RANGE`. The third test of the macro, on the zone number in the flags, says the same
as the others: it is set for the pages of the range. -/
def Zone.badRange (z : Zone) (page : Nat) : Bool :=
  decide (z.startMapnr + page ≥ z.startMapnr + z.size) ||
    decide (z.startMapnr + page < z.startMapnr)

def Zone.validPage (z : Zone) (page : Nat) : Bool := decide (z.startMapnr + page < z.maxMapnr)

def Page.onLruList (p : Page) : Bool := p.active || p.inactiveDirty || p.inactiveClean

def Page.lruCacheDel (p : Page) : Page :=
  let p :=
    if p.active then { p with active := false }
    else if p.inactiveDirty then { p with inactiveDirty := false }
    else if p.inactiveClean then { p with inactiveClean := false }
    else p
  { p with lru := false }

/-- A page as `__free_pages_ok` looks at it. -/
def Page.offLru (p : Page) : Page := if p.lru then p.lruCacheDel else p

/-- What is not to be found in a page that is freed. -/
def Page.inUse (p : Page) : Bool :=
  p.buffers || p.mapping || p.swapCache || p.locked || p.onLruList || p.pteChain

/-- `page->flags &= ~((1<<PG_referenced) | (1<<PG_dirty))` -/
def Page.unmark (p : Page) : Page := { p with referenced := false, dirty := false }

def State.setPage (s : State) (page : Nat) (p : Page) : State :=
  { s with page := update s.page page p }

/-! ## Lists and bits -/

def State.addHead (s : State) (h : Head) (page : Nat) : State :=
  { s with lists := Filing.push s.lists h page }

def State.del (s : State) (page : Nat) : State :=
  { s with lists := Filing.remove s.lists page }

/-- The bytes that `free_area_init_core` allocates for a bitmap. -/
def Zone.bitmapSize (z : Zone) (order : Nat) : Nat :=
  if order = maxOrder - 1 then 0
  else
    let bitmapSize := (z.size - 1) / 2 ^ (order + 4) + 1
    -- LONG_ALIGN
    (bitmapSize + 3) / 4 * 4 * 2

def testAndChangeBit (z : Zone) (order index : Nat) (s : State) : Except Fault (Bool × State) :=
  if index < 8 * z.bitmapSize order then
    let old := s.map order index
    .ok (old, { s with
      map := update s.map order (update (s.map order) index (!old)) })
  else .error .wild

def markUsed (z : Zone) (page order : Nat) (s : State) : Except Fault State := do
  let r ← testAndChangeBit z order (page / 2 ^ (1 + order)) s
  return r.2

/-! ## Freeing -/

/-- The loop of `__free_pages_ok`, with `left` orders above the one of `area` and the latter
included. It returns the order it stops at and the block. -/
def mergeUp (z : Zone) : (left mask index pageIdx : Nat) → State →
    Except Fault (Nat × Nat × State)
  | 0, mask, _, pageIdx, s =>
    if (mask + 2 ^ (maxOrder - 1)) % 2 ^ 32 = 0 then .ok (maxOrder, pageIdx, s)
    -- area >= zone->free_area + MAX_ORDER
    else .error .bug
  | left + 1, mask, index, pageIdx, s =>
    let order := maxOrder - (left + 1)
    if (mask + 2 ^ (maxOrder - 1)) % 2 ^ 32 = 0 then .ok (order, pageIdx, s)
    else do
      let r ← testAndChangeBit z order index s
      if r.1 = false then return (order, pageIdx, r.2)
      let buddy1 := pageIdx ^^^ ((2 ^ 32 - mask) % 2 ^ 32)
      let buddy2 := pageIdx
      if z.badRange buddy1 || z.badRange buddy2 then throw .bug
      let mask := mask * 2 % 2 ^ 32
      mergeUp z left mask (index / 2) (pageIdx &&& mask) (r.2.del buddy1)

/-- `__free_pages_ok` from where it has found the zone, on a processor, with
`free_high(zone) <= 0` or not. -/
def freeBlock (z : Zone) (cpu : Nat) (high : Bool) (page order : Nat) (s : State) :
    Except Fault State :=
  let mask := (2 ^ 32 - 1) * 2 ^ order % 2 ^ 32
  if page &&& (2 ^ 32 - 1 - mask) ≠ 0 then .error .bug
  else
    let index := page / 2 ^ (1 + order)
    if order = 0 ∧ s.nrPages cpu < z.maxNrPages ∧ high = true then
      .ok { s.addHead (.cpu cpu) page with
        nrPages := update s.nrPages cpu (s.nrPages cpu + 1) }
    else do
      let s := { s with freePages := (s.freePages + 2 ^ 32 - mask) % 2 ^ 32 }
      let r ← mergeUp z (maxOrder - order) mask index page s
      return r.2.2.addHead (.area r.1) r.2.1

def freePagesOk (z : Zone) (cpu : Nat) (high : Bool) (page order : Nat) (s : State) :
    Except Fault State :=
  let p := (s.page page).offLru
  if p.reserved then .ok (s.setPage page p)
  else if p.inUse || !z.validPage page then .error .bug
  else freeBlock z cpu high page order (s.setPage page p.unmark)

/-! ## Allocating -/

/-- The pointer `page` and the number `index` go together. -/
def expand (z : Zone) (low : Nat) : (high index : Nat) → State → Except Fault (Nat × State)
  | 0, index, s => if z.badRange index then .error .bug else .ok (index, s)
  | high + 1, index, s =>
    if high + 1 ≤ low then if z.badRange index then .error .bug else .ok (index, s)
    else do
      if z.badRange index then throw .bug
      let s ← markUsed z index high (s.addHead (.area high) index)
      expand z low high (index + 2 ^ high) s

/-- `memlist_del` and `MARK_USED` of `rmqueue` -/
def takeOff (z : Zone) (page currOrder : Nat) (s : State) : Except Fault State :=
  if currOrder ≠ maxOrder - 1 then markUsed z page currOrder (s.del page)
  else .ok (s.del page)

/-- The loop of `rmqueue`, with `left` orders to look at. -/
def rmqueueArea (z : Zone) (order : Nat) : (left : Nat) → State → Except Fault (Option Nat × State)
  | 0, s => .ok (none, s)
  | left + 1, s =>
    let currOrder := maxOrder - (left + 1)
    match s.lists (.area currOrder) with
    | page :: _ => do
      if z.badRange page then throw .bug
      let s ← takeOff z page currOrder s
      let s := { s with freePages := (s.freePages + 2 ^ 32 - 2 ^ order) % 2 ^ 32 }
      let r ← expand z order currOrder page s
      if z.badRange r.1 || (r.2.page r.1).onLruList then throw .bug
      return (some r.1, r.2)
    | [] => rmqueueArea z order left s

/-- `rmqueue`, on a processor, for a task with `PF_MEMALLOC` or not. -/
def rmqueue (z : Zone) (cpu : Nat) (memalloc : Bool) (order : Nat) (s : State) :
    Except Fault (Option Nat × State) :=
  let threshold := if memalloc then 0 else z.maxNrPages / 8
  if order = 0 ∧ s.nrPages cpu > threshold then
    match s.lists (.cpu cpu) with
    | page :: _ =>
      .ok (some page, { s.del page with
        nrPages := update s.nrPages cpu (s.nrPages cpu - 1) })
    | [] => .error .bug
  else rmqueueArea z order (maxOrder - order) s

/-! ## Steps -/

/-- The zone, and the blocks that are allocated with their orders. -/
structure System where
  zone : State
  held : Nat → Option Nat

/-- Boot allocates every page by itself. -/
def boot (z : Zone) : System where
  zone :=
    { lists := fun _ => []
      map := fun _ _ => false
      freePages := 0
      nrPages := fun _ => 0
      page := fun _ =>
        { lru := false, reserved := true, buffers := false, mapping := false, swapCache := false,
          locked := false, active := false, inactiveDirty := false, inactiveClean := false,
          pteChain := false, referenced := false, dirty := false } }
  held p := if p < z.size then some 0 else none

inductive Op where
  | free (cpu : Nat) (high : Bool) (page order : Nat)
  | rmqueue (cpu : Nat) (memalloc : Bool) (order : Nat)
  /-- who has a block uses a page of it -/
  | use (block order page : Nat) (p : Page)
deriving Repr

def Op.exec (z : Zone) (σ : System) : Op → Except Fault System
  | .free cpu high page order => do
    let s ← freePagesOk z cpu high page order σ.zone
    return ⟨s, if (σ.zone.page page).reserved then σ.held else update σ.held page none⟩
  | .rmqueue cpu memalloc order => do
    let r ← PageAlloc.rmqueue z cpu memalloc order σ.zone
    match r.1 with
    | none => return ⟨r.2, σ.held⟩
    | some page => return ⟨r.2, update σ.held page (some order)⟩
  | .use _ _ page p => .ok ⟨σ.zone.setPage page p, σ.held⟩

/-- A block is freed with the order it was allocated with, when nothing uses its pages any
more. `alloc_pages` turns down orders from `MAX_ORDER` on. -/
def Op.Allowed (σ : System) : Op → Prop
  | .free _ _ page order =>
    σ.held page = some order ∧
      ((σ.zone.page page).reserved = true ∨
        (σ.zone.page page).offLru.inUse = false ∧
          ∀ j < page + 2 ^ order, page < j → (σ.zone.page j).onLruList = false)
  | .rmqueue _ _ order => order < maxOrder
  | .use block order page _ => σ.held block = some order ∧ block ≤ page ∧ page < block + 2 ^ order

instance (σ : System) : (o : Op) → Decidable (o.Allowed σ)
  | .free _ _ _ _ => inferInstanceAs (Decidable (_ ∧ (_ ∨ _ ∧ _)))
  | .rmqueue _ _ _ => inferInstanceAs (Decidable (_ < _))
  | .use _ _ _ _ => inferInstanceAs (Decidable (_ ∧ _ ∧ _))

def Step (z : Zone) (σ : System) (o : Op) (σ' : System) : Prop :=
  o.Allowed σ ∧ o.exec z σ = .ok σ'

/-- The state after a call that returns. -/
def Op.result (z : Zone) (σ : System) (o : Op) : System :=
  match o.exec z σ with
  | .ok σ' => σ'
  | .error _ => σ

/-- Whether every operation of a list is allowed when its turn comes, and returns. -/
def Runs (z : Zone) (σ : System) : List Op → Prop
  | [] => True
  | o :: os => o.Allowed σ ∧ (o.exec z σ).isOk = true ∧ Runs z (o.result z σ) os

instance decidableRuns (z : Zone) : (σ : System) → (os : List Op) → Decidable (Runs z σ os)
  | _, [] => isTrue trivial
  | σ, o :: os =>
    have := decidableRuns z (o.result z σ) os
    inferInstanceAs (Decidable (_ ∧ _ ∧ _))

theorem run_after (z : Zone) (os : List Op) (σ : System) (h : Runs z σ os) :
    Run (Step z) σ os (os.foldl (fun σ o => o.result z σ) σ) := by
  induction os generalizing σ with
  | nil => exact .nil σ
  | cons o os ih =>
    obtain ⟨hallowed, hok, hrest⟩ := h
    have hexec : o.exec z σ = .ok (o.result z σ) := by
      unfold Op.result
      cases heq : o.exec z σ with
      | ok σ' => rfl
      | error e => rw [heq] at hok; cases hok
    exact .cons ⟨hallowed, hexec⟩ (ih _ hrest)

end CustomKernel.Mm.PageAlloc

import CustomKernel.Ipc.Msg

/-! # The text of a message

`load_msg` puts a text into blocks of one page at most, and `store_msg` copies it out again.
Every allocation may fail, and every copy may end with a fault. -/
namespace CustomKernel.Ipc.MsgText
open Msg (ENOMEM EFAULT headerSize)

/-! ## Loading -/

def pageSize : Nat := 4096

def datalenMsg : Nat := pageSize - headerSize

/-- A segment has only the pointer to the next one. -/
def datalenSeg : Nat := pageSize - 4

/-- The blocks of a message, along `next`, are a list. -/
structure Block where
  addr : Nat
  data : List UInt8

/-- What `kmalloc` has returned and what `kfree` has been given, in turn. -/
structure Heap where
  allocated : List Nat
  freed : List Nat

/-- Where `kmalloc` finds room, and whether `copy_from_user` succeeds. -/
structure Turn where
  block : Option Nat
  copied : Bool

def kfree (h : Heap) (b : Block) : Heap := { h with freed := h.freed ++ [b.addr] }

def freeMsg (msg : List Block) (h : Heap) : Heap := msg.foldl kfree h

def text (user : Nat → UInt8) (src n : Nat) : List UInt8 := (List.range n).map fun i => user (src + i)

/-- One block of `load_msg`; those of `msg` are linked already. -/
def loadBlock (user : Nat → UInt8) (t : Turn) (src alen : Nat) (msg : List Block) (h : Heap) :
    Except Int (List Block) × Heap :=
  match t.block with
  | none => (.error (-ENOMEM), freeMsg msg h)
  | some a =>
    let h := { h with allocated := h.allocated ++ [a] }
    let msg := msg ++ [⟨a, text user src alen⟩]
    if t.copied then (.ok msg, h) else (.error (-EFAULT), freeMsg msg h)

/-- The loop of `load_msg`, which comes to its block `i`. -/
def loadSegs (user : Nat → UInt8) (turn : Nat → Turn) (i src len : Nat) (msg : List Block)
    (h : Heap) : Except Int (List Block) × Heap :=
  if 0 < len then
    let alen := min len datalenSeg
    match loadBlock user (turn i) src alen msg h with
    | (.ok msg, h) => loadSegs user turn (i + 1) (src + alen) (len - alen) msg h
    | (.error e, h) => (.error e, h)
  else (.ok msg, h)
termination_by len
decreasing_by
  unfold datalenSeg pageSize
  omega

def loadMsg (user : Nat → UInt8) (turn : Nat → Turn) (src len : Nat) (h : Heap) :
    Except Int (List Block) × Heap :=
  let alen := min len datalenMsg
  match loadBlock user (turn 0) src alen [] h with
  | (.ok msg, h) => loadSegs user turn 1 (src + alen) (len - alen) msg h
  | (.error e, h) => (.error e, h)

/-! ## Storing -/

/-- `copy_to_user`; with a fault only some of the first bytes arrive. -/
def copyToUser (fault : Option Nat) (dest : Nat) (data : List UInt8) (user : Nat → UInt8) (b : Nat) :
    UInt8 :=
  if dest ≤ b then ((data.take (fault.getD data.length))[b - dest]?).getD (user b) else user b

/-- One block of `store_msg` and those after it; `none` is a copy from behind the end of a block. -/
def storeBlock (fault : Option Nat) (b : Block) (dest alen : Nat)
    (rest : (Nat → UInt8) → Option (Int × (Nat → UInt8))) (user : Nat → UInt8) :
    Option (Int × (Nat → UInt8)) :=
  if b.data.length < alen then none
  else
    let user := copyToUser fault dest (b.data.take alen) user
    if fault.isSome then some (-1, user) else rest user

def storeSegs (fault : Nat → Option Nat) : (segs : List Block) → (i dest len : Nat) →
    (Nat → UInt8) → Option (Int × (Nat → UInt8))
  | [], _, _, len, user => if 0 < len then none else some (0, user)
  | seg :: segs, i, dest, len, user =>
    if 0 < len then
      let alen := min len datalenSeg
      storeBlock (fault i) seg dest alen (storeSegs fault segs (i + 1) (dest + alen) (len - alen)) user
    else some (0, user)

def storeMsg (fault : Nat → Option Nat) (dest : Nat) (msg : List Block) (len : Nat)
    (user : Nat → UInt8) : Option (Int × (Nat → UInt8)) :=
  match msg with
  | [] => none
  | b :: segs =>
    let alen := min len datalenMsg
    storeBlock (fault 0) b dest alen (storeSegs fault segs 1 (dest + alen) (len - alen)) user

/-! ## What is loaded -/

/-- The segments hold `len` bytes from `src` on. -/
def Filled (user : Nat → UInt8) : List Block → (src len : Nat) → Prop
  | [], _, len => len = 0
  | seg :: segs, src, len =>
    seg.data = text user src (min len datalenSeg) ∧
      Filled user segs (src + min len datalenSeg) (len - min len datalenSeg)

section
variable {user : Nat → UInt8} {turn : Nat → Turn} {i src len alen : Nat} {msg : List Block}
  {h : Heap} {t : Turn}

theorem freeMsg_eq (msg : List Block) (h : Heap) :
    freeMsg msg h = { h with freed := h.freed ++ msg.map (·.addr) } := by
  induction msg generalizing h with
  | nil => simp [freeMsg]
  | cons b msg ih =>
    refine (ih (kfree h b)).trans ?_
    simp [kfree]

/-- All that is linked is freed when something fails. -/
theorem loadBlock_cases (user : Nat → UInt8) (t : Turn) (src alen : Nat) (msg : List Block) (h : Heap) :
    (∃ a, loadBlock user t src alen msg h =
      (.ok (msg ++ [⟨a, text user src alen⟩]), { h with allocated := h.allocated ++ [a] })) ∨
    (t.block = none ∨ t.copied = false) ∧ ∃ e new, loadBlock user t src alen msg h =
      (.error e, ⟨h.allocated ++ new, h.freed ++ (msg.map (·.addr) ++ new)⟩) := by
  unfold loadBlock
  cases hblock : t.block with
  | none => exact .inr ⟨.inl rfl, -ENOMEM, [], by simp [freeMsg_eq]⟩
  | some a =>
    cases hcopied : t.copied with
    | true => exact .inl ⟨a, rfl⟩
    | false => exact .inr ⟨.inr rfl, -EFAULT, [a], by simp [freeMsg_eq]⟩

/-- The blocks that are allocated are those of the message, or they are freed. -/
theorem loadSegs_cases (user : Nat → UInt8) (turn : Nat → Turn) (i src len : Nat) (msg : List Block)
    (h : Heap) :
    (∃ segs, loadSegs user turn i src len msg h =
        (.ok (msg ++ segs), { h with allocated := h.allocated ++ segs.map (·.addr) }) ∧
      Filled user segs src len) ∨
    (∃ i, (turn i).block = none ∨ (turn i).copied = false) ∧ ∃ e new,
      loadSegs user turn i src len msg h =
        (.error e, ⟨h.allocated ++ new, h.freed ++ (msg.map (·.addr) ++ new)⟩) := by
  induction len using Nat.strong_induction_on generalizing i src msg h with
  | h len ih =>
    rw [loadSegs]
    split
    case isFalse hzero => exact .inl ⟨[], by simp, Nat.eq_zero_of_not_pos hzero⟩
    case isTrue hpos =>
      have hless : len - min len datalenSeg < len := by
        unfold datalenSeg pageSize
        omega
      rcases loadBlock_cases user (turn i) src (min len datalenSeg) msg h with
        ⟨a, heq⟩ | ⟨hfail, e, new, heq⟩
      · simp only [heq]
        rcases ih _ hless (i + 1) (src + min len datalenSeg) (msg ++ [⟨a, text user src (min len datalenSeg)⟩])
          { h with allocated := h.allocated ++ [a] } with ⟨segs, hrest, hfilled⟩ | ⟨hfail, e, new, hrest⟩
        · exact .inl ⟨⟨a, text user src (min len datalenSeg)⟩ :: segs, by simp [hrest], rfl, hfilled⟩
        · exact .inr ⟨hfail, e, a :: new, by simp [hrest]⟩
      · exact .inr ⟨⟨i, hfail⟩, e, new, by simp only [heq]⟩

/-! ## What arrives -/

/-- Nothing but the `n` bytes at `dest` has changed. If `r` is 0 they are those from `src` on,
and it is 0 unless a copy fails. -/
def Arrived (user : Nat → UInt8) (fault : Nat → Option Nat) (src dest n : Nat) (r : Int)
    (before after : Nat → UInt8) : Prop :=
  (∀ b, b < dest ∨ dest + n ≤ b → after b = before b) ∧
    (r = 0 → ∀ i < n, after (dest + i) = user (src + i)) ∧ ((∀ i, fault i = none) → r = 0)

variable (fault : Nat → Option Nat) (dest : Nat) {n m : Nat} {b : Block}
  {rest : (Nat → UInt8) → Option (Int × (Nat → UInt8))}

theorem storeBlock_arrived (hdata : b.data = text user src n) (hle : alen ≤ n)
    (hrest : ∀ before, ∃ r after, rest before = some (r, after) ∧
      Arrived user fault (src + alen) (dest + alen) m r before after) (before : Nat → UInt8) :
    ∃ r after, storeBlock (fault i) b dest alen rest before = some (r, after) ∧
      Arrived user fault src dest (alen + m) r before after := by
  have hlen : ¬ b.data.length < alen := by simpa [hdata, text] using hle
  have hout : ∀ b', b' < dest ∨ dest + alen ≤ b' →
      copyToUser (fault i) dest (b.data.take alen) before b' = before b' := by
    intro b' hb'
    unfold copyToUser
    split
    · rw [List.getElem?_eq_none (by simp; omega), Option.getD_none]
    · rfl
  rw [storeBlock, if_neg hlen]
  cases hfault : fault i with
  | some k =>
    refine ⟨-1, _, rfl, fun b' hb' => hfault ▸ hout b' (by omega), fun h => by omega, fun h => ?_⟩
    rw [h i] at hfault
    cases hfault
  | none =>
    rw [hfault] at hout
    obtain ⟨r, after, heq, hsame, hcopied, hok⟩ :=
      hrest (copyToUser none dest (b.data.take alen) before)
    refine ⟨r, after, heq, fun b' hb' => ?_, fun hr j hj => ?_, hok⟩
    · rw [hsame b' (by omega), hout b' (by omega)]
    · rcases Nat.lt_or_ge j alen with hlt | hge
      · rw [hsame _ (by omega)]
        simp [copyToUser, hdata, text, hlt, Nat.lt_of_lt_of_le hlt hle]
      · have := hcopied hr (j - alen) (by omega)
        rwa [Nat.add_assoc, Nat.add_assoc, Nat.add_sub_cancel' hge] at this

/-- After `c` bytes, or all that are asked for, have been copied. -/
theorem storeSegs_arrived {segs : List Block} (c : Nat) (hle : n ≤ len)
    (hfilled : Filled user segs (src + min len c) (len - min len c)) (before : Nat → UInt8) :
    ∃ r after, storeSegs fault segs i (dest + min n c) (n - min n c) before = some (r, after) ∧
      Arrived user fault (src + min n c) (dest + min n c) (n - min n c) r before after := by
  induction segs generalizing i src dest len n c before with
  | nil =>
    obtain hzero : n - min n c = 0 := by
      have : len - min len c = 0 := hfilled
      omega
    rw [hzero]
    exact ⟨0, before, rfl, fun _ _ => rfl, fun _ j hj => by omega, fun _ => rfl⟩
  | cons seg segs ih =>
    rw [storeSegs]
    split
    case isFalse hzero =>
      exact ⟨0, before, rfl, fun _ _ => rfl, fun _ j hj => by omega, fun _ => rfl⟩
    case isTrue hpos =>
      obtain ⟨hn, hlen⟩ : min n c = c ∧ min len c = c := by omega
      rw [hlen] at hfilled
      rw [hn]
      have hstore := storeBlock_arrived fault (dest + c) (i := i) hfilled.1
        (show min (n - c) datalenSeg ≤ min (len - c) datalenSeg by omega)
        (ih (i := i + 1) _ datalenSeg (by omega) hfilled.2) before
      rwa [Nat.add_sub_cancel' (Nat.min_le_left ..)] at hstore

/-- A text that is loaded and stored arrives up to the length that is asked for, and nothing is
written behind it. If it cannot be loaded, what was allocated for it has been freed, each block
once. -/
theorem text_survives (user before : Nat → UInt8) (turn : Nat → Turn) (fault : Nat → Option Nat)
    (src dest len size : Nat) (h : Heap) :
    match loadMsg user turn src len h with
    | (.ok msg, h') => h' = { h with allocated := h.allocated ++ msg.map (·.addr) } ∧
      ∃ r after, storeMsg fault dest msg (min len size) before = some (r, after) ∧
        Arrived user fault src dest (min len size) r before after
    | (.error _, h') => (∃ i, (turn i).block = none ∨ (turn i).copied = false) ∧
      ∃ blocks, h' = ⟨h.allocated ++ blocks, h.freed ++ blocks⟩ := by
  unfold loadMsg
  rcases loadBlock_cases user (turn 0) src (min len datalenMsg) [] h with
    ⟨a, heq⟩ | ⟨hfail, e, new, heq⟩
  · rcases loadSegs_cases user turn 1 (src + min len datalenMsg) (len - min len datalenMsg)
      ([] ++ [⟨a, text user src (min len datalenMsg)⟩]) { h with allocated := h.allocated ++ [a] } with
      ⟨segs, hrest, hfilled⟩ | ⟨hfail, e, new, hrest⟩
    · simp only [heq, hrest]
      refine ⟨by simp, ?_⟩
      have hstore := storeBlock_arrived fault dest (i := 0) (b := ⟨a, text user src (min len datalenMsg)⟩) rfl
        (by omega) (storeSegs_arrived fault dest (i := 1) datalenMsg (Nat.min_le_left len size) hfilled)
        before
      rwa [Nat.add_sub_cancel' (Nat.min_le_left ..)] at hstore
    · simp only [heq, hrest]
      exact ⟨hfail, a :: new, by simp⟩
  · simp only [heq]
    exact ⟨⟨0, hfail⟩, new, rfl⟩

end

end CustomKernel.Ipc.MsgText

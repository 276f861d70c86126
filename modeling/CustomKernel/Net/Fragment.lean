import CustomKernel.Lib.Segments
import CustomKernel.Lib.Transition

/-! # Reassembly of fragmented datagrams

`ip_frag_queue` puts a fragment into the chain of its datagram, cuts off what the fragment before
it already has, and cuts or frees what it covers behind it. `ip_defrag` delivers the datagram as
soon as the first and the last fragment are in and `meat` equals `len`. Pulls and trims succeed,
and there is one processor. -/
namespace CustomKernel.Net.Fragment
open Lib.Segments Lib.Transition Function

/-! ## Data -/

/-- What a queue is found by. -/
structure Key where
  saddr : BitVec 32
  daddr : BitVec 32
  id : BitVec 16
  protocol : BitVec 8
deriving DecidableEq, Repr

/-- A fragment as it arrives: `bytes` begin at the IP header, which is `ihl` bytes long. -/
structure SkBuff where
  key : Key
  fragOff : BitVec 16
  ihl : Nat
  bytes : List (BitVec 8)
  ihl_le : ihl ≤ bytes.length

def SkBuff.offset (skb : SkBuff) : Nat := (skb.fragOff &&& 0x1fff#16).toNat <<< 3

/-- `IP_MF`: more fragments follow. -/
def SkBuff.more (skb : SkBuff) : Bool := skb.fragOff &&& 0x2000#16 != 0

/-- A fragment in the chain: `hdr` lies from `nh.raw` to `data`. -/
structure Frag extends Segment (BitVec 8) where
  ihl : Nat
  hdr : List (BitVec 8)

def Frag.pull (f : Frag) (n : Nat) : Frag :=
  { f with toSegment := f.toSegment.drop n, hdr := f.hdr ++ f.data.take n }

structure Ipq where
  firstIn : Bool
  lastIn : Bool
  complete : Bool
  fragments : List Frag
  len : Nat
  meat : Int

/-- A queue as `ip_frag_create` makes it. -/
def Ipq.new : Ipq := ⟨false, false, false, [], 0, 0⟩

/-! ## Queueing -/

/-- The loop over the fragments behind: the rest of the chain, and `meat`. -/
def eat (fin : Nat) : List Frag → Int → List Frag × Int
  | [], meat => ([], meat)
  | next :: rest, meat =>
    if next.start < fin then
      let i := fin - next.start
      if i < next.data.length then (next.pull i :: rest, meat - i)
      else eat fin rest (meat - next.data.length)
    else (next :: rest, meat)

/-- The fragment is cut where the one before it ends. Nothing may be left of it. -/
def cutFront (prev : Option Frag) (fin : Nat) (f : Frag) : Option Frag :=
  match prev with
  | none => some f
  | some prev =>
    let i := prev.fin - f.start
    if 0 < i then if fin ≤ f.start + i then none else some (f.pull i)
    else some f

/-- From the search for the place on. -/
def insertFrag (qp : Ipq) (f : Frag) (fin : Nat) : Ipq :=
  let before := qp.fragments.takeWhile fun g => g.start < f.start
  let behind := qp.fragments.dropWhile fun g => g.start < f.start
  match cutFront before.getLast? fin f with
  | none => qp
  | some f =>
    { qp with
      fragments := before ++ f :: (eat fin behind qp.meat).1
      meat := (eat fin behind qp.meat).2 + f.data.length
      firstIn := qp.firstIn || f.start == 0 }

/-- The header is pulled and what lies behind `fin` is trimmed. -/
def SkBuff.toFrag (skb : SkBuff) (fin : Nat) : Frag :=
  ⟨⟨skb.offset, (skb.bytes.drop skb.ihl).take (fin - skb.offset)⟩, skb.ihl, skb.bytes.take skb.ihl⟩

def place (qp : Ipq) (skb : SkBuff) (fin : Nat) : Ipq :=
  if fin = skb.offset then qp else insertFrag qp (skb.toFrag fin) fin

def ipFragQueue (qp : Ipq) (skb : SkBuff) : Ipq :=
  if qp.complete then qp
  else
    let fin := skb.offset + skb.bytes.length - skb.ihl
    if skb.more = false then
      if fin < qp.len ∨ (qp.lastIn = true ∧ fin ≠ qp.len) then qp
      else place { qp with lastIn := true, len := fin } skb fin
    else
      -- the end is cut to a multiple of 8
      let fin := fin / 8 * 8
      if fin > qp.len then
        if qp.lastIn then qp else place { qp with len := fin } skb fin
      else place qp skb fin

/-! ## Delivery -/

/-- A datagram from its IP header on. -/
structure Datagram where
  ihl : Nat
  totLen : Nat
  bytes : List (BitVec 8)
deriving DecidableEq

def Datagram.payload (d : Datagram) : List (BitVec 8) := d.bytes.drop d.ihl

/-- `nomem` says that the head cannot be copied. What lies before the data of the first fragment
is pushed back. -/
def ipFragReasm (nomem : Bool) (qp : Ipq) : Option Datagram :=
  match qp.fragments with
  | [] => none
  | head :: rest =>
    let len := head.ihl + qp.len
    if len > 65535 ∨ nomem = true then none
    else some ⟨head.ihl, len, head.hdr ++ head.data ++ rest.flatMap fun f => f.data⟩

/-- The queues that are linked. -/
abbrev Queues : Type := Key → Option Ipq

def Queues.empty : Queues := fun _ => none

/-- `oom` says that there is no memory for a new queue. -/
def ipDefrag (oom nomem : Bool) (skb : SkBuff) (s : Queues) : Option Datagram × Queues :=
  match if (s skb.key).isNone && oom then none else some ((s skb.key).getD Ipq.new) with
  | none => (none, s)
  | some qp =>
    let qp := ipFragQueue qp skb
    if qp.firstIn = true ∧ qp.lastIn = true ∧ qp.complete = false ∧ qp.meat = qp.len then
      -- `ipq_kill`
      (ipFragReasm nomem qp, update s skb.key none)
    else (none, update s skb.key (some qp))

/-! ## Runs -/

inductive Event where
  | defrag (oom nomem : Bool) (skb : SkBuff)
  /-- `ip_expire` or `ip_evictor` -/
  | kill (key : Key)

def Step (s : Queues) (e : Event) (s' : Queues) : Prop :=
  match e with
  | .defrag oom nomem skb => s' = (ipDefrag oom nomem skb s).2
  | .kill key => s' = update s key none

/-- The fragments of one datagram that have arrived. -/
def received (key : Key) (es : List Event) : List SkBuff :=
  es.filterMap fun
    | .defrag _ _ skb => if skb.key = key then some skb else none
    | .kill _ => none

theorem received_append (key : Key) (es es' : List Event) :
    received key (es ++ es') = received key es ++ received key es' := List.filterMap_append

/-- The fragment has this byte for this place of the datagram. -/
def SkBuff.Carries (skb : SkBuff) (i : Nat) (b : BitVec 8) : Prop :=
  (Segment.mk skb.offset (skb.bytes.drop skb.ihl)).Holds i b

/-- What a queue is after some fragments. -/
structure Kept (skbs : List SkBuff) (qp : Ipq) : Prop where
  ordered : Ordered 0 (qp.fragments.map Frag.toSegment) qp.len
  meat : qp.meat = total (qp.fragments.map Frag.toSegment)
  carried : ∀ f ∈ qp.fragments, ∀ i b, f.Holds i b → ∃ skb ∈ skbs, skb.Carries i b
  header : ∀ f ∈ qp.fragments, f.start = 0 → f.hdr.length = f.ihl
  first : qp.firstIn = true → qp.fragments ≠ []

theorem kept_new (skbs : List SkBuff) : Kept skbs Ipq.new where
  ordered := le_refl 0
  meat := rfl
  carried := fun _ h => by cases h
  header := fun _ h => by cases h
  first := fun h => by cases h

/-! ## One fragment -/

section
variable {skbs : List SkBuff} {qp : Ipq} {skb : SkBuff} {f : Frag} {fin : Nat}

theorem Kept.mono {skbs' : List SkBuff} (h : Kept skbs qp) (hsub : skbs ⊆ skbs') :
    Kept skbs' qp :=
  { h with
    carried := fun f hf i b hb =>
      let ⟨skb, hmem, hc⟩ := h.carried f hf i b hb
      ⟨skb, hsub hmem, hc⟩ }

theorem Kept.grow (h : Kept skbs qp) (lastIn : Bool) {len : Nat} (hlen : qp.len ≤ len) :
    Kept skbs { qp with lastIn := lastIn, len := len } :=
  { h with ordered := h.ordered.mono_right hlen }

/-- What the loop leaves begins at `fin` and is what it found, up to cuts at `fin`. -/
theorem eat_spec (meat : Int) {lo hi : Nat} {fs : List Frag}
    (h : Ordered lo (fs.map Frag.toSegment) hi) (hfin : fin ≤ hi) :
    Ordered fin ((eat fin fs meat).1.map Frag.toSegment) hi ∧
      (eat fin fs meat).2 - total ((eat fin fs meat).1.map Frag.toSegment) =
        meat - total (fs.map Frag.toSegment) ∧
      ∀ f ∈ (eat fin fs meat).1, f ∈ fs ∨ ∃ g ∈ fs, ∃ i, f = g.pull i ∧ f.start = fin := by
  induction fs generalizing lo meat with
  | nil => exact ⟨hfin, rfl, by simp [eat]⟩
  | cons next rest ih =>
    obtain ⟨hlo, hne, hrest⟩ := h
    rw [eat]
    by_cases hover : next.start < fin
    · rw [if_pos hover]
      by_cases hcut : fin - next.start < next.data.length
      · rw [if_pos hcut]
        have hstart : (next.pull (fin - next.start)).start = fin := by
          show next.start + (fin - next.start) = fin
          omega
        have hlength : (next.pull (fin - next.start)).data.length =
            next.data.length - (fin - next.start) := List.length_drop
        refine ⟨⟨hstart.ge, ?_, ?_⟩, ?_, ?_⟩
        · exact List.ne_nil_of_length_pos (by omega)
        · have hend : (next.pull (fin - next.start)).fin = next.fin := by
            rw [Segment.fin, Segment.fin, hlength, hstart]
            omega
          rw [hend]
          exact hrest
        · simp only [List.map_cons, total_cons, hlength]
          omega
        · refine List.forall_mem_cons.mpr ⟨.inr ⟨next, List.mem_cons_self, _, rfl, hstart⟩, ?_⟩
          exact fun f hf => .inl (List.mem_cons_of_mem next hf)
      · rw [if_neg hcut]
        obtain ⟨hord, htotal, hfrom⟩ := ih (meat - next.data.length) hrest
        refine ⟨hord, ?_, fun f hf => ?_⟩
        · rw [htotal, List.map_cons, total_cons]
          omega
        · rcases hfrom f hf with hmem | ⟨g, hg, i, heq⟩
          · exact .inl (List.mem_cons_of_mem next hmem)
          · exact .inr ⟨g, List.mem_cons_of_mem next hg, i, heq⟩
    · rw [if_neg hover]
      exact ⟨⟨not_lt.mp hover, hne, hrest⟩, rfl, fun f hf => .inl hf⟩

/-- What is left of a fragment begins behind the one before it, and is not empty. -/
theorem cutFront_spec {before : List Frag} {f' : Frag} (hend : f.fin = fin) (hlt : f.start < fin)
    (h : cutFront before.getLast? fin f = some f') :
    reach 0 (before.map Frag.toSegment) ≤ f'.start ∧ f'.start < fin ∧ f'.fin = fin ∧
      (f' = f ∨ ∃ i, 0 < i ∧ f' = f.pull i) := by
  rw [reach_eq, List.getLast?_map]
  unfold cutFront at h
  cases hprev : before.getLast? with
  | none =>
    rw [hprev] at h
    cases h
    exact ⟨Nat.zero_le _, hlt, hend, .inl rfl⟩
  | some prev =>
    rw [hprev] at h
    dsimp only at h
    show prev.fin ≤ f'.start ∧ _
    by_cases hi : 0 < prev.fin - f.start
    · rw [if_pos hi] at h
      by_cases hall : fin ≤ f.start + (prev.fin - f.start)
      · rw [if_pos hall] at h
        cases h
      · rw [if_neg hall] at h
        cases h
        have hstart : (f.pull (prev.fin - f.start)).start = prev.fin := by
          show f.start + (prev.fin - f.start) = prev.fin
          omega
        have hlength : (f.pull (prev.fin - f.start)).data.length =
            f.data.length - (prev.fin - f.start) := List.length_drop
        have hf : f.fin = f.start + f.data.length := rfl
        refine ⟨hstart.ge, by omega, ?_, .inr ⟨_, hi, rfl⟩⟩
        rw [Segment.fin, hstart, hlength]
        omega
    · rw [if_neg hi] at h
      cases h
      exact ⟨by omega, hlt, hend, .inl rfl⟩

theorem pull_holds {n i : Nat} {b : BitVec 8} (h : (f.pull n).Holds i b) : f.Holds i b :=
  h.of_drop

theorem insertFrag_kept (h : Kept skbs qp) (hlt : f.start < fin) (hend : f.fin = fin)
    (hfin : fin ≤ qp.len) (hcarried : ∀ i b, f.Holds i b → ∃ skb ∈ skbs, skb.Carries i b)
    (hheader : f.hdr.length = f.ihl) : Kept skbs (insertFrag qp f fin) := by
  unfold insertFrag
  dsimp only
  have hsplit := List.takeWhile_append_dropWhile (p := fun g : Frag => decide (g.start < f.start))
    (l := qp.fragments)
  generalize hA : qp.fragments.takeWhile (fun g => decide (g.start < f.start)) = before
  generalize hB : qp.fragments.dropWhile (fun g => decide (g.start < f.start)) = behind
  rw [hA, hB] at hsplit
  cases hcut : cutFront before.getLast? fin f with
  | none => exact h
  | some f' =>
    obtain ⟨hreach, hstart, hend', hfrom⟩ := cutFront_spec hend hlt hcut
    have hord := h.ordered
    rw [← hsplit, List.map_append, ordered_append] at hord
    obtain ⟨hrest, htotal, hbehind⟩ := eat_spec qp.meat hord.2 hfin
    have hne : f'.data ≠ [] := by
      apply List.ne_nil_of_length_pos
      rw [Segment.fin] at hend'
      omega
    have hmem : ∀ g ∈ before ++ behind, g ∈ qp.fragments := fun g hg => hsplit ▸ hg
    constructor
    case ordered =>
      rw [List.map_append, List.map_cons, ordered_append]
      refine ⟨hord.1, hreach, hne, ?_⟩
      rw [hend']
      exact hrest
    case meat =>
      have hmeat := h.meat
      rw [← hsplit, List.map_append, total_append] at hmeat
      rw [List.map_append, List.map_cons, total_append, total_cons]
      push_cast at hmeat ⊢
      omega
    case carried =>
      intro g hg i b hb
      rcases List.mem_append.mp hg with hg | hg
      · exact h.carried g (hmem g (List.mem_append_left _ hg)) i b hb
      rcases List.mem_cons.mp hg with rfl | hg
      · rcases hfrom with rfl | ⟨n, -, rfl⟩
        · exact hcarried i b hb
        · exact hcarried i b (pull_holds hb)
      · rcases hbehind g hg with hg | ⟨g', hg', n, rfl, -⟩
        · exact h.carried g (hmem g (List.mem_append_right _ hg)) i b hb
        · exact h.carried g' (hmem g' (List.mem_append_right _ hg')) i b (pull_holds hb)
    case header =>
      -- what was pulled once more does not begin at 0
      intro g hg hzero
      rcases List.mem_append.mp hg with hg | hg
      · exact h.header g (hmem g (List.mem_append_left _ hg)) hzero
      rcases List.mem_cons.mp hg with rfl | hg
      · rcases hfrom with rfl | ⟨n, hn, rfl⟩
        · exact hheader
        · exact absurd (show f.start + n = 0 from hzero) (by omega)
      · rcases hbehind g hg with hg | ⟨g', hg', n, rfl, hstart'⟩
        · exact h.header g (hmem g (List.mem_append_right _ hg)) hzero
        · omega
    case first => exact fun _ => by simp

theorem place_kept (h : Kept skbs qp) (hskb : skb ∈ skbs) (hle : skb.offset ≤ fin)
    (hfin : fin ≤ qp.len) (hbytes : fin ≤ skb.offset + skb.bytes.length - skb.ihl) :
    Kept skbs (place qp skb fin) := by
  unfold place
  by_cases hempty : fin = skb.offset
  · rw [if_pos hempty]
    exact h
  · rw [if_neg hempty]
    have hihl := skb.ihl_le
    have hlength : (skb.toFrag fin).data.length = fin - skb.offset := by
      show ((skb.bytes.drop skb.ihl).take (fin - skb.offset)).length = _
      rw [List.length_take, List.length_drop]
      omega
    refine insertFrag_kept h (lt_of_le_of_ne hle (Ne.symm hempty)) ?_ hfin ?_ ?_
    · show skb.offset + _ = fin
      omega
    · exact fun i b hb => ⟨skb, hskb, hb.of_take (n := fin - skb.offset)⟩
    · exact List.length_take_of_le hihl

theorem ipFragQueue_kept (h : Kept skbs qp) (hskb : skb ∈ skbs) :
    Kept skbs (ipFragQueue qp skb) := by
  have hihl := skb.ihl_le
  have hoffset : skb.offset % 8 = 0 := by
    rw [SkBuff.offset, Nat.shiftLeft_eq]
    omega
  unfold ipFragQueue
  dsimp only
  split
  · exact h
  split
  · split
    · exact h
    case isFalse hend =>
      exact place_kept (h.grow true (by omega)) hskb (by omega) (le_rfl) (le_rfl)
  · split
    · split
      · exact h
      case isTrue.isFalse hend _ =>
        exact place_kept (h.grow qp.lastIn (by omega)) hskb (by omega) (le_rfl)
          (by omega)
    case isFalse hend => exact place_kept h hskb (by omega) (by omega) (by omega)

end

/-! ## The queues of all datagrams -/

/-- Every queue is what the fragments of its own datagram make. -/
def AllKept (skbs : Key → List SkBuff) (s : Queues) : Prop :=
  ∀ key qp, s key = some qp → Kept (skbs key) qp

section
variable {skbs : Key → List SkBuff} {s s' : Queues} {oom nomem : Bool} {skb : SkBuff}

theorem AllKept.remove (h : AllKept skbs s) (key : Key) :
    AllKept skbs (update s key none) := by
  intro key' qp hqp
  rcases eq_of_update hqp with ⟨-, hqp⟩ | ⟨-, hqp⟩
  · cases hqp
  · exact h key' qp hqp

theorem AllKept.replace {key : Key} {qp : Ipq} (h : AllKept skbs s) (hqp : Kept (skbs key) qp) :
    AllKept skbs (update s key (some qp)) := by
  intro key' qp' hqp'
  rcases eq_of_update hqp' with ⟨rfl, ⟨⟩⟩ | ⟨-, hqp'⟩
  · exact hqp
  · exact h key' qp' hqp'

/-- The queue that the fragment is put into, with the fragment. -/
def queued (s : Queues) (skb : SkBuff) : Ipq := ipFragQueue ((s skb.key).getD Ipq.new) skb

theorem queued_kept (h : AllKept skbs s) (skb : SkBuff) (hskb : skb ∈ skbs skb.key) :
    Kept (skbs skb.key) (queued s skb) := by
  refine ipFragQueue_kept ?_ hskb
  cases hqp : s skb.key with
  | none => exact kept_new _
  | some qp => exact h _ qp hqp

theorem ipDefrag_cases (oom nomem : Bool) (skb : SkBuff) (s : Queues) :
    ipDefrag oom nomem skb s = (none, s) ∨
    ipDefrag oom nomem skb s = (none, update s skb.key (some (queued s skb))) ∨
    ipDefrag oom nomem skb s =
        (ipFragReasm nomem (queued s skb), update s skb.key none) ∧
      (queued s skb).firstIn = true ∧ (queued s skb).meat = (queued s skb).len := by
  unfold ipDefrag
  by_cases hoom : ((s skb.key).isNone && oom) = true
  · rw [if_pos hoom]
    exact .inl rfl
  · rw [if_neg hoom]
    dsimp only
    split
    case isTrue hfull => exact .inr (.inr ⟨rfl, hfull.1, hfull.2.2.2⟩)
    case isFalse => exact .inr (.inl rfl)

theorem step_kept {e : Event} (h : AllKept skbs s) (hstep : Step s e s') :
    AllKept (fun key => skbs key ++ received key [e]) s' := by
  have hmono : AllKept (fun key => skbs key ++ received key [e]) s :=
    fun key qp hqp => (h key qp hqp).mono (List.subset_append_left _ _)
  cases e with
  | kill key =>
    cases hstep
    exact hmono.remove key
  | defrag oom nomem skb =>
    cases hstep
    have hskb : skb ∈ skbs skb.key ++ received skb.key [.defrag oom nomem skb] := by
      simp [received]
    rcases ipDefrag_cases oom nomem skb s with heq | heq | ⟨heq, -⟩
    · rw [heq]
      exact hmono
    · rw [heq]
      exact hmono.replace (queued_kept hmono skb hskb)
    · rw [heq]
      exact hmono.remove skb.key

theorem run_kept {es : List Event} (h : Run Step s es s') (hs : AllKept skbs s) :
    AllKept (fun key => skbs key ++ received key es) s' := by
  induction h generalizing skbs with
  | nil => simpa [received] using hs
  | @cons _ _ _ e es hstep _ ih =>
    have hrest := ih (step_kept hs hstep)
    have hsplit : ∀ key, received key [e] ++ received key es = received key (e :: es) :=
      fun key => (received_append key [e] es).symm
    simpa only [List.append_assoc, hsplit] using hrest

/-- A queue whose `meat` is its `len` begins at 0 and has no gap. -/
theorem Kept.tiles {skbs : List SkBuff} {qp : Ipq} (h : Kept skbs qp) (hmeat : qp.meat = qp.len) :
    Tiles 0 (qp.fragments.map Frag.toSegment) qp.len := by
  refine h.ordered.tiles ?_
  have := h.meat
  omega

/-- What is delivered: the data of the fragments behind the header of the first one. -/
theorem ipFragReasm_payload {skbs : List SkBuff} {qp : Ipq} {d : Datagram} (h : Kept skbs qp)
    (hmeat : qp.meat = qp.len) (hd : ipFragReasm nomem qp = some d) :
    d.payload = content (qp.fragments.map Frag.toSegment) := by
  have htiles := h.tiles hmeat
  have hheader := h.header
  unfold ipFragReasm at hd
  cases hfrags : qp.fragments with
  | nil =>
    rw [hfrags] at hd
    cases hd
  | cons head rest =>
    rw [hfrags] at hd htiles hheader
    dsimp only at hd
    split at hd
    · cases hd
    · cases hd
      have hlength := hheader head List.mem_cons_self htiles.1
      rw [Datagram.payload, List.append_assoc, List.drop_append, hlength]
      simp [content, List.flatMap_map, ← hlength]

end

/-- In every run each queue is ordered, without overlaps, inside its length, and `meat` counts
its bytes. A datagram is delivered as long as its queue says, the fragments follow each other
without a gap, and each byte is one that a fragment had there. -/
theorem datagram_exact {es : List Event} {s : Queues} (h : Run Step Queues.empty es s) :
    (∀ key qp, s key = some qp →
      Ordered 0 (qp.fragments.map Frag.toSegment) qp.len ∧
        qp.meat = total (qp.fragments.map Frag.toSegment)) ∧
    ∀ oom nomem skb d, (ipDefrag oom nomem skb s).1 = some d →
      d.payload.length = (queued s skb).len ∧
      Tiles 0 ((queued s skb).fragments.map Frag.toSegment) (queued s skb).len ∧
      d.payload = content ((queued s skb).fragments.map Frag.toSegment) ∧
      ∀ i b, d.payload[i]? = some b →
        ∃ skb' ∈ received skb.key (es ++ [.defrag oom nomem skb]), skb'.Carries i b := by
  have hempty : AllKept (fun _ => []) Queues.empty := fun key qp hqp => by cases hqp
  have hkept : AllKept (fun key => received key es) s := run_kept h hempty
  refine ⟨fun key qp hqp => ⟨(hkept key qp hqp).ordered, (hkept key qp hqp).meat⟩, ?_⟩
  intro oom nomem skb d hd
  have hmono : AllKept (fun key => received key (es ++ [.defrag oom nomem skb])) s := by
    intro key qp hqp
    refine (hkept key qp hqp).mono ?_
    dsimp only
    rw [received_append]
    exact List.subset_append_left _ _
  have hq := queued_kept hmono skb (by simp [received])
  rcases ipDefrag_cases oom nomem skb s with heq | heq | ⟨heq, -, hmeat⟩
  · rw [heq] at hd
    cases hd
  · rw [heq] at hd
    cases hd
  · rw [heq] at hd
    have htiles := hq.tiles hmeat
    have hpayload := ipFragReasm_payload hq hmeat hd
    have hlength := htiles.length_content
    refine ⟨by rw [hpayload]; omega, htiles, hpayload, fun i b hb => ?_⟩
    rw [hpayload] at hb
    obtain ⟨f, hf, hholds⟩ := htiles.content_holds hb
    obtain ⟨g, hg, rfl⟩ := List.mem_map.mp hf
    rw [Nat.zero_add] at hholds
    exact hq.carried g hg i b hholds

/-- A fragment with a header of one byte. -/
def shortFrag (fragOff : BitVec 16) (data : List (BitVec 8)) : SkBuff :=
  ⟨⟨1, 2, 3, 17⟩, fragOff, 1, 0x45 :: data, by simp⟩

/-- The last fragment of 9 bytes, from 8 on. -/
def lastFrag : SkBuff := shortFrag 0x0001 [90, 91, 92, 93, 94, 95, 96, 97, 98]

/-- The first fragment goes over all but one of them. -/
def firstFrag : SkBuff := shortFrag 0x2000 [1, 2, 3, 4, 5, 6, 7, 8, 9, 10, 11, 12, 13, 14, 15, 16]

def lastQueued : Queues := (ipDefrag false false lastFrag Queues.empty).2

theorem datagram_exact_overlap :
    ∃ d, (ipDefrag false false firstFrag lastQueued).1 = some d ∧
      d.payload = [1, 2, 3, 4, 5, 6, 7, 8, 9, 10, 11, 12, 13, 14, 15, 16, 98] ∧
      d.payload.length = (queued lastQueued firstFrag).len := by
  have hstep : Step Queues.empty (.defrag false false lastFrag) lastQueued := rfl
  have hrun : Run Step Queues.empty [.defrag false false lastFrag] lastQueued :=
    .cons hstep (.nil _)
  obtain ⟨d, hd⟩ : ∃ d, (ipDefrag false false firstFrag lastQueued).1 = some d := ⟨_, rfl⟩
  refine ⟨d, hd, ?_, ((datagram_exact hrun).2 false false firstFrag d hd).1⟩
  cases hd
  decide

end CustomKernel.Net.Fragment

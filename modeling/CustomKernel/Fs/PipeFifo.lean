import Mathlib.Data.List.Basic
import Mathlib.Tactic.Linarith
import CustomKernel.Fs.Pipe

/-! # A pipe is a queue of bytes

Each section moves bytes from the caller to the end of the ring, or from its front to the caller.
What a call has moved is what it reports, and a write that fits into the pipe at once moves
everything in one section. -/
namespace CustomKernel.Fs.Pipe
open Lib Lib.Transition Function

variable {α : Type}

/-! ## The ring -/

structure PipeInode.Bounded (p : PipeInode α) : Prop where
  start_lt : p.start < pipeSize
  len_le : p.len ≤ pipeSize

theorem pipeSize_pos : 0 < pipeSize := by decide

theorem mask_eq (x : Nat) : x &&& (pipeSize - 1) = x % pipeSize :=
  Nat.and_two_pow_sub_one_eq_mod x 12

theorem mask_slot {start i : Nat} (hstart : start < pipeSize) (hi : i ≤ pipeSize) :
    ((start + i) &&& (pipeSize - 1) : Nat) = Ring.slot pipeSize start i := by
  rw [mask_eq, Ring.slot]
  have hsize : pipeSize = 4096 := rfl
  rw [hsize] at hstart hi ⊢
  split <;> omega

section
variable {p : PipeInode α}

theorem take_spec (chars : Nat) (h : p.Bounded) (hlen : chars ≤ p.len)
    (hwrap : chars ≤ p.maxRchunk) :
    (p.take chars).Bounded ∧
      p.content = Ring.readFrom p.base p.start chars ++ (p.take chars).content := by
  have hstart := h.start_lt
  have hle := h.len_le
  have hmax : p.maxRchunk = pipeSize - p.start := rfl
  constructor
  · refine ⟨?_, le_trans (Nat.sub_le _ _) hle⟩
    show (p.start + chars) &&& (pipeSize - 1) < pipeSize
    rw [mask_eq]
    exact Nat.mod_lt _ pipeSize_pos
  · have hnew : ((p.take chars).start : Int) = Ring.slot pipeSize p.start chars :=
      mask_slot hstart (hlen.trans hle)
    have hread : Ring.readFrom p.base p.start chars = p.content.take chars := by
      rw [PipeInode.content, Ring.window_take hlen]
      exact Ring.readFrom_eq_window (by omega)
    have hrest : (p.take chars).content = p.content.drop chars := by
      rw [PipeInode.content, PipeInode.content, hnew,
        Ring.window_drop (by exact_mod_cast hstart) hlen (by exact_mod_cast hle)]
      rfl
    rw [hread, hrest, List.take_append_drop]

theorem put_spec (xs : List α) (h : p.Bounded) (hfree : xs.length ≤ p.free)
    (hwrap : xs.length ≤ p.maxWchunk) :
    (p.put xs).Bounded ∧ (p.put xs).content = p.content ++ xs := by
  have hstart := h.start_lt
  have hle := h.len_le
  have hfin : (p.fin : Int) = Ring.slot pipeSize p.start p.len := mask_slot hstart hle
  have hmax : p.maxWchunk = pipeSize - p.fin := rfl
  have hroom : p.free = pipeSize - p.len := rfl
  constructor
  · refine ⟨hstart, ?_⟩
    show p.len + xs.length ≤ pipeSize
    omega
  · show Ring.window pipeSize p.start (Ring.writeFrom p.base p.fin xs) (p.len + xs.length) = _
    have hlt : p.fin < pipeSize := by
      show (p.start + p.len) &&& (pipeSize - 1) < pipeSize
      rw [mask_eq]
      exact Nat.mod_lt _ pipeSize_pos
    rw [hfin]
    exact Ring.window_writeFrom (by omega) (by exact_mod_cast hstart) (by omega) (by omega)

theorem settle_spec (h : p.Bounded) :
    p.settle.Bounded ∧ p.settle.content = p.content := by
  unfold PipeInode.settle
  split
  case isTrue hzero =>
    refine ⟨⟨pipeSize_pos, h.len_le⟩, ?_⟩
    simp [PipeInode.content, hzero]
  case isFalse => exact ⟨h, rfl⟩

/-! ## The loops -/

/-- What the loop takes out comes from the front, in chunks that are not empty. -/
theorem readLoop_spec (fuel : Nat) (fault : Option Nat) (count : Nat) (h : p.Bounded) :
    (readLoop fuel fault count p).2.2.1.Bounded ∧
      p.content = (readLoop fuel fault count p).1.flatten ++
        (readLoop fuel fault count p).2.2.1.content ∧
      ∀ xs ∈ (readLoop fuel fault count p).1, xs ≠ [] := by
  induction fuel generalizing fault count p with
  | zero => exact ⟨h, rfl, by simp [readLoop]⟩
  | succ fuel ih =>
    rw [readLoop]
    by_cases hmore : 0 < count ∧ p.len ≠ 0
    · rw [if_pos hmore]
      by_cases hfault : fault = some 0
      · rw [if_pos hfault]
        exact ⟨h, rfl, by simp⟩
      · rw [if_neg hfault]
        have hstart := h.start_lt
        have hmax : p.maxRchunk = pipeSize - p.start := rfl
        obtain ⟨hbound, hcontent⟩ := take_spec (min (min p.maxRchunk count) p.len) h
          (by omega) (by omega)
        obtain ⟨hbound', hcontent', hne⟩ := ih (fault.map (· - 1))
          (count - min (min p.maxRchunk count) p.len) hbound
        refine ⟨hbound', ?_, List.forall_mem_cons.mpr ⟨?_, hne⟩⟩
        · rw [hcontent, hcontent', List.flatten_cons, List.append_assoc]
        · apply List.ne_nil_of_length_pos
          rw [Ring.readFrom, List.length_map, List.length_range]
          omega
    · rw [if_neg hmore]
      exact ⟨h, rfl, by simp⟩

/-- What the loop puts in goes to the end, in chunks that are not empty, and is what was before
the rest. It only stops for room when there is not enough of it. -/
theorem writeLoop_spec (fuel : Nat) (fault : Option Nat) (rest : List α) (h : p.Bounded)
    (hfuel : rest.length ≤ fuel) :
    (writeLoop fuel fault rest p).2.2.1.Bounded ∧
      (writeLoop fuel fault rest p).2.2.1.content =
        p.content ++ (writeLoop fuel fault rest p).1.flatten ∧
      (∀ xs ∈ (writeLoop fuel fault rest p).1, xs ≠ []) ∧
      rest = (writeLoop fuel fault rest p).1.flatten ++ (writeLoop fuel fault rest p).2.1 ∧
      (rest.length ≤ p.free → (writeLoop fuel fault rest p).2.2.2 ≠ .full) := by
  induction fuel generalizing fault rest p with
  | zero => exact ⟨h, by simp [writeLoop], by simp [writeLoop], rfl, fun _ => by simp [writeLoop]⟩
  | succ fuel ih =>
    rw [writeLoop]
    by_cases hnil : rest = []
    · rw [if_pos hnil]
      exact ⟨h, by simp, by simp, rfl, by simp⟩
    rw [if_neg hnil]
    have hpos := List.length_pos_of_ne_nil hnil
    by_cases hfull : p.free = 0
    · rw [if_pos hfull]
      exact ⟨h, by simp, by simp, rfl, fun hroom => absurd hroom (by omega)⟩
    rw [if_neg hfull]
    by_cases hfault : fault = some 0
    · rw [if_pos hfault]
      exact ⟨h, by simp, by simp, rfl, by simp⟩
    rw [if_neg hfault]
    have hfin : p.fin < pipeSize := by
      show (p.start + p.len) &&& (pipeSize - 1) < pipeSize
      rw [mask_eq]
      exact Nat.mod_lt _ pipeSize_pos
    have hmax : p.maxWchunk = pipeSize - p.fin := rfl
    generalize hchars : min (min p.maxWchunk rest.length) p.free = chars
    have htake : (rest.take chars).length = chars := List.length_take_of_le (by omega)
    obtain ⟨hbound, hcontent⟩ := put_spec (rest.take chars) h (by omega) (by omega)
    have hfree : (p.put (rest.take chars)).free = p.free - chars := by
      show pipeSize - (p.len + (rest.take chars).length) = pipeSize - p.len - chars
      omega
    have hdrop : (rest.drop chars).length = rest.length - chars := List.length_drop
    obtain ⟨hbound', hcontent', hne, hrest, hstop⟩ := ih (fault.map (· - 1))
      (rest.drop chars) hbound (by omega)
    refine ⟨hbound', ?_, List.forall_mem_cons.mpr ⟨?_, hne⟩, ?_, fun hroom => hstop (by omega)⟩
    · rw [hcontent', hcontent, List.flatten_cons, List.append_assoc]
    · exact List.ne_nil_of_length_pos (by omega)
    · rw [List.flatten_cons, List.append_assoc, ← hrest, List.take_append_drop]

end

/-! ## Calls -/

/-- What a call has got so far. -/
def Call.got : Call α → List α
  | .readWait _ got => got
  | .readDone got _ => got
  | _ => []

/-- What it has written so far. -/
def Call.written : Call α → List α
  | .writeMore written _ => written
  | .writeDone _ written _ => written
  | _ => []

/-- What it is to write. -/
def Call.data : Call α → List α
  | .writeStart _ data => data
  | .writeRoom data => data
  | .writeMore written rest => written ++ rest
  | .writeDone data _ _ => data
  | _ => []

/-- The return value is the number of bytes that were moved, or else no positive number. -/
def Reported (moved : List α) (ret : BitVec 32) : Prop := ∃ e ≤ 0, ret = report moved.length e

/-- Only a long write sleeps with a part of it written, and what is returned is right. -/
def Call.Fine : Call α → Prop
  | .readDone got ret => Reported got ret
  | .writeMore written rest => pipeBuf < (written ++ rest).length
  | .writeDone data written ret => written <+: data ∧ Reported written ret
  | _ => True

theorem reported_error (moved : List α) {e : Int} (he : e ≤ 0) :
    Reported moved (report moved.length e) := ⟨e, he, rfl⟩

theorem reported_length (moved : List α) :
    Reported moved (report moved.length moved.length) := by
  refine ⟨0, le_refl 0, ?_⟩
  unfold report
  split
  case isTrue hzero => rw [hzero]; rfl
  case isFalse => rfl

/-- What a section of a call does to the pipe and to the call. -/
structure Sound (p : PipeInode α) (c : Call α) (r : Section α) : Prop where
  bounded : r.pipe.Bounded
  moved : p.content ++ r.puts.flatten = r.took.flatten ++ r.pipe.content
  took_ne : ∀ xs ∈ r.took, xs ≠ []
  puts_ne : ∀ xs ∈ r.puts, xs ≠ []
  got : r.call.got = c.got ++ r.took.flatten
  written : r.call.written = c.written ++ r.puts.flatten
  data : r.call.data = c.data
  fine : r.call.Fine

/-! ### Reading -/

section
variable {p p' : PipeInode α} {c : Call α} {took : List (List α)} {got : List α} {count : Nat}
variable {env : Env}

/-- A reader on its way: what it has taken since it got the semaphore. -/
structure Taking (p : PipeInode α) (c : Call α) (p' : PipeInode α) (took : List (List α))
    (got : List α) : Prop where
  bounded : p'.Bounded
  moved : p.content = took.flatten ++ p'.content
  took_ne : ∀ xs ∈ took, xs ≠ []
  got : got = c.got ++ took.flatten
  written : c.written = []
  data : c.data = []

theorem Taking.sound (h : Taking p c p' took got) {call : Call α} {q : PipeInode α}
    (hq : q.Bounded) (hcontent : q.content = p'.content) (hgot : call.got = got)
    (hwritten : call.written = []) (hdata : call.data = []) (hfine : call.Fine) :
    Sound p c ⟨q, took, [], call⟩ where
  bounded := hq
  moved := by rw [List.flatten_nil, List.append_nil, hcontent, h.moved]
  took_ne := h.took_ne
  puts_ne := by simp
  got := by rw [hgot, h.got]
  written := by simp [hwritten, h.written]
  data := by rw [hdata, h.data]
  fine := hfine

theorem readReturn_sound (h : Taking p c p' took got) {ret : Int} (hret : ret ≤ 0) :
    Sound p c (readReturn p' took got ret) :=
  h.sound h.bounded rfl rfl rfl rfl (reported_error got hret)

theorem readSleep_sound (h : Taking p c p' took got) (count : Nat) :
    Sound p c (readSleep p' took count got) :=
  h.sound ⟨h.bounded.1, h.bounded.2⟩ rfl rfl rfl rfl trivial

theorem doMoreRead_sound (h : Taking p c p' took got) (env : Env) (count : Nat) :
    Sound p c (doMoreRead env p' took count got) := by
  unfold doMoreRead
  split
  · exact readReturn_sound h (le_refl 0)
  · split
    · exact readReturn_sound h (by decide)
    · exact readSleep_sound h count

theorem readData_sound (h : Taking p c p' [] got) (env : Env) (count : Nat) :
    Sound p c (readData env p' count got) := by
  obtain ⟨hbound, hcontent, hne⟩ := readLoop_spec count env.fault count h.bounded
  unfold readData
  generalize readLoop count env.fault count p' = r at hbound hcontent hne
  obtain ⟨took, left, q, stop⟩ := r
  have hgot : got = c.got := by simpa using h.got
  have htaking : Taking p c q took (got ++ took.flatten) :=
    ⟨hbound, by rw [← hcontent, h.moved]; rfl, hne, by rw [hgot], h.written, h.data⟩
  have hsettled : Taking p c q.settle took (got ++ took.flatten) :=
    { htaking with
      bounded := (settle_spec hbound).1
      moved := by rw [htaking.moved, (settle_spec hbound).2] }
  cases stop with
  | fault => exact readReturn_sound htaking (by decide)
  | finished | full =>
    dsimp only
    split
    · exact doMoreRead_sound hsettled env left
    · exact hsettled.sound hsettled.bounded rfl rfl rfl rfl (reported_length _)

theorem taking_nil (hcontent : p'.content = p.content) (hp' : p'.Bounded)
    (hwritten : c.written = []) (hdata : c.data = []) : Taking p c p' [] c.got :=
  ⟨hp', by rw [hcontent]; rfl, by simp, by simp, hwritten, hdata⟩

theorem readEnter_sound (h : p.Bounded) (env : Env) (seek : Bool) (count : Nat) :
    Sound p (.readStart seek count) (readEnter env p seek count) := by
  have htaking : Taking p (.readStart seek count) p [] [] := taking_nil rfl h rfl rfl
  unfold readEnter
  split
  · exact readReturn_sound htaking (by decide)
  split
  · exact readReturn_sound htaking (le_refl 0)
  split
  · exact readReturn_sound htaking (by decide)
  split
  · exact doMoreRead_sound htaking env count
  · exact readData_sound htaking env count

theorem readWake_sound (h : p.Bounded) (env : Env) (count : Nat) (got : List α) :
    Sound p (.readWait count got) (readWake env p count got) := by
  have htaking : Taking p (.readWait count got)
      { p with waitingReaders := p.waitingReaders - 1 } [] got :=
    taking_nil rfl ⟨h.1, h.2⟩ rfl rfl
  unfold readWake
  dsimp only
  split
  · exact readReturn_sound htaking (by decide)
  split
  · exact readData_sound htaking env count
  split
  · exact readReturn_sound htaking (le_refl 0)
  · exact readSleep_sound htaking count

end

/-! ### Writing -/

section
variable {p p' : PipeInode α} {c : Call α} {data written rest : List α} {env : Env}

theorem writeReturn_sound {ret : Int} (hcontent : p'.content = p.content) (hp' : p'.Bounded)
    (hgot : c.got = []) (hwritten : c.written = written) (hdata : c.data = data)
    (hpre : written <+: data) (hret : Reported written (report written.length ret)) :
    Sound p c (writeReturn p' [] data written ret) where
  bounded := hp'
  moved := by simp [writeReturn, hcontent]
  took_ne := by simp [writeReturn]
  puts_ne := by simp [writeReturn]
  got := by rw [hgot]; rfl
  written := by rw [hwritten]; exact (List.append_nil written).symm
  data := hdata.symm
  fine := ⟨hpre, hret⟩

theorem writeSleep_sound (c call : Call α) (hcontent : p'.content = p.content) (hp' : p'.Bounded)
    (hgot : call.got = c.got) (hwritten : call.written = c.written)
    (hdata : call.data = c.data) (hfine : call.Fine) : Sound p c (writeSleep p' [] call) where
  bounded := ⟨hp'.1, hp'.2⟩
  moved := by
    show p.content ++ [] = p'.content
    rw [List.append_nil, hcontent]
  took_ne := by simp [writeSleep]
  puts_ne := by simp [writeSleep]
  got := by simp [writeSleep, hgot]
  written := by simp [writeSleep, hwritten]
  data := hdata
  fine := hfine

/-- There is room for a short write before its loop begins, and it does not sleep in it. -/
theorem writeData_sound (c : Call α) (written rest : List α)
    (hcontent : p'.content = p.content) (hp' : p'.Bounded)
    (hgot : c.got = []) (hwritten : c.written = written) (hdata : c.data = written ++ rest)
    (hroom : (written ++ rest).length ≤ pipeBuf → rest.length ≤ p'.free) (env : Env) :
    Sound p c (writeData env p' written rest) := by
  obtain ⟨hbound, hmoved, hne, hrest, hstop⟩ :=
    writeLoop_spec rest.length env.fault rest hp' (le_refl rest.length)
  unfold writeData
  generalize writeLoop rest.length env.fault rest p' = r at hbound hmoved hne hrest hstop
  obtain ⟨puts, left, q, stop⟩ := r
  have hpre : written ++ puts.flatten <+: written ++ rest := ⟨left, by rw [List.append_assoc, ← hrest]⟩
  have hall : p.content ++ puts.flatten = q.content := by rw [hmoved, hcontent]
  have hreturn : ∀ ret, Reported (written ++ puts.flatten)
      (report (written ++ puts.flatten).length ret) →
      Sound p c (writeReturn q puts (written ++ rest) (written ++ puts.flatten) ret) :=
    fun ret hret => ⟨hbound, hall, by simp [writeReturn], hne, by rw [hgot]; rfl,
      by rw [hwritten]; rfl, hdata.symm, ⟨hpre, hret⟩⟩
  cases stop with
  | finished | fault => exact hreturn _ (reported_error _ (by decide))
  | full =>
    dsimp only
    split
    · exact hreturn _ (reported_length _)
    · have hsplit : written ++ puts.flatten ++ left = written ++ rest := by
        rw [List.append_assoc, ← hrest]
      refine ⟨⟨hbound.1, hbound.2⟩, hall, by simp [writeSleep], hne,
        by rw [hgot]; rfl, by rw [hwritten]; rfl, hsplit.trans hdata.symm, ?_⟩
      show pipeBuf < (written ++ puts.flatten ++ left).length
      rw [hsplit]
      by_contra hshort
      exact hstop (hroom (not_lt.mp hshort)) rfl

theorem roomFor_short (h : ¬ p.free < roomFor data) (hshort : data.length ≤ pipeBuf) :
    data.length ≤ p.free := by
  rw [roomFor, if_pos hshort] at h
  exact not_lt.mp h

theorem writeEnter_sound (h : p.Bounded) (env : Env) (seek : Bool) (data : List α) :
    Sound p (.writeStart seek data) (writeEnter env p seek data) := by
  have hreturn : ∀ ret : Int, ret ≤ 0 →
      Sound p (.writeStart seek data) (writeReturn p [] data [] ret) :=
    fun ret hret => writeReturn_sound rfl h rfl rfl rfl List.nil_prefix (reported_error [] hret)
  unfold writeEnter
  split
  · exact hreturn _ (by decide)
  split
  · exact hreturn _ (le_refl 0)
  split
  · exact hreturn _ (by decide)
  split
  · exact hreturn _ (by decide)
  split
  · split
    · exact hreturn _ (by decide)
    · exact writeSleep_sound _ (.writeRoom data) rfl h rfl rfl rfl trivial
  case isFalse hfree =>
    exact writeData_sound (.writeStart seek data) [] data rfl h rfl rfl rfl (roomFor_short hfree) env

theorem writeRoomWake_sound (h : p.Bounded) (env : Env) (data : List α) :
    Sound p (.writeRoom data) (writeRoomWake env p data) := by
  have hp' : { p with waitingWriters := p.waitingWriters - 1 }.Bounded := ⟨h.1, h.2⟩
  have hcontent : { p with waitingWriters := p.waitingWriters - 1 }.content = p.content := rfl
  unfold writeRoomWake
  dsimp only
  split
  · exact writeReturn_sound hcontent hp' rfl rfl rfl List.nil_prefix (reported_error [] (by decide))
  split
  · exact writeReturn_sound hcontent hp' rfl rfl rfl List.nil_prefix (reported_error [] (by decide))
  split
  · exact writeSleep_sound _ (.writeRoom data) hcontent hp' rfl rfl rfl trivial
  case isFalse hfree =>
    exact writeData_sound (.writeRoom data) [] data hcontent hp' rfl rfl rfl (roomFor_short hfree) env

theorem writeMoreWake_sound (h : p.Bounded) (env : Env) (hlong : pipeBuf < (written ++ rest).length) :
    Sound p (.writeMore written rest) (writeMoreWake env p written rest) := by
  have hp' : { p with waitingWriters := p.waitingWriters - 1 }.Bounded := ⟨h.1, h.2⟩
  have hcontent : { p with waitingWriters := p.waitingWriters - 1 }.content = p.content := rfl
  unfold writeMoreWake
  dsimp only
  split
  · exact writeReturn_sound hcontent hp' rfl rfl rfl (List.prefix_append _ _) (reported_length _)
  split
  · exact writeReturn_sound hcontent hp' rfl rfl rfl (List.prefix_append _ _)
      (reported_error _ (by decide))
  split
  · exact writeSleep_sound _ (.writeMore written rest) hcontent hp' rfl rfl rfl hlong
  · exact writeData_sound (.writeMore written rest) written rest hcontent hp' rfl rfl rfl
      (fun hshort => absurd hlong (not_lt.mpr hshort)) env

theorem next_sound {r : Section α} (h : p.Bounded) (hc : c.Fine) (hr : c.next env p = some r) :
    Sound p c r := by
  cases c with
  | readStart seek count => cases hr; exact readEnter_sound h env seek count
  | readWait count got => cases hr; exact readWake_sound h env count got
  | writeStart seek data => cases hr; exact writeEnter_sound h env seek data
  | writeRoom data => cases hr; exact writeRoomWake_sound h env data
  | writeMore written rest => cases hr; exact writeMoreWake_sound h env hc
  | readDone | writeDone => cases hr

/-- A call that has not returned has not written a part of something short. -/
theorem next_short {r : Section α} (hc : c.Fine) (hr : c.next env p = some r)
    (hshort : c.data.length ≤ pipeBuf) : c.written = [] := by
  cases c with
  | writeMore written rest => exact absurd hc (not_lt.mpr hshort)
  | writeDone => cases hr
  | readStart | readWait | readDone | writeStart | writeRoom => rfl

end

/-! ## Logs -/

section
variable {log : List (Nat × List α)} {id id' : Nat} {chunks : List (List α)}

theorem stream_record (log : List (Nat × List α)) (id : Nat) (chunks : List (List α)) :
    stream (log ++ chunks.map (id, ·)) = stream log ++ chunks.flatten := by
  simp [stream, List.flatMap_def]

theorem streamOf_record_self (log : List (Nat × List α)) (id : Nat) (chunks : List (List α)) :
    streamOf id (log ++ chunks.map (id, ·)) = streamOf id log ++ chunks.flatten := by
  have hall : (chunks.map (id, ·)).filter (fun e => e.1 == id) = chunks.map (id, ·) := by
    simp
  rw [streamOf, List.filter_append, hall, stream_record]
  rfl

theorem streamOf_record_other (h : id' ≠ id) :
    streamOf id' (log ++ chunks.map (id, ·)) = streamOf id' log := by
  have hnone : (chunks.map (id, ·)).filter (fun e => e.1 == id') = [] := by
    simp [h.symm]
  rw [streamOf, List.filter_append, hnone, List.append_nil]
  rfl

/-- A call with no bytes in a log of chunks that are not empty is not in it. -/
theorem absent_of_streamOf (hne : ∀ e ∈ log, e.2 ≠ []) (h : streamOf id log = []) :
    ∀ e ∈ log, e.1 ≠ id := by
  intro e he heq
  have hmem : e ∈ log.filter fun e => e.1 == id := List.mem_filter.mpr ⟨he, by simp [heq]⟩
  exact hne e he (List.flatMap_eq_nil_iff.mp h e hmem)

theorem contiguous_absent (h : ∀ e ∈ log, e.1 ≠ id) (chunks : List (List α)) :
    Contiguous id (log ++ chunks.map (id, ·)) :=
  ⟨log, chunks.map (id, ·), [], by simp, by simp, by simpa using h⟩

theorem Contiguous.record_other (h : Contiguous id' log) (hne : id' ≠ id)
    (chunks : List (List α)) : Contiguous id' (log ++ chunks.map (id, ·)) := by
  obtain ⟨before, block, behind, rfl, hblock, hother⟩ := h
  refine ⟨before, block, behind ++ chunks.map (id, ·), by simp, hblock, ?_⟩
  rw [← List.append_assoc]
  intro e he
  rcases List.mem_append.mp he with he | he
  · exact hother e he
  · obtain ⟨xs, -, rfl⟩ := List.mem_map.mp he
    exact hne.symm

end

/-! ## Whole runs -/

/-- The log agrees with what the calls have moved, and the pipe holds the rest. -/
structure Good (s : State α) : Prop where
  bounded : s.pipe.Bounded
  fifo : stream s.taken ++ s.pipe.content = stream s.put
  put_ne : ∀ e ∈ s.put, e.2 ≠ []
  taken_calls : ∀ id, streamOf id s.taken = ((s.calls id).map Call.got).getD []
  put_calls : ∀ id, streamOf id s.put = ((s.calls id).map Call.written).getD []
  fine : ∀ id c, s.calls id = some c → c.Fine
  short : ∀ id c, s.calls id = some c → c.data.length ≤ pipeBuf → Contiguous id s.put

theorem good_new (base : Int → α) (readers writers : Nat) :
    Good (State.new base readers writers) where
  bounded := ⟨pipeSize_pos, Nat.zero_le _⟩
  fifo := rfl
  put_ne := by simp [State.new]
  taken_calls := fun _ => rfl
  put_calls := fun _ => rfl
  fine := fun _ _ h => by cases h
  short := fun _ _ h => by cases h

section
variable {s s' : State α} {id : Nat} {c : Call α} {r : Section α} {env : Env}

/-- A section is entered for a call that may have begun only now. -/
theorem Good.record (h : Good s) (hbounded : r.pipe.Bounded)
    (hmoved : s.pipe.content ++ r.puts.flatten = r.took.flatten ++ r.pipe.content)
    (hputs : ∀ xs ∈ r.puts, xs ≠ [])
    (hgot : r.call.got = ((s.calls id).map Call.got).getD [] ++ r.took.flatten)
    (hwritten : r.call.written = ((s.calls id).map Call.written).getD [] ++ r.puts.flatten)
    (hfine : r.call.Fine)
    (hshort : r.call.data.length ≤ pipeBuf → ((s.calls id).map Call.written).getD [] = []) :
    Good (s.record id r) := by
  have hcalls : ∀ id', id' ≠ id → (s.record id r).calls id' = s.calls id' :=
    fun id' hne => update_of_ne hne _ _
  have hself : (s.record id r).calls id = some r.call := update_self _ _ _
  constructor
  case bounded => exact hbounded
  case fifo =>
    show stream (s.taken ++ r.took.map (id, ·)) ++ r.pipe.content =
      stream (s.put ++ r.puts.map (id, ·))
    rw [stream_record, stream_record, List.append_assoc, ← hmoved, ← List.append_assoc,
      h.fifo]
  case put_ne =>
    intro e he
    rcases List.mem_append.mp he with he | he
    · exact h.put_ne e he
    · obtain ⟨xs, hxs, rfl⟩ := List.mem_map.mp he
      exact hputs xs hxs
  case taken_calls =>
    intro id'
    rcases eq_or_ne id' id with rfl | hne
    · rw [hself]
      refine (streamOf_record_self s.taken id' r.took).trans ?_
      rw [h.taken_calls id']
      exact hgot.symm
    · rw [hcalls id' hne]
      exact (streamOf_record_other hne).trans (h.taken_calls id')
  case put_calls =>
    intro id'
    rcases eq_or_ne id' id with rfl | hne
    · rw [hself]
      refine (streamOf_record_self s.put id' r.puts).trans ?_
      rw [h.put_calls id']
      exact hwritten.symm
    · rw [hcalls id' hne]
      exact (streamOf_record_other hne).trans (h.put_calls id')
  case fine =>
    intro id' c' hc'
    rcases eq_or_ne id' id with rfl | hne
    · rw [hself] at hc'
      cases hc'
      exact hfine
    · rw [hcalls id' hne] at hc'
      exact h.fine id' c' hc'
  case short =>
    intro id' c' hc' hlen
    rcases eq_or_ne id' id with rfl | hne
    · -- it has put nothing before, so that what it puts now is all there is
      rw [hself] at hc'
      cases hc'
      have hnone : streamOf id' s.put = [] := (h.put_calls id').trans (hshort hlen)
      exact contiguous_absent (absent_of_streamOf h.put_ne hnone) r.puts
    · rw [hcalls id' hne] at hc'
      exact (h.short id' c' hc' hlen).record_other hne r.puts

theorem call_good (h : Good s) (hid : s.calls id = none) (hgot : c.got = [])
    (hwritten : c.written = []) (hfine : c.Fine) : Good (s.call id c) := by
  have hrecord : Good (s.record id ⟨s.pipe, [], [], c⟩) := h.record h.bounded (by simp) (by simp)
    (by simp [hid, hgot]) (by simp [hid, hwritten]) hfine (by simp [hid])
  simpa [State.record, State.call] using hrecord

theorem record_good (h : Good s) (hc : s.calls id = some c) (hr : c.next env s.pipe = some r) :
    Good (s.record id r) := by
  have hsound := next_sound h.bounded (h.fine id c hc) hr
  refine h.record hsound.bounded hsound.moved hsound.puts_ne (by rw [hc]; exact hsound.got)
    (by rw [hc]; exact hsound.written) hsound.fine fun hshort => ?_
  rw [hc]
  exact next_short (h.fine id c hc) hr (hsound.data ▸ hshort)

theorem step_good {e : Event α} (h : Good s) (hstep : Step s e s') : Good s' := by
  cases e with
  | read id seek count =>
    obtain ⟨hid, rfl⟩ := hstep
    exact call_good h hid rfl rfl trivial
  | write id seek data =>
    obtain ⟨hid, rfl⟩ := hstep
    exact call_good h hid rfl rfl trivial
  | sect id env =>
    obtain ⟨c, r, hc, hr, rfl⟩ := hstep
    exact record_good h hc hr
  | ends readers writers =>
    cases hstep
    exact { h with bounded := ⟨h.bounded.1, h.bounded.2⟩ }

end

/-- In every interleaving the bytes that readers got, followed by those in the ring, are the
bytes that writers put, in the order in which they put them. What a call returns is what it
moved, and a write of at most `PIPE_BUF` bytes is in one piece. -/
theorem pipe_fifo {base : Int → α} {readers writers : Nat} {es : List (Event α)} {s : State α}
    (h : Run Step (State.new base readers writers) es s) :
    s.pipe.start < pipeSize ∧ s.pipe.len ≤ pipeSize ∧
    stream s.taken ++ s.pipe.content = stream s.put ∧
    (∀ id got ret, s.calls id = some (.readDone got ret) →
      streamOf id s.taken = got ∧ Reported got ret) ∧
    (∀ id data written ret, s.calls id = some (.writeDone data written ret) →
      streamOf id s.put = written ∧ written <+: data ∧ Reported written ret) ∧
    ∀ id c, s.calls id = some c → c.data.length ≤ pipeBuf → Contiguous id s.put := by
  have hgood : Good s := h.invariant (fun _ _ _ => step_good) (good_new base readers writers)
  refine ⟨hgood.bounded.start_lt, hgood.bounded.len_le, hgood.fifo, ?_, ?_, hgood.short⟩
  · intro id got ret hc
    refine ⟨?_, hgood.fine id _ hc⟩
    rw [hgood.taken_calls id, hc]
    rfl
  · intro id data written ret hc
    refine ⟨?_, hgood.fine id _ hc⟩
    rw [hgood.put_calls id, hc]
    rfl

/-- A section without a signal or a fault. -/
def quiet : Env := ⟨false, false, none⟩

/-- Three bytes are written. -/
def afterWrite : State Nat :=
  let s := (State.new (fun _ => 0) 1 1).call 0 (.writeStart false [7, 8, 9])
  s.record 0 (writeEnter quiet s.pipe false [7, 8, 9])

/-- Two of them are read. -/
def afterRead : State Nat :=
  let s := afterWrite.call 1 (.readStart false 2)
  s.record 1 (readEnter quiet s.pipe false 2)

theorem pipe_fifo_two_of_three :
    stream afterRead.taken = [7, 8] ∧ afterRead.pipe.content = [9] ∧
      stream afterRead.taken ++ afterRead.pipe.content = stream afterRead.put := by
  have hrun : Run Step (State.new (fun _ => 0) 1 1)
      [.write 0 false [7, 8, 9], .sect 0 quiet, .read 1 false 2, .sect 1 quiet] afterRead :=
    .cons ⟨rfl, rfl⟩ (.cons ⟨_, _, rfl, rfl, rfl⟩ (.cons ⟨rfl, rfl⟩
      (.cons ⟨_, _, rfl, rfl, rfl⟩ (.nil _))))
  exact ⟨by decide +kernel, by decide +kernel, (pipe_fifo hrun).2.2.1⟩

end CustomKernel.Fs.Pipe

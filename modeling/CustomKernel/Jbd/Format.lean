import Mathlib.Data.List.Forall2
import CustomKernel.Jbd.Recovery

/-! # The writer and the readers of the log agree

What each block that a commit makes says, in terms of the transaction, and what a turn of each pass
of the recovery makes of such a block. -/
namespace CustomKernel.Jbd.Format
open Lib.Tape Jbd.Commit Jbd.Recovery Function

/-! ## What the blocks say -/

/-- What one block that the journal makes stands for. -/
inductive Content
  | revokes (blocks : List Word)
  | buffers (bufs : List Buffer)
  | commit

structure Header (b : Block) (blocktype tid : Word) : Prop where
  magic : b 0 = jfsMagicNumber
  blocktype : b 4 = blocktype
  tid : b 8 = tid

/-- The offset of a tag: the UUID stands between the first and the second. -/
def tagOffset : Nat → Nat
  | 0 => headerBytes
  | n + 1 => headerBytes + tagBytes + 16 + tagBytes * n

def tagFlags (first escape last : Bool) : Word :=
  (if escape then jfsFlagEscape else 0) ||| (if first then 0 else jfsFlagSameUuid) |||
    if last then jfsFlagLastTag else 0

abbrev escaped (b : Buffer) : Bool := (journalWriteMetadataBuffer b).1
abbrev logged (b : Buffer) : Block := (journalWriteMetadataBuffer b).2

/-- A descriptor has the tags of these buffers, the last of them marked or not. -/
structure Tags (j : Journal) (b : Block) (bufs : List Buffer) (last : Bool) : Prop where
  tag : ∀ i x, bufs[i]? = some x → b (tagOffset i) = x.blocknr ∧
    b (tagOffset i + 4) = tagFlags (i == 0) (escaped x) (last && (i + 1 == bufs.length))
  fits : tagOffset bufs.length ≤ j.blocksize

/-- A revoke block lists these block numbers. -/
structure Records (j : Journal) (b : Block) (blocks : List Word) : Prop where
  record : ∀ i x, blocks[i]? = some x → b (revokeHeaderBytes + 4 * i) = x
  fits : revokeHeaderBytes + 4 * blocks.length ≤ j.blocksize

inductive Says (j : Journal) (tid : Word) : Chunk → Content → Prop
  | revokes {b : Block} {blocks : List Word} (header : Header b jfsRevokeBlock tid)
      (records : Records j b blocks)
      (count : b 12 = BitVec.ofNat 32 (revokeHeaderBytes + 4 * blocks.length)) :
      Says j tid ⟨b, []⟩ (.revokes blocks)
  | buffers {b : Block} {bufs : List Buffer} (header : Header b jfsDescriptorBlock tid)
      (tags : Tags j b bufs true) (some : bufs ≠ []) :
      Says j tid ⟨b, bufs.map logged⟩ (.buffers bufs)
  | commit {b : Block} (header : Header b jfsCommitBlock tid) : Says j tid ⟨b, []⟩ .commit

section Writing
variable {j : Journal} {tid : Word} {bufs : List Buffer}

theorem getElem?_snoc {α : Type} {xs : List α} {y x : α} {i : Nat}
    (h : (xs ++ [y])[i]? = some x) : xs[i]? = some x ∨ i = xs.length ∧ y = x := by
  rcases Nat.lt_or_ge i xs.length with hi | hi
  · rw [List.getElem?_append_left hi] at h
    exact .inl h
  · rw [List.getElem?_append_right hi] at h
    obtain ⟨hzero, hx⟩ : i - xs.length = 0 ∧ y = x := by
      simpa using List.getElem?_eq_some_iff.mp h
    exact .inr ⟨by omega, hx⟩

theorem putHeader_header (blocktype tid : Word) (b : Block) :
    Header (putHeader blocktype tid b) blocktype tid :=
  ⟨rfl, rfl, rfl⟩

theorem Header.update {b b' : Block} {blocktype : Word} (h : Header b blocktype tid)
    (heq : ∀ n < headerBytes, b' n = b n) : Header b' blocktype tid where
  magic := (heq 0 (by decide)).trans h.magic
  blocktype := (heq 4 (by decide)).trans h.blocktype
  tid := (heq 8 (by decide)).trans h.tid

/-! ### Revoke blocks -/

/-- A revoke block that is being filled. -/
structure OpenRevoke (j : Journal) (tid : Word) (r : RevokeDescriptor) (blocks : List Word) :
    Prop where
  header : Header r.block jfsRevokeBlock tid
  records : Records j r.block blocks
  offset : r.offset = revokeHeaderBytes + 4 * blocks.length

theorem newRevokeDescriptor_open (junk : Block) :
    OpenRevoke j tid (newRevokeDescriptor tid junk) [] where
  header := putHeader_header _ _ _
  records := by
    refine ⟨by intro i x hx; simp at hx, ?_⟩
    have := j.large
    simp only [revokeHeaderBytes, List.length_nil]
    omega
  offset := rfl

theorem OpenRevoke.put {r : RevokeDescriptor} {blocks : List Word} (h : OpenRevoke j tid r blocks)
    (hroom : r.offset ≠ j.blocksize) (blocknr : Word) :
    OpenRevoke j tid (r.put blocknr) (blocks ++ [blocknr]) := by
  have hoff := h.offset
  have hfits := h.records.fits
  obtain ⟨words, hwords⟩ := j.aligned
  simp only [revokeHeaderBytes] at hoff hfits
  refine ⟨?_, ⟨?_, ?_⟩, ?_⟩
  · refine h.header.update ?_
    intro n hn
    refine update_of_ne ?_ _ _
    simp only [headerBytes] at hn
    omega
  · intro i x hx
    obtain hold | ⟨rfl, rfl⟩ := getElem?_snoc hx
    · have hi := (List.getElem?_eq_some_iff.mp hold).1
      rw [← h.records.record i x hold]
      refine update_of_ne ?_ _ _
      simp only [revokeHeaderBytes]
      omega
    · rw [← h.offset]
      exact update_self _ _ _
  · simp only [revokeHeaderBytes, List.length_append, List.length_singleton]
    omega
  · simp only [RevokeDescriptor.put, revokeHeaderBytes, List.length_append, List.length_singleton]
    omega

theorem OpenRevoke.flush {r : RevokeDescriptor} {blocks : List Word}
    (h : OpenRevoke j tid r blocks) : Says j tid (flushDescriptor r) (.revokes blocks) := by
  refine .revokes ?_ ⟨?_, h.records.fits⟩ ?_
  · refine h.header.update ?_
    intro n hn
    exact update_of_ne (Nat.ne_of_lt hn) _ _
  · intro i x hx
    rw [← h.records.record i x hx]
    refine update_of_ne ?_ _ _
    simp only [revokeHeaderBytes]
    omega
  · rw [← h.offset]
    exact update_self _ _ _

theorem newRevokeDescriptor_put (junk : Block) (blocknr : Word) :
    OpenRevoke j tid ((newRevokeDescriptor tid junk).put blocknr) [blocknr] := by
  refine (newRevokeDescriptor_open junk).put ?_ blocknr
  have := j.large
  simp only [newRevokeDescriptor, revokeHeaderBytes]
  omega

/-- The blocks that are written for the revoke records list them all, in order. -/
theorem journalWriteRevokeRecords_open (junk : Nat → Block) {r : RevokeDescriptor}
    {pending : List Word} (hr : OpenRevoke j tid r pending) (blocks : List Word) :
    ∃ groups : List (List Word), groups.flatten = pending ++ blocks ∧
      List.Forall₂ (Says j tid) (journalWriteRevokeRecords j tid junk (some r) blocks)
        (groups.map .revokes) := by
  induction blocks generalizing r pending with
  | nil => exact ⟨[pending], by simp, .cons hr.flush .nil⟩
  | cons blocknr rest ih =>
    by_cases hfull : r.offset = j.blocksize
    · obtain ⟨groups, hflat, hsaid⟩ :=
        ih (newRevokeDescriptor_put (junk rest.length) blocknr)
      refine ⟨pending :: groups, by simp [hflat], ?_⟩
      simp only [journalWriteRevokeRecords, writeOneRevokeRecord, if_pos hfull, List.map_cons,
        List.singleton_append]
      exact .cons hr.flush hsaid
    · obtain ⟨groups, hflat, hsaid⟩ := ih (hr.put hfull blocknr)
      refine ⟨groups, by simp [hflat], ?_⟩
      simp only [journalWriteRevokeRecords, writeOneRevokeRecord, if_neg hfull, List.nil_append]
      exact hsaid

theorem journalWriteRevokeRecords_said (j : Journal) (tid : Word) (junk : Nat → Block)
    (blocks : List Word) :
    ∃ groups : List (List Word), groups.flatten = blocks ∧
      List.Forall₂ (Says j tid) (journalWriteRevokeRecords j tid junk none blocks)
        (groups.map .revokes) := by
  cases blocks with
  | nil => exact ⟨[], rfl, .nil⟩
  | cons blocknr rest =>
    exact journalWriteRevokeRecords_open junk
      (newRevokeDescriptor_put (junk rest.length) blocknr) rest

/-! ### Descriptors -/

theorem tagOffset_step (n : Nat) : tagOffset n + tagBytes ≤ tagOffset (n + 1) := by
  cases n <;> simp only [tagOffset, tagBytes] <;> omega

theorem tagOffset_mono {i n : Nat} (h : i < n) : tagOffset i + tagBytes ≤ tagOffset n := by
  induction n with
  | zero => omega
  | succ n ih =>
    rcases Nat.lt_or_eq_of_le (Nat.le_of_lt_succ h) with hlt | rfl
    · have := tagOffset_step n
      omega
    · exact tagOffset_step i

theorem headerBytes_le_tagOffset (n : Nat) : headerBytes ≤ tagOffset n := by
  cases n with
  | zero => exact Nat.le_refl _
  | succ n =>
    simp only [tagOffset]
    omega

theorem length_le_tagOffset (n : Nat) : n ≤ tagOffset n := by
  cases n with
  | zero => exact Nat.zero_le _
  | succ n =>
    simp only [tagOffset, headerBytes, tagBytes]
    omega

/-- A descriptor that is being filled. -/
structure Open (j : Journal) (tid : Word) (d : Descriptor) (bufs : List Buffer) : Prop where
  header : Header d.block jfsDescriptorBlock tid
  tags : Tags j d.block bufs false
  tagp : d.tagp = tagOffset bufs.length
  space : d.spaceLeft = j.blocksize - d.tagp
  first : d.firstTag = bufs.isEmpty
  data : d.data = bufs.map logged

theorem newDescriptor_open (junk : Block) : Open j tid (newDescriptor j tid junk) [] where
  header := putHeader_header _ _ _
  tags := by
    refine ⟨by intro i x hx; simp at hx, ?_⟩
    have := j.large
    simp only [List.length_nil, tagOffset, headerBytes]
    omega
  tagp := rfl
  space := rfl
  first := rfl
  data := rfl

theorem addTag_block (d : Descriptor) (b : Buffer) :
    (addTag j d b).block d.tagp = b.blocknr ∧
      (addTag j d b).block (d.tagp + 4) = tagFlags d.firstTag (escaped b) false ∧
      ∀ n < d.tagp, (addTag j d b).block n = d.block n := by
  cases hfirst : d.firstTag
  · refine ⟨?_, ?_, ?_⟩
    · simp [addTag, hfirst]
    · simp [addTag, hfirst, tagFlags]
    · intro n hn
      have h4 : n ≠ d.tagp + 4 := by omega
      simp [addTag, hfirst, update_of_ne h4, update_of_ne hn.ne]
  · refine ⟨?_, ?_, ?_⟩
    · simp [addTag, hfirst, putUuid, tagBytes]
    · simp [addTag, hfirst, putUuid, tagBytes, tagFlags]
    · intro n hn
      have h4 : n ≠ d.tagp + 4 := by omega
      have h8 : ¬ (d.tagp + tagBytes ≤ n ∧ n < d.tagp + tagBytes + 16) := by omega
      simp [addTag, hfirst, putUuid, h8, update_of_ne h4, update_of_ne hn.ne]

theorem Open.addTag {d : Descriptor} (h : Open j tid d bufs)
    (hroom : tagOffset bufs.length + tagBytes + 16 ≤ j.blocksize) (b : Buffer) :
    Open j tid (addTag j d b) (bufs ++ [b]) := by
  obtain ⟨hnr, hflags, hold⟩ := addTag_block (j := j) d b
  have hlen : (bufs ++ [b]).length = bufs.length + 1 := by simp
  have htagp : (Commit.addTag j d b).tagp = tagOffset (bufs.length + 1) := by
    cases bufs <;> simp [Commit.addTag, h.first, h.tagp, tagOffset, tagBytes, headerBytes]
    omega
  refine ⟨?_, ⟨?_, ?_⟩, ?_, ?_, ?_, ?_⟩
  · refine h.header.update ?_
    intro n hn
    have := headerBytes_le_tagOffset bufs.length
    exact hold n (by rw [h.tagp]; omega)
  · intro i x hx
    obtain hx | ⟨rfl, rfl⟩ := getElem?_snoc hx
    · have hi := tagOffset_mono (List.getElem?_eq_some_iff.mp hx).1
      rw [← h.tagp] at hi
      simp only [tagBytes] at hi
      rw [hold _ (by omega), hold _ (by omega)]
      simpa using h.tags.tag i x hx
    · rw [← h.tagp]
      refine ⟨hnr, hflags.trans ?_⟩
      rw [h.first]
      cases bufs <;> rfl
  · rw [hlen]
    cases hn : bufs.length with
    | zero =>
      rw [hn] at hroom
      simpa [tagOffset] using hroom
    | succ n =>
      rw [hn] at hroom
      simp only [tagOffset, tagBytes] at hroom ⊢
      omega
  · rw [hlen, htagp]
  · have hspace := h.space
    cases hfirst : d.firstTag <;> simp [Commit.addTag, hfirst] <;> omega
  · cases hfirst : d.firstTag <;> simp [Commit.addTag, hfirst]
  · cases hfirst : d.firstTag <;> simp [Commit.addTag, hfirst, h.data]

theorem tagFlags_last (first escape : Bool) :
    tagFlags first escape false ||| jfsFlagLastTag = tagFlags first escape true := by
  cases first <;> cases escape <;> decide

theorem Open.submit {d : Descriptor} {b : Buffer}
    (h : Open j tid d (bufs ++ [b])) :
    Says j tid (submit d (tagOffset bufs.length)) (.buffers (bufs ++ [b])) := by
  have hsub : Commit.submit d (tagOffset bufs.length) =
      ⟨(Commit.submit d (tagOffset bufs.length)).control, (bufs ++ [b]).map logged⟩ := by
    rw [← h.data]
    rfl
  rw [hsub]
  refine .buffers ?_ ⟨?_, h.tags.fits⟩ (by simp)
  · refine h.header.update ?_
    intro n hn
    have := headerBytes_le_tagOffset bufs.length
    exact update_of_ne (by omega) _ _
  · intro i x hx
    have htag := h.tags.tag i x hx
    obtain hx | ⟨rfl, rfl⟩ := getElem?_snoc hx
    · have hi := (List.getElem?_eq_some_iff.mp hx).1
      have hoff := tagOffset_mono hi
      simp only [tagBytes] at hoff
      have hlast : (true && (i + 1 == (bufs ++ [b]).length)) = false := by
        simp only [List.length_append, List.length_singleton, Bool.true_and, beq_eq_false_iff_ne]
        omega
      rw [hlast]
      simp only [Commit.submit]
      rw [update_of_ne (by omega), update_of_ne (by omega)]
      simpa using htag
    · have hlast : (true && (bufs.length + 1 == (bufs ++ [b]).length)) = true := by simp
      rw [hlast]
      simp only [Commit.submit]
      rw [update_of_ne (by omega), update_self, htag.2, ← tagFlags_last]
      exact ⟨htag.1, rfl⟩

/-- A descriptor that stays open has room for one more tag. -/
def Pending (j : Journal) (tid : Word) (bufs : List Buffer) : Option Descriptor → Prop
  | none => bufs = []
  | some d => Open j tid d bufs ∧ tagOffset bufs.length + tagBytes + 16 ≤ j.blocksize

theorem Pending.open {d : Option Descriptor} (h : Pending j tid bufs d)
    (junk : Block) : Open j tid (d.getD (newDescriptor j tid junk)) bufs ∧
      tagOffset bufs.length + tagBytes + 16 ≤ j.blocksize := by
  cases d with
  | some d => exact h
  | none =>
    obtain rfl : bufs = [] := h
    have := j.large
    refine ⟨newDescriptor_open junk, ?_⟩
    simp only [List.length_nil, tagOffset, headerBytes, tagBytes]
    omega

theorem writeBuffers_said (junk : Nat → Block) {d : Option Descriptor} {pending : List Buffer}
    (hd : Pending j tid pending d) (bufs : List Buffer) (hsome : bufs = [] → d = none) :
    ∃ groups : List (List Buffer), groups.flatten = pending ++ bufs ∧
      List.Forall₂ (Says j tid) (writeBuffers j tid junk d bufs) (groups.map .buffers) := by
  induction bufs generalizing d pending with
  | nil =>
    obtain rfl := hsome rfl
    obtain rfl : pending = [] := hd
    exact ⟨[], rfl, .nil⟩
  | cons b rest ih =>
    obtain ⟨hopen, hroom⟩ := hd.open (junk rest.length)
    have htagged := hopen.addTag hroom b
    rw [writeBuffers]
    split
    · have hnone : Pending j tid [] none := rfl
      obtain ⟨groups, hflat, hsaid⟩ := ih hnone (fun _ => rfl)
      refine ⟨(pending ++ [b]) :: groups, by simp [hflat], .cons ?_ hsaid⟩
      rw [hopen.tagp]
      exact htagged.submit
    · rename_i hmore
      simp only [not_or] at hmore
      obtain ⟨-, hrest, hspace⟩ := hmore
      have hpending : Pending j tid (pending ++ [b])
          (some (Commit.addTag j (d.getD (newDescriptor j tid (junk rest.length))) b)) := by
        refine ⟨htagged, ?_⟩
        rw [← htagged.tagp]
        rw [htagged.space] at hspace
        omega
      obtain ⟨groups, hflat, hsaid⟩ := ih hpending (by rintro rfl; simp at hrest)
      exact ⟨groups, by simp [hflat], hsaid⟩

/-- What a transaction puts into the log, block for block. -/
theorem bodyChunks_said (j : Journal) (tid : Word) (t : Txn) : ∃ (rs : List (List Word)) (bs : List (List Buffer)),
    rs.flatten = t.revokes ∧ bs.flatten = t.buffers ∧
      List.Forall₂ (Says j tid) (bodyChunks j tid t) (rs.map .revokes ++ bs.map .buffers) := by
  obtain ⟨rs, hrs, hrsaid⟩ := journalWriteRevokeRecords_said j tid (t.junk jfsRevokeBlock)
    t.revokes
  have hnone : Pending j tid [] none := rfl
  obtain ⟨bs, hbs, hbsaid⟩ := writeBuffers_said (t.junk jfsDescriptorBlock) hnone t.buffers
    (fun _ => rfl)
  exact ⟨rs, bs, hrs, hbs, List.rel_append hrsaid hbsaid⟩

end Writing

/-! ## What the passes make of it -/

section Reading
variable {j : Journal} {log : Nat → Block} {b : Block} {bufs : List Buffer} {m k i turns : Nat}
  {r : State} {c : Chunk} {pass : Pass}

theorem tagFlags_sameUuid (first escape last : Bool) :
    tagFlags first escape last &&& jfsFlagSameUuid = 0 ↔ first = true := by
  cases first <;> cases escape <;> cases last <;> decide

theorem tagFlags_lastTag (first escape last : Bool) :
    tagFlags first escape last &&& jfsFlagLastTag = 0 ↔ last = false := by
  cases first <;> cases escape <;> cases last <;> decide

theorem nextTag_tagOffset (i : Nat) (escape last : Bool) :
    nextTag (tagOffset i) (tagFlags (i == 0) escape last) = tagOffset (i + 1) := by
  rw [nextTag, ite_congr (propext (tagFlags_sameUuid _ _ _)) (fun _ => rfl) (fun _ => rfl)]
  cases i with
  | zero => rfl
  | succ i =>
    simp only [tagOffset, tagBytes, headerBytes]
    simp
    omega

/-- What a loop over the tags finds when `m` more come after tag `i`. -/
theorem Tags.turn (h : Tags j b bufs true)
    (hm : i + m + 1 = bufs.length) : ∃ x, bufs.drop i = x :: bufs.drop (i + 1) ∧
      tagOffset i + tagBytes ≤ j.blocksize ∧ b (tagOffset i) = x.blocknr ∧
      (b (tagOffset i + 4) &&& jfsFlagLastTag = 0 ↔ m ≠ 0) ∧
      nextTag (tagOffset i) (b (tagOffset i + 4)) = tagOffset (i + 1) := by
  have hi : i < bufs.length := by omega
  obtain ⟨hnr, hflags⟩ := h.tag i _ (List.getElem?_eq_getElem hi)
  refine ⟨bufs[i], List.drop_eq_getElem_cons hi, (tagOffset_mono hi).trans h.fits, hnr, ?_, ?_⟩
  · rw [hflags, tagFlags_lastTag, Bool.true_and, beq_eq_false_iff_ne]
    omega
  · rw [hflags, nextTag_tagOffset]

theorem countTags_tags (h : Tags j b bufs true)
    (hm : i + m + 1 = bufs.length) (ht : m < turns) :
    countTags j b turns (tagOffset i) = m + 1 := by
  induction m generalizing i turns with
  | zero =>
    obtain ⟨turns, rfl⟩ : ∃ n, turns = n + 1 := ⟨turns - 1, by omega⟩
    obtain ⟨x, -, hfits, -, hlast, -⟩ := h.turn (m := 0) hm
    rw [countTags, if_pos hfits, if_neg (by simpa using hlast)]
  | succ m ih =>
    obtain ⟨turns, rfl⟩ : ∃ n, turns = n + 1 := ⟨turns - 1, by omega⟩
    obtain ⟨x, -, hfits, -, hlast, hnext⟩ := h.turn hm
    rw [countTags, if_pos hfits, if_pos (hlast.mpr m.succ_ne_zero), hnext,
      ih (by omega) (by omega), Nat.add_comm]

/-- What the replay pass does for one buffer that was logged. -/
def replayBuffer (table : RevokeTable) (tid : Word) (fs : Word → Block) (b : Buffer) :
    Word → Block :=
  if journalTestRevoke table b.blocknr tid then fs else update fs b.blocknr (logged b)

theorem Tags.restoreMagic {last : Bool} (h : Tags j b bufs last)
    (w : Word) : Tags j (update b 0 w) bufs last := by
  refine ⟨?_, h.fits⟩
  intro i x hx
  have := headerBytes_le_tagOffset i
  simp only [headerBytes] at this
  rw [update_of_ne (by omega), update_of_ne (by omega)]
  exact h.tag i x hx

/-- The data block of a tag is copied as it stands in the log. -/
theorem replayTag_spec (h : Tags j b bufs true) {x : Buffer}
    (flags : Word) (hr : r.nextLogBlock = j.cell k)
    (hlog : log (j.cell k) = logged x) :
    (replayTag j log x.blocknr flags b r).2 =
        { r with
          nextLogBlock := j.cell (k + 1), fs := replayBuffer r.revoked r.nextCommitId r.fs x } ∧
      Tags j (replayTag j log x.blocknr flags b r).1 bufs true := by
  have hnext : j.wrap (r.nextLogBlock + 1) = j.cell (k + 1) := by
    rw [hr]
    exact j.wrap_cell k j.size_pos
  unfold replayTag replayBuffer
  rw [hnext, hr, hlog]
  cases journalTestRevoke r.revoked x.blocknr r.nextCommitId with
  | true => exact ⟨rfl, h⟩
  | false =>
    refine ⟨rfl, ?_⟩
    change Tags j (if flags &&& jfsFlagEscape = 0 then b else _) bufs true
    split
    · exact h
    · exact h.restoreMagic _

theorem replayTags_tags (h : Tags j b bufs true) (hm : i + m + 1 = bufs.length) (ht : m < turns)
    (hr : r.nextLogBlock = j.cell k)
    (hlog : Holds j.toArea log k ((bufs.drop i).map logged)) :
    replayTags j log turns (tagOffset i) b r =
      { r with
        nextLogBlock := j.cell (k + m + 1),
        fs := (bufs.drop i).foldl (replayBuffer r.revoked r.nextCommitId) r.fs } := by
  induction m generalizing i turns k b r with
  | zero =>
    obtain ⟨turns, rfl⟩ : ∃ n, turns = n + 1 := ⟨turns - 1, by omega⟩
    obtain ⟨x, hdrop, hfits, hnr, hlast, -⟩ := h.turn (m := 0) hm
    rw [hdrop, List.map_cons, Holds.cons] at hlog
    have hstate := (replayTag_spec h (b (tagOffset i + 4)) hr hlog.1).1
    rw [replayTags, if_pos hfits, if_neg (by simpa using hlast), hnr, hstate, hdrop,
      List.drop_eq_nil_of_le (Nat.le_of_eq hm.symm)]
    rfl
  | succ m ih =>
    obtain ⟨turns, rfl⟩ : ∃ n, turns = n + 1 := ⟨turns - 1, by omega⟩
    obtain ⟨x, hdrop, hfits, hnr, hlast, hnext⟩ := h.turn hm
    rw [hdrop, List.map_cons, Holds.cons] at hlog
    obtain ⟨hstate, htags⟩ := replayTag_spec h (b (tagOffset i + 4)) hr hlog.1
    have hk : k + 1 + m + 1 = k + (m + 1) + 1 := by omega
    rw [replayTags, if_pos hfits, if_pos (hlast.mpr m.succ_ne_zero), hnr, hstate, hnext,
      ih htags (by omega) (by omega) rfl hlog.2, hdrop, hk]
    rfl

theorem scanRevokeRecords_records {blocks : List Word} {tid : Word}
    (h : Records j b blocks)
    (hcount : b 12 = BitVec.ofNat 32 (revokeHeaderBytes + 4 * blocks.length))
    (hm : i + m = blocks.length) (ht : m ≤ turns) (table : RevokeTable) :
    scanRevokeRecords b tid turns (revokeHeaderBytes + 4 * i) table =
      (blocks.drop i).foldl (journalSetRevoke tid) table := by
  have hmax : (b 12).toInt = (revokeHeaderBytes + 4 * blocks.length : Nat) := by
    have hfits := h.fits
    have hsmall := j.small
    rw [hcount, BitVec.toInt_ofNat', Int.bmod_eq_of_le (by omega) (by omega)]
  induction m generalizing i turns table with
  | zero =>
    have hend : ¬ ((revokeHeaderBytes + 4 * i : Nat) : Int) < (b 12).toInt := by
      omega
    rw [List.drop_eq_nil_of_le (by omega), List.foldl_nil]
    cases turns with
    | zero => rfl
    | succ turns => rw [scanRevokeRecords, if_neg hend]
  | succ m ih =>
    obtain ⟨turns, rfl⟩ : ∃ n, turns = n + 1 := ⟨turns - 1, by omega⟩
    have hi : i < blocks.length := by omega
    have hmore : ((revokeHeaderBytes + 4 * i : Nat) : Int) < (b 12).toInt := by
      omega
    rw [scanRevokeRecords, if_pos hmore, h.record i _ (List.getElem?_eq_getElem hi),
      List.drop_eq_getElem_cons hi, List.foldl_cons]
    exact ih (i := i + 1) (by omega) (by omega) _

def Content.inBody : Content → Bool
  | .commit => false
  | _ => true

/-- What a block says about the revoke table, and about the file system. -/
def Content.revoke (tid : Word) (table : RevokeTable) : Content → RevokeTable
  | .revokes blocks => blocks.foldl (journalSetRevoke tid) table
  | _ => table

def Content.replay (table : RevokeTable) (tid : Word) (fs : Word → Block) : Content → Word → Block
  | .buffers bufs => bufs.foldl (replayBuffer table tid) fs
  | _ => fs

/-- What a pass does at a block with this content, when it goes on at block `next` of the log. -/
def Content.follow (pass : Pass) (next : Nat) (r : State) (x : Content) : State where
  nextCommitId := if x.inBody then r.nextCommitId else r.nextCommitId + 1
  nextLogBlock := next
  revoked := if pass = .revoke then x.revoke r.nextCommitId r.revoked else r.revoked
  fs := if pass = .replay then x.replay r.revoked r.nextCommitId r.fs else r.fs

theorem Says.header {tid : Word} {x : Content} (h : Says j tid c x) :
    c.control 0 = jfsMagicNumber ∧ c.control 8 = tid := by
  cases h with
  | revokes header => exact ⟨header.magic, header.tid⟩
  | buffers header => exact ⟨header.magic, header.tid⟩
  | commit header => exact ⟨header.magic, header.tid⟩

/-- A descriptor in the two passes that skip its data blocks. -/
theorem countTags_skip (h : Tags j b bufs true)
    (hm : 0 + m + 1 = bufs.length) (hsize : bufs.length ≤ j.size) :
    j.wrap (j.cell k + countTags j b j.blocksize headerBytes) = j.cell (k + bufs.length) := by
  have hlen := length_le_tagOffset bufs.length
  have hfits := h.fits
  have hcount : countTags j b j.blocksize headerBytes = bufs.length := by
    have hall : countTags j b j.blocksize (tagOffset 0) = m + 1 := countTags_tags h hm (by omega)
    exact hall.trans (by omega)
  rw [hcount]
  exact j.wrap_cell k hsize

/-- The `switch` on a block of the expected transaction. -/
theorem passBlock_said {x : Content}
    (hx : Says j r.nextCommitId c x) (hr : r.nextLogBlock = j.cell k)
    (hlog : pass = .replay → Holds j.toArea log k c.data) (hlen : c.data.length ≤ j.size) :
    passBlock j log pass c.control r =
      some (x.follow pass (j.cell (k + c.data.length)) r) := by
  cases hx with
  | @revokes b blocks header records count =>
    have hturns : blocks.length ≤ (b 12).toNat := by
      have hfits := records.fits
      have hsmall := j.small
      rw [count, BitVec.toNat_ofNat, Nat.mod_eq_of_lt (by omega)]
      omega
    have hscan : scanRevokeRecords b r.nextCommitId (b 12).toNat revokeHeaderBytes r.revoked = _ :=
      scanRevokeRecords_records records count (Nat.zero_add _) hturns r.revoked
    dsimp only
    rw [passBlock, if_neg (by rw [header.blocktype]; decide),
      if_neg (by rw [header.blocktype]; decide), if_pos header.blocktype, hscan]
    cases pass <;> simp [Content.follow, Content.inBody, Content.revoke, Content.replay, ← hr]
  | @buffers b bufs header tags hsome =>
    obtain ⟨m, hm⟩ : ∃ m, 0 + m + 1 = bufs.length :=
      ⟨bufs.length - 1, by have := List.length_pos_iff.mpr hsome; omega⟩
    rw [List.length_map] at hlen ⊢
    rw [passBlock, if_pos header.blocktype, hr, countTags_skip tags hm hlen]
    by_cases hpass : pass = .replay
    · have hturns : m < j.blocksize := by
        have := length_le_tagOffset bufs.length
        have := tags.fits
        omega
      have hreplay := replayTags_tags tags hm hturns hr (hlog hpass)
      have hk : k + m + 1 = k + bufs.length := by omega
      rw [hk] at hreplay
      rw [if_pos hpass]
      refine congrArg some (hreplay.trans ?_)
      simp [Content.follow, Content.inBody, Content.replay, hpass]
    · simp [Content.follow, Content.inBody, Content.revoke, hpass]
  | commit header =>
    dsimp only
    rw [passBlock, if_neg (by rw [header.blocktype]; decide), if_pos header.blocktype]
    simp [Content.follow, Content.inBody, Content.revoke, Content.replay, ← hr]

/-- A turn of a pass at a block of the transaction that it expects. -/
theorem passTurn_said {e : Word} {x : Content}
    (hx : Says j r.nextCommitId c x) (hr : r.nextLogBlock = j.cell k)
    (hlog : log (j.cell k) = c.control)
    (hdata : pass = .replay → Holds j.toArea log (k + 1) c.data) (hlen : c.data.length ≤ j.size)
    (hgo : pass = .scan ∨ tidGeq r.nextCommitId e = false) :
    passTurn j log pass e r = some (x.follow pass (j.cell (k + 1 + c.data.length)) r) := by
  obtain ⟨hmagic, htid⟩ := hx.header
  have hnext : j.wrap (r.nextLogBlock + 1) = j.cell (k + 1) := by
    rw [hr]
    exact j.wrap_cell k j.size_pos
  have hloop : ¬ (pass ≠ .scan ∧ tidGeq r.nextCommitId e = true) := by
    obtain hscan | hgeq := hgo
    · exact fun h => h.1 hscan
    · simp [hgeq]
  rw [passTurn, if_neg hloop, hr, hlog, if_neg (by simp [hmagic]), if_neg (by simp [htid]),
    ← hr, hnext]
  have hblock : passBlock j log pass c.control { r with nextLogBlock := j.cell (k + 1) } = _ :=
    passBlock_said hx rfl hdata hlen
  rw [hblock]
  rfl

/-- A block of another transaction, or of none, ends a pass. -/
theorem passTurn_stop {e : Word}
    (h : log r.nextLogBlock 0 = jfsMagicNumber → log r.nextLogBlock 8 ≠ r.nextCommitId) :
    passTurn j log pass e r = none := by
  rw [passTurn]
  split
  · rfl
  · dsimp only
    split
    · rfl
    · rename_i hmagic
      rw [if_pos (h (not_not.mp hmagic))]

end Reading
end CustomKernel.Jbd.Format

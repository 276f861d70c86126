import Mathlib.Data.List.Induction
import CustomKernel.Jbd.Passes

/-! # What recovery restores

The log is followed through commits and checkpoints up to a crash in the middle of a commit. What lies
in the log from earlier turns round the ring is older than the transaction that is expected there, so
recovery finds the whole transactions and no other. -/
namespace CustomKernel.Jbd.Replay
open Lib.Tape Lib.Transition Function
open Jbd.Commit Jbd.Recovery Jbd.Format
open Jbd.Passes

/-! ## The blocks that are copied home -/

/-- The contents of a block in a transaction, if it is logged there. -/
def contents (t : Txn) (b : Word) : Option Block :=
  (t.buffers.reverse.find? fun x => x.blocknr == b).map Buffer.data

/-- The contents of a block in the last transaction that logged it, where neither that transaction
nor a later one revokes the block. -/
def Restored (cs : List Committed) (b : Word) (data : Block) : Prop :=
  ∃ pre c post, cs = pre ++ c :: post ∧ contents c.txn b = some data ∧
    (∀ c' ∈ post, contents c'.txn b = none) ∧ ¬ Revoked b (c :: post)

/-- The blocks that were restored, and no others. -/
def Right (cs : List Committed) (fs fs' : Word → Block) : Prop :=
  (∀ b data, Restored cs b data → fs' b = data) ∧
    ∀ b, (∀ data, ¬ Restored cs b data) → fs' b = fs b

/-- A block as it stands in the log. -/
def inLog (data : Block) : Block :=
  if data 0 = jfsMagicNumber then update data 0 0 else data

theorem logged_eq (x : Buffer) : logged x = inLog x.data := by
  unfold logged journalWriteMetadataBuffer inLog
  split <;> rfl

theorem inLog_zero (data : Block) : inLog data 0 ≠ jfsMagicNumber := by
  unfold inLog
  split
  · rw [update_self]
    decide
  · assumption

theorem inLog_eq_iff {data : Block} : inLog data = data ↔ data 0 ≠ jfsMagicNumber := by
  constructor
  · intro h hmagic
    rw [← h] at hmagic
    exact inLog_zero data hmagic
  · intro h
    exact if_neg h

section Restoring
variable {b : Word} {data : Block}

theorem restored_cons {c : Committed} {cs : List Committed} :
    Restored (c :: cs) b data ↔ Restored cs b data ∨
      contents c.txn b = some data ∧ (∀ c' ∈ cs, contents c'.txn b = none) ∧
        ¬ Revoked b (c :: cs) := by
  constructor
  · rintro ⟨pre, c', post, heq, hrest⟩
    cases pre with
    | nil =>
      obtain ⟨rfl, rfl⟩ := List.cons_eq_cons.mp heq
      exact .inr hrest
    | cons p pre =>
      obtain ⟨rfl, rfl⟩ := List.cons_eq_cons.mp heq
      exact .inl ⟨pre, c', post, rfl, hrest⟩
  · rintro (⟨pre, c', post, rfl, hrest⟩ | hhead)
    · exact ⟨c :: pre, c', post, rfl, hrest⟩
    · exact ⟨[], c, cs, rfl, hhead⟩

theorem exists_restored {cs : List Committed} (hsome : ∃ c ∈ cs, contents c.txn b ≠ none)
    (hnot : ¬ Revoked b cs) : ∃ data, Restored cs b data := by
  induction cs with
  | nil =>
    obtain ⟨c, hc, -⟩ := hsome
    cases hc
  | cons c cs ih =>
    by_cases hrest : ∃ c' ∈ cs, contents c'.txn b ≠ none
    · have hnot' : ¬ Revoked b cs := fun ⟨c', hc', hb⟩ => hnot ⟨c', List.mem_cons_of_mem _ hc', hb⟩
      obtain ⟨data, hdata⟩ := ih hrest hnot'
      exact ⟨data, restored_cons.mpr (.inl hdata)⟩
    · have hnone : ∀ c' ∈ cs, contents c'.txn b = none := by
        intro c' hc'
        by_contra h
        exact hrest ⟨c', hc', h⟩
      obtain ⟨c', hc', hlog⟩ := hsome
      rcases List.mem_cons.mp hc' with rfl | hc'
      · obtain ⟨data, hdata⟩ := Option.ne_none_iff_exists'.mp hlog
        exact ⟨data, restored_cons.mpr (.inr ⟨hdata, hnone, hnot⟩)⟩
      · exact absurd (hnone c' hc') hlog

theorem replayTxn_apply (table : RevokeTable) (fs : Word → Block) (c : Committed) (b : Word) :
    replayTxn table fs c b = if journalTestRevoke table b c.tid then fs b
      else ((contents c.txn b).map inLog).getD (fs b) := by
  unfold replayTxn contents
  generalize c.txn.buffers = buffers
  induction buffers using List.reverseRecOn with
  | nil => simp
  | append_singleton bufs x ih =>
    rw [List.foldl_append, List.foldl_cons, List.foldl_nil, List.reverse_append,
      List.reverse_singleton, List.singleton_append, List.find?_cons, replayBuffer, logged_eq]
    by_cases hx : x.blocknr = b
    · subst hx
      cases hskip : journalTestRevoke table x.blocknr c.tid with
      | true => simpa [hskip] using ih
      | false => simp
    · have hx' : (x.blocknr == b) = false := by simpa using hx
      rw [hx']
      split
      · exact ih
      · rw [update_of_ne (Ne.symm hx)]
        exact ih

/-- The replay pass leaves each block as its restored contents stand in the log. -/
theorem foldl_replayTxn {pre cs : List Committed} {table : RevokeTable}
    (hord : Ordered (pre ++ cs)) (htable : ∀ b, table b = lastRevoke b (pre ++ cs))
    (fs : Word → Block) (b : Word) :
    (∀ data, Restored cs b data → cs.foldl (replayTxn table) fs b = inLog data) ∧
      ((∀ data, ¬ Restored cs b data) → cs.foldl (replayTxn table) fs b = fs b) := by
  induction cs generalizing pre fs with
  | nil =>
    refine ⟨?_, fun _ => rfl⟩
    rintro data ⟨pre, c, post, heq, -⟩
    simp at heq
  | cons c cs ih =>
    have hskip := journalTestRevoke_iff hord (htable b)
    have happly := replayTxn_apply table fs c b
    rw [List.append_cons] at hord htable
    obtain ⟨hsome, hnone⟩ := ih hord htable (replayTxn table fs c)
    constructor
    · intro data hdata
      rcases restored_cons.mp hdata with hrest | ⟨hlog, hlater, hnot⟩
      · exact hsome data hrest
      · have hno : ∀ data, ¬ Restored cs b data := by
          rintro data ⟨pre', c', post, rfl, hlog', -⟩
          rw [hlater c' (by simp)] at hlog'
          cases hlog'
        rw [List.foldl_cons, hnone hno, happly, if_neg (hskip.not.mpr hnot), hlog]
        rfl
    · intro hno
      have hrest : ∀ data, ¬ Restored cs b data :=
        fun data hdata => hno data (restored_cons.mpr (.inl hdata))
      rw [List.foldl_cons, hnone hrest, happly]
      split
      · rfl
      · rename_i htest
        have hnot : ¬ Revoked b (c :: cs) := hskip.not.mp htest
        cases hlog : contents c.txn b with
        | none => rfl
        | some data =>
          obtain ⟨data, hdata⟩ := exists_restored
            ⟨c, List.mem_cons_self, by rw [hlog]; simp⟩ hnot
          exact absurd hdata (hno data)

end Restoring
/-! ## The log through a run -/

/-- What the log holds in a block is no block of the journal, or one made for a transaction before
`tid`, less than so many transactions ago. -/
def Older (tid : Word) (bound : Nat) (b : Block) : Prop :=
  b 0 = jfsMagicNumber → ∃ age : Nat, 0 < age ∧ age < bound ∧ b 8 + BitVec.ofNat 32 age = tid

/-- What is seen of the live transactions lies between the entries `base` and `top` of the tape. -/
structure Inv (j : Journal) (s : Log) (seen : List Committed) (base top : Nat) : Prop where
  chain : Chain j s.blocks s.tailSequence base seen s.transactionSequence top
  seen : Seen seen s.live
  tail : s.tail = j.cell base
  head : s.head = j.cell top
  free : s.free + top = j.size + base
  room : 0 < s.free

/-- A block `d` entries behind the head is from one of the last `d` transactions, or as old as it was
at the start. -/
def Aged (j : Journal) (s : Log) (top : Nat) : Prop := ∀ d, 0 < d → d ≤ j.size →
  Older s.transactionSequence (tidRange + d) (s.blocks (j.cell (top + (j.size - d))))

section Runs
variable {j : Journal} {s : Log} {seen : List Committed} {base top bound turns : Nat} {tid : Word}
  {t : Txn} {b : Block}

theorem older_foreign (h : Older tid bound b)
    (hbound : bound ≤ 2 * tidRange) : Foreign tid b := by
  intro hmagic htid
  obtain ⟨age, hpos, hle, hage⟩ := h hmagic
  have hzero : BitVec.ofNat 32 age = 0 := by bv_omega
  have hmod := congrArg BitVec.toNat hzero
  unfold tidRange at hbound
  rw [BitVec.toNat_ofNat, Nat.mod_eq_of_lt (by omega)] at hmod
  exact absurd hmod (Nat.pos_iff_ne_zero.mp hpos)

theorem older_next (h : Older tid bound b) :
    Older (tid + 1) (bound + 1) b := by
  intro hmagic
  obtain ⟨age, hpos, hle, hage⟩ := h hmagic
  refine ⟨age + 1, Nat.succ_pos _, Nat.succ_lt_succ hle, ?_⟩
  rw [BitVec.ofNat_add, ← BitVec.add_assoc, hage]
  rfl

theorem older_mono {bound' : Nat} (h : Older tid bound b)
    (hle : bound ≤ bound') : Older tid bound' b := by
  intro hmagic
  obtain ⟨age, hpos, hage, heq⟩ := h hmagic
  exact ⟨age, hpos, hage.trans_le hle, heq⟩

/-- Every block of a transaction has its number, or does not start with the magic number. -/
theorem txnBlocks_tid (hb : b ∈ txnBlocks j tid t) :
    b 0 = jfsMagicNumber → b 8 = tid := by
  obtain ⟨xs, hsaid, -, -, -⟩ := bodyChunks_contents j tid t
  have hcommit : Says j tid (commitChunk tid t) .commit := .commit (putHeader_header _ _ _)
  have hall := List.rel_append hsaid (.cons hcommit .nil)
  obtain ⟨c, hc, hb⟩ := List.mem_flatMap.mp hb
  obtain ⟨x, hx⟩ : ∃ x, Says j tid c x := by
    obtain ⟨i, hi, rfl⟩ := List.getElem_of_mem hc
    exact ⟨_, hall.get hi (hall.length_eq ▸ hi)⟩
  rcases List.mem_cons.mp hb with rfl | hb
  · exact fun _ => hx.header.2
  · intro hmagic
    cases hx with
    | revokes => cases hb
    | commit => cases hb
    | buffers =>
      obtain ⟨y, -, rfl⟩ := List.mem_map.mp hb
      rw [logged_eq] at hmagic
      exact absurd hmagic (inLog_zero _)

/-- Blocks that are laid from the head on leave the live transactions. -/
theorem Inv.laid (h : Inv j s seen base top) {ws : List (Option Block)}
    (hfits : ws.length < s.free) :
    Chain j (lay j.toArea ws s.blocks s.head).1 s.tailSequence base seen s.transactionSequence
      top := by
  have hfree := h.free
  refine h.chain.congr ?_
  intro i hi hi'
  -- entry `i` is ahead of the head by what is left of the turn
  have hturn : j.cell i = j.cell (top + (i + j.size - top)) := by
    have hsum : top + (i + j.size - top) = i + j.size := by omega
    rw [hsum, j.cell_add_size]
  rw [h.head, hturn]
  exact lay_off (by omega) (by omega)

theorem commit_inv (h : Inv j s seen base top) (hfits : Fits j t s) :
    ∃ seen', Inv j (journalCommitTransaction j t s) seen' base
      (top + (txnBlocks j s.transactionSequence t).length) := by
  have hfree := h.free
  have hle := h.chain.length_le
  unfold Fits at hfits
  have hlaid : Chain j (lay j.toArea ((txnBlocks j s.transactionSequence t).map some) s.blocks
      s.head).1 _ _ _ _ _ := h.laid (by simpa using hfits)
  have hsnoc := hlaid.snoc (by rw [h.head]; exact lay_holds (by omega))
  refine ⟨_, hsnoc, ?_, h.tail, ?_, ?_, ?_⟩
  · have hstart : (lay j.toArea ((logBlocks (revokeChunks j s.transactionSequence t)).map some)
        s.blocks s.head).2 = j.cell (top + revokeLength j s.transactionSequence t) := by
      rw [h.head, lay_pos, List.length_map]
      rfl
    rw [← hstart, ← h.head]
    exact h.seen.snoc _
  · change (lay j.toArea _ s.blocks s.head).2 = _
    rw [h.head, lay_pos, List.length_map]
  · change s.free - (txnBlocks j s.transactionSequence t).length + _ = _
    omega
  · change 0 < s.free - (txnBlocks j s.transactionSequence t).length
    omega

theorem commit_aged (h : Inv j s seen base top) (hage : Aged j s top) (hfits : Fits j t s) :
    Aged j (journalCommitTransaction j t s)
      (top + (txnBlocks j s.transactionSequence t).length) := by
  have hfree := h.free
  have hle := h.chain.length_le
  have hpos := txnBlocks_pos j s.transactionSequence t
  unfold Fits at hfits
  intro d hd hd'
  change Older (s.transactionSequence + 1) _ ((lay j.toArea _ s.blocks s.head).1 _)
  set ws := txnBlocks j s.transactionSequence t
  rw [h.head]
  rcases Nat.lt_or_ge ws.length d with hbehind | hnew
  · -- a block that this commit does not reach is one transaction older
    have hk : top + ws.length + (j.size - d) = top + (j.size - (d - ws.length)) := by omega
    rw [hk, lay_off (by simp; omega) (by omega)]
    exact older_mono (older_next (hage (d - ws.length) (by omega) (by omega))) (by omega)
  · have hk : j.cell (top + ws.length + (j.size - d)) = j.cell (top + (ws.length - d)) := by
      have hsum : top + ws.length + (j.size - d) = top + (ws.length - d) + j.size := by omega
      rw [hsum, j.cell_add_size]
    have hi : ws.length - d < ws.length := by omega
    rw [hk, lay_holds (by omega) _ _ (List.getElem?_eq_getElem hi)]
    intro hmagic
    refine ⟨1, Nat.one_pos, by unfold tidRange; omega, ?_⟩
    have hmem : ws[ws.length - d] ∈ txnBlocks j s.transactionSequence t := List.getElem_mem hi
    rw [txnBlocks_tid hmem hmagic]
    rfl

/-- Nothing is dropped, or what is left is found from the new tail on. -/
theorem cleanup_inv (h : Inv j s seen base top) (n : Nat) :
    ∃ seen' base', Inv j (cleanupJournalTail j n s) seen' base' top := by
  have hfree := h.free
  have hroom := h.room
  unfold cleanupJournalTail
  dsimp only
  split
  · exact ⟨seen, base, h⟩
  next hmoved =>
    have hdrop : seen.drop n = s.live.drop n := by
      cases n with
      | zero =>
        refine absurd ?_ hmoved
        rw [← h.chain.first.1, h.seen.drop.1]
        rfl
      | succ n => exact h.seen.drop.2 n
    obtain ⟨tid₁, k, hle, hchain⟩ := h.chain.drop n
    rw [hdrop] at hchain
    obtain ⟨hfirst, k₁, seen', hle₁, hseen, hstart, hrest⟩ := hchain.first
    have htop := hrest.length_le
    obtain ⟨d, rfl⟩ : ∃ d, k₁ = base + d := ⟨k₁ - base, by omega⟩
    rw [hfirst, h.head, hstart, h.tail, j.cell_dist base (by omega)]
    refine ⟨seen', base + d, hrest, hseen, rfl, rfl, ?_, ?_⟩
    · change s.free + d + top = _
      omega
    · change 0 < s.free + d
      omega

theorem reset_inv (blocks : Nat → Block) : Inv j (journalReset j blocks tid) [] 0 0 := by
  have hzero : j.first = j.cell 0 := by simp [Area.cell]
  exact ⟨.nil, .whole, hzero, hzero, rfl, j.size_pos⟩

theorem reset_aged {blocks : Nat → Block}
    (hclean : ∀ p, j.first ≤ p → p < j.last → Older tid tidRange (blocks p)) :
    Aged j (journalReset j blocks tid) 0 := by
  intro d hd hd'
  obtain ⟨hlow, hhigh⟩ := j.cell_bounds (0 + (j.size - d))
  exact older_mono (hclean _ hlow hhigh) (Nat.le_add_right _ _)

theorem step_inv {e : Event} {s' : Log} (h : Inv j s seen base top) (hstep : Step j s e s') :
    ∃ seen' base' top', Inv j s' seen' base' top' ∧ (Aged j s top → Aged j s' top') := by
  cases hstep with
  | commit hfits =>
    obtain ⟨seen', h'⟩ := commit_inv h hfits
    exact ⟨seen', _, _, h', fun hage => commit_aged h hage hfits⟩
  | @checkpoint n =>
    obtain ⟨seen', base', h'⟩ := cleanup_inv h n
    refine ⟨seen', base', top, h', fun hage => ?_⟩
    unfold cleanupJournalTail
    dsimp only
    split
    · exact hage
    · exact hage

/-! ## Recovery after a crash -/

/-- What lies ahead of the head is from before the transaction that is expected there. -/
theorem Aged.foreign (h : Aged j s top) (hsize : j.size ≤ tidRange) {i : Nat}
    (hi : i < j.size) : Foreign s.transactionSequence (s.blocks (j.cell (top + i))) := by
  have hk : top + i = top + (j.size - (j.size - i)) := by omega
  rw [hk]
  exact older_foreign (h (j.size - i) (by omega) (by omega)) (by omega)

theorem txnBlocks_length (j : Journal) (tid : Word) (t : Txn) :
    (txnBlocks j tid t).length = (logBlocks (bodyChunks j tid t)).length + 1 := by
  rw [txnBlocks, logBlocks_append, List.length_append]
  rfl

/-- A pass goes through the whole transactions, and has turns left for the next one. -/
theorem walk_crashed (h : Inv j s seen base top) (hfits : Fits j t s) (written : Nat → Bool)
    {pass : Pass} {e : Word} (hgo : pass = .scan ∨ ∀ c ∈ seen, tidGeq c.tid e = false) {r : State}
    (htid : r.nextCommitId = s.tailSequence) (hr : r.nextLogBlock = s.tail)
    (hturns : j.size ≤ turns) :
    ∃ n, (bodyChunks j s.transactionSequence t).length < n ∧
      doOnePass j (crashed j t written s) pass e turns r =
        doOnePass j (crashed j t written s) pass e n
          (afterTxns pass seen s.transactionSequence (j.cell top) r) := by
  have hfree := h.free
  have hle := h.chain.length_le
  have hpos := txnBlocks_pos j s.transactionSequence t
  have hlen := txnBlocks_length j s.transactionSequence t
  unfold Fits at hfits
  have hchain : Chain j (crashed j t written s) _ _ _ _ _ := h.laid (by simp; omega)
  obtain ⟨m, hm, hwalk⟩ := doOnePass_chain pass hchain htid (hr.trans h.tail) (by omega) hgo
  obtain ⟨n, rfl⟩ : ∃ n, turns = m + n := ⟨turns - m, by omega⟩
  exact ⟨n, by omega, hwalk n⟩

/-- The first pass finds where the whole transactions end. -/
theorem scan_crashed (h : Inv j s seen base top) (hage : Aged j s top) (hsize : j.size ≤ tidRange)
    (hfits : Fits j t s) (written : Nat → Bool) {r : State}
    (htid : r.nextCommitId = s.tailSequence) (hr : r.nextLogBlock = s.tail)
    (hturns : j.size ≤ turns) :
    ∃ r', doOnePass j (crashed j t written s) .scan 0 turns r = some r' ∧
      r'.nextCommitId = s.transactionSequence := by
  obtain ⟨n, hn, hwalk⟩ := walk_crashed h hfits written (.inl rfl) htid hr hturns
  have hfree := h.free
  have hle := h.chain.length_le
  have hlen := txnBlocks_length j s.transactionSequence t
  unfold Fits at hfits
  obtain ⟨xs, hsaid, hbody, -, -⟩ := bodyChunks_contents j s.transactionSequence t
  rw [hwalk]
  refine scan_torn hsaid hbody rfl
    (by omega) ?_ ?_ hn
  · intro i b hb
    have hi := (List.getElem?_eq_some_iff.mp hb).1
    have hat : crashed j t written s (j.cell (top + i)) =
        (if written i then some b else none).getD (s.blocks (j.cell (top + i))) := by
      unfold crashed
      rw [h.head]
      exact lay_at (by simp; omega) (by simp [hb])
    rw [hat]
    cases written i with
    | true => exact .inl rfl
    | false => exact .inr (hage.foreign hsize (by omega))
  · change Foreign _ ((lay j.toArea _ s.blocks s.head).1 _)
    rw [h.head, lay_off (by simp) (by omega)]
    exact hage.foreign hsize (by omega)

/-- The other passes go through the same transactions, and stop there. -/
theorem pass_crashed (h : Inv j s seen base top) (hfits : Fits j t s)
    (hlive : seen.length < tidRange) (written : Nat → Bool) {pass : Pass} (hpass : pass ≠ .scan)
    {r : State} (htid : r.nextCommitId = s.tailSequence) (hr : r.nextLogBlock = s.tail)
    (hturns : j.size ≤ turns) :
    doOnePass j (crashed j t written s) pass s.transactionSequence turns r =
      some (afterTxns pass seen s.transactionSequence (j.cell top) r) := by
  obtain ⟨n, hn, hwalk⟩ :=
    walk_crashed h hfits written (.inr (h.chain.before_end hlive)) htid hr hturns
  rw [hwalk]
  refine doOnePass_stop ?_ (by omega)
  rw [passTurn, if_pos ⟨hpass, by simp [afterTxns, tidGeq]⟩]

theorem recover_crashed (h : Inv j s seen base top) (hage : Aged j s top)
    (hsize : j.size ≤ tidRange) (hlive : seen.length < tidRange) (hfits : Fits j t s)
    (written : Nat → Bool) (fs : Word → Block) (hturns : j.size ≤ turns) :
    journalRecover j (crashed j t written s) ⟨s.tail, s.tailSequence⟩ turns fs =
      some (0, seen.foldl (replayTxn (seen.foldl revokeTxn fun _ => none)) fs) := by
  have hstart : s.tail ≠ 0 := by
    have := (j.cell_bounds base).1
    have := j.behind
    rw [h.tail]
    omega
  obtain ⟨r', hscan, hend⟩ := scan_crashed h hage hsize hfits written
    (r := ⟨s.tailSequence, s.tail, fun _ => none, fs⟩) rfl rfl hturns
  rw [journalRecover, if_neg hstart]
  dsimp only
  rw [hscan, Option.bind_some, hend, pass_crashed h hfits hlive written (by decide) rfl rfl hturns,
    Option.bind_some, if_neg (by simp [afterTxns]),
    pass_crashed h hfits hlive written (by decide) rfl rfl hturns]
  simp [afterTxns]

/-- The revoke records that the tail has gone past are about no block of their own transaction. -/
theorem restored_seen {cs : List Committed} (h : Seen seen cs) (b : Word) (data : Block) :
    Restored seen b data ↔ Restored cs b data := by
  cases h with
  | whole => exact Iff.rfl
  | @cut c cs =>
    rw [restored_cons, restored_cons]
    refine or_congr_right (and_congr_right fun hlog => and_congr_right fun _ => not_congr ?_)
    obtain ⟨x, hx, -⟩ := Option.map_eq_some_iff.mp hlog
    have hnr : x.blocknr = b := by simpa using List.find?_some hx
    have hown := c.txn.apart x (List.mem_reverse.mp (List.mem_of_find?_eq_some hx))
    rw [hnr] at hown
    simp [Revoked, cut, hown]

end Runs

/-- In every state of the log that commits and checkpoints reach, and for every part of the next
transaction that a crash leaves in it, recovery ends, and it restores the blocks of the whole
transactions exactly when none of the contents to restore starts with the magic number. -/
theorem recovery_restores {j : Journal} (hsize : j.size ≤ tidRange) {blocks : Nat → Block}
    {tid : Word} (hclean : ∀ p, j.first ≤ p → p < j.last → Older tid tidRange (blocks p))
    {es : List Event} {s : Log} (hrun : Run (Step j) (journalReset j blocks tid) es s) {t : Txn}
    (hfits : Fits j t s) (written : Nat → Bool) (fs : Word → Block) :
    ∃ fs', (∀ turns, j.size ≤ turns →
        journalRecover j (crashed j t written s) ⟨s.tail, s.tailSequence⟩ turns fs =
          some (0, fs')) ∧
      (Right s.live fs fs' ↔ ∀ b data, Restored s.live b data → data 0 ≠ jfsMagicNumber) := by
  obtain ⟨seen, base, top, h, hage⟩ := hrun.invariant
    (I := fun s => ∃ seen base top, Inv j s seen base top ∧ Aged j s top)
    (fun _ _ _ ⟨_, _, _, h, hage⟩ hstep =>
      let ⟨seen', base', top', h', hkeep⟩ := step_inv h hstep
      ⟨seen', base', top', h', hkeep hage⟩)
    ⟨[], 0, 0, reset_inv blocks, reset_aged hclean⟩
  have hlive : seen.length < tidRange := by
    have := h.chain.length_le
    have := h.room
    have := h.free
    omega
  have hord : Ordered ([] ++ seen) := h.chain.ordered hlive
  have htable : ∀ b, seen.foldl revokeTxn (fun _ => none) b = lastRevoke b ([] ++ seen) := by
    intro b
    rw [List.nil_append] at hord ⊢
    rw [foldl_revokeTxn hord (by simp), Option.or_none]
  refine ⟨_, fun turns hturns => recover_crashed h hage hsize hlive hfits written fs hturns, ?_⟩
  simp only [Right, ← restored_seen h.seen]
  constructor
  · intro hright b data hdata
    have hrestored := (foldl_replayTxn hord htable fs b).1 data hdata
    rw [hright.1 b data hdata] at hrestored
    exact inLog_eq_iff.mp hrestored.symm
  · intro hno
    refine ⟨?_, ?_⟩
    · intro b data hdata
      rw [(foldl_replayTxn hord htable fs b).1 data hdata]
      exact inLog_eq_iff.mpr (hno b data hdata)
    · intro b hnone
      exact (foldl_replayTxn hord htable fs b).2 hnone

/-! ### A small journal -/

def small : Journal where
  first := 1
  last := 17
  room := by decide
  blocksize := 1024
  uuid := fun _ => 0
  behind := by decide
  large := by decide
  small := by decide
  aligned := by decide

/-- A transaction that logs block 5 with these contents and revokes block 7. -/
def logsFive (data : Block) : Txn := ⟨[7], [⟨5, data⟩], by simp, fun _ _ _ => 0⟩

/-- The log after one commit. -/
def oneCommit (data : Block) : Log :=
  journalCommitTransaction small (logsFive data) (journalReset small (fun _ _ => 0) 1)

theorem oneCommit_run {data : Block} (hfits : Fits small (logsFive data)
    (journalReset small (fun _ _ => 0) 1)) :
    Run (Step small) (journalReset small (fun _ _ => 0) 1) [.commit (logsFive data)]
      (oneCommit data) :=
  .cons (.commit hfits) (.nil _)

theorem recovery_restores_small :
    Fits small (logsFive fun _ => 3) (oneCommit fun _ => 3) ∧
      ∃ fs', (∀ turns, small.size ≤ turns →
        journalRecover small (crashed small (logsFive fun _ => 3) (fun i => i == 1)
          (oneCommit fun _ => 3)) ⟨(oneCommit fun _ => 3).tail, (oneCommit fun _ => 3).tailSequence⟩
          turns (fun _ _ => 0) = some (0, fs')) ∧
        (Right (oneCommit fun _ => 3).live (fun _ _ => 0) fs' ↔
          ∀ b data, Restored (oneCommit fun _ => 3).live b data → data 0 ≠ jfsMagicNumber) :=
  ⟨by decide +kernel, recovery_restores (by decide)
    (fun _ _ _ hmagic => absurd hmagic (by decide)) (oneCommit_run (by decide +kernel))
    (by decide +kernel) _ _⟩

/-- Contents that start with the magic number. -/
def startsWithMagic : Block := fun n => if n = 0 then jfsMagicNumber else BitVec.ofNat 32 n

/-- A block that starts with the magic number comes back with its first word cleared. -/
theorem magic_lost :
    Run (Step small) (journalReset small (fun _ _ => 0) 1) [.commit (logsFive startsWithMagic)]
        (oneCommit startsWithMagic) ∧
      Restored (oneCommit startsWithMagic).live 5 startsWithMagic ∧
      startsWithMagic 0 = jfsMagicNumber ∧
      (journalRecover small (crashed small (logsFive startsWithMagic) (fun _ => false)
          (oneCommit startsWithMagic))
          ⟨(oneCommit startsWithMagic).tail, (oneCommit startsWithMagic).tailSequence⟩ 16
          (fun _ _ => 0)).map (fun r => (r.1, r.2 5 0, r.2 5 4)) = some (0, 0, 4) := by
  refine ⟨oneCommit_run (by decide +kernel), ?_, rfl, by decide +kernel⟩
  refine ⟨[], ⟨1, 1, 2, logsFive startsWithMagic⟩, [], rfl, rfl, ?_, ?_⟩
  · intro c hc
    cases hc
  · rintro ⟨c, hc, hb⟩
    obtain rfl := List.mem_singleton.mp hc
    exact absurd hb (by decide)

/-! ## The part of the log in use -/

/-- The blocks from the tail up to the head. -/
def used (j : Journal) (s : Log) : Nat :=
  if s.head < s.tail then s.head + j.size - s.tail else s.head - s.tail

/-- The block of the log that the `n`-th block of a transaction was written to. -/
def place (j : Journal) (c : Committed) (n : Nat) : Nat :=
  if n < revokeLength j c.tid c.txn then j.wrap (c.logHead + n)
  else j.wrap (c.logStart + (n - revokeLength j c.tid c.txn))

/-- The `n`-th block of a transaction is still there, between the tail and the head. -/
def Kept (j : Journal) (s : Log) (c : Committed) (n : Nat) : Prop :=
  (∃ d < used j s, j.wrap (s.tail + d) = place j c n) ∧
    (txnBlocks j c.tid c.txn)[n]? = some (s.blocks (place j c n))

section Used
variable {j : Journal} {s : Log} {seen : List Committed} {base top n : Nat} {c : Committed}

theorem Inv.used (h : Inv j s seen base top) : used j s = top - base := by
  have hfree := h.free
  have hroom := h.room
  have hle := h.chain.length_le
  obtain ⟨d, rfl⟩ : ∃ d, top = base + d := ⟨top - base, by omega⟩
  unfold Replay.used
  rw [h.head, h.tail, j.cell_dist base (by omega)]
  omega

theorem Inv.kept (h : Inv j s seen base top) {i : Nat} (hc : seen[i]? = some c)
    (hn : n < (txnBlocks j c.tid c.txn).length) : Kept j s c n := by
  have hfree := h.free
  obtain ⟨m, hle, hend, hhead, hstart, hholds⟩ := h.chain.placed hc
  have hplace : place j c n = j.cell (m + n) := by
    unfold place
    split
    · rw [hhead, j.wrap_cell _ (by omega)]
    · rw [hstart, j.wrap_cell _ (by omega)]
      congr 1
      omega
  have hblock := List.getElem?_eq_getElem hn
  refine ⟨⟨m + n - base, ?_, ?_⟩, ?_⟩
  · rw [h.used]
    omega
  · rw [hplace, h.tail, j.wrap_cell _ (by omega)]
    congr 1
    omega
  · rw [hblock, hplace, hholds n _ hblock]

/-- The revoke records come first, and the rest is what is found from `t_log_start` on. -/
theorem Kept.of_cut (hn : revokeLength j c.tid c.txn ≤ n)
    (h : Kept j s (cut c) (n - revokeLength j c.tid c.txn)) : Kept j s c n := by
  have hplace : place j (cut c) (n - revokeLength j c.tid c.txn) = place j c n :=
    (if_neg (Nat.not_lt_zero _)).trans (if_neg (Nat.not_lt.mpr hn)).symm
  rw [Kept, hplace] at h
  rw [Kept, txnBlocks_cut, List.getElem?_append_right hn]
  exact h

end Used

/-- In every state that commits and checkpoints reach, the free blocks are those outside the used
part, and the blocks of the live transactions are in it. The revoke records of the oldest one
may be out, when the tail has been moved to its `t_log_start`. -/
theorem live_blocks_used {j : Journal} {blocks : Nat → Block} {tid : Word} {es : List Event} {s : Log}
    (hrun : Run (Step j) (journalReset j blocks tid) es s) :
    s.free + used j s = j.size ∧ ∀ i c, s.live[i]? = some c →
      c.tid = s.tailSequence + BitVec.ofNat 32 i ∧
      ∀ n < (txnBlocks j c.tid c.txn).length,
        (i = 0 → s.tail = c.logStart → revokeLength j c.tid c.txn ≤ n) → Kept j s c n := by
  obtain ⟨seen, base, top, h⟩ := hrun.invariant
    (I := fun s => ∃ seen base top, Inv j s seen base top)
    (fun _ _ _ ⟨_, _, _, h⟩ hstep =>
      let ⟨seen', base', top', h', _⟩ := step_inv h hstep
      ⟨seen', base', top', h'⟩)
    ⟨[], 0, 0, reset_inv blocks⟩
  have hfree := h.free
  have hle := h.chain.length_le
  refine ⟨by rw [h.used]; omega, fun i c hc => ?_⟩
  rcases h.seen.getElem? hc with hseen | ⟨rfl, rest, rfl⟩
  · exact ⟨h.chain.tid_eq.2 i c hseen, fun n hn _ => h.kept hseen hn⟩
  · refine ⟨h.chain.tid_eq.2 0 (cut c) rfl, fun n hn hout => ?_⟩
    have hstart := hout rfl (h.tail.trans h.chain.head.symm)
    rw [txnBlocks_cut, List.length_append] at hn
    exact .of_cut hstart (h.kept (i := 0) rfl (Nat.sub_lt_left_of_lt_add hstart hn))

/-- The log after two commits, when the first transaction has been written home. -/
def firstDone : Log :=
  cleanupJournalTail small 1
    (journalCommitTransaction small (logsFive fun _ => 3) (oneCommit fun _ => 3))

theorem firstDone_run : Run (Step small) (journalReset small (fun _ _ => 0) 1)
    [.commit (logsFive fun _ => 3), .commit (logsFive fun _ => 3), .checkpoint 1] firstDone :=
  .cons (.commit (by decide +kernel)) (.cons (.commit (by decide +kernel))
    (.cons .checkpoint (.nil _)))

theorem live_blocks_used_firstDone : firstDone.free + used small firstDone = small.size ∧
    Kept small firstDone ⟨2, 5, 6, logsFive fun _ => 3⟩ 1 :=
  have hused := live_blocks_used firstDone_run
  ⟨hused.1, (hused.2 0 _ rfl).2 1 (by decide +kernel) fun _ _ => by decide +kernel⟩

/-- The revoke record of the second transaction, in block 5 of the log, is taken to be free. -/
theorem revoke_block_free : Run (Step small) (journalReset small (fun _ _ => 0) 1)
      [.commit (logsFive fun _ => 3), .commit (logsFive fun _ => 3), .checkpoint 1] firstDone ∧
    ∃ c ∈ firstDone.live, c.tid = firstDone.tailSequence ∧
      0 < (txnBlocks small c.tid c.txn).length ∧
      ∀ d < used small firstDone, small.wrap (firstDone.tail + d) ≠ place small c 0 := by
  refine ⟨firstDone_run, ⟨2, 5, 6, logsFive fun _ => 3⟩, ?_, by decide +kernel, by decide +kernel,
    by decide +kernel⟩
  exact List.mem_singleton.mpr rfl

end CustomKernel.Jbd.Replay

import CustomKernel.Jbd.Format

/-! # The passes over a log of whole transactions

A pass goes through the transactions of the log one by one, and stops at the first block that does
not belong to the one it expects. The revoke pass leaves the last record of each block in the table,
and so the replay pass skips a block exactly in the transactions up to that record. -/
namespace CustomKernel.Jbd.Passes
open Lib.Tape Jbd.Commit Jbd.Recovery Jbd.Format Function

/-! ## Walking through the log -/

/-- Where the metadata phase begins, from the first block of the transaction. -/
def revokeLength (j : Journal) (tid : Word) (t : Txn) : Nat :=
  (logBlocks (revokeChunks j tid t)).length

/-- The log holds these transactions from entry `k` of the tape on, with consecutive numbers. -/
inductive Chain (j : Journal) (log : Nat → Block) : Word → Nat → List Committed → Word → Nat → Prop
  | nil {tid : Word} {k : Nat} : Chain j log tid k [] tid k
  | cons {c : Committed} {k k' : Nat} {rest : List Committed} {tid' : Word}
      (start : c.logHead = j.cell k ∧ c.logStart = j.cell (k + revokeLength j c.tid c.txn))
      (holds : Holds j.toArea log k (txnBlocks j c.tid c.txn))
      (next : Chain j log (c.tid + 1) (k + (txnBlocks j c.tid c.txn).length) rest tid' k') :
      Chain j log c.tid k (c :: rest) tid' k'

/-- Not a block that the journal made for this transaction. -/
def Foreign (tid : Word) (b : Block) : Prop := b 0 = jfsMagicNumber → b 8 ≠ tid

def revokeTxn (table : RevokeTable) (c : Committed) : RevokeTable :=
  c.txn.revokes.foldl (journalSetRevoke c.tid) table

def replayTxn (table : RevokeTable) (fs : Word → Block) (c : Committed) : Word → Block :=
  c.txn.buffers.foldl (replayBuffer table c.tid) fs

section Walk
variable {j : Journal} {log : Nat → Block} {pass : Pass} {e tid tid' : Word} {k k' n : Nat}
  {r : State} {cs : List Committed}

@[simp] theorem logBlocks_nil : logBlocks [] = [] := rfl

@[simp] theorem logBlocks_cons (c : Chunk) (cs : List Chunk) :
    logBlocks (c :: cs) = c.control :: (c.data ++ logBlocks cs) := rfl

theorem logBlocks_append (cs cs' : List Chunk) :
    logBlocks (cs ++ cs') = logBlocks cs ++ logBlocks cs' := List.flatMap_append

theorem length_le_logBlocks (cs : List Chunk) : cs.length ≤ (logBlocks cs).length := by
  induction cs with
  | nil => exact Nat.le_refl _
  | cons c cs ih =>
    simp only [logBlocks_cons, List.length_cons, List.length_append]
    omega

theorem doOnePass_turn {r' : State} (h : passTurn j log pass e r = some r') (n : Nat) :
    doOnePass j log pass e (n + 1) r = doOnePass j log pass e n r' := by
  rw [doOnePass, h]

theorem doOnePass_stop (h : passTurn j log pass e r = none) (hn : 0 < n) :
    doOnePass j log pass e n r = some r := by
  obtain ⟨n, rfl⟩ : ∃ m, n = m + 1 := ⟨n - 1, by omega⟩
  rw [doOnePass, h]

/-- What a pass has done after the blocks before a commit block. -/
def afterBody (pass : Pass) (xs : List Content) (next : Nat) (r : State) : State where
  nextCommitId := r.nextCommitId
  nextLogBlock := next
  revoked := if pass = .revoke then xs.foldl (Content.revoke r.nextCommitId) r.revoked else r.revoked
  fs := if pass = .replay then xs.foldl (Content.replay r.revoked r.nextCommitId) r.fs else r.fs

theorem doOnePass_body {cs : List Chunk} {xs : List Content}
    (hsaid : List.Forall₂ (Says j r.nextCommitId) cs xs) (hbody : ∀ x ∈ xs, x.inBody)
    (hr : r.nextLogBlock = j.cell k) (hlog : Holds j.toArea log k (logBlocks cs))
    (hlen : (logBlocks cs).length ≤ j.size)
    (hgo : pass = .scan ∨ tidGeq r.nextCommitId e = false) (n : Nat) :
    doOnePass j log pass e (cs.length + n) r =
      doOnePass j log pass e n (afterBody pass xs (j.cell (k + (logBlocks cs).length)) r) := by
  induction cs generalizing xs r k with
  | nil =>
    cases hsaid
    simp [afterBody, ← hr]
  | cons c cs ih =>
    cases hsaid with
    | @cons _ x _ xs hx hxs =>
    rw [logBlocks_cons, Holds.cons, Holds.append] at hlog
    rw [logBlocks_cons, List.length_cons, List.length_append] at hlen
    have hturn := passTurn_said hx hr hlog.1 (fun _ => hlog.2.1) (by omega) hgo
    have hx' : x.inBody = true := hbody x List.mem_cons_self
    have hcount : (c :: cs).length + n = cs.length + n + 1 := by
      rw [List.length_cons]
      omega
    rw [hcount, doOnePass_turn hturn]
    have htid : (x.follow pass (j.cell (k + 1 + c.data.length)) r).nextCommitId = r.nextCommitId :=
      if_pos hx'
    rw [← htid] at hxs hgo
    rw [ih hxs (fun y hy => hbody y (List.mem_cons_of_mem _ hy)) rfl hlog.2.2 (by omega) hgo,
      logBlocks_cons, List.length_cons, List.length_append]
    have hk : k + 1 + c.data.length + (logBlocks cs).length =
        k + (c.data.length + (logBlocks cs).length + 1) := by omega
    rw [hk]
    cases pass <;> simp [afterBody, Content.follow, hx']

theorem bodyChunks_contents (j : Journal) (tid : Word) (t : Txn) : ∃ xs : List Content,
    List.Forall₂ (Says j tid) (bodyChunks j tid t) xs ∧ (∀ x ∈ xs, x.inBody) ∧
      (∀ table, xs.foldl (Content.revoke tid) table = t.revokes.foldl (journalSetRevoke tid) table) ∧
      ∀ table fs, xs.foldl (Content.replay table tid) fs =
        t.buffers.foldl (replayBuffer table tid) fs := by
  obtain ⟨rs, bs, hrs, hbs, hsaid⟩ := bodyChunks_said j tid t
  refine ⟨_, hsaid, ?_, ?_, ?_⟩
  · intro x hx
    rcases List.mem_append.mp hx with hx | hx
    · obtain ⟨_, -, rfl⟩ := List.mem_map.mp hx
      rfl
    · obtain ⟨_, -, rfl⟩ := List.mem_map.mp hx
      rfl
  · intro table
    rw [List.foldl_append, List.foldl_map, List.foldl_map, ← hrs, List.foldl_flatten]
    exact List.foldl_fixed _
  · intro table fs
    rw [List.foldl_append, List.foldl_map, List.foldl_map, ← hbs, List.foldl_flatten]
    exact congrArg (fun fs => bs.foldl (fun fs g => g.foldl (replayBuffer table tid) fs) fs)
      (List.foldl_fixed rs)

/-- What a pass has done after a transaction. -/
def afterTxn (pass : Pass) (c : Committed) (next : Nat) (r : State) : State where
  nextCommitId := c.tid + 1
  nextLogBlock := next
  revoked := if pass = .revoke then revokeTxn r.revoked c else r.revoked
  fs := if pass = .replay then replayTxn r.revoked r.fs c else r.fs

theorem doOnePass_txn {c : Committed} (htid : r.nextCommitId = c.tid)
    (hr : r.nextLogBlock = j.cell k) (hlog : Holds j.toArea log k (txnBlocks j c.tid c.txn))
    (hlen : (txnBlocks j c.tid c.txn).length ≤ j.size)
    (hgo : pass = .scan ∨ tidGeq c.tid e = false) (n : Nat) :
    doOnePass j log pass e ((bodyChunks j c.tid c.txn).length + (n + 1)) r =
      doOnePass j log pass e n
        (afterTxn pass c (j.cell (k + (txnBlocks j c.tid c.txn).length)) r) := by
  obtain ⟨tid, head, start, t⟩ := c
  obtain rfl : r.nextCommitId = tid := htid
  obtain ⟨xs, hsaid, hbody, hrevoke, hreplay⟩ := bodyChunks_contents j r.nextCommitId t
  have hblocks : txnBlocks j r.nextCommitId t =
      logBlocks (bodyChunks j r.nextCommitId t) ++ [(commitChunk r.nextCommitId t).control] :=
    logBlocks_append _ _
  rw [hblocks, Holds.append, Holds.cons] at hlog
  rw [hblocks, List.length_append, List.length_singleton] at hlen ⊢
  rw [doOnePass_body hsaid hbody hr hlog.1 (by omega) hgo]
  have hcommit : Says j r.nextCommitId (commitChunk r.nextCommitId t) .commit :=
    .commit (putHeader_header _ _ _)
  rw [doOnePass_turn (passTurn_said
    (r := afterBody pass xs (j.cell (k + (logBlocks (bodyChunks j r.nextCommitId t)).length)) r)
    hcommit rfl hlog.2.1 (fun _ => Holds.nil) (Nat.zero_le _) hgo)]
  congr 1
  simp only [Content.follow, afterBody, afterTxn, revokeTxn, replayTxn, ← hrevoke, ← hreplay]
  cases pass <;> rfl

/-- What a pass has done after some transactions. -/
def afterTxns (pass : Pass) (cs : List Committed) (tid : Word) (next : Nat) (r : State) : State where
  nextCommitId := tid
  nextLogBlock := next
  revoked := if pass = .revoke then cs.foldl revokeTxn r.revoked else r.revoked
  fs := if pass = .replay then cs.foldl (replayTxn r.revoked) r.fs else r.fs

theorem txnBlocks_pos (j : Journal) (tid : Word) (t : Txn) :
    (bodyChunks j tid t).length + 1 ≤ (txnBlocks j tid t).length := by
  refine Nat.le_trans (Nat.le_of_eq ?_) (length_le_logBlocks _)
  rw [List.length_append, List.length_singleton]

theorem Chain.length_le
    (h : Chain j log tid k cs tid' k') : k + cs.length ≤ k' := by
  induction h with
  | nil => exact Nat.le_refl _
  | @cons c k k' rest tid' hstart hholds hnext ih =>
    have := txnBlocks_pos j c.tid c.txn
    rw [List.length_cons]
    omega

theorem Chain.head {c : Committed} (h : Chain j log tid k (c :: cs) tid' k') :
    c.logHead = j.cell k := by
  cases h with
  | cons start => exact start.1

theorem Chain.congr {log' : Nat → Block}
    (h : Chain j log tid k cs tid' k')
    (heq : ∀ i, k ≤ i → i < k' → log' (j.cell i) = log (j.cell i)) :
    Chain j log' tid k cs tid' k' := by
  induction h with
  | nil => exact .nil
  | @cons c k k' rest tid' hstart hholds hnext ih =>
    have hle := hnext.length_le
    refine .cons hstart (hholds.congr ?_) (ih ?_)
    · intro i hi
      exact heq _ (by omega) (by omega)
    · intro i hi hi'
      exact heq i (by omega) hi'

theorem Chain.snoc
    (h : Chain j log tid k cs tid' k') {t : Txn}
    (hholds : Holds j.toArea log k' (txnBlocks j tid' t)) :
    Chain j log tid k (cs ++ [⟨tid', j.cell k', j.cell (k' + revokeLength j tid' t), t⟩])
      (tid' + 1) (k' + (txnBlocks j tid' t).length) := by
  induction h with
  | @nil tid k => exact .cons (c := ⟨tid, _, _, t⟩) ⟨rfl, rfl⟩ hholds .nil
  | cons hstart hfirst hnext ih => exact .cons hstart hfirst (ih hholds)

theorem Chain.drop
    (h : Chain j log tid k cs tid' k') (n : Nat) :
    ∃ tid₁ k₁, k ≤ k₁ ∧ Chain j log tid₁ k₁ (cs.drop n) tid' k' := by
  induction h generalizing n with
  | @nil tid k => exact ⟨tid, k, Nat.le_refl _, by rw [List.drop_nil]; exact .nil⟩
  | @cons c k k' rest tid' hstart hholds hnext ih =>
    cases n with
    | zero => exact ⟨c.tid, k, Nat.le_refl _, .cons hstart hholds hnext⟩
    | succ n =>
      obtain ⟨tid₁, k₁, hle, hchain⟩ := ih n
      exact ⟨tid₁, k₁, by omega, hchain⟩

/-- Where one of these transactions is in the log. -/
theorem Chain.placed (h : Chain j log tid k cs tid' k') {i : Nat} {c : Committed}
    (hc : cs[i]? = some c) :
    ∃ m, k ≤ m ∧ m + (txnBlocks j c.tid c.txn).length ≤ k' ∧ c.logHead = j.cell m ∧
      c.logStart = j.cell (m + revokeLength j c.tid c.txn) ∧
      Holds j.toArea log m (txnBlocks j c.tid c.txn) := by
  induction h generalizing i with
  | nil => cases hc
  | @cons _ k _ _ _ hstart hholds hnext ih =>
    cases i with
    | zero =>
      cases hc
      have hle := hnext.length_le
      exact ⟨k, Nat.le_refl _, by omega, hstart.1, hstart.2, hholds⟩
    | succ i =>
      obtain ⟨m, hle, hrest⟩ := ih hc
      exact ⟨m, by omega, hrest⟩

/-- The transaction as it is found from `t_log_start` on. -/
def cut (c : Committed) : Committed :=
  ⟨c.tid, c.logStart, c.logStart, ⟨[], c.txn.buffers, fun _ _ => List.not_mem_nil, c.txn.junk⟩⟩

/-- The oldest transaction may be found without its revoke records. -/
inductive Seen : List Committed → List Committed → Prop
  | whole {cs : List Committed} : Seen cs cs
  | cut {c : Committed} {cs : List Committed} : Seen (cut c :: cs) (c :: cs)

theorem txnBlocks_cut (j : Journal) (c : Committed) : txnBlocks j c.tid c.txn =
    logBlocks (revokeChunks j c.tid c.txn) ++ txnBlocks j (cut c).tid (cut c).txn := by
  rw [txnBlocks, bodyChunks, List.append_assoc, logBlocks_append]
  rfl

theorem Seen.snoc {seen : List Committed} (h : Seen seen cs) (c : Committed) :
    Seen (seen ++ [c]) (cs ++ [c]) := by
  cases h with
  | whole => exact .whole
  | cut => exact .cut

theorem Seen.getElem? {seen : List Committed} (h : Seen seen cs) {i : Nat} {c : Committed}
    (hc : cs[i]? = some c) : seen[i]? = some c ∨ i = 0 ∧ ∃ rest, seen = Passes.cut c :: rest := by
  cases h with
  | whole => exact .inl hc
  | @cut _ rest =>
    cases i with
    | zero =>
      cases hc
      exact .inr ⟨rfl, rest, rfl⟩
    | succ i => exact .inl hc

theorem Seen.drop {seen : List Committed} (h : Seen seen cs) :
    seen.head?.map Committed.tid = cs.head?.map Committed.tid ∧
      ∀ n, seen.drop (n + 1) = cs.drop (n + 1) := by
  cases h with
  | whole => exact ⟨rfl, fun _ => rfl⟩
  | cut => exact ⟨rfl, fun _ => rfl⟩

/-- What is left when the oldest transactions are gone, from its `t_log_start` on. -/
theorem Chain.first (h : Chain j log tid k cs tid' k') :
    (cs.head?.map Committed.tid).getD tid' = tid ∧ ∃ k₁ seen, k ≤ k₁ ∧ Seen seen cs ∧
      (cs.head?.map Committed.logStart).getD (j.cell k') = j.cell k₁ ∧
      Chain j log tid k₁ seen tid' k' := by
  cases h with
  | nil => exact ⟨rfl, k, [], Nat.le_refl _, .whole, rfl, .nil⟩
  | @cons c _ _ rest _ hstart hholds hnext =>
    rw [txnBlocks_cut, Holds.append] at hholds
    rw [txnBlocks_cut, List.length_append, ← Nat.add_assoc] at hnext
    exact ⟨rfl, _, cut c :: rest, Nat.le_add_right _ _, .cut, hstart.2,
      .cons (c := cut c) ⟨hstart.2, hstart.2⟩ hholds.2 hnext⟩

/-- A pass goes through whole transactions, in no more turns than they have blocks. -/
theorem doOnePass_chain (pass : Pass) (h : Chain j log tid k cs tid' k') (htid : r.nextCommitId = tid)
    (hr : r.nextLogBlock = j.cell k) (hlen : k' ≤ k + j.size)
    (hgo : pass = .scan ∨ ∀ c ∈ cs, tidGeq c.tid e = false) :
    ∃ m, m ≤ k' - k ∧ ∀ n, doOnePass j log pass e (m + n) r =
      doOnePass j log pass e n (afterTxns pass cs tid' (j.cell k') r) := by
  induction h generalizing r with
  | nil =>
    refine ⟨0, Nat.zero_le _, ?_⟩
    intro n
    simp [afterTxns, ← htid, ← hr]
  | @cons c k k' rest tid' hstart hholds hnext ih =>
    have hpos := txnBlocks_pos j c.tid c.txn
    have hle := hnext.length_le
    have hgo' : pass = .scan ∨ tidGeq c.tid e = false :=
      hgo.imp_right fun hall => hall c List.mem_cons_self
    obtain ⟨m, hm, hwalk⟩ := ih
      (r := afterTxn pass c (j.cell (k + (txnBlocks j c.tid c.txn).length)) r) rfl rfl (by omega)
      (hgo.imp_right fun hall c' hc' => hall c' (List.mem_cons_of_mem _ hc'))
    refine ⟨(bodyChunks j c.tid c.txn).length + 1 + m, by omega, ?_⟩
    intro n
    have hturns : (bodyChunks j c.tid c.txn).length + 1 + m + n =
        (bodyChunks j c.tid c.txn).length + (m + n + 1) := by omega
    rw [hturns, doOnePass_txn htid hr hholds (by omega) hgo', hwalk]
    cases pass <;> rfl

/-- The first pass stops inside a transaction of which any blocks may be missing. -/
theorem scan_torn {cs : List Chunk} {xs : List Content}
    (hsaid : List.Forall₂ (Says j r.nextCommitId) cs xs) (hbody : ∀ x ∈ xs, x.inBody)
    (hr : r.nextLogBlock = j.cell k) (hlen : (logBlocks cs).length ≤ j.size)
    (hlog : ∀ i b, (logBlocks cs)[i]? = some b →
      log (j.cell (k + i)) = b ∨ Foreign r.nextCommitId (log (j.cell (k + i))))
    (hend : Foreign r.nextCommitId (log (j.cell (k + (logBlocks cs).length))))
    (hn : cs.length < n) :
    ∃ r', doOnePass j log .scan e n r = some r' ∧ r'.nextCommitId = r.nextCommitId := by
  induction cs generalizing xs r k n with
  | nil =>
    refine ⟨r, doOnePass_stop (passTurn_stop ?_) hn, rfl⟩
    rw [hr]
    exact hend
  | cons c cs ih =>
    cases hsaid with
    | @cons _ x _ xs hx hxs =>
    rw [logBlocks_cons] at hlog hend
    rw [logBlocks_cons, List.length_cons, List.length_append] at hlen
    obtain hhere | hforeign := hlog 0 c.control rfl
    · obtain ⟨n, rfl⟩ : ∃ m, n = m + 1 := ⟨n - 1, by omega⟩
      have hdata : Pass.scan = .replay → Holds j.toArea log (k + 1) c.data := by
        intro hpass
        cases hpass
      have hturn : passTurn j log .scan e r = _ :=
        passTurn_said hx hr hhere hdata (by omega) (.inl rfl)
      have htid : (x.follow .scan (j.cell (k + 1 + c.data.length)) r).nextCommitId =
          r.nextCommitId := if_pos (hbody x List.mem_cons_self)
      rw [doOnePass_turn hturn, ← htid]
      have hshift : ∀ i, k + 1 + c.data.length + i = k + (1 + (c.data.length + i)) := by
        intro i
        omega
      refine ih (htid ▸ hxs) (fun y hy => hbody y (List.mem_cons_of_mem _ hy)) rfl (by omega) ?_ ?_
        (by rw [List.length_cons] at hn; omega)
      · intro i b hb
        rw [htid, hshift]
        refine hlog _ b ?_
        rw [Nat.add_comm 1, List.getElem?_cons_succ, List.getElem?_append_right (by omega)]
        simpa using hb
      · rw [htid, hshift]
        have hlast : 1 + (c.data.length + (logBlocks cs).length) =
            (c.control :: (c.data ++ logBlocks cs)).length := by
          rw [List.length_cons, List.length_append]
          omega
        rw [hlast]
        exact hend
    · refine ⟨r, doOnePass_stop (passTurn_stop ?_) (by omega), rfl⟩
      rw [hr]
      exact hforeign

end Walk
/-! ## Which blocks are skipped -/

/-- Later transactions have later numbers, as the words compare them. -/
def Ordered (cs : List Committed) : Prop := cs.Pairwise fun c c' => tidGt c'.tid c.tid = true

/-- A block is revoked in one of these transactions. -/
def Revoked (b : Word) (cs : List Committed) : Prop := ∃ c ∈ cs, b ∈ c.txn.revokes

theorem tidGt_irrefl (x : Word) : tidGt x x = false := by
  simp [tidGt]

theorem tidGt_asymm {x y : Word} (h : tidGt x y = true) : tidGt y x = false := by
  simp only [tidGt, decide_eq_true_eq, decide_eq_false_iff_not] at h ⊢
  have hneg : y - x = -(x - y) := by bv_omega
  have hlt := BitVec.two_mul_toInt_lt (x := x - y)
  rw [hneg, BitVec.toInt_neg, Int.bmod_eq_of_le (by omega) (by omega)]
  omega

/-- The words over which the numbers of transactions are compared. -/
def tidRange : Nat := 0x80000000

theorem tid_sub_toInt (x : Word) {i n : Nat} (hi : i < tidRange) (hn : n < tidRange) :
    ((x + BitVec.ofNat 32 i) - (x + BitVec.ofNat 32 n)).toInt = (i : Int) - n := by
  have hsub : (x + BitVec.ofNat 32 i) - (x + BitVec.ofNat 32 n) =
      BitVec.ofNat 32 i - BitVec.ofNat 32 n := by bv_omega
  have hself : ∀ m : Nat, m < tidRange → (BitVec.ofNat 32 m).toInt = m := by
    intro m hm
    unfold tidRange at hm
    rw [BitVec.toInt_ofNat', Int.bmod_eq_of_le (by omega) (by omega)]
  rw [hsub, BitVec.toInt_sub, hself i hi, hself n hn]
  unfold tidRange at hi hn
  exact Int.bmod_eq_of_le (by omega) (by omega)

theorem Chain.tid_eq {j : Journal} {log : Nat → Block} {tid tid' : Word} {k k' : Nat}
    {cs : List Committed} (h : Chain j log tid k cs tid' k') :
    tid' = tid + BitVec.ofNat 32 cs.length ∧
      ∀ i c, cs[i]? = some c → c.tid = tid + BitVec.ofNat 32 i := by
  induction h with
  | nil => exact ⟨by simp, by simp⟩
  | @cons c k k' rest tid' hstart hholds hnext ih =>
    obtain ⟨hend, htids⟩ := ih
    have hsucc : ∀ n : Nat, c.tid + 1 + BitVec.ofNat 32 n = c.tid + BitVec.ofNat 32 (n + 1) := by
      intro n
      rw [BitVec.ofNat_add, BitVec.add_assoc]
      congr 1
      exact BitVec.add_comm _ _
    refine ⟨hend.trans (hsucc _), ?_⟩
    intro i c' hc'
    cases i with
    | zero =>
      obtain rfl : c = c' := by simpa using hc'
      simp
    | succ i => exact (htids i c' (by simpa using hc')).trans (hsucc i)

section Numbers
variable {j : Journal} {log : Nat → Block} {tid tid' : Word} {k k' : Nat} {cs : List Committed}

theorem Chain.ordered (h : Chain j log tid k cs tid' k') (hlen : cs.length < tidRange) :
    Ordered cs := by
  refine List.pairwise_iff_getElem.mpr ?_
  intro i n hi hn hlt
  rw [h.tid_eq.2 i _ (List.getElem?_eq_getElem hi), h.tid_eq.2 n _ (List.getElem?_eq_getElem hn)]
  simp only [tidGt, decide_eq_true_eq]
  rw [tid_sub_toInt tid (by omega) (by omega)]
  omega

theorem Chain.before_end (h : Chain j log tid k cs tid' k') (hlen : cs.length < tidRange) :
    ∀ c ∈ cs, tidGeq c.tid tid' = false := by
  intro c hc
  obtain ⟨i, hi, rfl⟩ := List.getElem_of_mem hc
  rw [h.tid_eq.2 i _ (List.getElem?_eq_getElem hi), h.tid_eq.1]
  simp only [tidGeq, decide_eq_false_iff_not]
  rw [tid_sub_toInt tid (by omega) hlen]
  omega

end Numbers

/-- A record is as new as the ones before it. -/
def NotAfter (sequence : Word) (table : RevokeTable) : Prop :=
  ∀ b t, table b = some t → t = sequence ∨ tidGt sequence t = true

theorem journalSetRevoke_eq {sequence : Word} {table : RevokeTable} (h : NotAfter sequence table)
    (b : Word) : journalSetRevoke sequence table b = update table b (some sequence) := by
  unfold journalSetRevoke
  cases hrec : table b with
  | none => rfl
  | some t =>
    obtain rfl | hgt := h b t hrec
    · simp only [tidGt_irrefl]
      exact (update_eq_self_iff.mpr hrec.symm).symm
    · simp [hgt]

theorem setRevokes {sequence : Word} (blocks : List Word) {table : RevokeTable}
    (h : NotAfter sequence table) (b : Word) :
    (blocks.foldl (journalSetRevoke sequence) table) b =
      if b ∈ blocks then some sequence else table b := by
  induction blocks generalizing table with
  | nil => simp
  | cons x blocks ih =>
    have hset : NotAfter sequence (update table x (some sequence)) := by
      intro b t ht
      rw [update_apply] at ht
      split at ht
      · exact .inl (Option.some.inj ht).symm
      · exact h b t ht
    rw [List.foldl_cons, journalSetRevoke_eq h, ih hset, update_apply]
    by_cases hx : b = x <;> simp [hx]

/-- The last of these transactions that revokes the block. -/
def lastRevoke (b : Word) : List Committed → Option Word
  | [] => none
  | c :: cs => (lastRevoke b cs).or (if b ∈ c.txn.revokes then some c.tid else none)

theorem lastRevoke_none {b : Word} {cs : List Committed} :
    lastRevoke b cs = none ↔ ¬ Revoked b cs := by
  induction cs with
  | nil => simp [lastRevoke, Revoked]
  | cons c cs ih =>
    rw [lastRevoke, Option.or_eq_none_iff, ih]
    simp [Revoked, and_comm]

theorem lastRevoke_mem {b t : Word} {cs : List Committed} (h : lastRevoke b cs = some t) :
    ∃ c ∈ cs, c.tid = t := by
  induction cs with
  | nil => simp [lastRevoke] at h
  | cons c cs ih =>
    rw [lastRevoke, Option.or_eq_some_iff] at h
    obtain h | ⟨-, h⟩ := h
    · obtain ⟨c', hc', ht⟩ := ih h
      exact ⟨c', List.mem_cons_of_mem _ hc', ht⟩
    · split at h
      · exact ⟨c, List.mem_cons_self, Option.some.inj h⟩
      · cases h

theorem lastRevoke_append (b : Word) (cs cs' : List Committed) :
    lastRevoke b (cs ++ cs') = (lastRevoke b cs').or (lastRevoke b cs) := by
  induction cs with
  | nil => simp [lastRevoke]
  | cons c cs ih => rw [List.cons_append, lastRevoke, ih, lastRevoke, Option.or_assoc]

theorem foldl_revokeTxn {cs : List Committed} {table : RevokeTable} (hord : Ordered cs)
    (hold : ∀ b t, table b = some t → ∀ c ∈ cs, tidGt c.tid t = true) (b : Word) :
    cs.foldl revokeTxn table b = (lastRevoke b cs).or (table b) := by
  induction cs generalizing table with
  | nil => simp [lastRevoke]
  | cons c cs ih =>
    obtain ⟨hfirst, hrest⟩ := List.pairwise_cons.mp hord
    have hnot : NotAfter c.tid table := fun b t ht => .inr (hold b t ht c List.mem_cons_self)
    have hset : ∀ b, revokeTxn table c b = if b ∈ c.txn.revokes then some c.tid else table b :=
      setRevokes _ hnot
    rw [List.foldl_cons, ih hrest, lastRevoke, hset, Option.or_assoc]
    · congr 1
      split <;> simp
    · intro b t ht c' hc'
      rw [hset] at ht
      split at ht
      · rw [← Option.some.inj ht]
        exact hfirst c' hc'
      · exact hold b t ht c' (List.mem_cons_of_mem _ hc')

/-- A block of a transaction is skipped when that transaction or a later one revokes it. -/
theorem journalTestRevoke_iff {pre post : List Committed} {c : Committed} {table : RevokeTable}
    (hord : Ordered (pre ++ c :: post)) {b : Word}
    (htable : table b = lastRevoke b (pre ++ c :: post)) :
    journalTestRevoke table b c.tid = true ↔ Revoked b (c :: post) := by
  obtain ⟨-, hsuf, hcross⟩ := List.pairwise_append.mp hord
  rw [lastRevoke_append] at htable
  unfold journalTestRevoke
  cases hlast : lastRevoke b (c :: post) with
  | none =>
    -- only an earlier transaction can have left a record
    rw [hlast, Option.none_or] at htable
    rw [htable]
    have hnot := lastRevoke_none.mp hlast
    cases hpre : lastRevoke b pre with
    | none => simpa using hnot
    | some t =>
      obtain ⟨c', hc', rfl⟩ := lastRevoke_mem hpre
      simpa [hcross c' hc' c List.mem_cons_self] using hnot
  | some t =>
    rw [hlast, Option.some_or] at htable
    rw [htable]
    have hyes : Revoked b (c :: post) := by
      by_contra hno
      rw [lastRevoke_none.mpr hno] at hlast
      cases hlast
    obtain ⟨c', hc', rfl⟩ := lastRevoke_mem hlast
    have hgt : tidGt c.tid c'.tid = false := by
      rcases List.mem_cons.mp hc' with rfl | hc'
      · exact tidGt_irrefl _
      · exact tidGt_asymm ((List.pairwise_cons.mp hsuf).1 c' hc')
    simpa [hgt] using hyes

end CustomKernel.Jbd.Passes

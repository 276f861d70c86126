import CustomKernel.Lib.Tape
import CustomKernel.Lib.Transition

/-! # The log that a commit writes

A transaction goes to the log as its revoke records, its blocks behind descriptor blocks that say
where they belong, and a commit block. A block that starts with the magic number of the journal is
logged with its first word cleared, and its tag says so. The log is a ring of blocks: the head moves
as blocks are taken, and the tail when a checkpoint has written the oldest transactions home. -/
namespace CustomKernel.Jbd.Commit
open Lib.Tape Function

abbrev Word := BitVec 32

/-- The contents of a block: the word at each byte offset that four divides, as `ntohl` reads it. -/
abbrev Block := Nat → Word

def jfsMagicNumber : Word := 0xc03b3998

/-! ## The format -/

def jfsDescriptorBlock : Word := 1
def jfsCommitBlock : Word := 2
def jfsRevokeBlock : Word := 5

def jfsFlagEscape : Word := 1
def jfsFlagSameUuid : Word := 2
def jfsFlagLastTag : Word := 8

def headerBytes : Nat := 12

def revokeHeaderBytes : Nat := 16

def tagBytes : Nat := 8

/-- A journal: its log lies in the blocks from `j_first` up to `j_last`, behind the superblock. -/
structure Journal extends Area where
  blocksize : Nat
  /-- `s_uuid`, by words -/
  uuid : Nat → Word
  behind : 0 < first
  large : 1024 ≤ blocksize
  small : blocksize ≤ 4096
  aligned : 4 ∣ blocksize

def putHeader (blocktype tid : Word) (b : Block) : Block :=
  update (update (update b 0 jfsMagicNumber) 4 blocktype) 8 tid

/-- A metadata buffer of a transaction. -/
structure Buffer where
  blocknr : Word
  data : Block

/-- What a commit has to log. `journal_forget` takes a block that is revoked out of the transaction,
and `journal_cancel_revoke` drops the record of one that comes back. `junk` is what the fresh
buffers of the log hold, by the type of block that is made there and the number of things yet to
be logged. -/
structure Txn where
  revokes : List Word
  buffers : List Buffer
  apart : ∀ b ∈ buffers, b.blocknr ∉ revokes
  junk : Word → Nat → Block

/-- A block that the journal makes, and the data blocks that follow it in the log. -/
structure Chunk where
  control : Block
  data : List Block

/-! ## Revoke records (`revoke.c`) -/

structure RevokeDescriptor where
  block : Block
  offset : Nat

def newRevokeDescriptor (tid : Word) (junk : Block) : RevokeDescriptor :=
  ⟨putHeader jfsRevokeBlock tid junk, revokeHeaderBytes⟩

def RevokeDescriptor.put (r : RevokeDescriptor) (blocknr : Word) : RevokeDescriptor :=
  ⟨update r.block r.offset blocknr, r.offset + 4⟩

def flushDescriptor (r : RevokeDescriptor) : Chunk :=
  ⟨update r.block 12 (BitVec.ofNat 32 r.offset), []⟩

/-- `write_one_revoke_record`: what it flushes, and the descriptor it leaves open. -/
def writeOneRevokeRecord (j : Journal) (tid : Word) (junk : Block) (blocknr : Word) :
    Option RevokeDescriptor → List Chunk × RevokeDescriptor
  | none => ([], (newRevokeDescriptor tid junk).put blocknr)
  | some r =>
    if r.offset = j.blocksize then
      ([flushDescriptor r], (newRevokeDescriptor tid junk).put blocknr)
    else ([], r.put blocknr)

/-- `journal_write_revoke_records`, with the descriptor that is open. -/
def journalWriteRevokeRecords (j : Journal) (tid : Word) (junk : Nat → Block) :
    Option RevokeDescriptor → List Word → List Chunk
  | none, [] => []
  | some r, [] => [flushDescriptor r]
  | descriptor, blocknr :: rest =>
    let w := writeOneRevokeRecord j tid (junk rest.length) blocknr descriptor
    w.1 ++ journalWriteRevokeRecords j tid junk (some w.2) rest

/-! ## Metadata buffers (`commit.c`) -/

/-- `journal_write_metadata_buffer`: whether the block is escaped, and what goes to the log. -/
def journalWriteMetadataBuffer (b : Buffer) : Bool × Block :=
  if b.data 0 = jfsMagicNumber then (true, update b.data 0 0) else (false, b.data)

/-- The variables of the metadata phase while a descriptor is open. -/
structure Descriptor where
  block : Block
  tagp : Nat
  spaceLeft : Nat
  firstTag : Bool
  bufs : Nat
  data : List Block

def newDescriptor (j : Journal) (tid : Word) (junk : Block) : Descriptor :=
  ⟨putHeader jfsDescriptorBlock tid junk, headerBytes, j.blocksize - headerBytes, true, 1, []⟩

def putUuid (j : Journal) (offset : Nat) (b : Block) : Block := fun n =>
  if offset ≤ n ∧ n < offset + 16 then j.uuid ((n - offset) / 4) else b n

/-- The tag of a buffer, the UUID after the first one. -/
def addTag (j : Journal) (d : Descriptor) (b : Buffer) : Descriptor :=
  let logged := journalWriteMetadataBuffer b
  let tagFlag := (if logged.1 then jfsFlagEscape else 0) |||
    (if d.firstTag then 0 else jfsFlagSameUuid)
  let block := update (update d.block d.tagp b.blocknr) (d.tagp + 4) tagFlag
  if d.firstTag then
    { block := putUuid j (d.tagp + tagBytes) block, tagp := d.tagp + tagBytes + 16,
      spaceLeft := d.spaceLeft - tagBytes - 16, firstTag := false, bufs := d.bufs + 1,
      data := d.data ++ [logged.2] }
  else
    { block, tagp := d.tagp + tagBytes, spaceLeft := d.spaceLeft - tagBytes, firstTag := false,
      bufs := d.bufs + 1, data := d.data ++ [logged.2] }

/-- `tag->t_flags |= htonl(JFS_FLAG_LAST_TAG)`, and the blocks are submitted. -/
def submit (d : Descriptor) (tag : Nat) : Chunk :=
  ⟨update d.block (tag + 4) (d.block (tag + 4) ||| jfsFlagLastTag), d.data⟩

/-- `ARRAY_SIZE(wbuf)` -/
def wbufSize : Nat := 64

/-- The loop of the metadata phase, with the descriptor that is open. -/
def writeBuffers (j : Journal) (tid : Word) (junk : Nat → Block) :
    Option Descriptor → List Buffer → List Chunk
  | _, [] => []
  | descriptor, b :: rest =>
    let d := descriptor.getD (newDescriptor j tid (junk rest.length))
    let d' := addTag j d b
    if d'.bufs = wbufSize ∨ rest.isEmpty ∨ d'.spaceLeft < tagBytes + 16 then
      submit d' d.tagp :: writeBuffers j tid junk none rest
    else writeBuffers j tid junk (some d') rest

/-! ## The log -/

/-- The first phase of a commit. -/
def revokeChunks (j : Journal) (tid : Word) (t : Txn) : List Chunk :=
  journalWriteRevokeRecords j tid (t.junk jfsRevokeBlock) none t.revokes

/-- What is on the disk before the commit block is written. -/
def bodyChunks (j : Journal) (tid : Word) (t : Txn) : List Chunk :=
  revokeChunks j tid t ++ writeBuffers j tid (t.junk jfsDescriptorBlock) none t.buffers

def commitChunk (tid : Word) (t : Txn) : Chunk :=
  ⟨putHeader jfsCommitBlock tid (t.junk jfsCommitBlock 0), []⟩

def logBlocks (cs : List Chunk) : List Block := cs.flatMap fun c => c.control :: c.data

/-- The blocks of a transaction, in the order in which they take blocks of the log. -/
def txnBlocks (j : Journal) (tid : Word) (t : Txn) : List Block :=
  logBlocks (bodyChunks j tid t ++ [commitChunk tid t])

/-- A transaction whose blocks in the log are not free yet. `logHead` is where its first block is,
and `logStart` is `t_log_start`. -/
structure Committed where
  tid : Word
  logHead : Nat
  logStart : Nat
  txn : Txn

structure Log where
  blocks : Nat → Block
  head : Nat
  tail : Nat
  free : Nat
  transactionSequence : Word
  tailSequence : Word
  live : List Committed

/-- The log after `journal_reset`. -/
def journalReset (j : Journal) (blocks : Nat → Block) (tid : Word) : Log :=
  ⟨blocks, j.first, j.first, j.size, tid, tid, []⟩

/-- `t_log_start` is taken from the head when the revoke records are written. -/
def journalCommitTransaction (j : Journal) (t : Txn) (s : Log) : Log :=
  let revoked := (logBlocks (revokeChunks j s.transactionSequence t)).map some
  let ws := txnBlocks j s.transactionSequence t
  let laid := lay j.toArea (ws.map some) s.blocks s.head
  { s with
    blocks := laid.1, head := laid.2, free := s.free - ws.length,
    transactionSequence := s.transactionSequence + 1,
    live := s.live ++
      [⟨s.transactionSequence, s.head, (lay j.toArea revoked s.blocks s.head).2, t⟩] }

/-- `cleanup_journal_tail`, when a checkpoint has dropped the `n` oldest transactions. The superblock
is written with the new tail. -/
def cleanupJournalTail (j : Journal) (n : Nat) (s : Log) : Log :=
  let rest := s.live.drop n
  let firstTid := (rest.head?.map Committed.tid).getD s.transactionSequence
  let blocknr := (rest.head?.map Committed.logStart).getD s.head
  if s.tailSequence = firstTid then s
  else
    let freed := if blocknr < s.tail then blocknr + j.size - s.tail else blocknr - s.tail
    { s with free := s.free + freed, tailSequence := firstTid, tail := blocknr, live := rest }

/-- The log on the disk after a crash in the middle of a commit: each block of the transaction may
have been written, except the commit block, which waits for the others. -/
def crashed (j : Journal) (t : Txn) (written : Nat → Bool) (s : Log) : Nat → Block :=
  (lay j.toArea ((logBlocks (bodyChunks j s.transactionSequence t)).mapIdx fun i b =>
    if written i then some b else none) s.blocks s.head).1

inductive Event
  | commit (t : Txn)
  | checkpoint (n : Nat)

/-- `J_ASSERT(journal->j_free > 1)` at each block that is taken. -/
def Fits (j : Journal) (t : Txn) (s : Log) : Prop :=
  (txnBlocks j s.transactionSequence t).length < s.free

instance (j : Journal) (t : Txn) (s : Log) : Decidable (Fits j t s) :=
  inferInstanceAs (Decidable (_ < _))

inductive Step (j : Journal) (s : Log) : Event → Log → Prop
  | commit {t : Txn} (h : Fits j t s) : Step j s (.commit t) (journalCommitTransaction j t s)
  | checkpoint {n : Nat} : Step j s (.checkpoint n) (cleanupJournalTail j n s)

end CustomKernel.Jbd.Commit

import CustomKernel.Jbd.Commit

/-! # Recovery from the log (`fs/jbd/recovery.c`)

Three passes read the log from the tail on: the first finds its end, the second collects the revoke
records, and the third copies the logged blocks home. The revoke table is a function of the block
number, and the passes run without an I/O error. -/
namespace CustomKernel.Jbd.Recovery
open Jbd.Commit Function

def tidGt (x y : Word) : Bool := decide (0 < (x - y).toInt)
def tidGeq (x y : Word) : Bool := decide (0 ≤ (x - y).toInt)

/-! ## Revoke records -/

abbrev RevokeTable := Word → Option Word

def journalSetRevoke (sequence : Word) (table : RevokeTable) (blocknr : Word) : RevokeTable :=
  match table blocknr with
  | some record => if tidGt sequence record then update table blocknr (some sequence) else table
  | none => update table blocknr (some sequence)

def journalTestRevoke (table : RevokeTable) (blocknr sequence : Word) : Bool :=
  match table blocknr with
  | none => false
  | some record => !tidGt sequence record

/-- The loop of `scan_revoke_records`, for so many turns at most. -/
def scanRevokeRecords (bh : Block) (sequence : Word) : Nat → Nat → RevokeTable → RevokeTable
  | 0, _, table => table
  | turns + 1, offset, table =>
    if (offset : Int) < (bh 12).toInt then
      scanRevokeRecords bh sequence turns (offset + 4) (journalSetRevoke sequence table (bh offset))
    else table

/-! ## Descriptors -/

/-- `tagp` after a tag with these flags. -/
def nextTag (tagp : Nat) (flags : Word) : Nat :=
  tagp + tagBytes + if flags &&& jfsFlagSameUuid = 0 then 16 else 0

/-- The loop of `count_tags`, for so many turns at most. -/
def countTags (j : Journal) (bh : Block) : Nat → Nat → Nat
  | 0, _ => 0
  | turns + 1, tagp =>
    if tagp + tagBytes ≤ j.blocksize then
      let flags := bh (tagp + 4)
      if flags &&& jfsFlagLastTag = 0 then 1 + countTags j bh turns (nextTag tagp flags) else 1
    else 0

/-- What a pass keeps: its place in the log, the revoke table, and the blocks of the file system. -/
structure State where
  nextCommitId : Word
  nextLogBlock : Nat
  revoked : RevokeTable
  fs : Word → Block

/-- One block is copied home. An escaped block gets its magic number back in `bh`, the buffer of the
descriptor, and not in the buffer of the block. -/
def replayTag (j : Journal) (log : Nat → Block) (blocknr flags : Word) (bh : Block) (r : State) :
    Block × State :=
  let r' := { r with nextLogBlock := j.wrap (r.nextLogBlock + 1) }
  if journalTestRevoke r.revoked blocknr r.nextCommitId then (bh, r')
  else
    (if flags &&& jfsFlagEscape = 0 then bh else update bh 0 jfsMagicNumber,
      { r' with fs := update r.fs blocknr (log r.nextLogBlock) })

/-- The loop over the tags of a descriptor in the replay pass, for so many turns at most. -/
def replayTags (j : Journal) (log : Nat → Block) : Nat → Nat → Block → State → State
  | 0, _, _, r => r
  | turns + 1, tagp, bh, r =>
    if tagp + tagBytes ≤ j.blocksize then
      let flags := bh (tagp + 4)
      let w := replayTag j log (bh tagp) flags bh r
      if flags &&& jfsFlagLastTag = 0 then replayTags j log turns (nextTag tagp flags) w.1 w.2
      else w.2
    else r

/-! ## The passes -/

inductive Pass
  | scan
  | revoke
  | replay
  deriving DecidableEq

/-- The `switch` of `do_one_pass`, on a block of the transaction that it expects; `none` at a block
of no known type. `r` is past the block. -/
def passBlock (j : Journal) (log : Nat → Block) (pass : Pass) (bh : Block) (r : State) :
    Option State :=
  if bh 4 = jfsDescriptorBlock then
    if pass = .replay then some (replayTags j log j.blocksize headerBytes bh r)
    else
      some { r with
        nextLogBlock := j.wrap (r.nextLogBlock + countTags j bh j.blocksize headerBytes) }
  else if bh 4 = jfsCommitBlock then some { r with nextCommitId := r.nextCommitId + 1 }
  else if bh 4 = jfsRevokeBlock then
    if pass = .revoke then
      some { r with
        revoked := scanRevokeRecords bh r.nextCommitId (bh 12).toNat revokeHeaderBytes r.revoked }
    else some r
  else none

/-- One turn of the loop of `do_one_pass`; `none` where it leaves the loop. -/
def passTurn (j : Journal) (log : Nat → Block) (pass : Pass) (endTransaction : Word)
    (r : State) : Option State :=
  if pass ≠ .scan ∧ tidGeq r.nextCommitId endTransaction then none
  else
    let bh := log r.nextLogBlock
    if bh 0 ≠ jfsMagicNumber then none
    else if bh 8 ≠ r.nextCommitId then none
    else passBlock j log pass bh { r with nextLogBlock := j.wrap (r.nextLogBlock + 1) }

/-- The loop of `do_one_pass`; `none` when it is not over after so many turns. -/
def doOnePass (j : Journal) (log : Nat → Block) (pass : Pass) (endTransaction : Word) :
    Nat → State → Option State
  | 0, _ => none
  | turns + 1, r =>
    match passTurn j log pass endTransaction r with
    | none => some r
    | some r' => doOnePass j log pass endTransaction turns r'

/-- The fields of the superblock that recovery starts from. -/
structure Superblock where
  start : Nat
  sequence : Word

def eio : Int := -5

/-- `journal_recover`: its return value and the file system's blocks. -/
def journalRecover (j : Journal) (log : Nat → Block) (sb : Superblock) (turns : Nat)
    (fs : Word → Block) : Option (Int × (Word → Block)) :=
  if sb.start = 0 then some (0, fs)
  else
    let r : State := ⟨sb.sequence, sb.start, fun _ => none, fs⟩
    (doOnePass j log .scan 0 turns r).bind fun scanned =>
      (doOnePass j log .revoke scanned.nextCommitId turns r).bind fun collected =>
        if collected.nextCommitId ≠ scanned.nextCommitId then some (eio, fs)
        else
          (doOnePass j log .replay scanned.nextCommitId turns
            { r with revoked := collected.revoked }).map fun replayed =>
            (if replayed.nextCommitId ≠ scanned.nextCommitId then eio else 0, replayed.fs)

end CustomKernel.Jbd.Recovery

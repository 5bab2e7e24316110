import Xv6Rust.Runs

/-!
# The write-ahead log in memory

The in-memory part of `fs/log.rs`: the log header, the counters that admit and
end file system operations, and the sections that run under the log's spin
lock. Disk traffic of a commit is modelled with the block device; here a commit
is what it leaves in memory. Every panic of the source is a value of `LogPanic`.
-/

namespace Xv6Rust.LogMemory

/-- `MAXOPBLOCKS`: blocks one file system operation may write. -/
def maxOpBlocks : ℕ := 10

/-- `LOGSIZE`: blocks of the log area, its header block included. -/
def logSize : ℕ := maxOpBlocks*3

/-- `LogHeader`: the block numbers recorded by the current group. -/
structure LogHeader where
  /-- Number of recorded blocks. -/
  len : ℕ
  /-- Home block numbers; the entries from `len` on are stale. -/
  blocknos : Vector UInt32 (logSize-1)
  deriving DecidableEq

/-- The recorded block numbers `blocknos[0..len]`. -/
def LogHeader.entries (lh : LogHeader) : List UInt32 := lh.blocknos.toList.take lh.len

/-- `Log`: position of the log area, admission counters and the header. -/
structure Log where
  /-- First block of the log area; it holds the header. -/
  start : ℕ
  /-- Blocks of the log area according to the superblock. -/
  size : ℕ
  /-- Device number. -/
  dev : ℕ
  /-- Operations between their `begin_op` and their `end_op`. -/
  outstanding : ℕ
  /-- A commit is running; no operation may start. -/
  committing : Bool
  /-- Header of the current group. -/
  lh : LogHeader
  deriving DecidableEq

/-- The panics of the log, in source order. -/
inductive LogPanic where
  /-- `committing while the committing flag is not set`. -/
  | commitFlagNotSet
  /-- `not enough space for ongoing transactions`. -/
  | noSpaceOngoing
  /-- `this log write is out of recording`. -/
  | outOfRecording
  /-- `not enough space for this transaction`. -/
  | noSpaceThis
  /-- Arithmetic underflow of `outstanding`. -/
  | outstandingUnderflow
  /-- `end fs op while the log is committing`. -/
  | endWhileCommitting
  deriving DecidableEq

/-- One pass of the `begin_op` loop under the lock; `none` goes to sleep. -/
def beginOp (log : Log) : Option Log :=
  if log.committing=true ∨ 1+log.lh.len+(log.outstanding+1)*maxOpBlocks>logSize then none
  else some {log with outstanding := log.outstanding+1}

/-- Append a block number to the header. -/
def LogHeader.push (lh : LogHeader) (blockno : UInt32) : LogHeader :=
  ⟨lh.len+1,lh.blocknos.setIfInBounds lh.len blockno⟩

/-- `LOG.write`: record a block number, absorbing one that is already recorded.
The flag of the result says that the buffer was pinned. -/
def write (log : Log) (blockno : UInt32) : Except LogPanic (Log×Bool) :=
  if log.lh.len+1≥logSize ∨ log.lh.len+1≥log.size then .error .noSpaceOngoing
  else if log.outstanding<1 then .error .outOfRecording
  else if blockno∈log.lh.entries then .ok (log,false)
  else if log.lh.len+2≥logSize ∨ log.lh.len+2≥log.size then .error .noSpaceThis
  else .ok ({log with lh := log.lh.push blockno},true)

/-- First locked section of `end_op`. The flag says that this caller commits. -/
def endOp (log : Log) : Except LogPanic (Log×Bool) :=
  if log.outstanding=0 then .error .outstandingUnderflow
  else if log.committing=true then .error .endWhileCommitting
  else if log.outstanding-1=0 then .ok ({log with outstanding := 0,committing := true},true)
  else .ok ({log with outstanding := log.outstanding-1},false)

/-- What `commit` leaves in memory: a non-empty header is written, installed
and emptied. -/
def commit (log : Log) : Except LogPanic Log :=
  if log.committing=false then .error .commitFlagNotSet
  else if log.lh.len>0 then .ok {log with lh := {log.lh with len := 0}}
  else .ok log

/-- Last locked section of `end_op`, after the commit. -/
def endCommit (log : Log) : Log := {log with committing := false}

/-- An admitted operation found the log idle and its reservation within the
log size, and is counted. -/
theorem beginOp_eq_some {log log' : Log} (h : beginOp log=some log') :
    log.committing=false ∧ 1+log.lh.len+(log.outstanding+1)*maxOpBlocks≤logSize ∧
      log'={log with outstanding := log.outstanding+1} := by
  unfold beginOp at h
  split at h
  · cases h
  · rename_i hc
    rw [not_or,Bool.not_eq_true] at hc
    cases h
    exact ⟨hc.1,by omega,rfl⟩

/-- The recorded numbers are at most `len` many. -/
theorem entries_length_le (lh : LogHeader) : lh.entries.length≤lh.len := by
  rw [LogHeader.entries,List.length_take]
  exact Nat.min_le_left _ _

/-- The recorded numbers are those of the slots below the length. -/
theorem entries_getElem? {lh : LogHeader} {i : ℕ} (h : i<lh.len) :
    lh.entries[i]?=lh.blocknos[i]? := by
  rw [LogHeader.entries,List.getElem?_take_of_lt h,Vector.getElem?_toList]

/-- An entry lies below the length. -/
theorem lt_len_of_entry {lh : LogHeader} {j : ℕ} {e : UInt32} (h : lh.entries[j]?=some e) :
    j<lh.len :=
  Nat.lt_of_lt_of_le (List.getElem?_eq_some_iff.mp h).1 (entries_length_le lh)

/-- Appending below the capacity adds one entry at the end. -/
theorem push_entries {lh : LogHeader} (blockno : UInt32) (h : lh.len<logSize-1) :
    (lh.push blockno).entries=lh.entries++[blockno] := by
  have hl : lh.len<lh.blocknos.toList.length := by simpa using h
  simp only [LogHeader.push,LogHeader.entries,Vector.toList_setIfInBounds]
  rw [List.take_succ_eq_append_getElem (by simpa using hl)]
  rw [List.take_set_of_le (Nat.le_refl _),List.getElem_set_self]

/-- Everything a write without panic can do: absorb a recorded block, or record
a new one while a slot is left. -/
theorem write_eq_ok {log log' : Log} {blockno : UInt32} {pinned : Bool}
    (h : write log blockno=.ok (log',pinned)) :
    (blockno∈log.lh.entries ∧ log'=log ∧ pinned=false) ∨
      (blockno∉log.lh.entries ∧ log.lh.len+2<logSize ∧ log.lh.len+2<log.size ∧
        log'={log with lh := log.lh.push blockno} ∧ pinned=true) := by
  unfold write at h
  split at h
  · cases h
  split at h
  · cases h
  split at h
  · rename_i hm
    cases h
    exact .inl ⟨hm,rfl,rfl⟩
  split at h
  · cases h
  · rename_i hm hs
    cases h
    exact .inr ⟨hm,by omega,by omega,rfl,rfl⟩

/-- A write without panic happens inside an operation. -/
theorem write_outstanding {log log' : Log} {blockno : UInt32} {pinned : Bool}
    (h : write log blockno=.ok (log',pinned)) : 0<log.outstanding := by
  unfold write at h
  split at h
  · cases h
  split at h
  · cases h
  · omega

/-- With the log area of `LOGSIZE` blocks, a write inside an operation panics
only when a new block finds the header holding `LOGSIZE-2` or more. -/
theorem write_ok_of_room {log : Log} {blockno : UInt32} (hsize : log.size=logSize)
    (hout : 0<log.outstanding) (hlen : log.lh.len+1<logSize)
    (hroom : blockno∈log.lh.entries ∨ log.lh.len+2<logSize) :
    ∃ log' pinned, write log blockno=.ok (log',pinned) := by
  unfold write
  rw [if_neg (by omega),if_neg (by omega)]
  by_cases hm : blockno∈log.lh.entries
  · rw [if_pos hm]
    exact ⟨_,_,rfl⟩
  · have hr : log.lh.len+2<logSize := hroom.resolve_left hm
    rw [if_neg hm,if_neg (by omega)]
    exact ⟨_,_,rfl⟩

/-- An `end_op` without panic ends an open operation, and the last one commits. -/
theorem endOp_eq_ok {log log' : Log} {commits : Bool} (h : endOp log=.ok (log',commits)) :
    0<log.outstanding ∧
      ((log'={log with outstanding := 0,committing := true} ∧ commits=true) ∨
        log'={log with outstanding := log.outstanding-1} ∧ commits=false) := by
  unfold endOp at h
  split at h
  · cases h
  split at h
  · cases h
  split at h
  · cases h
    exact ⟨by omega,.inl ⟨rfl,rfl⟩⟩
  · cases h
    exact ⟨by omega,.inr ⟨rfl,rfl⟩⟩

/-- An `end_op` without panic counts one operation less. -/
theorem endOp_outstanding {log log' : Log} {commits : Bool} (h : endOp log=.ok (log',commits)) :
    log'.outstanding+1=log.outstanding := by
  unfold endOp at h
  split at h
  · cases h
  split at h
  · cases h
  split at h
  · cases h
    change 0+1=log.outstanding
    omega
  · cases h
    change log.outstanding-1+1=log.outstanding
    omega

/-- A write that is out of recording finds no operation open. -/
theorem write_outOfRecording {log : Log} {blockno : UInt32}
    (h : write log blockno=.error .outOfRecording) : log.outstanding=0 := by
  unfold write at h
  split at h
  · cases h
  split at h
  · omega
  split at h
  · cases h
  split at h
  · cases h
  · cases h

/-- Ending the last open operation starts the commit; ending another one only
lowers the count. -/
theorem endOp_eq {log : Log} (hout : 0<log.outstanding) (hc : log.committing=false) :
    endOp log=
      if log.outstanding=1 then .ok ({log with outstanding := 0,committing := true},true)
      else .ok ({log with outstanding := log.outstanding-1},false) := by
  unfold endOp
  rw [if_neg (by omega),if_neg (by rw [hc]; exact Bool.false_ne_true)]
  by_cases h1 : log.outstanding=1
  · rw [if_pos h1,if_pos (by omega)]
  · rw [if_neg h1,if_neg (by omega)]

end Xv6Rust.LogMemory

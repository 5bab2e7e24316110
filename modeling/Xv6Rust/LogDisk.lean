import Xv6Rust.Bytes
import Xv6Rust.LogMemory

/-!
# The log on the block device

Commit and recovery of `fs/log.rs` over the buffer cache and the disk. Every
`bwrite` is one step, so that the power can fail between any two of them; a
crash keeps the disk and loses the cache and the log in memory, and the boot
that follows starts with `recover`. Between the steps of a commit other
processes may read blocks into the cache and the cache may drop buffers that
are not pinned.
-/

namespace Xv6Rust.LogDisk

open Runs LogMemory Bytes

/-- `copy_nonoverlapping` of a `LogHeader` to the front of a buffer: a `u32` length and `LOGSIZE-1`
block numbers. -/
def putHeader (b : Buffer) (lh : LogHeader) : Buffer :=
  putU32s (putU32 b 0 (UInt32.ofNat lh.len)) 4 lh.blocknos.toList

/-- `copy_nonoverlapping` of a `LogHeader` from the front of a buffer. -/
def getHeader (b : Buffer) : LogHeader :=
  ⟨(getU32 b 0).toNat,Vector.ofFn fun i => getU32 b (4+4*i)⟩

/-- Where the committing or recovering thread stands. -/
inductive Pc where
  /-- Nobody commits; operations record their blocks. -/
  | recording
  /-- Entering `commit`. -/
  | commit
  /-- In `write_log` before the given entry. -/
  | writeLog (i : ℕ)
  /-- Before the `bwrite` of `write_head`. -/
  | writeHead
  /-- In `install_trans` before the given entry. -/
  | install (i : ℕ) (recovering : Bool)
  /-- Before the `bwrite` of `empty_head`. -/
  | emptyHead (recovering : Bool)
  /-- `commit` has returned to `end_op`. -/
  | endCommit
  /-- Entering `recover`. -/
  | readHead
  deriving DecidableEq

/-- `recover` has not returned. -/
def Pc.booting : Pc → Bool
  | .readHead => true
  | .install _ recovering => recovering
  | .emptyHead recovering => recovering
  | _ => false

/-- Disk, buffer cache and log. -/
structure Machine where
  /-- The blocks on disk. -/
  disk : ℕ → Buffer
  /-- The valid buffers of the cache. -/
  cache : ℕ → Option Buffer
  /-- Pins of the buffers. -/
  pins : ℕ → ℕ
  /-- The log in memory. -/
  log : Log
  /-- The committing or recovering thread. -/
  pc : Pc

/-- Panics of the log and of the buffers it uses. -/
inductive Panic where
  /-- A panic of the log's locked sections. -/
  | log (e : LogPanic)
  /-- `blocknos` indexed out of bounds. -/
  | blocknoIndex
  /-- `buf unpin not match`. -/
  | unpinMismatch
  deriving DecidableEq

/-- `bread`: the cached data, filled from disk if need be. -/
def Machine.bread (m : Machine) (b : ℕ) : Buffer×Machine :=
  match m.cache b with
  | some data => (data,m)
  | none => (m.disk b,{m with cache := Function.update m.cache b (some (m.disk b))})

/-- `bwrite` of a buffer with the given data. -/
def Machine.bwrite (m : Machine) (b : ℕ) (data : Buffer) : Machine :=
  {m with
    cache := Function.update m.cache b (some data)
    disk := Function.update m.disk b data}

/-- One pass of the loop of `write_log`. -/
def Machine.writeLogEntry (m : Machine) (i home : ℕ) : Machine :=
  let (_,m) := m.bread (m.log.start+1+i)
  let (data,m) := m.bread home
  m.bwrite (m.log.start+1+i) data

/-- `write_head`. -/
def Machine.writeHead (m : Machine) : Machine :=
  let (data,m) := m.bread m.log.start
  m.bwrite m.log.start (putHeader data m.log.lh)

/-- One pass of the loop of `install_trans` without its `unpin`. -/
def Machine.installEntry (m : Machine) (i home : ℕ) : Machine :=
  let (data,m) := m.bread (m.log.start+1+i)
  let (_,m) := m.bread home
  m.bwrite home data

/-- `empty_head`: the length is cleared in memory and on disk, the block numbers stay. -/
def Machine.emptyHead (m : Machine) : Machine :=
  let m := {m with log := {m.log with lh := {m.log.lh with len := 0}}}
  let (data,m) := m.bread m.log.start
  m.bwrite m.log.start (putU32 data 0 0)

/-- `read_head`. -/
def Machine.readHead (m : Machine) : Machine :=
  let (data,m) := m.bread m.log.start
  {m with log := {m.log with lh := getHeader data}}

/-- `unpin`: the caller's own reference is not counted in the pins. -/
def Machine.unpin (m : Machine) (b : ℕ) : Option Machine :=
  if m.pins b=0 then none else some {m with pins := Function.update m.pins b (m.pins b-1)}

/-- Run the committing or recovering thread up to and including its next `bwrite`, or to the next
point where it branches. -/
def tick (m : Machine) : Outcome Panic Machine :=
  match m.pc with
  | .recording => .blocked
  | .commit =>
    if m.log.committing=false then .fault (.log .commitFlagNotSet)
    else if m.log.lh.len>0 then .next {m with pc := .writeLog 0}
    else .next {m with pc := .endCommit}
  | .writeLog i =>
    if i < m.log.lh.len then
      match m.log.lh.blocknos[i]? with
      | none => .fault .blocknoIndex
      | some home => .next {m.writeLogEntry i home.toNat with pc := .writeLog (i+1)}
    else .next {m with pc := .writeHead}
  | .writeHead => .next {m.writeHead with pc := .install 0 false}
  | .install i recovering =>
    if i < m.log.lh.len then
      match m.log.lh.blocknos[i]? with
      | none => .fault .blocknoIndex
      | some home =>
        let m := m.installEntry i home.toNat
        if recovering=true then .next {m with pc := .install (i+1) recovering}
        else
          match m.unpin home.toNat with
          | none => .fault .unpinMismatch
          | some m => .next {m with pc := .install (i+1) recovering}
    else .next {m with pc := .emptyHead recovering}
  | .emptyHead recovering =>
    .next {m.emptyHead with pc := if recovering=true then .recording else .endCommit}
  | .endCommit => .next {m with log := endCommit m.log,pc := .recording}
  | .readHead =>
    let m := m.readHead
    .next {m with pc := if m.log.lh.len>0 then .install 0 true else .recording}

/-- The log before `recover`: placed by the superblock, otherwise as statically initialised. -/
def initLog (start size dev : ℕ) : Log :=
  ⟨start,size,dev,0,false,⟨0,Vector.replicate _ 0⟩⟩

/-- The machine after a power failure, booted up to `recover`. -/
def Machine.crash (m : Machine) : Machine :=
  ⟨m.disk,fun _ => none,fun _ => 0,initLog m.log.start m.log.size m.log.dev,.readHead⟩

/-- The header block and the blocks after it that the superblock gives to the log. -/
def InLog (log : Log) (b : ℕ) : Prop := b=log.start ∨ log.start<b ∧ b<log.start+log.size

instance (log : Log) (b : ℕ) : Decidable (InLog log b) := inferInstanceAs (Decidable (_ ∨ _))

/-- The steps. -/
inductive Action where
  /-- An admitted `begin_op`. -/
  | beginOp
  /-- A buffer of a home block is given new contents and passed to `LOG.write`. -/
  | write (b : UInt32) (data : Buffer)
  /-- `end_op`, up to its commit. -/
  | endOp
  /-- A block is read into the cache. -/
  | bread (b : ℕ)
  /-- The cache drops a buffer that is not pinned. -/
  | evict (b : ℕ)
  /-- The committing or recovering thread. -/
  | tick
  /-- The power fails. -/
  | crash

/-- One step. Operations wait until `recover` has returned. -/
def step (m : Machine) : Action → Outcome Panic Machine
  | .beginOp =>
    if m.pc.booting=true then .blocked
    else
      match beginOp m.log with
      | none => .blocked
      | some log => .next {m with log := log}
  | .write b data =>
    if m.pc.booting=true ∨ InLog m.log b.toNat then .blocked
    else
      match write m.log b with
      | .error e => .fault (.log e)
      | .ok (log,pinned) => .next {m with
          cache := Function.update m.cache b.toNat (some data)
          pins := if pinned=true then Function.update m.pins b.toNat (m.pins b.toNat+1) else m.pins
          log := log}
  | .endOp =>
    if m.pc.booting=true then .blocked
    else
      match endOp m.log with
      | .error e => .fault (.log e)
      | .ok (log,commits) =>
        .next {m with log := log,pc := if commits=true then .commit else m.pc}
  | .bread b => .next (m.bread b).2
  | .evict b =>
    if m.pins b=0 then .next {m with cache := Function.update m.cache b none} else .blocked
  | .tick => tick m
  | .crash => .next m.crash

/-- The first boot on a disk. -/
def boot (start size dev : ℕ) (disk : ℕ → Buffer) : Machine :=
  ⟨disk,fun _ => none,fun _ => 0,initLog start size dev,.readHead⟩

/-- A written header is read back. -/
theorem getHeader_putHeader {b : Buffer} {lh : LogHeader} (h : lh.len<2^32) :
    getHeader (putHeader b lh)=lh := by
  have hlen : (getU32 (putHeader b lh) 0).toNat=lh.len := by
    rw [putHeader,getU32_putU32s_of_before (by omega),getU32_putU32_self,UInt32.toNat_ofNat']
    exact Nat.mod_eq_of_lt h
  have hblk : Vector.ofFn (fun i => getU32 (putHeader b lh) (4+4*i))=lh.blocknos := by
    apply Vector.ext
    intro i hi
    rw [Vector.getElem_ofFn,putHeader,getU32_putU32s (by simpa using hi),Vector.getElem_toList]
  rw [getHeader,hlen]
  exact congrArg (LogHeader.mk lh.len) hblk

/-- The contents of a block as the next `bread` returns them. -/
def Machine.look (m : Machine) (b : ℕ) : Buffer := (m.cache b).getD (m.disk b)

/-- `bread` returns the cached data or else the disk's. -/
@[simp] theorem bread_fst (m : Machine) (b : ℕ) : (m.bread b).1=m.look b := by
  unfold Machine.bread Machine.look
  cases m.cache b <;> rfl

/-- `bread` changes nothing but the cache, where it adds the block. -/
theorem bread_snd (m : Machine) (b : ℕ) :
    (m.bread b).2={m with
      cache := Function.update m.cache b (some ((m.cache b).getD (m.disk b)))} := by
  unfold Machine.bread
  cases h : m.cache b with
  | none => rfl
  | some data =>
    have heq : Function.update m.cache b (some data)=m.cache := by
      rw [← h,Function.update_eq_self]
    simp only [Option.getD_some,heq]

end Xv6Rust.LogDisk

import Xv6Rust.LogCrash
import Xv6Rust.SpanBlocks

/-!
# The file system across crashes

System calls of any processes run over the log, several of them to a group, while buffers are read
and dropped, a thread commits, and the power fails at any point, also during recovery. Whenever it
fails, recovery completes, and the disk then is as the processes saw it at an earlier moment when no
operation was under way: blocks are owned, directories have no holes, and each operation is there
as a whole or not at all. What a process does between `begin_op` and `end_op` is one step here; it
stays in memory.
-/

namespace Xv6Rust.FsCrash

open Runs Bytes DiskLayout InodeLayer BlockOwnership FileContents InodeSound LogWrites Triples
open FsRuns (emptyRoot emptyRoot_owned emptyRoot_whole)
open LogDisk (Machine InLog initLog Pc)
open LogCrash (Traced tracedStep Reached Related Recording Installing Ledger applyGroup)

/-- Why the kernel stops. -/
inductive Failure where
  /-- A file system operation stops. -/
  | stop (e : Stop)
  /-- The log panics. -/
  | panic (e : LogDisk.Panic)

/-- The kernel and the disk. -/
structure State where
  /-- Disk, buffer cache and log. -/
  log : Traced
  /-- The inode cache; its disk is the one below. -/
  mem : Fs
  /-- References to inodes that processes have. -/
  held : List Inode
  /-- Operations between `begin_op` and `end_op` that have not done their work. -/
  admitted : ℕ

/-- The file system as operations see it. -/
def State.fs (s : State) : Fs := {s.mem with disk := s.log.machine.look}

/-- What happens. -/
inductive Action where
  /-- `begin_op`. -/
  | begin
  /-- What an operation does in its span. -/
  | work (c : Call)
  /-- `end_op`, up to its commit. -/
  | finish
  /-- `user_init` takes `/` as the current directory. -/
  | root
  /-- A reference is duplicated. -/
  | dup (h : Inode)
  /-- A reference is dropped after the operation that it comes from. -/
  | drop (h : Inode)
  /-- A block is read into the cache. -/
  | bread (b : ℕ)
  /-- The cache drops a buffer that is not pinned. -/
  | evict (b : ℕ)
  /-- The committing or recovering thread. -/
  | tick
  /-- The power fails, or is switched off after a panic. -/
  | crash

/-- A step of the log. -/
def State.logged (s : State) (a : LogDisk.Action) (f : Traced → State) : Outcome Failure State :=
  match tracedStep s.log a with
  | .blocked => .blocked
  | .fault e => .fault (.panic e)
  | .next l => .next (f l)

/-- Blocks are given their contents and passed to `LOG.write`. -/
def pass (l : Traced) (d : Disk) (bs : List ℕ) : Outcome LogDisk.Panic Traced :=
  run tracedStep l (bs.map fun b => .write (UInt32.ofNat b) (d b))

/-- An operation that gives the references that there are after it. -/
def State.perform (s : State) (m : SpanM (List Inode)) : Outcome Failure State :=
  match m ⟨s.fs,[]⟩ with
  | .error e => .fault (.stop e)
  | .ok (held,t) =>
    match pass s.log t.fs.disk t.passed.reverse with
    | .blocked => .blocked
    | .fault e => .fault (.panic e)
    | .next l => .next ⟨l,t.fs,held,s.admitted⟩

/-- One step. -/
def step (s : State) : Action → Outcome Failure State
  | .begin => s.logged .beginOp fun l => ⟨l,s.mem,s.held,s.admitted+1⟩
  | .work c =>
    if 0 < s.admitted ∧ c.reference∈s.held then
      State.perform ⟨s.log,s.mem,s.held,s.admitted-1⟩ (c.work s.held)
    else .blocked
  | .finish =>
    if s.admitted < s.log.machine.log.outstanding then
      s.logged .endOp fun l => ⟨l,s.mem,s.held,s.admitted⟩
    else .blocked
  | .root =>
    if s.log.machine.pc.booting=true then .blocked
    else
      s.perform do
        let r ← LogWrites.namei ⟨0,0⟩ [0x2f]
        return optionalInode r s.held
  | .dup h =>
    if h∈s.held then
      s.perform do
        let r ← silent (Icache.dup h)
        return r::s.held
    else .blocked
  | .drop h =>
    if h∈s.held then
      s.perform do
        LogWrites.put h
        return s.held.erase h
    else .blocked
  | .bread b => s.logged (.bread b) fun l => ⟨l,s.mem,s.held,s.admitted⟩
  | .evict b => s.logged (.evict b) fun l => ⟨l,s.mem,s.held,s.admitted⟩
  | .tick => s.logged .tick fun l => ⟨l,s.mem,s.held,s.admitted⟩
  | .crash => s.logged .crash fun l => ⟨l,(FsRuns.boot s.mem.sb s.mem.disk).fs,[],0⟩

/-- The first boot. -/
def boot (sb : SuperBlock) (start size dev : ℕ) (d : Disk) : State :=
  ⟨⟨LogDisk.boot start size dev d,⟨[],[]⟩⟩,(FsRuns.boot sb d).fs,[],0⟩

/-- What a process writes is in its memory. -/
def Action.Copied : Action → Prop
  | .work c => c.Copied
  | _ => True

/-- No operation is under way. -/
def State.Idle (s : State) : Prop := s.log.machine.log.outstanding=0

/-- The log lies apart from the other blocks of the file system. -/
def LogApart (sb : SuperBlock) (start size : ℕ) : Prop :=
  ∀ b,FileBlock sb b → b≠start ∧ ¬(start < b ∧ b < start+size)

/-- Blocks on a disk are owned, and directories have no holes. -/
structure Intact (sb : SuperBlock) (d : Disk) : Prop where
  /-- Blocks. -/
  owned : Owned sb d (inodeAt sb d)
  /-- Directories. -/
  whole : ∀ j,j < sb.ninodes → (inodeAt sb d j).itype=.directory → Whole d (inodeAt sb d j)

section Blocks

variable {sb : SuperBlock} {d d' : Disk} {b : ℕ}

theorem FileBlock.lt_size (g : sb.Geometry) (h : FileBlock sb b) : b < sb.size := by
  have hle : sb.nmeta ≤ sb.size := Nat.sub_le ..
  obtain ⟨n,hn,rfl⟩ | ⟨c,hc,rfl⟩ | ⟨-,h⟩ := h
  · exact (g.inodes n hn).trans_le hle
  · exact (g.bitmap c hc).trans_le hle
  · exact h

theorem FileBlock.toNat (g : sb.Geometry) (h : FileBlock sb b) : (UInt32.ofNat b).toNat=b :=
  UInt32.toNat_ofNat_of_lt' ((FileBlock.lt_size g h).trans g.width)

/-- Disks that agree on the blocks of the file system have the same inodes. -/
theorem inodeAt_same (h : ∀ b,FileBlock sb b → d' b=d b) {j : ℕ} (hj : j < sb.ninodes) :
    inodeAt sb d' j=inodeAt sb d j := by
  rw [inodeAt,h _ (.inl ⟨j,hj,rfl⟩),← inodeAt]

theorem bit_same (h : ∀ b,FileBlock sb b → d' b=d b) {c : ℕ} (hc : c < sb.size) :
    bit sb d' c=bit sb d c := by
  rw [bit,h _ (.inr (.inl ⟨c,hc,rfl⟩)),← bit]

theorem addrAt_same (h : ∀ b,FileBlock sb b → d' b=d b) (ho : Owned sb d (inodeAt sb d)) {j p : ℕ}
    (hj : j < sb.ninodes) (hu : (inodeAt sb d j).itype≠.empty) :
    addrAt d' (inodeAt sb d j) p=addrAt d (inodeAt sb d j) p := by
  refine addrAt_congr (fun hind => h _ (.inr (.inr ?_))) p
  have haddr : addrAt d (inodeAt sb d j) ndirect≠0 := by rwa [addrAt_ndirect]
  have hrange := ho.range (holds_of hj hu (by decide) haddr)
  rwa [addrAt_ndirect] at hrange

theorem Intact.same (h : ∀ b,FileBlock sb b → d' b=d b) (hd : Intact sb d) : Intact sb d' := by
  have htype : ∀ j,j < sb.ninodes → (inodeAt sb d' j).itype=(inodeAt sb d j).itype := fun j hj => by
    rw [inodeAt_same h hj]
  refine ⟨hd.owned.congr (fun c hc => bit_same h hc) htype fun j hj hu p _ => ?_,fun j hj hdir => ?_⟩
  · rw [inodeAt_same h hj]
    exact addrAt_same h hd.owned hj hu
  · rw [inodeAt_same h hj] at hdir ⊢
    have hu : (inodeAt sb d j).itype≠.empty := by
      rw [hdir]
      exact InodeType.noConfusion
    exact whole_congr (hd.whole j hj hdir) rfl fun p _ => addrAt_same h hd.owned hj hu

/-- What the inode cache needs of the disk are the blocks of the file system. -/
theorem Good.same {s : Fs} {hs : List Inode} (hg : Good Directories hs s)
    (h : ∀ b,FileBlock s.sb b → d b=s.disk b) : Good Directories hs {s with disk := d} := by
  obtain ⟨hsound,hheld⟩ := hg
  have hintact : Intact s.sb d := Intact.same h ⟨hsound.owned,fun j hj hdir => hsound.whole j hj
    (by rw [hdir]; exact InodeType.noConfusion) hdir⟩
  refine ⟨⟨hsound.geometry,hintact.owned,fun j hj _ hdir => hintact.whole j hj hdir,
    fun i n hi => ?_,hsound.distinct,hsound.bound⟩,hheld.congr rfl⟩
  have hc := hsound.cached i n hi
  exact hc.keep rfl rfl rfl (inodeAt_same h hc.inum)

theorem Good.intact {s : Fs} {hs : List Inode} (hg : Good Directories hs s) : Intact s.sb s.disk :=
  ⟨hg.1.owned,fun j hj hdir => hg.1.whole j hj (by rw [hdir]; exact InodeType.noConfusion) hdir⟩

/-- A disk that is intact can be booted from. -/
theorem Intact.good (g : sb.Geometry) (h : Intact sb d) :
    Good Directories [] (FsRuns.boot sb d).fs :=
  FsRuns.boot_good g h.owned fun j hj _ hdir => h.whole j hj hdir

end Blocks

section Log

variable {d₀ : ℕ → Buffer} {start size : ℕ} {t u : Traced} {a : LogDisk.Action}

theorem Reached.step (h : Reached d₀ start size t) (hu : tracedStep t a=.next u) :
    Reached d₀ start size u := by
  have hplace := LogCrash.step_place (LogCrash.tracedStep_eq_next hu).1
  exact ⟨LogCrash.tracedStep_related t a u h.related trivial hu,hplace.1.trans h.start,
    hplace.2.trans h.size⟩

/-- With no open group, what is read is durable. -/
theorem view_of_recorded {l : Ledger} (h : l.recorded=[]) : l.view d₀=l.durable d₀ := by
  rw [Ledger.view,h,LogCrash.applyGroup_nil]

/-- Once recovery has returned, home blocks are read as the operations left them. -/
theorem Related.look (h : Related d₀ t) (hb : t.machine.pc.booting=false) (b : ℕ)
    (hn : ¬InLog t.machine.log b) : t.machine.look b=t.ledger.view d₀ b := by
  unfold LogCrash.Related at h
  cases hpc : t.machine.pc with
  | recording => rw [hpc] at h; exact h.look b hn
  | commit => rw [hpc] at h; exact h.2.look b hn
  | writeLog i => rw [hpc] at h; exact h.2.look b hn
  | writeHead => rw [hpc] at h; exact h.2.look b hn
  | install i recovering =>
    rw [hpc] at h hb
    cases (show recovering=false from hb)
    rw [h.2.look b hn,view_of_recorded h.2.recorded]
    rfl
  | emptyHead recovering =>
    rw [hpc] at h hb
    cases (show recovering=false from hb)
    rw [h.2.look b hn,view_of_recorded h.2.recorded]
    rfl
  | endCommit => rw [hpc] at h; exact h.2.look b hn
  | readHead =>
    rw [hpc] at hb
    cases hb

/-- During recovery no group is open. -/
theorem Related.recorded (h : Related d₀ t) (hb : t.machine.pc.booting=true) :
    t.ledger.recorded=[] := by
  unfold LogCrash.Related at h
  cases hpc : t.machine.pc with
  | recording => rw [hpc] at hb; cases hb
  | commit => rw [hpc] at hb; cases hb
  | writeLog i => rw [hpc] at hb; cases hb
  | writeHead => rw [hpc] at hb; cases hb
  | install i recovering => rw [hpc] at h; exact h.2.recorded
  | emptyHead recovering => rw [hpc] at h; exact h.2.recorded
  | endCommit => rw [hpc] at hb; cases hb
  | readHead => rw [hpc] at h; exact h.recorded

/-- Nobody commits while an operation is open, and nobody opens one at the end of a commit. -/
theorem Related.busy (h : Related d₀ t) (hpc : t.machine.pc=.endCommit) :
    t.machine.log.outstanding=0 ∧ t.machine.log.committing=true := by
  unfold LogCrash.Related at h
  rw [hpc] at h
  exact h.1

/-- A header without entries leaves nothing to be written. -/
theorem Related.durable (h : Related d₀ t) (hpc : t.machine.pc=.recording)
    (hlen : t.machine.log.lh.len=0) (b : ℕ) : t.ledger.view d₀ b=t.ledger.durable d₀ b := by
  unfold LogCrash.Related at h
  rw [hpc] at h
  refine h.clean b fun e he => ?_
  rw [LogCrash.entries_eq_nil hlen] at he
  exact absurd he List.not_mem_nil

/-- Only a crash leads into recovery. -/
theorem booting_before {m m' : Machine} (h : LogDisk.step m a=.next m') (ha : a≠.crash)
    (hb : m'.pc.booting=true) : m.pc.booting=true := by
  cases a with
  | beginOp =>
    simp only [LogDisk.step] at h
    split at h
    · assumption
    · split at h
      · cases h
      · cases h
        exact hb
  | write b data =>
    simp only [LogDisk.step] at h
    split at h
    · cases h
    · split at h
      · cases h
      · cases h
        exact hb
  | endOp =>
    simp only [LogDisk.step] at h
    split at h
    · assumption
    · split at h
      · cases h
      · rename_i log commits he
        cases h
        cases commits with
        | true => cases hb
        | false => exact hb
  | bread b =>
    cases h
    rwa [LogCrash.bread_pc] at hb
  | evict b =>
    simp only [LogDisk.step] at h
    split at h
    · cases h
      exact hb
    · cases h
  | tick =>
    simp only [LogDisk.step,LogDisk.tick] at h
    cases hpc : m.pc with
    | recording => rw [hpc] at h; cases h
    | commit =>
      simp only [hpc] at h
      split at h
      · cases h
      · split at h <;> cases h <;> cases hb
    | writeLog i =>
      simp only [hpc] at h
      split at h
      · split at h <;> cases h
        cases hb
      · cases h
        cases hb
    | writeHead => simp only [hpc] at h; cases h; cases hb
    | install i recovering =>
      simp only [hpc] at h
      cases recovering with
      | true => rfl
      | false =>
        split at h
        · split at h
          · cases h
          · split at h
            · rename_i hr
              cases hr
            · split at h
              · cases h
              · cases h
                cases hb
        · cases h
          cases hb
    | emptyHead recovering =>
      simp only [hpc] at h
      cases recovering with
      | true => rfl
      | false => cases h; cases hb
    | endCommit => simp only [hpc] at h; cases h; cases hb
    | readHead => rfl
  | crash => exact absurd rfl ha

/-- Between groups, and at the end of a commit, the header is empty. -/
def Settled (m : Machine) : Prop :=
  m.pc=.recording ∧ m.log.outstanding=0 ∨ m.pc=.endCommit → m.log.lh.len=0

theorem settled_of_open {m : Machine} (ho : 0 < m.log.outstanding) (hpc : m.pc≠.endCommit) :
    Settled m := by
  rintro (⟨-,h⟩ | h)
  · omega
  · exact absurd h hpc

theorem Settled.congr {m m' : Machine} (h : Settled m) (hpc : m'.pc=m.pc)
    (hout : m'.log.outstanding=m.log.outstanding) (hlen : m'.log.lh.len=m.log.lh.len) :
    Settled m' := by
  intro hm
  rw [hpc,hout] at hm
  rw [hlen]
  exact h hm

theorem tick_settled {m m' : Machine} (h : Settled m) (hm : LogDisk.tick m=.next m') :
    Settled m' := by
  unfold LogDisk.tick at hm
  have haside : ∀ {n : Machine},n.pc≠.recording → n.pc≠.endCommit → Settled n := by
    rintro n hn hn' (⟨e,-⟩ | e)
    · exact absurd e hn
    · exact absurd e hn'
  cases hpc : m.pc with
  | recording => rw [hpc] at hm; cases hm
  | commit =>
    simp only [hpc] at hm
    split at hm
    · cases hm
    · split at hm
      · cases hm
        exact haside (fun e => by cases e) (fun e => by cases e)
      · rename_i hlen
        cases hm
        exact fun _ => Nat.eq_zero_of_not_pos hlen
  | writeLog i =>
    simp only [hpc] at hm
    split at hm
    · split at hm <;> cases hm
      exact haside (fun e => by cases e) (fun e => by cases e)
    · cases hm
      exact haside (fun e => by cases e) (fun e => by cases e)
  | writeHead => simp only [hpc] at hm; cases hm; exact haside (fun e => by cases e) (fun e => by cases e)
  | install i recovering =>
    simp only [hpc] at hm
    split at hm
    · split at hm
      · cases hm
      · split at hm
        · cases hm
          exact haside (fun e => by cases e) (fun e => by cases e)
        · split at hm
          · cases hm
          · cases hm
            exact haside (fun e => by cases e) (fun e => by cases e)
    · cases hm
      exact haside (fun e => by cases e) (fun e => by cases e)
  | emptyHead recovering =>
    simp only [hpc] at hm
    cases hm
    intro _
    show (Machine.emptyHead m).log.lh.len=0
    rw [LogCrash.emptyHead_log]
  | endCommit =>
    simp only [hpc] at hm
    cases hm
    exact fun _ => h (.inr hpc)
  | readHead =>
    simp only [hpc] at hm
    cases hm
    intro hm
    dsimp only at hm ⊢
    split at hm
    · obtain ⟨e,-⟩ | e := hm <;> cases e
    · rename_i hlen
      exact Nat.eq_zero_of_not_pos hlen

theorem step_settled (hr : Related d₀ t) (h : Settled t.machine) (hu : tracedStep t a=.next u) :
    Settled u.machine := by
  have hm := (LogCrash.tracedStep_eq_next hu).1
  have hbusy := fun hpc => Related.busy hr hpc
  generalize u.machine=m' at hm
  cases a with
  | beginOp =>
    simp only [LogDisk.step] at hm
    split at hm
    · cases hm
    · split at hm
      · cases hm
      · rename_i log hlog
        obtain ⟨hc,-,rfl⟩ := LogMemory.beginOp_eq_some hlog
        cases hm
        refine settled_of_open (Nat.succ_pos _) fun hpc => ?_
        rw [(hbusy hpc).2] at hc
        cases hc
  | write b data =>
    simp only [LogDisk.step] at hm
    split at hm
    · cases hm
    · split at hm
      · cases hm
      · rename_i log pinned hw
        have hopen := LogMemory.write_outstanding hw
        cases hm
        refine settled_of_open ?_ fun hpc => ?_
        · obtain ⟨-,rfl,-⟩ | ⟨-,-,-,rfl,-⟩ := LogMemory.write_eq_ok hw <;> exact hopen
        · have h0 := (hbusy hpc).1
          omega
  | endOp =>
    simp only [LogDisk.step] at hm
    split at hm
    · cases hm
    · split at hm
      · cases hm
      · rename_i log commits he
        obtain ⟨hopen,⟨rfl,rfl⟩ | ⟨rfl,rfl⟩⟩ := LogMemory.endOp_eq_ok he
        · cases hm
          rintro (⟨e,-⟩ | e) <;> cases e
        · have hcount := LogMemory.endOp_outstanding he
          cases hm
          refine settled_of_open ?_ fun hpc => ?_
          · refine Nat.pos_of_ne_zero fun hz => ?_
            rw [LogMemory.endOp] at he
            split at he
            · cases he
            · split at he
              · cases he
              · have hcommits := congrArg Prod.snd (Except.ok.inj he)
                cases hcommits
          · have h0 := (hbusy hpc).1
            omega
  | bread b =>
    cases hm
    exact h.congr (LogCrash.bread_pc ..) (by rw [LogCrash.bread_log]) (by rw [LogCrash.bread_log])
  | evict b =>
    simp only [LogDisk.step] at hm
    split at hm
    · cases hm
      exact h.congr rfl rfl rfl
    · cases hm
  | tick => exact tick_settled h hm
  | crash =>
    cases hm
    rintro (⟨e,-⟩ | e) <;> cases e

/-- Steps that are neither writes nor crashes leave what the operations see. -/
theorem observe_view {l : Ledger} {m : Machine} (hw : ∀ b data,a≠.write b data) (ha : a≠.crash) :
    (l.observe m a).view d₀=l.view d₀ := by
  cases a with
  | write b data => exact absurd rfl (hw b data)
  | crash => exact absurd rfl ha
  | tick =>
    rw [Ledger.observe]
    split
    · rw [view_of_recorded rfl,Ledger.durable,List.foldl_append,Ledger.view,Ledger.durable]
      rfl
    · rfl
  | beginOp => rfl
  | endOp => rfl
  | bread b => rfl
  | evict b => rfl

/-- What is durable changes at the commit point only. -/
theorem observe_durable {l : Ledger} {m : Machine} (a : LogDisk.Action) :
    (l.observe m a).durable d₀=l.durable d₀ ∨
      m.pc=.writeHead ∧ (l.observe m a).durable d₀=l.view d₀ := by
  cases a with
  | tick =>
    rw [Ledger.observe]
    split
    · rename_i hpc
      refine .inr ⟨hpc,?_⟩
      rw [Ledger.durable,List.foldl_append]
      rfl
    · exact .inl rfl
  | beginOp => exact .inl rfl
  | write b data => exact .inl rfl
  | endOp => exact .inl rfl
  | bread b => exact .inl rfl
  | evict b => exact .inl rfl
  | crash => exact .inl rfl

/-- The log after blocks were passed. -/
structure Passed (t : Traced) (d : Disk) (bs : List ℕ) (u : Traced) : Prop where
  /-- What is read. -/
  look : ∀ c,u.machine.look c=if c∈bs then d c else t.machine.look c
  /-- The commit point. -/
  durable : u.ledger.committed=t.ledger.committed
  /-- Who commits. -/
  pc : u.machine.pc=t.machine.pc
  /-- Operations. -/
  outstanding : u.machine.log.outstanding=t.machine.log.outstanding
  /-- Blocks are passed in an operation. -/
  inside : bs=[] ∧ u=t ∨ 0 < t.machine.log.outstanding

theorem write_passed {b : UInt32} {d : Disk} (hu : tracedStep t (.write b (d b.toNat))=.next u) :
    Passed t d [b.toNat] u := by
  obtain ⟨hm,hl⟩ := LogCrash.tracedStep_eq_next hu
  simp only [LogDisk.step] at hm
  split at hm
  · cases hm
  · split at hm
    · cases hm
    · rename_i log pinned hw
      have hopen := LogMemory.write_outstanding hw
      have hout : log.outstanding=t.machine.log.outstanding := by
        obtain ⟨-,rfl,-⟩ | ⟨-,-,-,rfl,-⟩ := LogMemory.write_eq_ok hw <;> rfl
      have hm := (Outcome.next.inj hm).symm
      refine ⟨fun c => ?_,by rw [hl]; rfl,by rw [hm],by rw [hm]; exact hout,.inr hopen⟩
      rw [hm]
      by_cases hc : c=b.toNat
      · rw [hc,if_pos (List.mem_singleton_self _)]
        simp [Machine.look]
      · rw [if_neg (show c∉[b.toNat] by rwa [List.mem_singleton])]
        simp [Machine.look,hc]

/-- Passing blocks makes them look as they should, and nothing else. -/
theorem pass_passed {d : Disk} {bs : List ℕ} (hbs : ∀ b∈bs,(UInt32.ofNat b).toNat=b)
    (h : Reached d₀ start size t) (hp : pass t d bs=.next u) :
    Passed t d bs u ∧ Reached d₀ start size u := by
  induction bs generalizing t with
  | nil =>
    cases hp
    exact ⟨⟨fun _ => rfl,rfl,rfl,rfl,.inl ⟨rfl,rfl⟩⟩,h⟩
  | cons b bs ih =>
    rw [pass,List.map_cons] at hp
    obtain ⟨v,hv,hp⟩ := run_cons_eq_next hp
    have hb := hbs b (List.mem_cons_self ..)
    have hw := @write_passed t v (UInt32.ofNat b) d (by rw [hb]; exact hv)
    rw [hb] at hw
    obtain ⟨hrest,hreach⟩ := ih (fun c hc => hbs c (List.mem_cons_of_mem _ hc)) (Reached.step h hv) hp
    have hopen : 0 < t.machine.log.outstanding := hw.inside.resolve_left fun e => by
      cases e.1
    refine ⟨⟨fun c => ?_,hrest.durable.trans hw.durable,hrest.pc.trans hw.pc,
      hrest.outstanding.trans hw.outstanding,.inr hopen⟩,hreach⟩
    rw [hrest.look,hw.look]
    by_cases hc : c∈bs
    · rw [if_pos hc,if_pos (List.mem_cons_of_mem _ hc)]
    · by_cases e : c=b
      · rw [if_neg hc,e,if_pos (List.mem_singleton_self _),if_pos (List.mem_cons_self ..)]
      · rw [if_neg hc,if_neg (by rwa [List.mem_singleton]),
          if_neg (by rw [List.mem_cons,not_or]; exact ⟨e,hc⟩)]

end Log

section Runs

variable {d₀ : Disk} {sb : SuperBlock} {start size : ℕ} {s t : State}

/-- What holds in every state that is reached. -/
structure Consistent (d₀ : Disk) (sb : SuperBlock) (start size : ℕ) (s : State) : Prop where
  /-- The log. -/
  log : Reached d₀ start size s.log
  /-- The super block. -/
  super : s.mem.sb=sb
  /-- What is durable. -/
  durable : Intact sb (s.log.ledger.durable d₀)
  /-- What the operations see. -/
  live : s.log.machine.pc.booting=false → Good Directories s.held s.fs
  /-- During recovery there are no operations. -/
  asleep : s.log.machine.pc.booting=true → s.held=[] ∧ ∃ d,s.mem=(FsRuns.boot sb d).fs
  /-- The header. -/
  settled : Settled s.log.machine

/-- Blocks of the file system are not in the log. -/
theorem Consistent.apart (h : Consistent d₀ sb start size s) (ha : LogApart sb start size) {b : ℕ}
    (hb : FileBlock sb b) : ¬InLog s.log.machine.log b := by
  rw [InLog,h.log.start,h.log.size,not_or]
  exact ha b hb

/-- Operations see what the ledger tells. -/
theorem Consistent.look (h : Consistent d₀ sb start size s) (ha : LogApart sb start size)
    (hb : s.log.machine.pc.booting=false) {b : ℕ} (hf : FileBlock sb b) :
    s.log.machine.look b=s.log.ledger.view d₀ b :=
  Related.look h.log.related hb b (h.apart ha hf)

/-- A step of the log that is neither a write nor a crash. -/
theorem Consistent.quiet (h : Consistent d₀ sb start size s) (g : sb.Geometry)
    (ha : LogApart sb start size) {a : LogDisk.Action} {l : Traced} (n : ℕ)
    (hl : tracedStep s.log a=.next l) (hw : ∀ b data,a≠.write b data) (hc : a≠.crash) :
    Consistent d₀ sb start size ⟨l,s.mem,s.held,n⟩ := by
  obtain ⟨hm,hledger⟩ := LogCrash.tracedStep_eq_next hl
  have hreach := Reached.step h.log hl
  have hview : l.ledger.view d₀=s.log.ledger.view d₀ := by rw [hledger,observe_view hw hc]
  have happart : ∀ b,FileBlock sb b → ¬InLog l.machine.log b := fun b hb => by
    rw [InLog,hreach.start,hreach.size,not_or]
    exact ha b hb
  refine ⟨hreach,h.super,?_,fun hb => ?_,fun hb => ?_,step_settled h.log.related h.settled hl⟩
  · obtain e | ⟨hpc,e⟩ := @observe_durable d₀ s.log.ledger s.log.machine a
    · rw [hledger,e]
      exact h.durable
    · -- the commit point: what the operations saw becomes durable
      have hb : s.log.machine.pc.booting=false := by rw [hpc]; rfl
      have hgood := h.live hb
      have hintact := Good.intact hgood
      rw [show s.fs.sb=sb from h.super] at hintact
      rw [hledger,e]
      exact hintact.same fun b hf => (h.look ha hb hf).symm
  · by_cases hb' : s.log.machine.pc.booting=true
    · -- recovery has returned
      obtain ⟨hheld,d,hmem⟩ := h.asleep hb'
      have hrecorded := Related.recorded h.log.related hb'
      have hsame : ∀ b,FileBlock sb b → l.machine.look b=s.log.ledger.durable d₀ b := by
        intro b hf
        rw [Related.look hreach.related hb b (happart b hf),hview,view_of_recorded hrecorded]
      have hgood := Intact.good g (Intact.same hsame h.durable)
      dsimp only
      rw [hheld,State.fs,hmem]
      exact hgood
    · have hb' := Bool.eq_false_iff.mpr hb'
      have hsame : Good Directories s.held {s.fs with disk := l.machine.look} := by
        refine Good.same (h.live hb') fun b hf => ?_
        rw [show s.fs.sb=sb from h.super] at hf
        rw [Related.look hreach.related hb b (happart b hf),hview,← h.look ha hb' hf]
        rfl
      exact hsame
  · exact h.asleep (booting_before hm hc hb)

/-- An operation that changes what it passes. -/
theorem Consistent.perform (h : Consistent d₀ sb start size s) (g : sb.Geometry)
    {m : SpanM (List Inode)} (hb : s.log.machine.pc.booting=false)
    (hm : Triple (Tracks sb s.fs.disk (Good Directories s.held)) m
      (fun hs => Tracks sb s.fs.disk (Good Directories hs)) Any)
    (ht : s.perform m=.next t) : Consistent d₀ sb start size t ∧
      t.log.ledger.committed=s.log.ledger.committed := by
  rw [State.perform] at ht
  split at ht
  · cases ht
  · rename_i held u hu
    split at ht
    · cases ht
    · cases ht
    · rename_i l hl
      cases ht
      have hstart : Tracks sb s.fs.disk (Good Directories s.held) ⟨s.fs,[]⟩ :=
        ⟨h.live hb,h.super,Follows.refl _⟩
      obtain ⟨hgood,hsb,hfollows⟩ := (hm _ hstart).1 held u hu
      have hhome : ∀ b∈u.passed.reverse,(UInt32.ofNat b).toNat=b := fun b hmem =>
        FileBlock.toNat g (hfollows.passed b (List.mem_reverse.mp hmem))
      obtain ⟨hpassed,hreach⟩ := pass_passed hhome h.log hl
      have hlook : l.machine.look=u.fs.disk := by
        funext c
        rw [hpassed.look]
        split
        · rfl
        · rename_i hc
          exact (hfollows.frame c fun hmem => hc (List.mem_reverse.mpr hmem)).symm
      have hdurable : l.ledger.durable d₀=s.log.ledger.durable d₀ := by
        rw [Ledger.durable,Ledger.durable,hpassed.durable]
      refine ⟨⟨hreach,hsb,?_,fun _ => ?_,fun hb' => ?_,?_⟩,hpassed.durable⟩
      · rw [hdurable]
        exact h.durable
      · rw [State.fs]
        dsimp only
        rw [hlook]
        exact hgood
      · dsimp only at hb'
        rw [hpassed.pc,hb] at hb'
        cases hb'
      · obtain ⟨-,rfl⟩ | hopen := hpassed.inside
        · exact h.settled
        · refine settled_of_open (by rw [hpassed.outstanding]; exact hopen) fun hpc => ?_
          have hbusy := Related.busy hreach.related hpc
          rw [hpassed.outstanding] at hbusy
          omega

/-- The power fails. -/
theorem Consistent.crash (h : Consistent d₀ sb start size s) {l : Traced}
    (hl : tracedStep s.log .crash=.next l) :
    Consistent d₀ sb start size ⟨l,(FsRuns.boot s.mem.sb s.mem.disk).fs,[],0⟩ := by
  obtain ⟨hm,hledger⟩ := LogCrash.tracedStep_eq_next hl
  have hbooting : l.machine.pc.booting=true := by
    rw [← Outcome.next.inj hm]
    rfl
  refine ⟨Reached.step h.log hl,h.super,?_,fun hb => ?_,fun _ => ⟨rfl,s.mem.disk,?_⟩,
    step_settled h.log.related h.settled hl⟩
  · rw [hledger]
    exact h.durable
  · dsimp only at hb
    rw [hbooting] at hb
    cases hb
  · rw [h.super]

/-- From one state to the next, what is durable stays, or at the commit point becomes what the
operations saw. -/
def Commits (d₀ : Disk) (s t : State) : Prop :=
  t.log.ledger.durable d₀=s.log.ledger.durable d₀ ∨
    s.log.machine.pc=.writeHead ∧ t.log.ledger.durable d₀=s.log.ledger.view d₀

theorem logged_eq_next {a : LogDisk.Action} {f : Traced → State} (h : s.logged a f=.next t) :
    ∃ l,tracedStep s.log a=.next l ∧ t=f l := by
  rw [State.logged] at h
  split at h
  · cases h
  · cases h
  · rename_i l hl
    cases h
    exact ⟨l,hl,rfl⟩

theorem Consistent.logged (h : Consistent d₀ sb start size s) (g : sb.Geometry)
    (ha : LogApart sb start size) {a : LogDisk.Action} {n : ℕ}
    (ht : s.logged a (fun l => ⟨l,s.mem,s.held,n⟩)=.next t) (hw : ∀ b data,a≠.write b data)
    (hc : a≠.crash) : Consistent d₀ sb start size t ∧ Commits d₀ s t := by
  obtain ⟨l,hl,rfl⟩ := logged_eq_next ht
  refine ⟨h.quiet g ha n hl hw hc,?_⟩
  rw [Commits,(LogCrash.tracedStep_eq_next hl).2]
  exact observe_durable a

theorem Consistent.performed (h : Consistent d₀ sb start size s) (g : sb.Geometry)
    {m : SpanM (List Inode)} (hb : s.log.machine.pc.booting=false)
    (hm : Triple (Tracks sb s.fs.disk (Good Directories s.held)) m
      (fun hs => Tracks sb s.fs.disk (Good Directories hs)) Any)
    (ht : s.perform m=.next t) : Consistent d₀ sb start size t ∧ Commits d₀ s t := by
  obtain ⟨hnext,hcommitted⟩ := h.perform g hb hm ht
  refine ⟨hnext,.inl ?_⟩
  rw [Ledger.durable,Ledger.durable,hcommitted]

/-- Who has a reference does not wait for recovery. -/
theorem Consistent.awake (h : Consistent d₀ sb start size s) {i : Inode} (hi : i∈s.held) :
    s.log.machine.pc.booting=false := by
  refine Bool.eq_false_iff.mpr fun hb => ?_
  rw [(h.asleep hb).1] at hi
  exact absurd hi List.not_mem_nil

/-- Every step keeps the file system consistent. -/
theorem step_consistent (h : Consistent d₀ sb start size s) (g : sb.Geometry)
    (ha : LogApart sb start size) {a : Action} (hcopied : a.Copied) (ht : step s a=.next t) :
    Consistent d₀ sb start size t ∧ Commits d₀ s t := by
  cases a with
  | begin =>
    rw [step] at ht
    exact h.logged g ha ht (fun _ _ e => by cases e) (fun e => by cases e)
  | work c =>
    rw [step] at ht
    split at ht
    · rename_i hc
      have hspent : Consistent d₀ sb start size ⟨s.log,s.mem,s.held,s.admitted-1⟩ :=
        ⟨h.log,h.super,h.durable,h.live,h.asleep,h.settled⟩
      exact hspent.performed g (h.awake hc.2) (work_tracks c hc.2 hcopied) ht
    · cases ht
  | finish =>
    rw [step] at ht
    split at ht
    · exact h.logged g ha ht (fun _ _ e => by cases e) (fun e => by cases e)
    · cases ht
  | root =>
    rw [step] at ht
    split at ht
    · cases ht
    · rename_i hb
      refine h.performed g (Bool.eq_false_iff.mpr hb) ?_ ht
      exact (namei_tracks [0x2f] fun hne => absurd rfl hne).bind fun _ => .pure fun _ hp => hp
  | dup i =>
    rw [step] at ht
    split at ht
    · rename_i hi
      exact h.performed g (h.awake hi) ((dup_tracks hi).bind fun _ => .pure fun _ hp => hp) ht
    · cases ht
  | drop i =>
    rw [step] at ht
    split at ht
    · rename_i hi
      refine h.performed g (h.awake hi) ((put_tracks.pre fun s hp => hp.imp fun _ hg => ?_).bind
        fun _ => .pure fun _ hp => hp) ht
      exact ⟨hg.1,hg.2.perm (List.perm_cons_erase hi).symm⟩
    · cases ht
  | bread b =>
    rw [step] at ht
    exact h.logged g ha ht (fun _ _ e => by cases e) (fun e => by cases e)
  | evict b =>
    rw [step] at ht
    exact h.logged g ha ht (fun _ _ e => by cases e) (fun e => by cases e)
  | tick =>
    rw [step] at ht
    exact h.logged g ha ht (fun _ _ e => by cases e) (fun e => by cases e)
  | crash =>
    rw [step] at ht
    obtain ⟨l,hl,rfl⟩ := logged_eq_next ht
    refine ⟨h.crash hl,.inl ?_⟩
    rw [(LogCrash.tracedStep_eq_next hl).2]
    rfl

/-- The first boot on an intact disk. -/
theorem boot_consistent {dev : ℕ} (hlog : (LogDisk.getHeader (d₀ start)).len=0) (hd : Intact sb d₀) :
    Consistent d₀ sb start size (boot sb start size dev d₀) :=
  ⟨⟨LogCrash.boot_related hlog,rfl,rfl⟩,rfl,hd,(fun e => by cases e),fun _ => ⟨rfl,d₀,rfl⟩,fun _ => rfl⟩

/-- Blocks are as processes saw them after some of the labels, when no operation was under way. -/
def Seen (sb : SuperBlock) (s₀ : State) (as : List Action) (d : Disk) : Prop :=
  ∃ k x,run step s₀ (as.take k)=.next x ∧ x.Idle ∧ ∀ b,FileBlock sb b → x.fs.disk b=d b

theorem Seen.more {s₀ : State} {as : List Action} {d : Disk} (h : Seen sb s₀ as d) (a : Action) :
    Seen sb s₀ (as++[a]) d := by
  obtain ⟨k,x,hx,hrest⟩ := h
  refine ⟨min k as.length,x,?_,hrest⟩
  have htake : (as++[a]).take (min k as.length)=as.take k := by
    rw [List.take_append_of_le_length (Nat.min_le_right ..)]
    exact List.take_eq_take_min.symm
  rwa [htake]

/-- In every run, what is durable was seen. -/
theorem run_consistent {dev : ℕ} (g : sb.Geometry) (ha : LogApart sb start size)
    (hlog : (LogDisk.getHeader (d₀ start)).len=0) (hd : Intact sb d₀) {as : List Action}
    (hcopied : ∀ a∈as,a.Copied) (hr : run step (boot sb start size dev d₀) as=.next t) :
    Consistent d₀ sb start size t ∧
      Seen sb (boot sb start size dev d₀) as (t.log.ledger.durable d₀) := by
  refine run_history (P:=fun as t => (∀ a∈as,a.Copied) → Consistent d₀ sb start size t ∧
    Seen sb (boot sb start size dev d₀) as (t.log.ledger.durable d₀)) ?_ ?_ hr hcopied
  · exact fun _ => ⟨boot_consistent hlog hd,0,_,rfl,rfl,fun b _ => rfl⟩
  · intro as s a u hs ih hu hcopied
    obtain ⟨hc,hseen⟩ := ih fun b hb => hcopied b (List.mem_append_left _ hb)
    obtain ⟨hnext,hcommit⟩ := step_consistent hc g ha
      (hcopied a (List.mem_append_right _ (List.mem_singleton_self _))) hu
    refine ⟨hnext,?_⟩
    obtain e | ⟨hpc,e⟩ := hcommit
    · rw [e]
      exact hseen.more a
    · -- the commit point; the group has ended
      have hrel := hc.log.related
      have hidle : s.Idle := by
        unfold LogCrash.Related at hrel
        rw [hpc] at hrel
        exact hrel.1.1
      refine ⟨as.length,s,?_,hidle,fun b hf => ?_⟩
      · rw [List.take_left]
        exact hs
      · rw [e]
        exact hc.look ha (by rw [hpc]; rfl) hf

/-- A run of the log without writes is a run of the kernel. -/
theorem run_ticks {n : ℕ} {l : Traced} (h : run tracedStep s.log (List.replicate n .tick)=.next l) :
    run step s (List.replicate n .tick)=.next ⟨l,s.mem,s.held,s.admitted⟩ := by
  induction n generalizing s with
  | zero =>
    cases h
    rfl
  | succ n ih =>
    rw [List.replicate_succ] at h ⊢
    obtain ⟨v,hv,h⟩ := run_cons_eq_next h
    have hstep : step s .tick=.next ⟨v,s.mem,s.held,s.admitted⟩ := by
      rw [step,State.logged,hv]
    rw [run_cons_next _ hstep]
    exact @ih ⟨v,s.mem,s.held,s.admitted⟩ h

/-- In every run, whenever the power fails, recovery completes if it is not cut short again, and
then blocks are owned, directories have no holes, and the blocks are as processes saw them at an
earlier moment of the run when no operation was under way; if none was when the power failed, and
nobody was committing, nothing is lost. -/
theorem crash_keeps_files (sb : SuperBlock) (start size dev : ℕ) (d₀ : Disk) (g : sb.Geometry)
    (ha : LogApart sb start size) (hlog : (LogDisk.getHeader (d₀ start)).len=0)
    (hd : Intact sb d₀) (as : List Action) (hcopied : ∀ a∈as,a.Copied) (t : State)
    (hr : run step (boot sb start size dev d₀) as=.next t) :
    ∃ n u,run step t (.crash::List.replicate n .tick)=.next u ∧
      u.log.machine.pc=.recording ∧ u.held=[] ∧ Intact sb u.log.machine.disk ∧
      Seen sb (boot sb start size dev d₀) as u.log.machine.disk ∧
      (t.log.machine.pc=.recording → t.Idle →
        ∀ b,FileBlock sb b → u.log.machine.disk b=t.fs.disk b) := by
  obtain ⟨hc,hseen⟩ := run_consistent g ha hlog hd hcopied hr
  have hrel := hc.log.related
  obtain ⟨n,l,hl,hpc,hledger⟩ := LogCrash.recover_completes hrel.crash rfl
  have hcrash : tracedStep t.log .crash=
      .next ⟨t.log.machine.crash,{t.log.ledger with recorded := []}⟩ := rfl
  have hstep : step t .crash=.next ⟨⟨t.log.machine.crash,{t.log.ledger with recorded := []}⟩,
      (FsRuns.boot t.mem.sb t.mem.disk).fs,[],0⟩ := by
    rw [step,State.logged,hcrash]
  have hrun : run step t (.crash::List.replicate n .tick)=
      .next ⟨l,(FsRuns.boot t.mem.sb t.mem.disk).fs,[],0⟩ := by
    rw [run_cons_next _ hstep]
    exact @run_ticks ⟨⟨t.log.machine.crash,{t.log.ledger with recorded := []}⟩,
      (FsRuns.boot t.mem.sb t.mem.disk).fs,[],0⟩ n l hl
  have hcopied' : ∀ a∈as++.crash::List.replicate n .tick,a.Copied := by
    intro a hmem
    obtain hmem | hmem := List.mem_append.mp hmem
    · exact hcopied a hmem
    · obtain rfl | hmem := List.mem_cons.mp hmem
      · trivial
      · rw [List.eq_of_mem_replicate hmem]
        trivial
  obtain ⟨hu,-⟩ := run_consistent g ha hlog hd hcopied' ((run_append _ hr).trans hrun)
  -- the disk is durable once recovery has returned
  have hdurable : ∀ b,FileBlock sb b → l.machine.disk b=t.log.ledger.durable d₀ b := by
    intro b hf
    have hrel' := hu.log.related
    unfold LogCrash.Related at hrel'
    rw [show (State.mk l (FsRuns.boot t.mem.sb t.mem.disk).fs [] 0).log.machine.pc=.recording
      from hpc] at hrel'
    rw [hrel'.disk b (hu.apart ha hf),Ledger.durable,Ledger.durable]
    dsimp only
    rw [hledger]
  refine ⟨n,_,hrun,hpc,rfl,Intact.same hdurable hc.durable,?_,fun hrec hidle b hf => ?_⟩
  · obtain ⟨k,x,hx,hidle,hblocks⟩ := hseen
    exact ⟨k,x,hx,hidle,fun b hf => (hblocks b hf).trans (hdurable b hf).symm⟩
  · show l.machine.disk b=t.log.machine.look b
    rw [hdurable b hf,hc.look ha (by rw [hrec]; rfl) hf]
    exact (Related.durable hrel hrec (hc.settled (.inl ⟨hrec,hidle⟩)) b).symm

end Runs

/-- The log lies behind the blocks of the file system. -/
theorem smallDevice_logApart : LogApart smallDevice 8 31 := by
  intro b hb
  have hlt : b < 8 := FileBlock.lt_size smallDevice_geometry hb
  omega

theorem emptyRoot_intact : Intact smallDevice emptyRoot :=
  ⟨emptyRoot_owned,fun _ hj _ => emptyRoot_whole hj⟩

/-- The file `/f` is created. The power fails when the first of the three blocks of the group is in
its place, and recovery puts all three there. -/
def createsFile : List Action :=
  .tick::.root::.begin::.work (.openFile ⟨1,0⟩ [0x2f,0x66] ⟨true,false,true⟩)::.finish::
    (List.replicate 7 .tick++.crash::List.replicate 6 .tick)

theorem createsFile_copied : ∀ a∈createsFile,a.Copied := by
  have hticks : ∀ (n : ℕ) (a : Action),a∈List.replicate n Action.tick → a.Copied := by
    intro n a ha
    rw [List.eq_of_mem_replicate ha]
    trivial
  intro a ha
  simp only [createsFile,List.mem_cons,List.mem_append] at ha
  obtain rfl | rfl | rfl | rfl | rfl | ha | rfl | ha := ha
  iterate 5 trivial
  · exact hticks 7 a ha
  · trivial
  · exact hticks 6 a ha

/-- The power fails once more, and the file is there. -/
theorem crash_keeps_files_createsFile :
    ∃ t n u,run step (boot smallDevice 8 31 1 emptyRoot) createsFile=.next t ∧
      run step t (.crash::List.replicate n .tick)=.next u ∧
      Intact smallDevice u.log.machine.disk ∧
      (inodeAt smallDevice emptyRoot 2).itype=.empty ∧
      (inodeAt smallDevice u.log.machine.disk 2).itype=.file := by
  have hruns : (run step (boot smallDevice 8 31 1 emptyRoot) createsFile).test (fun t =>
      decide (t.log.machine.pc=.recording ∧ t.log.machine.log.outstanding=0 ∧
        (inodeAt smallDevice t.fs.disk 2).itype=.file))=true := by
    decide +kernel
  obtain ⟨t,ht,htest⟩ := Outcome.exists_of_test hruns
  obtain ⟨hpc,hidle,hfile⟩ := of_decide_eq_true htest
  obtain ⟨n,u,hu,-,-,hintact,-,hsame⟩ := crash_keeps_files smallDevice 8 31 1 emptyRoot
    smallDevice_geometry smallDevice_logApart rfl emptyRoot_intact createsFile createsFile_copied t ht
  refine ⟨t,n,u,ht,hu,hintact,by decide +kernel,?_⟩
  rw [inodeAt_same (hsame hpc hidle) (by decide)]
  exact hfile

end Xv6Rust.FsCrash

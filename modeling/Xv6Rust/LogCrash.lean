import Xv6Rust.LogDisk

/-!
# Crash atomicity of the log

A ledger beside the machine collects the writes of the open group and the
groups whose header has reached the disk. The groups of the ledger, replayed on
the first disk, are the durable contents of the home blocks. Every step keeps a
relation between disk, log area, header, cache and ledger from which a crash at
any point leaves a disk that recovery turns into the durable contents, also
when recovery itself is cut short any number of times.
-/

namespace Xv6Rust.LogCrash

open Runs LogMemory Bytes LogDisk

/-- Writes to home blocks, oldest first. -/
abbrev Group := List (UInt32×Buffer)

/-- The blocks after the writes of a group. -/
def applyGroup (d : ℕ → Buffer) (g : Group) : ℕ → Buffer :=
  g.foldl (fun d w => Function.update d w.1.toNat w.2) d

/-- The groups written so far. -/
structure Ledger where
  /-- Groups whose header has reached the disk, oldest first. -/
  committed : List Group
  /-- Writes of the open group. -/
  recorded : Group

/-- The state after exactly the committed groups. -/
def Ledger.durable (l : Ledger) (d : ℕ → Buffer) : ℕ → Buffer := l.committed.foldl applyGroup d

/-- The state operations see: the open group on top of the committed ones. -/
def Ledger.view (l : Ledger) (d : ℕ → Buffer) : ℕ → Buffer := applyGroup (l.durable d) l.recorded

/-- The ledger after a step from the given machine. The `bwrite` of `write_head` commits the open
group, and a crash forgets it. -/
def Ledger.observe (l : Ledger) (m : Machine) : Action → Ledger
  | .write b data => {l with recorded := l.recorded++[(b,data)]}
  | .tick => if m.pc=.writeHead then ⟨l.committed++[l.recorded],[]⟩ else l
  | .crash => {l with recorded := []}
  | _ => l

/-- A machine with its ledger. -/
structure Traced where
  /-- The machine. -/
  machine : Machine
  /-- Its ledger. -/
  ledger : Ledger

/-- One step of the machine, recorded in the ledger. -/
def tracedStep (t : Traced) (a : Action) : Outcome Panic Traced :=
  match step t.machine a with
  | .blocked => .blocked
  | .fault e => .fault e
  | .next m => .next ⟨m,t.ledger.observe t.machine a⟩

theorem tracedStep_eq_next {t u : Traced} {a : Action} (h : tracedStep t a=.next u) :
    step t.machine a=.next u.machine ∧ u.ledger=t.ledger.observe t.machine a := by
  unfold tracedStep at h
  split at h
  · cases h
  · cases h
  · rename_i m hm
    cases h
    exact ⟨hm,rfl⟩

@[simp] theorem applyGroup_nil (d : ℕ → Buffer) : applyGroup d []=d := rfl

theorem applyGroup_append (d : ℕ → Buffer) (g : Group) (b : UInt32) (data : Buffer) :
    applyGroup d (g++[(b,data)])=Function.update (applyGroup d g) b.toNat data := by
  simp [applyGroup]

@[simp] theorem bread_disk (m : Machine) (b : ℕ) : (m.bread b).2.disk=m.disk := by rw [bread_snd]

@[simp] theorem bread_pins (m : Machine) (b : ℕ) : (m.bread b).2.pins=m.pins := by rw [bread_snd]

@[simp] theorem bread_log (m : Machine) (b : ℕ) : (m.bread b).2.log=m.log := by rw [bread_snd]

@[simp] theorem bread_pc (m : Machine) (b : ℕ) : (m.bread b).2.pc=m.pc := by rw [bread_snd]

/-- Reading a block does not change what is read. -/
@[simp] theorem look_bread (m : Machine) (b : ℕ) : (m.bread b).2.look=m.look := by
  rw [bread_snd]
  funext c
  unfold Machine.look
  by_cases hc : c=b
  · rw [hc]
    simp
  · simp [hc]

/-- Writing a block changes it for later reads. -/
@[simp] theorem look_bwrite (m : Machine) (b : ℕ) (data : Buffer) :
    (m.bwrite b data).look=Function.update m.look b data := by
  funext c
  unfold Machine.look Machine.bwrite
  by_cases hc : c=b
  · rw [hc]
    simp
  · simp [hc]

@[simp] theorem bwrite_disk (m : Machine) (b : ℕ) (data : Buffer) :
    (m.bwrite b data).disk=Function.update m.disk b data := rfl

@[simp] theorem bwrite_pins (m : Machine) (b : ℕ) (data : Buffer) :
    (m.bwrite b data).pins=m.pins := rfl

@[simp] theorem bwrite_log (m : Machine) (b : ℕ) (data : Buffer) :
    (m.bwrite b data).log=m.log := rfl

@[simp] theorem writeLogEntry_log (m : Machine) (i home : ℕ) :
    (m.writeLogEntry i home).log=m.log := by
  simp [Machine.writeLogEntry]

@[simp] theorem writeHead_log (m : Machine) : m.writeHead.log=m.log := by
  simp [Machine.writeHead]

@[simp] theorem installEntry_log (m : Machine) (i home : ℕ) :
    (m.installEntry i home).log=m.log := by
  simp [Machine.installEntry]

@[simp] theorem installEntry_pins (m : Machine) (i home : ℕ) :
    (m.installEntry i home).pins=m.pins := by
  simp [Machine.installEntry]

@[simp] theorem emptyHead_log (m : Machine) :
    m.emptyHead.log={m.log with lh := {m.log.lh with len := 0}} := by
  simp [Machine.emptyHead]

/-- The recorded block numbers name distinct blocks outside the log, and their copies fit the log
area. -/
structure Good (log : Log) : Prop where
  /-- At most `LOGSIZE-2` blocks are recorded. -/
  len : log.lh.len+1<logSize
  /-- The copies lie in the log area. -/
  room : log.lh.len=0 ∨ log.lh.len+1<log.size
  /-- The blocks are distinct. -/
  nodup : log.lh.entries.Nodup
  /-- The blocks are home blocks. -/
  home : ∀ e∈log.lh.entries,¬InLog log e.toNat

section Relation

variable (d₀ : ℕ → Buffer)

/-- The relation before the commit point. The disk is durable, the cache is ahead of it on the
recorded blocks, and the first copies are in the log. -/
structure Recording (t : Traced) (copied : ℕ) : Prop where
  /-- The header is well formed. -/
  good : Good t.machine.log
  /-- The header on disk is empty. -/
  head : (getHeader (t.machine.disk t.machine.log.start)).len=0
  /-- Home blocks on disk are durable. -/
  disk : ∀ b,¬InLog t.machine.log b → t.machine.disk b=t.ledger.durable d₀ b
  /-- Home blocks are read as the operations left them. -/
  look : ∀ b,¬InLog t.machine.log b → t.machine.look b=t.ledger.view d₀ b
  /-- Log blocks are read as they are on disk. -/
  lookLog : ∀ b,InLog t.machine.log b → t.machine.look b=t.machine.disk b
  /-- Recorded blocks stay in the cache. -/
  pins : ∀ e∈t.machine.log.lh.entries,0<t.machine.pins e.toNat
  /-- Only recorded blocks differ from the disk. -/
  clean : ∀ b,(∀ e∈t.machine.log.lh.entries,e.toNat≠b) →
    t.ledger.view d₀ b=t.ledger.durable d₀ b
  /-- The copies made so far. -/
  copied : ∀ j e,j < copied → t.machine.log.lh.entries[j]?=some e →
    t.machine.disk (t.machine.log.start+1+j)=t.ledger.view d₀ e.toNat

/-- The relation from the commit point on, and during recovery. The log holds the durable contents
of the recorded blocks, and the first of them are installed. -/
structure Installing (t : Traced) (installed : ℕ) (recovering : Bool) : Prop where
  /-- The header is well formed. -/
  good : Good t.machine.log
  /-- The header is on disk. -/
  head : getHeader (t.machine.disk t.machine.log.start)=t.machine.log.lh
  /-- No group is open. -/
  recorded : t.ledger.recorded=[]
  /-- The copies in the log. -/
  logged : ∀ j e,t.machine.log.lh.entries[j]?=some e →
    t.machine.disk (t.machine.log.start+1+j)=t.ledger.durable d₀ e.toNat
  /-- The home blocks that need no more work. -/
  disk : ∀ b,¬InLog t.machine.log b →
    (∀ j e,installed≤j → t.machine.log.lh.entries[j]?=some e → e.toNat≠b) →
    t.machine.disk b=t.ledger.durable d₀ b
  /-- Log blocks are read as they are on disk. -/
  lookLog : ∀ b,InLog t.machine.log b → t.machine.look b=t.machine.disk b
  /-- Home blocks are read as durable, or during recovery as they are on disk. -/
  look : ∀ b,¬InLog t.machine.log b → t.machine.look b=
    if recovering=true then t.machine.disk b else t.ledger.durable d₀ b
  /-- Blocks to be installed stay in the cache of a commit. -/
  pins : recovering=false → ∀ j e,installed≤j → t.machine.log.lh.entries[j]?=some e →
    0<t.machine.pins e.toNat

/-- The relation after a crash. -/
structure Crashed (t : Traced) : Prop where
  /-- No group is open. -/
  recorded : t.ledger.recorded=[]
  /-- Every block is read as it is on disk. -/
  look : ∀ b,t.machine.look b=t.machine.disk b
  /-- The header on disk is well formed. -/
  good : Good {t.machine.log with lh := getHeader (t.machine.disk t.machine.log.start)}
  /-- The copies in the log. -/
  logged : ∀ j e,(getHeader (t.machine.disk t.machine.log.start)).entries[j]?=some e →
    t.machine.disk (t.machine.log.start+1+j)=t.ledger.durable d₀ e.toNat
  /-- The home blocks that are not to be installed. -/
  disk : ∀ b,¬InLog t.machine.log b →
    (∀ e∈(getHeader (t.machine.disk t.machine.log.start)).entries,e.toNat≠b) →
    t.machine.disk b=t.ledger.durable d₀ b

/-- A commit is under way: no operation is open and none can start. -/
def Busy (m : Machine) : Prop := m.log.outstanding=0 ∧ m.log.committing=true

/-- The relation between machine and ledger. -/
def Related (t : Traced) : Prop :=
  match t.machine.pc with
  | .recording => Recording d₀ t 0
  | .commit => Busy t.machine ∧ Recording d₀ t 0
  | .writeLog i => Busy t.machine ∧ Recording d₀ t i
  | .writeHead => Busy t.machine ∧ Recording d₀ t t.machine.log.lh.len
  | .install i recovering =>
    (recovering=false → Busy t.machine) ∧ Installing d₀ t i recovering
  | .emptyHead recovering =>
    (recovering=false → Busy t.machine) ∧ Installing d₀ t t.machine.log.lh.len recovering
  | .endCommit => Busy t.machine ∧ Recording d₀ t 0
  | .readHead => Crashed d₀ t

variable {d₀ : ℕ → Buffer}

/-- An empty header is well formed. -/
theorem good_of_len_eq_zero {log : Log} (h : log.lh.len=0) : Good log := by
  have hnil : log.lh.entries=[] := by rw [LogHeader.entries,h,List.take_zero]
  refine ⟨by rw [h]; decide,.inl h,?_,?_⟩
  · rw [hnil]
    exact List.nodup_nil
  · rw [hnil]
    exact fun _ hmem => absurd hmem List.not_mem_nil

/-- A header block whose length is zero has no entries. -/
theorem entries_eq_nil {lh : LogHeader} (h : lh.len=0) : lh.entries=[] := by
  rw [LogHeader.entries,h,List.take_zero]

/-- A crash before the commit point leaves the durable contents in place. -/
theorem Recording.crash {t : Traced} {n : ℕ} (h : Recording d₀ t n) :
    Crashed d₀ ⟨t.machine.crash,{t.ledger with recorded := []}⟩ := by
  have hnil := entries_eq_nil h.head
  refine ⟨rfl,fun b => rfl,good_of_len_eq_zero h.head,?_,fun b hb _ => h.disk b hb⟩
  intro j e he
  dsimp only [Machine.crash,initLog] at he
  rw [hnil] at he
  cases he

/-- A crash after the commit point leaves the durable contents in the log. -/
theorem Installing.crash {t : Traced} {n : ℕ} {recovering : Bool}
    (h : Installing d₀ t n recovering) :
    Crashed d₀ ⟨t.machine.crash,{t.ledger with recorded := []}⟩ := by
  have hhead : getHeader (t.machine.crash.disk t.machine.crash.log.start)=t.machine.log.lh := h.head
  refine ⟨rfl,fun b => rfl,?_,?_,?_⟩
  · rw [hhead]
    exact ⟨h.good.len,h.good.room,h.good.nodup,h.good.home⟩
  · intro j e he
    dsimp only at he
    rw [hhead] at he
    exact h.logged j e he
  · intro b hb hne
    dsimp only at hne
    rw [hhead] at hne
    exact h.disk b hb fun j e _ he => hne e (List.mem_of_getElem? he)

/-- A crash before recovery has begun changes nothing on disk. -/
theorem Crashed.crash {t : Traced} (h : Crashed d₀ t) :
    Crashed d₀ ⟨t.machine.crash,{t.ledger with recorded := []}⟩ :=
  ⟨rfl,fun _ => rfl,⟨h.good.len,h.good.room,h.good.nodup,h.good.home⟩,h.logged,h.disk⟩

/-- Whatever the machine is doing, a crash leaves a recoverable disk. -/
theorem Related.crash {t : Traced} (h : Related d₀ t) :
    Crashed d₀ ⟨t.machine.crash,{t.ledger with recorded := []}⟩ := by
  unfold Related at h
  split at h
  · exact h.crash
  · exact h.2.crash
  · exact h.2.crash
  · exact h.2.crash
  · exact h.2.crash
  · exact h.2.crash
  · exact h.2.crash
  · exact Crashed.crash h

/-- A step that touches neither the disk nor the recorded blocks: blocks are read, buffers without
pins are dropped, operations are counted. -/
structure Quiet (m m' : Machine) : Prop where
  /-- The disk is unchanged. -/
  disk : m'.disk=m.disk
  /-- The pins are unchanged. -/
  pins : m'.pins=m.pins
  /-- Placement and header of the log are unchanged. -/
  log : ∃ n c,m'.log={m.log with outstanding := n,committing := c}
  /-- Only blocks without pins may be read from disk where the cache was used before. -/
  look : ∀ b,m'.look b=m.look b ∨ m.pins b=0 ∧ m'.look b=m.disk b

theorem Recording.quiet {t : Traced} {n : ℕ} (h : Recording d₀ t n) {m : Machine}
    (hq : Quiet t.machine m) : Recording d₀ ⟨m,t.ledger⟩ n := by
  obtain ⟨k,c,hlog⟩ := hq.log
  constructor <;> dsimp only <;> (try rw [hlog]) <;> (try rw [hq.disk]) <;> (try rw [hq.pins])
  · exact ⟨h.good.len,h.good.room,h.good.nodup,h.good.home⟩
  · exact h.head
  · exact h.disk
  · intro b hb
    rcases hq.look b with hl|⟨hp,hl⟩
    · rw [hl]
      exact h.look b hb
    · rw [hl,h.disk b hb,h.clean b]
      rintro e he rfl
      exact absurd hp (Nat.ne_of_gt (h.pins e he))
  · intro b hb
    rcases hq.look b with hl|⟨-,hl⟩
    · rw [hl]
      exact h.lookLog b hb
    · exact hl
  · exact h.pins
  · exact h.clean
  · exact h.copied

theorem Installing.quiet {t : Traced} {n : ℕ} {recovering : Bool}
    (h : Installing d₀ t n recovering) {m : Machine} (hq : Quiet t.machine m) :
    Installing d₀ ⟨m,t.ledger⟩ n recovering := by
  obtain ⟨k,c,hlog⟩ := hq.log
  constructor <;> dsimp only <;> (try rw [hlog]) <;> (try rw [hq.disk]) <;> (try rw [hq.pins])
  · exact ⟨h.good.len,h.good.room,h.good.nodup,h.good.home⟩
  · exact h.head
  · exact h.recorded
  · exact h.logged
  · exact h.disk
  · intro b hb
    rcases hq.look b with hl|⟨-,hl⟩
    · rw [hl]
      exact h.lookLog b hb
    · exact hl
  · intro b hb
    rcases hq.look b with hl|⟨hp,hl⟩
    · rw [hl]
      exact h.look b hb
    · rw [hl]
      cases recovering with
      | true => rfl
      | false =>
        refine h.disk b hb fun j e hj he heb => ?_
        have hpos := h.pins rfl j e hj he
        rw [heb] at hpos
        omega
  · exact h.pins

theorem Crashed.quiet {t : Traced} (h : Crashed d₀ t) {m : Machine} (hq : Quiet t.machine m) :
    Crashed d₀ ⟨m,t.ledger⟩ := by
  obtain ⟨k,c,hlog⟩ := hq.log
  constructor <;> dsimp only <;> (try rw [hlog]) <;> (try rw [hq.disk])
  · exact h.recorded
  · intro b
    rcases hq.look b with hl|⟨-,hl⟩
    · rw [hl]
      exact h.look b
    · exact hl
  · exact ⟨h.good.len,h.good.room,h.good.nodup,h.good.home⟩
  · exact h.logged
  · exact h.disk

/-- A quiet step that leaves the committing thread and the counters alone. -/
theorem Related.quiet {t : Traced} (h : Related d₀ t) {m : Machine} (hq : Quiet t.machine m)
    (hpc : m.pc=t.machine.pc) (hbusy : Busy t.machine → Busy m) : Related d₀ ⟨m,t.ledger⟩ := by
  have hlen : m.log.lh=t.machine.log.lh := by
    obtain ⟨k,c,hlog⟩ := hq.log
    rw [hlog]
  unfold Related at h ⊢
  dsimp only
  rw [hpc,hlen]
  split at h
  · exact h.quiet hq
  · exact ⟨hbusy h.1,h.2.quiet hq⟩
  · exact ⟨hbusy h.1,h.2.quiet hq⟩
  · exact ⟨hbusy h.1,h.2.quiet hq⟩
  · exact ⟨fun hr => hbusy (h.1 hr),h.2.quiet hq⟩
  · exact ⟨fun hr => hbusy (h.1 hr),h.2.quiet hq⟩
  · exact ⟨hbusy h.1,h.2.quiet hq⟩
  · exact Crashed.quiet h hq

theorem quiet_bread (m : Machine) (b : ℕ) : Quiet m (m.bread b).2 := by
  refine ⟨bread_disk m b,bread_pins m b,⟨m.log.outstanding,m.log.committing,?_⟩,fun c => .inl ?_⟩
  · exact bread_log m b
  · rw [look_bread]

theorem quiet_evict {m : Machine} {b : ℕ} (h : m.pins b=0) :
    Quiet m {m with cache := Function.update m.cache b none} := by
  refine ⟨rfl,rfl,⟨m.log.outstanding,m.log.committing,rfl⟩,fun c => ?_⟩
  by_cases hc : c=b
  · right
    rw [hc]
    exact ⟨h,by simp [Machine.look]⟩
  · left
    simp [Machine.look,hc]

/-- Recording a new home block keeps the header well formed. -/
theorem Good.push {log : Log} (h : Good log) {b : UInt32} (hb : ¬InLog log b.toNat)
    (hnew : b∉log.lh.entries) (hlen : log.lh.len+2<logSize) (hsize : log.lh.len+2<log.size) :
    Good {log with lh := log.lh.push b} := by
  have hpush : (log.lh.push b).entries=log.lh.entries++[b] := push_entries b (by omega)
  refine ⟨hlen,.inr hsize,?_,?_⟩
  · dsimp only
    rw [hpush,List.nodup_append]
    refine ⟨h.nodup,List.pairwise_singleton ..,fun e he e' he' heq => ?_⟩
    rw [List.mem_singleton] at he'
    exact hnew (he' ▸ heq ▸ he)
  · intro e he
    dsimp only at he
    rw [hpush,List.mem_append,List.mem_singleton] at he
    rcases he with he|rfl
    · exact h.home e he
    · exact hb

/-- A write is recorded: it is absorbed by a recorded block, or takes a new entry. -/
theorem Recording.write {t : Traced} (h : Recording d₀ t 0) {b : UInt32} {data : Buffer}
    (hb : ¬InLog t.machine.log b.toNat) {log : Log} {pinned : Bool}
    (hw : LogMemory.write t.machine.log b=.ok (log,pinned)) :
    Recording d₀ ⟨{t.machine with
        cache := Function.update t.machine.cache b.toNat (some data)
        pins := if pinned=true then
          Function.update t.machine.pins b.toNat (t.machine.pins b.toNat+1) else t.machine.pins
        log := log},
      {t.ledger with recorded := t.ledger.recorded++[(b,data)]}⟩ 0 := by
  have hview : Ledger.view {t.ledger with recorded := t.ledger.recorded++[(b,data)]} d₀=
      Function.update (t.ledger.view d₀) b.toNat data := applyGroup_append ..
  have hdur : Ledger.durable {t.ledger with recorded := t.ledger.recorded++[(b,data)]} d₀=
      t.ledger.durable d₀ := rfl
  have hlook : ∀ pins log,Machine.look {t.machine with
      cache := Function.update t.machine.cache b.toNat (some data),pins := pins,log := log}=
      Function.update t.machine.look b.toNat data := by
    intro pins log
    funext c
    by_cases hc : c=b.toNat
    · rw [hc]
      simp [Machine.look]
    · simp [Machine.look,hc]
  have hne : ∀ c,InLog t.machine.log c → c≠b.toNat := fun c hc hcb => hb (hcb ▸ hc)
  rcases write_eq_ok hw with ⟨hmem,rfl,rfl⟩|⟨hmem,hlen,hsize,rfl,rfl⟩
  · constructor <;> dsimp only <;> (try rw [hview]) <;> (try rw [hdur]) <;> (try rw [hlook])
    · exact h.good
    · exact h.head
    · exact h.disk
    · intro c hc
      by_cases hcb : c=b.toNat
      · rw [hcb,Function.update_self,Function.update_self]
      · rw [Function.update_of_ne hcb,Function.update_of_ne hcb,h.look c hc]
    · intro c hc
      rw [Function.update_of_ne (hne c hc),h.lookLog c hc]
    · exact h.pins
    · intro c hc
      rw [Function.update_of_ne (Ne.symm (hc b hmem)),h.clean c hc]
    · exact nofun
  · have hpush : (t.machine.log.lh.push b).entries=t.machine.log.lh.entries++[b] :=
      push_entries b (by omega)
    constructor <;> dsimp only <;> (try rw [hview]) <;> (try rw [hdur]) <;> (try rw [hlook]) <;>
      (try rw [hpush])
    · exact h.good.push hb hmem hlen hsize
    · exact h.head
    · exact h.disk
    · intro c hc
      by_cases hcb : c=b.toNat
      · rw [hcb,Function.update_self,Function.update_self]
      · rw [Function.update_of_ne hcb,Function.update_of_ne hcb]
        exact h.look c hc
    · intro c hc
      rw [Function.update_of_ne (hne c hc)]
      exact h.lookLog c hc
    · intro e he
      rw [if_pos rfl]
      by_cases heb : e.toNat=b.toNat
      · rw [heb,Function.update_self]
        exact Nat.succ_pos _
      · rw [Function.update_of_ne heb]
        rw [List.mem_append,List.mem_singleton] at he
        rcases he with he|rfl
        · exact h.pins e he
        · exact absurd rfl heb
    · intro c hc
      have hcb : c≠b.toNat := Ne.symm (hc b (by simp))
      rw [Function.update_of_ne hcb]
      exact h.clean c fun e he => hc e (List.mem_append_left _ he)
    · exact nofun

/-- The copy of an entry is a log block. -/
theorem Good.inLog_copy {log : Log} (h : Good log) {j : ℕ} {e : UInt32}
    (he : log.lh.entries[j]?=some e) : InLog log (log.start+1+j) := by
  have hj := lt_len_of_entry he
  have hroom := h.room
  right
  omega

/-- `write_log` copies one more block. -/
theorem Recording.writeLogEntry {t : Traced} {i : ℕ} (h : Recording d₀ t i) {e : UInt32}
    (he : t.machine.log.lh.entries[i]?=some e) (pc : Pc) :
    Recording d₀ ⟨{t.machine.writeLogEntry i e.toNat with pc := pc},t.ledger⟩ (i+1) := by
  have hin := h.good.inLog_copy he
  have hdata := h.look e.toNat (h.good.home e (List.mem_of_getElem? he))
  have hlook : Machine.look {t.machine.writeLogEntry i e.toNat with pc := pc}=
      Function.update t.machine.look (t.machine.log.start+1+i) (t.ledger.view d₀ e.toNat) := by
    rw [← hdata]
    change (t.machine.writeLogEntry i e.toNat).look=_
    simp [Machine.writeLogEntry]
  have hdisk : (t.machine.writeLogEntry i e.toNat).disk=
      Function.update t.machine.disk (t.machine.log.start+1+i) (t.ledger.view d₀ e.toNat) := by
    rw [← hdata]
    simp [Machine.writeLogEntry]
  have hlog := writeLogEntry_log t.machine i e.toNat
  have hpins : (t.machine.writeLogEntry i e.toNat).pins=t.machine.pins := by
    simp [Machine.writeLogEntry]
  have hne : ∀ c,¬InLog t.machine.log c → c≠t.machine.log.start+1+i :=
    fun c hc hci => hc (hci ▸ hin)
  constructor <;> dsimp only <;> (try rw [hlook]) <;> (try rw [hdisk]) <;> (try rw [hlog]) <;>
    (try rw [hpins])
  · exact h.good
  · rw [Function.update_of_ne (by omega)]
    exact h.head
  · intro c hc
    rw [Function.update_of_ne (hne c hc)]
    exact h.disk c hc
  · intro c hc
    rw [Function.update_of_ne (hne c hc)]
    exact h.look c hc
  · intro c hc
    by_cases hci : c=t.machine.log.start+1+i
    · rw [hci,Function.update_self,Function.update_self]
    · rw [Function.update_of_ne hci,Function.update_of_ne hci]
      exact h.lookLog c hc
  · exact h.pins
  · exact h.clean
  · intro j e' hj he'
    by_cases hji : j=i
    · rw [hji] at he' ⊢
      rw [he] at he'
      cases he'
      rw [Function.update_self]
    · rw [Function.update_of_ne (by omega)]
      exact h.copied j e' (by omega) he'

/-- The `bwrite` of `write_head` is the commit point. -/
theorem Recording.writeHead {t : Traced} (h : Recording d₀ t t.machine.log.lh.len) (pc : Pc) :
    Installing d₀ ⟨{t.machine.writeHead with pc := pc},
      ⟨t.ledger.committed++[t.ledger.recorded],[]⟩⟩ 0 false := by
  have hdur : Ledger.durable ⟨t.ledger.committed++[t.ledger.recorded],[]⟩ d₀=
      t.ledger.view d₀ := by
    simp [Ledger.durable,Ledger.view]
  have hstart : InLog t.machine.log t.machine.log.start := .inl rfl
  have hlook : Machine.look {t.machine.writeHead with pc := pc}=
      Function.update t.machine.look t.machine.log.start
        (putHeader (t.machine.look t.machine.log.start) t.machine.log.lh) := by
    change t.machine.writeHead.look=_
    simp [Machine.writeHead]
  have hdisk : t.machine.writeHead.disk=Function.update t.machine.disk t.machine.log.start
      (putHeader (t.machine.look t.machine.log.start) t.machine.log.lh) := by
    simp [Machine.writeHead]
  have hlog := writeHead_log t.machine
  have hpins : t.machine.writeHead.pins=t.machine.pins := by
    simp [Machine.writeHead]
  have hne : ∀ c,¬InLog t.machine.log c → c≠t.machine.log.start :=
    fun c hc hcs => hc (hcs ▸ hstart)
  constructor <;> dsimp only <;> (try rw [hlook]) <;> (try rw [hdisk]) <;> (try rw [hlog]) <;>
    (try rw [hpins]) <;> (try rw [hdur])
  · exact h.good
  · rw [Function.update_self]
    have hlen := h.good.len
    exact getHeader_putHeader (by rw [logSize,maxOpBlocks] at hlen; omega)
  · intro j e he
    rw [Function.update_of_ne (by omega)]
    exact h.copied j e (lt_len_of_entry he) he
  · intro c hc hnot
    rw [Function.update_of_ne (hne c hc),h.disk c hc,h.clean c]
    intro e he
    obtain ⟨j,hj⟩ := List.getElem?_of_mem he
    exact hnot j e (Nat.zero_le _) hj
  · intro c hc
    by_cases hcs : c=t.machine.log.start
    · rw [hcs,Function.update_self,Function.update_self]
    · rw [Function.update_of_ne hcs,Function.update_of_ne hcs]
      exact h.lookLog c hc
  · intro c hc
    rw [Function.update_of_ne (hne c hc),if_neg Bool.false_ne_true]
    exact h.look c hc
  · intro _ j e _ he
    exact h.pins e (List.mem_of_getElem? he)

/-- `install_trans` installs one more block. Its `unpin` may lower the pins of that block. -/
theorem Installing.installEntry {t : Traced} {i : ℕ} {recovering : Bool}
    (h : Installing d₀ t i recovering) {e : UInt32} (he : t.machine.log.lh.entries[i]?=some e)
    {pins : ℕ → ℕ} (hpins : ∀ b,b≠e.toNat → pins b=t.machine.pins b) (pc : Pc) :
    Installing d₀ ⟨{t.machine.installEntry i e.toNat with pins := pins,pc := pc},t.ledger⟩ (i+1)
      recovering := by
  have hin := h.good.inLog_copy he
  have hhome := h.good.home e (List.mem_of_getElem? he)
  have hdata : t.machine.look (t.machine.log.start+1+i)=t.ledger.durable d₀ e.toNat := by
    rw [h.lookLog _ hin,h.logged i e he]
  have hlook : Machine.look {t.machine.installEntry i e.toNat with pins := pins,pc := pc}=
      Function.update t.machine.look e.toNat (t.ledger.durable d₀ e.toNat) := by
    rw [← hdata]
    change (t.machine.installEntry i e.toNat).look=_
    simp [Machine.installEntry]
  have hdisk : (t.machine.installEntry i e.toNat).disk=
      Function.update t.machine.disk e.toNat (t.ledger.durable d₀ e.toNat) := by
    rw [← hdata]
    simp [Machine.installEntry]
  have hlog := installEntry_log t.machine i e.toNat
  have hne : ∀ c,InLog t.machine.log c → c≠e.toNat := fun c hc hce => hhome (hce ▸ hc)
  constructor <;> dsimp only <;> (try rw [hlook]) <;> (try rw [hdisk]) <;> (try rw [hlog])
  · exact h.good
  · rw [Function.update_of_ne (hne _ (.inl rfl))]
    exact h.head
  · exact h.recorded
  · intro j e' he'
    rw [Function.update_of_ne (hne _ (h.good.inLog_copy he'))]
    exact h.logged j e' he'
  · intro c hc hnot
    by_cases hce : c=e.toNat
    · rw [hce,Function.update_self]
    · rw [Function.update_of_ne hce]
      refine h.disk c hc fun j e' hj he' => ?_
      by_cases hji : j=i
      · rw [hji,he] at he'
        cases he'
        exact Ne.symm hce
      · exact hnot j e' (by omega) he'
  · intro c hc
    rw [Function.update_of_ne (hne c hc),Function.update_of_ne (hne c hc)]
    exact h.lookLog c hc
  · intro c hc
    by_cases hce : c=e.toNat
    · rw [hce,Function.update_self,Function.update_self,ite_self]
    · rw [Function.update_of_ne hce,Function.update_of_ne hce]
      exact h.look c hc
  · intro hr j e' hj he'
    have hee : e'.toNat≠e.toNat := by
      intro heq
      rw [UInt32.toNat_inj] at heq
      rw [heq,← he] at he'
      have hlt := (List.getElem?_eq_some_iff.mp he).1
      exact absurd ((List.getElem?_inj hlt h.good.nodup).mp he'.symm) (by omega)
    rw [hpins _ hee]
    exact h.pins hr j e' (by omega) he'

/-- `empty_head` ends the installation: every home block is durable in place. -/
theorem Installing.emptyHead {t : Traced} {recovering : Bool}
    (h : Installing d₀ t t.machine.log.lh.len recovering) (pc : Pc) :
    Recording d₀ ⟨{t.machine.emptyHead with pc := pc},t.ledger⟩ 0 := by
  have hview : t.ledger.view d₀=t.ledger.durable d₀ := by
    rw [Ledger.view,h.recorded,applyGroup_nil]
  have hstart : InLog t.machine.log t.machine.log.start := .inl rfl
  have hlook : Machine.look {t.machine.emptyHead with pc := pc}=
      Function.update t.machine.look t.machine.log.start
        (putU32 (t.machine.look t.machine.log.start) 0 0) := by
    change t.machine.emptyHead.look=_
    simp [Machine.emptyHead]
    rfl
  have hdisk : t.machine.emptyHead.disk=Function.update t.machine.disk t.machine.log.start
      (putU32 (t.machine.look t.machine.log.start) 0 0) := by
    simp [Machine.emptyHead]
    rfl
  have hlog := emptyHead_log t.machine
  have hne : ∀ c,¬InLog t.machine.log c → c≠t.machine.log.start :=
    fun c hc hcs => hc (hcs ▸ hstart)
  have hplace : ∀ c,¬InLog t.machine.log c → t.machine.disk c=t.ledger.durable d₀ c := by
    intro c hc
    refine h.disk c hc fun j e hj he => ?_
    exact absurd (lt_len_of_entry he) (by omega)
  have hnil : LogHeader.entries {t.machine.log.lh with len := 0}=[] := entries_eq_nil rfl
  constructor <;> dsimp only <;> (try rw [hview]) <;> (try rw [hlook]) <;> (try rw [hdisk]) <;>
    (try rw [hlog])
  · exact good_of_len_eq_zero rfl
  · rw [Function.update_self,getHeader,getU32_putU32_self]
    rfl
  · intro c hc
    rw [Function.update_of_ne (hne c hc)]
    exact hplace c hc
  · intro c hc
    rw [Function.update_of_ne (hne c hc),h.look c hc]
    split
    · exact hplace c hc
    · rfl
  · intro c hc
    by_cases hcs : c=t.machine.log.start
    · rw [hcs,Function.update_self,Function.update_self]
    · rw [Function.update_of_ne hcs,Function.update_of_ne hcs]
      exact h.lookLog c hc
  · rw [hnil]
    exact fun _ hmem => absurd hmem List.not_mem_nil
  · exact fun _ _ => rfl
  · intro j e hj
    omega

/-- `read_head` finds either nothing to do or a group to install. -/
theorem Crashed.readHead {t : Traced} (h : Crashed d₀ t) (pc : Pc) :
    (t.machine.readHead.log.lh.len=0 →
      Recording d₀ ⟨{t.machine.readHead with pc := pc},t.ledger⟩ 0) ∧
      Installing d₀ ⟨{t.machine.readHead with pc := pc},t.ledger⟩ 0 true := by
  have hview : t.ledger.view d₀=t.ledger.durable d₀ := by
    rw [Ledger.view,h.recorded,applyGroup_nil]
  have hlook : Machine.look {t.machine.readHead with pc := pc}=t.machine.look :=
    look_bread t.machine t.machine.log.start
  have hdisk : t.machine.readHead.disk=t.machine.disk := by
    simp [Machine.readHead]
  have hlog : t.machine.readHead.log=
      {t.machine.log with lh := getHeader (t.machine.disk t.machine.log.start)} := by
    simp [Machine.readHead,h.look]
  constructor
  · intro hlen
    rw [hlog] at hlen
    have hnil := entries_eq_nil hlen
    constructor <;> dsimp only <;> (try rw [hview]) <;> (try rw [hlook]) <;>
      (try rw [hdisk]) <;> (try rw [hlog])
    · exact good_of_len_eq_zero hlen
    · exact hlen
    · intro c hc
      refine h.disk c hc ?_
      rw [hnil]
      exact nofun
    · intro c hc
      rw [h.look]
      refine h.disk c hc ?_
      rw [hnil]
      exact nofun
    · intro c _
      exact h.look c
    · rw [hnil]
      exact nofun
    · exact fun _ _ => rfl
    · exact nofun
  · constructor <;> dsimp only <;> (try rw [hlook]) <;> (try rw [hdisk]) <;> (try rw [hlog])
    · exact h.good
    · exact h.recorded
    · exact h.logged
    · intro c hc hnot
      refine h.disk c hc fun e he => ?_
      obtain ⟨j,hj⟩ := List.getElem?_of_mem he
      exact hnot j e (Nat.zero_le _) hj
    · intro c _
      exact h.look c
    · intro c _
      rw [if_pos rfl]
      exact h.look c
    · exact nofun

/-- A step of the committing or recovering thread. -/
theorem Related.tick {t : Traced} (h : Related d₀ t) {m : Machine}
    (hm : LogDisk.tick t.machine=.next m) :
    Related d₀ ⟨m,t.ledger.observe t.machine .tick⟩ := by
  unfold Related at h
  unfold LogDisk.tick at hm
  cases hpc : t.machine.pc with
  | recording =>
    rw [hpc] at hm
    cases hm
  | commit =>
    simp only [hpc] at h hm
    have hobs : t.ledger.observe t.machine .tick=t.ledger := by simp [Ledger.observe,hpc]
    rw [hobs]
    split at hm
    · cases hm
    · split at hm
      · cases hm
        exact ⟨h.1,{h.2 with}⟩
      · cases hm
        exact ⟨h.1,{h.2 with}⟩
  | writeLog i =>
    simp only [hpc] at h hm
    have hobs : t.ledger.observe t.machine .tick=t.ledger := by simp [Ledger.observe,hpc]
    rw [hobs]
    split at hm
    · rename_i hi
      split at hm
      · cases hm
      · rename_i e he
        cases hm
        rw [← entries_getElem? hi] at he
        refine ⟨?_,h.2.writeLogEntry he _⟩
        rw [Busy,writeLogEntry_log]
        exact h.1
    · rename_i hi
      cases hm
      refine ⟨h.1,?_⟩
      have hr := h.2
      exact {hr with
        copied := fun j e _ he => hr.copied j e (Nat.lt_of_lt_of_le (lt_len_of_entry he)
          (Nat.le_of_not_lt hi)) he}
  | writeHead =>
    simp only [hpc] at h hm
    have hobs : t.ledger.observe t.machine .tick=⟨t.ledger.committed++[t.ledger.recorded],[]⟩ := by
      simp [Ledger.observe,hpc]
    rw [hobs]
    cases hm
    refine ⟨fun _ => ?_,h.2.writeHead _⟩
    rw [Busy,writeHead_log]
    exact h.1
  | install i recovering =>
    simp only [hpc] at h hm
    have hobs : t.ledger.observe t.machine .tick=t.ledger := by simp [Ledger.observe,hpc]
    rw [hobs]
    have hbusy : ∀ e,recovering=false → Busy (t.machine.installEntry i e) := fun e hr => by
      rw [Busy,installEntry_log]
      exact h.1 hr
    split at hm
    · rename_i hi
      split at hm
      · cases hm
      · rename_i e he
        rw [← entries_getElem? hi] at he
        split at hm
        · cases hm
          exact ⟨hbusy _,h.2.installEntry he (fun b _ => by rw [installEntry_pins]) _⟩
        · unfold Machine.unpin at hm
          split at hm
          · cases hm
          · rename_i m' hu
            split at hu
            · cases hu
            · cases hu
              cases hm
              refine ⟨hbusy _,h.2.installEntry he (fun b hb => ?_) _⟩
              dsimp only
              rw [Function.update_of_ne hb,installEntry_pins]
    · rename_i hi
      cases hm
      refine ⟨h.1,?_⟩
      have hr := h.2
      have hle : i≥t.machine.log.lh.len := Nat.le_of_not_lt hi
      exact {hr with
        disk := fun b hb hnot => hr.disk b hb fun j e hj he => hnot j e (Nat.le_trans hle hj) he
        pins := fun hrec j e _ he => absurd (lt_len_of_entry he) (by dsimp only at *; omega)}
  | emptyHead recovering =>
    simp only [hpc] at h hm
    have hobs : t.ledger.observe t.machine .tick=t.ledger := by simp [Ledger.observe,hpc]
    rw [hobs]
    cases hm
    cases recovering with
    | true => exact h.2.emptyHead _
    | false =>
      refine ⟨?_,h.2.emptyHead _⟩
      rw [Busy,emptyHead_log]
      exact h.1 rfl
  | endCommit =>
    simp only [hpc] at h hm
    have hobs : t.ledger.observe t.machine .tick=t.ledger := by simp [Ledger.observe,hpc]
    rw [hobs]
    cases hm
    exact h.2.quiet ⟨rfl,rfl,⟨_,_,rfl⟩,fun b => .inl rfl⟩
  | readHead =>
    simp only [hpc] at h hm
    have hobs : t.ledger.observe t.machine .tick=t.ledger := by simp [Ledger.observe,hpc]
    rw [hobs]
    cases hm
    by_cases hlen : t.machine.readHead.log.lh.len>0
    · simp only [Related,if_pos hlen]
      exact ⟨nofun,(Crashed.readHead h _).2⟩
    · simp only [Related,if_neg hlen]
      exact (Crashed.readHead h _).1 (by omega)

/-- The relation of a machine that nobody commits on. -/
theorem related_of_recording {t : Traced} (hpc : t.machine.pc=.recording)
    (h : Recording d₀ t 0) : Related d₀ t := by
  unfold Related
  rw [hpc]
  exact h

/-- While an operation is open, nobody commits. -/
theorem Related.recording {t : Traced} (h : Related d₀ t) (hb : ¬t.machine.pc.booting=true)
    (ho : 0<t.machine.log.outstanding) : t.machine.pc=.recording ∧ Recording d₀ t 0 := by
  have hbusy : ¬Busy t.machine := fun hbusy => absurd hbusy.1 (by omega)
  unfold Related at h
  cases hpc : t.machine.pc with
  | recording =>
    rw [hpc] at h
    exact ⟨rfl,h⟩
  | commit => rw [hpc] at h; exact absurd h.1 hbusy
  | writeLog i => rw [hpc] at h; exact absurd h.1 hbusy
  | writeHead => rw [hpc] at h; exact absurd h.1 hbusy
  | install i recovering =>
    rw [hpc] at h hb
    exact absurd (h.1 (Bool.eq_false_iff.mpr hb)) hbusy
  | emptyHead recovering =>
    rw [hpc] at h hb
    exact absurd (h.1 (Bool.eq_false_iff.mpr hb)) hbusy
  | endCommit => rw [hpc] at h; exact absurd h.1 hbusy
  | readHead =>
    rw [hpc] at hb
    exact absurd rfl hb

/-- Every step keeps machine and ledger related. -/
theorem tracedStep_related (t : Traced) (a : Action) (u : Traced) (h : Related d₀ t) (_ : True)
    (hu : tracedStep t a=.next u) : Related d₀ u := by
  obtain ⟨hm,hl⟩ := tracedStep_eq_next hu
  obtain ⟨m,l⟩ := u
  dsimp only at hm hl
  subst hl
  cases a with
  | beginOp =>
    simp only [step] at hm
    split at hm
    · cases hm
    · split at hm
      · cases hm
      · rename_i log hlog
        cases hm
        obtain ⟨hc,-,rfl⟩ := beginOp_eq_some hlog
        refine h.quiet ⟨rfl,rfl,⟨_,_,rfl⟩,fun b => .inl rfl⟩ rfl fun hb => ?_
        exact absurd hb.2 (by rw [hc]; exact Bool.false_ne_true)
  | write b data =>
    simp only [step] at hm
    split at hm
    · cases hm
    · rename_i hfree
      split at hm
      · cases hm
      · rename_i log pinned hw
        cases hm
        rw [not_or] at hfree
        obtain ⟨hpc,hrec⟩ := h.recording hfree.1 (write_outstanding hw)
        exact related_of_recording hpc (hrec.write hfree.2 hw)
  | endOp =>
    simp only [step] at hm
    split at hm
    · cases hm
    · rename_i hfree
      split at hm
      · cases hm
      · rename_i log commits he
        cases hm
        obtain ⟨ho,⟨rfl,rfl⟩|⟨rfl,rfl⟩⟩ := endOp_eq_ok he
        · obtain ⟨-,hrec⟩ := h.recording hfree ho
          simp only [Related,if_pos]
          exact ⟨⟨rfl,rfl⟩,hrec.quiet ⟨rfl,rfl,⟨_,_,rfl⟩,fun b => .inl rfl⟩⟩
        · obtain ⟨hpc,hrec⟩ := h.recording hfree ho
          exact related_of_recording hpc (hrec.quiet ⟨rfl,rfl,⟨_,_,rfl⟩,fun b => .inl rfl⟩)
  | bread b =>
    cases hm
    exact h.quiet (quiet_bread _ b) (bread_pc _ b) fun hb => by rwa [Busy,bread_log]
  | evict b =>
    simp only [step] at hm
    split at hm
    · rename_i hp
      cases hm
      exact h.quiet (quiet_evict hp) rfl id
    · cases hm
  | tick => exact h.tick hm
  | crash =>
    cases hm
    exact h.crash

/-- The first boot on a disk with an empty log. -/
theorem boot_related {start size dev : ℕ} (h : (getHeader (d₀ start)).len=0) :
    Related d₀ ⟨boot start size dev d₀,⟨[],[]⟩⟩ := by
  have hnil := entries_eq_nil h
  refine ⟨rfl,fun _ => rfl,good_of_len_eq_zero h,?_,fun _ _ _ => rfl⟩
  intro j e he
  dsimp only [boot,initLog] at he
  rw [hnil] at he
  cases he

/-- The committing or recovering thread does not move the log area. -/
theorem tick_place {m m' : Machine} (h : LogDisk.tick m=.next m') :
    m'.log.start=m.log.start ∧ m'.log.size=m.log.size := by
  unfold LogDisk.tick at h
  split at h
  · cases h
  · split at h
    · cases h
    · split at h <;> cases h <;> exact ⟨rfl,rfl⟩
  · split at h
    · split at h
      · cases h
      · cases h
        rw [writeLogEntry_log]
        exact ⟨rfl,rfl⟩
    · cases h
      exact ⟨rfl,rfl⟩
  · cases h
    rw [writeHead_log]
    exact ⟨rfl,rfl⟩
  · split at h
    · split at h
      · cases h
      · dsimp only at h
        split at h
        · cases h
          rw [installEntry_log]
          exact ⟨rfl,rfl⟩
        · unfold Machine.unpin at h
          split at h
          · cases h
          · rename_i m'' hu
            split at hu
            · cases hu
            · cases hu
              cases h
              rw [installEntry_log]
              exact ⟨rfl,rfl⟩
    · cases h
      exact ⟨rfl,rfl⟩
  · cases h
    rw [emptyHead_log]
    exact ⟨rfl,rfl⟩
  · cases h
    exact ⟨rfl,rfl⟩
  · cases h
    simp [Machine.readHead]

/-- No step moves the log area. -/
theorem step_place {m m' : Machine} {a : Action} (h : step m a=.next m') :
    m'.log.start=m.log.start ∧ m'.log.size=m.log.size := by
  cases a with
  | beginOp =>
    simp only [step] at h
    split at h
    · cases h
    · split at h
      · cases h
      · rename_i log hlog
        obtain ⟨-,-,rfl⟩ := beginOp_eq_some hlog
        cases h
        exact ⟨rfl,rfl⟩
  | write b data =>
    simp only [step] at h
    split at h
    · cases h
    · split at h
      · cases h
      · rename_i log pinned hw
        cases h
        rcases write_eq_ok hw with ⟨-,rfl,-⟩|⟨-,-,-,rfl,-⟩ <;> exact ⟨rfl,rfl⟩
  | endOp =>
    simp only [step] at h
    split at h
    · cases h
    · split at h
      · cases h
      · rename_i log commits he
        cases h
        obtain ⟨-,⟨rfl,-⟩|⟨rfl,-⟩⟩ := endOp_eq_ok he <;> exact ⟨rfl,rfl⟩
  | bread b =>
    cases h
    rw [bread_log]
    exact ⟨rfl,rfl⟩
  | evict b =>
    simp only [step] at h
    split at h
    · cases h
      exact ⟨rfl,rfl⟩
    · cases h
  | tick => exact tick_place h
  | crash =>
    cases h
    exact ⟨rfl,rfl⟩

/-- In the middle of recovery, enough steps install the remaining blocks. -/
theorem run_install (n : ℕ) {t : Traced} {i : ℕ} (hg : Good t.machine.log)
    (hpc : t.machine.pc=.install i true) (hn : i+n=t.machine.log.lh.len) :
    ∃ u,run tracedStep t (List.replicate n .tick)=.next u ∧
      u.machine.pc=.install u.machine.log.lh.len true ∧ u.ledger=t.ledger := by
  induction n generalizing t i with
  | zero =>
    refine ⟨t,rfl,?_,rfl⟩
    rw [hpc,← hn]
    rfl
  | succ n ih =>
    have hi : i<t.machine.log.lh.len := by omega
    have hcap := hg.len
    obtain ⟨e,he⟩ : ∃ e,t.machine.log.lh.blocknos[i]?=some e :=
      ⟨_,Vector.getElem?_eq_getElem (by omega)⟩
    have hstep : tracedStep t .tick=.next
        ⟨{t.machine.installEntry i e.toNat with pc := .install (i+1) true},t.ledger⟩ := by
      simp [tracedStep,step,LogDisk.tick,hpc,hi,he,Ledger.observe]
    rw [List.replicate_succ,run_cons_next _ hstep]
    have hlog := installEntry_log t.machine i e.toNat
    refine ih (i:=i+1) ?_ rfl ?_
    · dsimp only
      rw [hlog]
      exact hg
    · dsimp only
      rw [hlog]
      omega

/-- Recovery that is not cut short completes. -/
theorem recover_completes {t : Traced} (h : Crashed d₀ t) (hpc : t.machine.pc=.readHead) :
    ∃ n u,run tracedStep t (List.replicate n .tick)=.next u ∧ u.machine.pc=.recording ∧
      u.ledger=t.ledger := by
  have hread : tracedStep t .tick=.next ⟨{t.machine.readHead with
      pc := if t.machine.readHead.log.lh.len>0 then .install 0 true else .recording},t.ledger⟩ := by
    simp [tracedStep,step,LogDisk.tick,hpc,Ledger.observe]
  by_cases hlen : t.machine.readHead.log.lh.len>0
  · rw [if_pos hlen] at hread
    have hinst := (h.readHead (.install 0 true)).2
    obtain ⟨u,hu,hupc,hul⟩ := run_install t.machine.readHead.log.lh.len hinst.good rfl
      (Nat.zero_add _)
    have hlast : tracedStep u .tick=.next ⟨{u.machine with pc := .emptyHead true},t.ledger⟩ := by
      simp [tracedStep,step,LogDisk.tick,hupc,Ledger.observe,hul]
    have hempty : tracedStep ⟨{u.machine with pc := .emptyHead true},t.ledger⟩ .tick=.next
        ⟨{Machine.emptyHead {u.machine with pc := .emptyHead true} with pc := .recording},
          t.ledger⟩ := by
      simp [tracedStep,step,LogDisk.tick,Ledger.observe]
    refine ⟨t.machine.readHead.log.lh.len+2+1,
      ⟨{Machine.emptyHead {u.machine with pc := .emptyHead true} with pc := .recording},t.ledger⟩,
      ?_,rfl,rfl⟩
    rw [List.replicate_succ,run_cons_next _ hread,List.replicate_add,run_append _ hu,
      List.replicate_succ,run_cons_next _ hlast,List.replicate_succ,run_cons_next _ hempty]
    rfl
  · rw [if_neg hlen] at hread
    refine ⟨1,⟨{t.machine.readHead with pc := .recording},t.ledger⟩,?_,rfl,rfl⟩
    rw [List.replicate_succ,run_cons_next _ hread]
    rfl

/-- What holds in every state of a run from the first boot. -/
structure Reached (d₀ : ℕ → Buffer) (start size : ℕ) (t : Traced) : Prop where
  /-- Machine and ledger are related. -/
  related : Related d₀ t
  /-- The log area starts where the superblock says. -/
  start : t.machine.log.start=start
  /-- The log area has the size the superblock says. -/
  size : t.machine.log.size=size

/-- Every run from the first boot. -/
theorem run_reached {start size dev : ℕ} (h : (getHeader (d₀ start)).len=0)
    {actions : List Action} {t : Traced}
    (hr : run tracedStep ⟨boot start size dev d₀,⟨[],[]⟩⟩ actions=.next t) :
    Reached d₀ start size t := by
  have hstep : ∀ s a u,Reached d₀ start size s → True → tracedStep s a=.next u →
      Reached d₀ start size u := by
    intro s a u hs _ hu
    have hp := step_place (tracedStep_eq_next hu).1
    exact ⟨tracedStep_related s a u hs.related trivial hu,hp.1.trans hs.start,
      hp.2.trans hs.size⟩
  exact run_invariant hstep ⟨boot_related h,rfl,rfl⟩ (guarded_of_forall (fun _ _ => trivial) _ _) hr

/-- In every run, with crashes at any point of commit and recovery, the home blocks on disk are the
state after exactly the groups whose header has reached the disk whenever nobody commits or
recovers; and from every state a crash followed by a recovery that is not cut short completes with
that state on disk. -/
theorem crash_atomic (start size dev : ℕ) (d₀ : ℕ → Buffer)
    (hclean : (getHeader (d₀ start)).len=0) (actions : List Action) (t : Traced)
    (hr : run tracedStep ⟨boot start size dev d₀,⟨[],[]⟩⟩ actions=.next t) :
    (t.machine.pc=.recording → ∀ b,¬InLog (initLog start size dev) b →
      t.machine.disk b=t.ledger.durable d₀ b) ∧
      ∃ n u,run tracedStep t (.crash::List.replicate n .tick)=.next u ∧
        u.machine.pc=.recording ∧ u.ledger.committed=t.ledger.committed ∧
        ∀ b,¬InLog (initLog start size dev) b → u.machine.disk b=t.ledger.durable d₀ b := by
  have hat : ∀ v,Reached d₀ start size v → v.machine.pc=.recording →
      ∀ b,¬InLog (initLog start size dev) b → v.machine.disk b=v.ledger.durable d₀ b := by
    intro v hv hpc b hb
    have hrel := hv.related
    unfold Related at hrel
    rw [hpc] at hrel
    refine hrel.disk b ?_
    rw [InLog,hv.start,hv.size]
    exact hb
  have ht := run_reached hclean hr
  refine ⟨hat t ht,?_⟩
  obtain ⟨n,u,hu,hpc,hl⟩ := recover_completes ht.related.crash rfl
  have hrun : run tracedStep t (.crash::List.replicate n .tick)=.next u := hu
  refine ⟨n,u,hrun,hpc,by rw [hl],fun b hb => ?_⟩
  have hreach := run_reached hclean ((run_append _ hr).trans hrun)
  rw [hat u hreach hpc b hb,hl]
  rfl

end Relation

/-- Contents to write. -/
def ones : Buffer := fun _ => 1

/-- One group is committed, the power fails before its block is installed and again during the
recovery, and the second recovery completes. -/
def twoCrashes : List Action :=
  [.tick,.beginOp,.write 40 ones,.endOp,.tick,.tick,.tick,.tick,.crash,.tick,.crash,.tick,.tick,
    .tick,.tick]

set_option maxRecDepth 8000 in
/-- After the second recovery the block has its committed contents. -/
theorem crash_atomic_twoCrashes :
    ∃ t,run tracedStep ⟨boot 2 30 1 (fun _ _ => 0),⟨[],[]⟩⟩ twoCrashes=.next t ∧
      t.machine.disk 40=ones := by
  have h := crash_atomic 2 30 1 (fun _ _ => 0) rfl twoCrashes _ rfl
  exact ⟨_,rfl,h.1 rfl 40 (by decide)⟩

end Xv6Rust.LogCrash

import Xv6Rust.BufferCoherence
import Xv6Rust.LogDisk

/-!
# Pins of the write-ahead log

`fs/log.rs` over the buffer cache of `fs/bio.rs`. `LOG.write` pins a block when
it records it and absorbs later writes; `install_trans` undoes the pin when the
block is home. Every process may get, read, change and drop buffers in between.
The log and all blocks are on one device. A step of the committing thread that
works on buffers it holds is one label; `pin` and `unpin` are two labels each.
-/

namespace Xv6Rust.LogPins

open Runs Handles Bytes LogMemory BufferCache BufferCoherence

/-- Where the committing thread stands. -/
inductive Phase where
  /-- Nobody commits. -/
  | recording
  /-- Entering `commit`. -/
  | commit
  /-- In `write_log` before the given entry. -/
  | writeLog (n : ℕ)
  /-- In `write_head`. -/
  | writeHead
  /-- In `install_trans` before the given entry. -/
  | install (n : ℕ)
  /-- In `unpin` of the given entry through the given `Buf`. -/
  | unpin (n h : ℕ)
  /-- In `empty_head`. -/
  | emptyHead
  /-- `commit` has returned to `end_op`. -/
  | endCommit
  deriving DecidableEq

/-- Cache and log. -/
structure LogSystem where
  /-- The buffer cache. -/
  cache : System Buffer
  /-- The log in memory. -/
  log : Log
  /-- The `Buf` that `LOG.write` is pinning with the lock of the log. -/
  writer : Option ℕ
  /-- The committing thread. -/
  phase : Phase

/-- Panics of the cache and of the log. -/
inductive Panic where
  /-- A panic of the cache. -/
  | cache (e : BufferCache.Panic)
  /-- A panic of the log. -/
  | log (e : LogPanic)
  /-- `blocknos` indexed out of bounds. -/
  | blocknoIndex
  deriving DecidableEq

/-- The sections of the calls. -/
inductive Label where
  /-- `bget` of a block by any process. -/
  | bget (h : ℕ) (blockno : UInt32)
  /-- Another section of a cache call that is no part of `pin` or `unpin`. -/
  | cache (a : BufferCache.Label Buffer)
  /-- `begin_op`. -/
  | beginOp
  /-- `LOG.write` up to the read of the count by `pin`. -/
  | logWrite (h : ℕ)
  /-- `LOG.write` from the write of the count on. -/
  | logPin
  /-- First section of `end_op`. -/
  | endOp
  /-- Entry of `commit`. -/
  | commit
  /-- A pass of the loop of `write_log` with the buffers of the log block and of the home block. -/
  | writeLog (hlog hhome : ℕ)
  /-- The end of a loop of the commit. -/
  | loopEnd
  /-- `write_head` with the buffer of the header. -/
  | writeHead (h : ℕ)
  /-- A pass of the loop of `install_trans` up to the read of the count by `unpin`. -/
  | install (hlog hhome : ℕ)
  /-- `unpin` writes the count. -/
  | unpin
  /-- `empty_head` with the buffer of the header. -/
  | emptyHead (h : ℕ)
  /-- Last section of `end_op`. -/
  | endCommit

/-- The sections that any process may run on a `Buf` of its own. -/
def plain : BufferCache.Label Buffer → Bool
  | .acquire _ | .check _ | .read _ | .store _ | .modify _ _ | .bwrite _ | .release _
  | .brelse _ => true
  | _ => false

/-- The block number of a `Buf`. -/
def blocknoOf (c : System Buffer) (h : ℕ) : UInt32 := UInt32.ofNat (c.buf h).blockno

/-- A `Buf` that `bread` returned for a block. -/
def Holds (c : System Buffer) (h dev blockno : ℕ) : Prop :=
  h∈c.live ∧ c.stage h=.held ∧ (c.buf h).key=(dev,blockno)

instance decidableHolds (c : System Buffer) (h dev blockno : ℕ) : Decidable (Holds c h dev blockno) :=
  inferInstanceAs (Decidable (h∈c.live ∧ c.stage h=.held ∧ (c.buf h).key=(dev,blockno)))

/-- Change a buffer and write it to disk. -/
def put (c : System Buffer) (h : ℕ) (x : Buffer) : System Buffer := bwrite (modify c h x) h

/-- The state after a step of the cache. -/
def LogSystem.lift (s : LogSystem) : Outcome BufferCache.Panic (System Buffer) →
    Outcome Panic LogSystem
  | .blocked => .blocked
  | .fault e => .fault (.cache e)
  | .next c => .next {s with cache := c}

/-- One section of a call. -/
def step (s : LogSystem) : Label → Outcome Panic LogSystem
  | .bget h blockno => s.lift (BufferCache.step s.cache (.bget h s.log.dev blockno.toNat))
  | .cache a => if plain a=true then s.lift (BufferCache.step s.cache a) else .blocked
  | .beginOp =>
    if s.writer=none then
      match beginOp s.log with
      | some log => .next {s with log := log}
      | none => .blocked
    else .blocked
  | .logWrite h =>
    if s.writer=none ∧ h∈s.cache.live ∧ s.cache.stage h=.held then
      match write s.log (blocknoOf s.cache h) with
      | .error e => .fault (.log e)
      | .ok (_,false) => .next s
      | .ok (_,true) =>
        .next {s with
          cache := s.cache.setStage h (.pinning (s.cache.ctrl (s.cache.slot h)).refcnt)
          writer := some h}
    else .blocked
  | .logPin =>
    match s.writer with
    | none => .blocked
    | some h =>
      match s.cache.stage h with
      | .pinning rc =>
        .next {s with
          cache := pinWrite s.cache h rc
          log := {s.log with lh := s.log.lh.push (blocknoOf s.cache h)}
          writer := none}
      | _ => .blocked
  | .endOp =>
    if s.writer=none then
      match endOp s.log with
      | .error e => .fault (.log e)
      | .ok (log,false) => .next {s with log := log}
      | .ok (log,true) => .next {s with log := log,phase := .commit}
    else .blocked
  | .commit =>
    if s.phase=.commit then
      if s.log.committing=false then .fault (.log .commitFlagNotSet)
      else if s.log.lh.len>0 then .next {s with phase := .writeLog 0}
      else .next {s with phase := .endCommit}
    else .blocked
  | .writeLog hlog hhome =>
    match s.phase with
    | .writeLog n =>
      if n < s.log.lh.len then
        match s.log.lh.blocknos[n]? with
        | none => .fault .blocknoIndex
        | some b =>
          if Holds s.cache hlog s.log.dev (s.log.start+1+n) ∧
              Holds s.cache hhome s.log.dev b.toNat ∧ hlog≠hhome then
            .next {s with
              cache := put s.cache hlog (s.cache.data (s.cache.slot hhome))
              phase := .writeLog (n+1)}
          else .blocked
      else .blocked
    | _ => .blocked
  | .loopEnd =>
    match s.phase with
    | .writeLog n => if n < s.log.lh.len then .blocked else .next {s with phase := .writeHead}
    | .install n => if n < s.log.lh.len then .blocked else .next {s with phase := .emptyHead}
    | _ => .blocked
  | .writeHead h =>
    if s.phase=.writeHead ∧ Holds s.cache h s.log.dev s.log.start then
      .next {s with
        cache := put s.cache h (LogDisk.putHeader (s.cache.data (s.cache.slot h)) s.log.lh)
        phase := .install 0}
    else .blocked
  | .install hlog hhome =>
    match s.phase with
    | .install n =>
      if n < s.log.lh.len then
        match s.log.lh.blocknos[n]? with
        | none => .fault .blocknoIndex
        | some b =>
          if Holds s.cache hlog s.log.dev (s.log.start+1+n) ∧
              Holds s.cache hhome s.log.dev b.toNat ∧ hlog≠hhome then
            match unpinRead (put s.cache hhome (s.cache.data (s.cache.slot hlog))) hhome with
            | .next c => .next {s with cache := c,phase := .unpin n hhome}
            | .fault e => .fault (.cache e)
            | .blocked => .blocked
          else .blocked
      else .blocked
    | _ => .blocked
  | .unpin =>
    match s.phase with
    | .unpin n h =>
      match s.cache.stage h with
      | .unpinning rc =>
        .next {s with cache := unpinWrite s.cache h rc,phase := .install (n+1)}
      | _ => .blocked
    | _ => .blocked
  | .emptyHead h =>
    if s.phase=.emptyHead ∧ Holds s.cache h s.log.dev s.log.start then
      .next {s with
        cache := put s.cache h (putU32 (s.cache.data (s.cache.slot h)) 0 0)
        log := {s.log with lh := {s.log.lh with len := 0}}
        phase := .endCommit}
    else .blocked
  | .endCommit =>
    if s.phase=.endCommit ∧ s.writer=none then
      .next {s with log := endCommit s.log,phase := .recording}
    else .blocked

/-- The log after boot: nothing is recorded. -/
def boot (start size dev : ℕ) (zero : Buffer) (disk : ℕ×ℕ → Buffer) : LogSystem :=
  { cache := binit zero disk
    log := ⟨start,size,dev,0,false,⟨0,Vector.replicate _ 0⟩⟩
    writer := none
    phase := .recording }

/-- The recorded blocks whose pin is not yet undone. -/
def pending (s : LogSystem) : List UInt32 :=
  match s.phase with
  | .install n => s.log.lh.entries.drop n
  | .unpin n _ => s.log.lh.entries.drop n
  | .emptyHead => []
  | .endCommit => []
  | _ => s.log.lh.entries

/-- Nobody else changes a count between the read and the write of a `pin` or an `unpin`. -/
def NoRace (s : LogSystem) : Label → Prop
  | .bget h blockno => BufferCoherence.NoRace s.cache (.bget h s.log.dev blockno.toNat)
  | .cache a => BufferCoherence.NoRace s.cache a
  | _ => True

section Quiet

variable {c d : System Buffer} {a : BufferCache.Label Buffer}

/-- The sections that are no part of `pin` or `unpin`. -/
def quiet : BufferCache.Label Buffer → Bool
  | .pinRead _ | .pinWrite _ | .unpinRead _ | .unpinWrite _ => false
  | _ => true

/-- A quiet section leaves the pins alone. -/
theorem quiet_pins (h : Change c a d) (ha : quiet a=true) : d.pins=c.pins := by
  cases h <;> first | rfl | cases ha

/-- Changing one stage to one outside of `pin` and `unpin`. -/
theorem counting_setStage {x y : ℕ} {st : Stage} (hst : st.counting=false)
    (hc : (Function.update c.stage y st x).counting=true) :
    Function.update c.stage y st x=c.stage x := by
  rw [Function.update_apply] at hc ⊢
  split
  · rename_i e
    rw [if_pos e,hst] at hc
    cases hc
  · rfl

/-- A quiet section begins no `pin` or `unpin`. -/
theorem quiet_counting (h : Change c a d) (ha : quiet a=true) {x : ℕ} (hx : x∈d.live)
    (hc : (d.stage x).counting=true) : x∈c.live ∧ d.stage x=c.stage x := by
  have hadd : ∀ y,x∈insert y c.live → (Function.update c.stage y .waiting x).counting=true →
      x∈c.live := by
    intro y hy hcy
    rcases Finset.mem_insert.mp hy with e|e
    · rw [e,Function.update_self] at hcy
      cases hcy
    · exact e
  cases h with
  | hit => exact ⟨hadd _ hx hc,counting_setStage rfl hc⟩
  | miss => exact ⟨hadd _ hx hc,counting_setStage rfl hc⟩
  | acquire => exact ⟨hx,counting_setStage rfl hc⟩
  | check => exact ⟨hx,counting_setStage (by split <;> rfl) hc⟩
  | read => exact ⟨hx,counting_setStage rfl hc⟩
  | store => exact ⟨hx,counting_setStage rfl hc⟩
  | modify => exact ⟨hx,rfl⟩
  | bwrite => exact ⟨hx,rfl⟩
  | release => exact ⟨hx,counting_setStage rfl hc⟩
  | brelse => exact ⟨Finset.mem_of_mem_erase hx,rfl⟩
  | pinRead => cases ha
  | pinWrite => cases ha
  | unpinRead => cases ha
  | unpinWrite => cases ha

/-- A quiet section leaves a `Buf` in the middle of `pin` or `unpin` alone. -/
theorem quiet_keep (h : Change c a d) (ha : quiet a=true) {x : ℕ} (hx : x∈c.live)
    (hc : (c.stage x).counting=true) : x∈d.live ∧ d.stage x=c.stage x ∧ d.buf x=c.buf x := by
  have hstage : ∀ y st,(c.stage y).counting=false → Function.update c.stage y st x=c.stage x := by
    intro y st hy
    refine Function.update_of_ne ?_ _ _
    intro e
    rw [e,hy] at hc
    cases hc
  cases h with
  | hit new =>
    have hne := ne_of_mem_of_not_mem hx new
    exact ⟨Finset.mem_insert_of_mem hx,Function.update_of_ne hne _ _,Function.update_of_ne hne _ _⟩
  | miss new =>
    have hne := ne_of_mem_of_not_mem hx new
    exact ⟨Finset.mem_insert_of_mem hx,Function.update_of_ne hne _ _,Function.update_of_ne hne _ _⟩
  | acquire live waiting => exact ⟨hx,hstage _ _ (by rw [waiting]; rfl),rfl⟩
  | check live locked => exact ⟨hx,hstage _ _ (by rw [locked]; rfl),rfl⟩
  | read live reading => exact ⟨hx,hstage _ _ (by rw [reading]; rfl),rfl⟩
  | store live loaded => exact ⟨hx,hstage _ _ (by rw [loaded]; rfl),rfl⟩
  | modify => exact ⟨hx,rfl,rfl⟩
  | bwrite => exact ⟨hx,rfl,rfl⟩
  | release live held => exact ⟨hx,hstage _ _ (by rw [held]; rfl),rfl⟩
  | brelse live released =>
    refine ⟨Finset.mem_erase.mpr ⟨?_,hx⟩,rfl,rfl⟩
    intro e
    rw [e,released] at hc
    cases hc
  | pinRead => cases ha
  | pinWrite => cases ha
  | unpinRead => cases ha
  | unpinWrite => cases ha

/-- A live `Buf` was there before, or `bget` has just made it. -/
theorem live_cases (h : Change c a d) {x : ℕ} (hx : x∈d.live) :
    (x∈c.live ∧ d.buf x=c.buf x) ∨
      ∃ dev blockno,a=.bget x dev blockno ∧ (d.buf x).key=(dev,blockno) := by
  have hadd : ∀ y i dev blockno,x∈insert y c.live → (x∈c.live ∧
      Function.update c.buf y ⟨i,dev,blockno⟩ x=c.buf x) ∨
      (x=y ∧ (Function.update c.buf y ⟨i,dev,blockno⟩ x).key=(dev,blockno)) := by
    intro y i dev blockno hy
    by_cases e : x=y
    · rw [e,Function.update_self]
      exact .inr ⟨rfl,rfl⟩
    · exact .inl ⟨Finset.mem_of_mem_insert_of_ne hy e,Function.update_of_ne e _ _⟩
  cases h with
  | @hit y dev blockno i =>
    rcases hadd y i dev blockno hx with h1|⟨e,h1⟩
    · exact .inl h1
    · exact .inr ⟨dev,blockno,by rw [e],h1⟩
  | @miss y dev blockno i =>
    rcases hadd y i dev blockno hx with h1|⟨e,h1⟩
    · exact .inl h1
    · exact .inr ⟨dev,blockno,by rw [e],h1⟩
  | brelse => exact .inl ⟨Finset.mem_of_mem_erase hx,rfl⟩
  | acquire => exact .inl ⟨hx,rfl⟩
  | check => exact .inl ⟨hx,rfl⟩
  | read => exact .inl ⟨hx,rfl⟩
  | store => exact .inl ⟨hx,rfl⟩
  | modify => exact .inl ⟨hx,rfl⟩
  | bwrite => exact .inl ⟨hx,rfl⟩
  | release => exact .inl ⟨hx,rfl⟩
  | pinRead => exact .inl ⟨hx,rfl⟩
  | pinWrite => exact .inl ⟨hx,rfl⟩
  | unpinRead => exact .inl ⟨hx,rfl⟩
  | unpinWrite => exact .inl ⟨hx,rfl⟩

/-- A buffer with references that is valid stays so. -/
theorem valid_of_referenced (h : Change c a d) {i : ℕ} (hp : 0<(c.ctrl i).refcnt)
    (hv : c.valid i=true) : d.valid i=true := by
  cases h with
  | @miss x dev blockno j new listed unused =>
    have hne : i≠j := by
      intro e
      rw [e,unused] at hp
      exact absurd hp (lt_irrefl 0)
    exact (Function.update_of_ne hne _ _).trans hv
  | store =>
    change Function.update c.valid _ true i=true
    rw [Function.update_apply]
    split
    · rfl
    · exact hv
  | hit => exact hv
  | acquire => exact hv
  | check => exact hv
  | read => exact hv
  | modify => exact hv
  | bwrite => exact hv
  | release => exact hv
  | brelse => exact hv
  | pinRead => exact hv
  | pinWrite => exact hv
  | unpinRead => exact hv
  | unpinWrite => exact hv

/-- A buffer that was used stays so. -/
theorem used_of_used (h : Change c a d) {i : ℕ} (hu : c.used i=true) : d.used i=true := by
  have hadd : ∀ j,Function.update c.used j true i=true := by
    intro j
    rw [Function.update_apply]
    split
    · rfl
    · exact hu
  cases h with
  | hit => exact hadd _
  | miss => exact hadd _
  | acquire => exact hu
  | check => exact hu
  | read => exact hu
  | store => exact hu
  | modify => exact hu
  | bwrite => exact hu
  | release => exact hu
  | brelse => exact hu
  | pinRead => exact hu
  | pinWrite => exact hu
  | unpinRead => exact hu
  | unpinWrite => exact hu

end Quiet

section Pinning

variable {c d : System Buffer} {a : BufferCache.Label Buffer} {dev : ℕ} {blocks : List UInt32}

/-- Exactly the given blocks are pinned, once each, in valid buffers. -/
structure Pinned (c : System Buffer) (dev : ℕ) (blocks : List UInt32) : Prop where
  /-- Every block is pinned once. -/
  each : ∀ b∈blocks,∃ i,i<nbuf ∧ c.pins i=1 ∧ (c.ctrl i).key=(dev,b.toNat) ∧ c.used i=true ∧
    c.valid i=true
  /-- Nothing else is pinned. -/
  only : ∀ i,c.pins i≠0 → i<nbuf ∧ ∃ b∈blocks,(c.ctrl i).key=(dev,b.toNat)

/-- A pinned buffer has a reference. -/
theorem refcnt_pos_of_pins (hi : Inv c) {i : ℕ} (hp : c.pins i≠0) : 0<(c.ctrl i).refcnt := by
  rw [hi.refs.count]
  omega

/-- The buffers are those of the list. -/
theorem mem_lru (hi : Inv c) {i : ℕ} (h : i<nbuf) : i∈c.lru :=
  hi.refs.perm.mem_iff.mpr (List.mem_range.mpr h)

/-- A section that leaves the pins alone keeps the blocks pinned. -/
theorem Pinned.change (hp : Pinned c dev blocks) (hi : Inv c) (h : Change c a d)
    (he : d.pins=c.pins) : Pinned d dev blocks := by
  constructor
  · intro b hb
    obtain ⟨i,hn,h1,hk,hu,hv⟩ := hp.each b hb
    have hpos := refcnt_pos_of_pins hi (i:=i) (by rw [h1]; decide)
    exact ⟨i,hn,by rw [he]; exact h1,(key_of_referenced h hpos).trans hk,used_of_used h hu,
      valid_of_referenced h hpos hv⟩
  · intro i h0
    rw [he] at h0
    obtain ⟨hn,b,hb,hk⟩ := hp.only i h0
    exact ⟨hn,b,hb,(key_of_referenced h (refcnt_pos_of_pins hi h0)).trans hk⟩

/-- The buffer of a pinned block. -/
theorem Pinned.slot (hp : Pinned c dev blocks) (hi : Inv c) {h : ℕ} (hl : h∈c.live) {b : UInt32}
    (hb : b∈blocks) (hk : (c.buf h).key=(dev,b.toNat)) : c.pins (c.slot h)=1 := by
  obtain ⟨i,hn,h1,hki,hu,-⟩ := hp.each b hb
  have he : i=c.slot h := by
    refine hi.refs.unique (mem_lru hi hn) (hi.refs.listed h hl) hu (hi.refs.used h hl) ?_
    rw [hki,hi.refs.key h hl,hk]
  rw [←he]
  exact h1

/-- `pin` of a block that is not pinned. -/
theorem Pinned.pin (hp : Pinned c dev blocks) (hi : Inv c) {h rc : ℕ} (hl : h∈c.live)
    (hs : (c.stage h).open=true) {b : UInt32} (hb : b∉blocks) (hk : (c.buf h).key=(dev,b.toNat)) :
    Pinned (pinWrite c h rc) dev (blocks++[b]) := by
  have hkey : ∀ i,((pinWrite c h rc).ctrl i).key=(c.ctrl i).key := by
    intro i
    change (Function.update c.ctrl (c.slot h) _ i).key=_
    rw [Function.update_apply]
    split
    · rename_i e
      rw [e]
      rfl
    · rfl
  have hslot : (c.ctrl (c.slot h)).key=(dev,b.toNat) := (hi.refs.key h hl).trans hk
  have hzero : c.pins (c.slot h)=0 := by
    by_contra h0
    obtain ⟨-,b',hb',hk'⟩ := hp.only _ h0
    rw [hslot,Prod.mk.injEq,UInt32.toNat_inj] at hk'
    rw [hk'.2] at hb
    exact hb hb'
  have hlt : c.slot h<nbuf :=
    List.mem_range.mp (hi.refs.perm.mem_iff.mp (hi.refs.listed h hl))
  have hpins : ∀ i,(pinWrite c h rc).pins i=if i=c.slot h then 1 else c.pins i := by
    intro i
    change Function.update c.pins (c.slot h) (c.pins (c.slot h)+1) i=_
    rw [Function.update_apply,hzero]
  constructor
  · intro b' hb'
    rcases List.mem_append.mp hb' with h1|h1
    · obtain ⟨i,hn,hone,hki,hu,hv⟩ := hp.each b' h1
      refine ⟨i,hn,?_,(hkey i).trans hki,hu,hv⟩
      rw [hpins]
      split
      · rfl
      · exact hone
    · rw [List.mem_singleton.mp h1]
      refine ⟨c.slot h,hlt,?_,(hkey _).trans hslot,hi.refs.used h hl,hi.contents.flag h hl hs⟩
      rw [hpins,if_pos rfl]
  · intro i h0
    rw [hkey]
    by_cases e : i=c.slot h
    · rw [e]
      exact ⟨hlt,b,List.mem_append_right _ (List.mem_singleton.mpr rfl),hslot⟩
    · rw [hpins,if_neg e] at h0
      obtain ⟨hn,b',hb',hk'⟩ := hp.only i h0
      exact ⟨hn,b',List.mem_append_left _ hb',hk'⟩

/-- `unpin` of the first of the pinned blocks. -/
theorem Pinned.unpin {b : UInt32} (hp : Pinned c dev (b::blocks)) (hnd : (b::blocks).Nodup)
    (hi : Inv c) {h rc : ℕ} (hl : h∈c.live) (hk : (c.buf h).key=(dev,b.toNat)) :
    Pinned (unpinWrite c h rc) dev blocks := by
  have hkey : ∀ i,((unpinWrite c h rc).ctrl i).key=(c.ctrl i).key := by
    intro i
    change (Function.update c.ctrl (c.slot h) _ i).key=_
    rw [Function.update_apply]
    split
    · rename_i e
      rw [e]
      rfl
    · rfl
  have hslot : (c.ctrl (c.slot h)).key=(dev,b.toNat) := (hi.refs.key h hl).trans hk
  have hone := hp.slot hi hl List.mem_cons_self hk
  have hpins : ∀ i,(unpinWrite c h rc).pins i=if i=c.slot h then 0 else c.pins i := by
    intro i
    change Function.update c.pins (c.slot h) (c.pins (c.slot h)-1) i=_
    rw [Function.update_apply,hone]
  constructor
  · intro b' hb'
    obtain ⟨i,hn,h1,hki,hu,hv⟩ := hp.each b' (List.mem_cons_of_mem _ hb')
    have hne : i≠c.slot h := by
      intro e
      rw [e,hslot,Prod.mk.injEq,UInt32.toNat_inj] at hki
      rw [hki.2] at hnd
      exact (List.nodup_cons.mp hnd).1 hb'
    exact ⟨i,hn,by rw [hpins,if_neg hne]; exact h1,(hkey i).trans hki,hu,hv⟩
  · intro i h0
    rw [hpins] at h0
    split at h0
    · exact absurd rfl h0
    · rename_i hne
      obtain ⟨hn,b',hb',hk'⟩ := hp.only i h0
      rcases List.mem_cons.mp hb' with e|hb''
      · exfalso
        have hu : c.used i=true := by
          rw [←Bool.not_eq_false]
          intro hu
          have hz := (hi.refs.fresh i hu).2
          have hpos := refcnt_pos_of_pins hi h0
          omega
        rw [e] at hk'
        exact hne (hi.refs.unique (mem_lru hi hn) (hi.refs.listed h hl) hu (hi.refs.used h hl)
          (hk'.trans hslot.symm))
      · exact ⟨hn,b',hb'',by rw [hkey]; exact hk'⟩

end Pinning

section Steps

variable {s t : LogSystem}

/-- What holds between the sections of all processes. -/
structure LogInv (s : LogSystem) : Prop where
  /-- The cache is in order. -/
  inv : Inv s.cache
  /-- Every `Buf` is of the device of the log. -/
  device : ∀ h∈s.cache.live,(s.cache.buf h).key=(s.log.dev,(blocknoOf s.cache h).toNat)
  /-- Exactly the pending blocks are pinned. -/
  pinned : Pinned s.cache s.log.dev (pending s)
  /-- No block is recorded twice. -/
  nodup : s.log.lh.entries.Nodup
  /-- The header has room for what it says. -/
  length : s.log.lh.entries.length=s.log.lh.len
  /-- Only `LOG.write` pins and only `install_trans` unpins. -/
  counting : ∀ h∈s.cache.live,(s.cache.stage h).counting=true →
    s.writer=some h ∨ ∃ n,s.phase=.unpin n h
  /-- A `LOG.write` between the two halves of its `pin`. -/
  writing : ∀ h,s.writer=some h → h∈s.cache.live ∧ (∃ rc,s.cache.stage h=.pinning rc) ∧
    s.phase=.recording ∧ blocknoOf s.cache h∉s.log.lh.entries ∧ s.log.lh.len+2<logSize
  /-- During a commit no operation is open. -/
  closed : s.phase≠.recording → s.writer=none ∧ s.log.outstanding=0 ∧ s.log.committing=true
  /-- An `install_trans` between the two halves of its `unpin`. -/
  undoing : ∀ n h,s.phase=.unpin n h → h∈s.cache.live ∧ (∃ rc,s.cache.stage h=.unpinning rc) ∧
    ∃ b,s.log.lh.entries[n]?=some b ∧ (s.cache.buf h).key=(s.log.dev,b.toNat)
  /-- After `empty_head` nothing is recorded. -/
  emptied : s.phase=.endCommit → s.log.lh.len=0

/-- Nothing is recorded when the length is zero. -/
theorem LogInv.entries_nil (hi : LogInv s) (h : s.log.lh.len=0) : s.log.lh.entries=[] :=
  List.length_eq_zero_iff.mp (hi.length.trans h)

/-- Outside of the two loops' `pin` and `unpin` no `Buf` is half way. -/
theorem LogInv.no_counting (hi : LogInv s) (hw : s.writer=none) (hp : ∀ n h,s.phase≠.unpin n h) :
    ∀ h∈s.cache.live,(s.cache.stage h).counting=false := by
  intro h hl
  rw [←Bool.not_eq_true]
  intro hc
  rcases hi.counting h hl hc with h1|⟨n,h1⟩
  · rw [hw] at h1
    cases h1
  · exact hp n h h1

/-- A `Buf` beside the one that is half way is not. -/
theorem LogInv.counting_other (hi : LogInv s) {h : ℕ} (hw : ∀ x,s.writer=some x → x=h)
    (hp : ∀ n x,s.phase=.unpin n x → x=h) :
    ∀ x∈s.cache.live,x≠h → (s.cache.stage x).counting=false := by
  intro x hx hne
  rw [←Bool.not_eq_true]
  intro hcount
  rcases hi.counting x hx hcount with h1|⟨n,h1⟩
  · exact hne (hw x h1)
  · exact hne (hp n x h1)

/-- When that one is held again, no `Buf` is half way. -/
theorem held_counting {c : System Buffer} {h : ℕ}
    (hother : ∀ x∈c.live,x≠h → (c.stage x).counting=false) {x : ℕ} (hx : x∈c.live) :
    (Function.update c.stage h .held x).counting=false := by
  by_cases e : x=h
  · rw [e,Function.update_self]
    rfl
  · rw [Function.update_of_ne e,hother x hx e]

/-- A quiet section of the cache. -/
theorem LogInv.quiet (hi : LogInv s) {a : BufferCache.Label Buffer} {c : System Buffer}
    (hn : BufferCoherence.NoRace s.cache a) (ha : quiet a=true)
    (hd : ∀ h dev blockno,a=.bget h dev blockno → dev=s.log.dev ∧ blockno<2^32)
    (h : BufferCache.step s.cache a=.next c) : LogInv {s with cache := c} := by
  have hc := step_change h
  constructor
  · exact step_inv hi.inv hn h
  · intro x hx
    rcases live_cases hc hx with ⟨hx',hb⟩|⟨dev,blockno,e,hb⟩
    · have hk := hi.device x hx'
      change (c.buf x).key=(s.log.dev,(UInt32.ofNat (c.buf x).blockno).toNat)
      rw [hb]
      exact hk
    · obtain ⟨hdev,hlt⟩ := hd x dev blockno e
      have hblk : (c.buf x).blockno=blockno := congrArg Prod.snd hb
      change (c.buf x).key=(s.log.dev,(UInt32.ofNat (c.buf x).blockno).toNat)
      rw [hb,hblk,hdev,UInt32.toNat_ofNat_of_lt' hlt]
  · exact hi.pinned.change hi.inv hc (quiet_pins hc ha)
  · exact hi.nodup
  · exact hi.length
  · intro x hx hx'
    obtain ⟨h1,h2⟩ := quiet_counting hc ha hx hx'
    rw [h2] at hx'
    exact hi.counting x h1 hx'
  · intro x hw
    obtain ⟨hx,⟨rc,hs⟩,hr⟩ := hi.writing x hw
    obtain ⟨h1,h2,h3⟩ := quiet_keep hc ha hx (by rw [hs]; rfl)
    refine ⟨h1,⟨rc,h2.trans hs⟩,?_⟩
    change s.phase=.recording ∧ UInt32.ofNat (c.buf x).blockno∉s.log.lh.entries ∧ _
    rw [h3]
    exact hr
  · exact hi.closed
  · intro n x hp
    obtain ⟨hx,⟨rc,hs⟩,b,hb,hk⟩ := hi.undoing n x hp
    obtain ⟨h1,h2,h3⟩ := quiet_keep hc ha hx (by rw [hs]; rfl)
    refine ⟨h1,⟨rc,h2.trans hs⟩,b,hb,?_⟩
    change (c.buf x).key=(s.log.dev,b.toNat)
    rw [h3]
    exact hk
  · exact hi.emptied

/-- `modify` and `bwrite` of a `Buf` that is held. -/
theorem put_steps {c : System Buffer} {h : ℕ} {x : Buffer} (hl : h∈c.live) (hs : c.stage h=.held) :
    BufferCache.step c (.modify h x)=.next (modify c h x) ∧
      BufferCache.step (modify c h x) (.bwrite h)=.next (put c h x) :=
  ⟨if_pos ⟨hl,hs⟩,if_pos ⟨hl,hs⟩⟩

/-- The committing thread changes and writes a buffer. -/
theorem LogInv.putBuf (hi : LogInv s) {h : ℕ} (x : Buffer) (hl : h∈s.cache.live)
    (hs : s.cache.stage h=.held) : LogInv {s with cache := put s.cache h x} := by
  obtain ⟨h1,h2⟩ := put_steps (x:=x) hl hs
  have hm : LogInv {s with cache := modify s.cache h x} :=
    hi.quiet (a:=.modify h x) trivial rfl (fun _ _ _ e => by cases e) h1
  exact hm.quiet (a:=.bwrite h) trivial rfl (fun _ _ _ e => by cases e) h2

/-- The log and the phase change while no `Buf` is half way. -/
theorem LogInv.move (hi : LogInv s) {log : Log} {p : Phase} (hw : s.writer=none)
    (hn : ∀ n h,s.phase≠.unpin n h) (hdev : log.dev=s.log.dev)
    (hpin : Pinned s.cache log.dev (pending {s with log := log,phase := p}))
    (hnodup : log.lh.entries.Nodup) (hlen : log.lh.entries.length=log.lh.len)
    (hq : ∀ n h,p≠.unpin n h) (hc : p≠.recording → log.outstanding=0 ∧ log.committing=true)
    (he : p=.endCommit → log.lh.len=0) : LogInv {s with log := log,phase := p} := by
  refine ⟨hi.inv,?_,hpin,hnodup,hlen,?_,?_,?_,?_,he⟩
  · intro h hl
    have hk := hi.device h hl
    rwa [←hdev] at hk
  · intro h hl hcount
    have hno := hi.no_counting hw hn h hl
    change (s.cache.stage h).counting=true at hcount
    rw [hno] at hcount
    cases hcount
  · intro h hw'
    change s.writer=some h at hw'
    rw [hw] at hw'
    cases hw'
  · intro hr
    exact ⟨hw,hc hr⟩
  · intro n h hp'
    exact absurd hp' (hq n h)

/-- During a commit the thread goes on to a phase with the same blocks pending. -/
theorem LogInv.advance (hi : LogInv s) {p q : Phase} (hp : s.phase=p) (hr : p≠.recording)
    (hn : ∀ n h,p≠.unpin n h) (hpend : pending {s with phase := q}=pending s)
    (hq : ∀ n h,q≠.unpin n h) (he : q=.endCommit → s.log.lh.len=0) :
    LogInv {s with phase := q} := by
  rw [←hp] at hr hn
  obtain ⟨hw,hclosed⟩ := hi.closed hr
  exact hi.move hw hn rfl (by rw [hpend]; exact hi.pinned) hi.nodup hi.length hq (fun _ => hclosed) he

/-- An open operation is outside of a commit. -/
theorem LogInv.recording (hi : LogInv s) (hout : 0 < s.log.outstanding) : s.phase=.recording := by
  by_contra hp
  have h0 := (hi.closed hp).2.1
  omega

/-- The last `end_op` begins the commit. -/
theorem LogInv.beginCommit (hi : LogInv s) (hw : s.writer=none) (hp : s.phase=.recording) :
    LogInv {s with
      log := {s.log with outstanding := 0,committing := true}
      phase := .commit} := by
  refine hi.move hw (fun n h e => ?_) rfl ?_ hi.nodup hi.length (fun _ _ e => by cases e)
    (fun _ => ⟨rfl,rfl⟩) fun e => by cases e
  · rw [hp] at e
    cases e
  · have hpin := hi.pinned
    rw [pending,hp] at hpin
    exact hpin

/-- The header on the disk is emptied. -/
theorem LogInv.headEmptied (hi : LogInv s) {h : ℕ} (x : Buffer) (hp : s.phase=.emptyHead)
    (hl : h∈s.cache.live) (hs : s.cache.stage h=.held) :
    LogInv {s with
      cache := put s.cache h x
      log := {s.log with lh := {s.log.lh with len := 0}}
      phase := .endCommit} := by
  obtain ⟨hw,hclosed⟩ := hi.closed (by rw [hp]; decide)
  have hput := hi.putBuf x hl hs
  refine hput.move hw (fun n h e => ?_) rfl ?_ List.nodup_nil rfl (fun _ _ e => by cases e)
    (fun _ => hclosed) fun _ => rfl
  · change s.phase=_ at e
    rw [hp] at e
    cases e
  · have hpin : Pinned (put s.cache h x) s.log.dev (pending s) := hput.pinned
    rw [pending,hp] at hpin
    exact hpin

/-- The commit ends. -/
theorem LogInv.commitEnded (hi : LogInv s) (hp : s.phase=.endCommit) (hw : s.writer=none) :
    LogInv {s with log := endCommit s.log,phase := .recording} := by
  refine hi.move hw (fun n h e => ?_) rfl ?_ hi.nodup hi.length (fun _ _ e => by cases e)
    (fun hr => absurd rfl hr) fun e => by cases e
  · rw [hp] at e
    cases e
  · have hpin := hi.pinned
    rw [pending,hp] at hpin
    change Pinned s.cache s.log.dev s.log.lh.entries
    rw [hi.entries_nil (hi.emptied hp)]
    exact hpin

/-- The counters of the log change. -/
theorem LogInv.recount (hi : LogInv s) (outstanding : ℕ) (committing : Bool)
    (hw : s.writer=none) (hc : s.phase≠.recording → outstanding=0 ∧ committing=true) :
    LogInv {s with log := {s.log with outstanding := outstanding,committing := committing}} := by
  refine ⟨hi.inv,hi.device,hi.pinned,hi.nodup,hi.length,hi.counting,?_,?_,hi.undoing,hi.emptied⟩
  · intro h hw'
    change s.writer=some h at hw'
    rw [hw] at hw'
    cases hw'
  · intro hr
    exact ⟨hw,hc hr⟩

/-- `LOG.write` takes the count of a block that is not recorded. -/
theorem LogInv.logWrite (hi : LogInv s) {h : ℕ} (hw : s.writer=none) (hl : h∈s.cache.live)
    (hs : s.cache.stage h=.held) {log : Log}
    (hr : write s.log (blocknoOf s.cache h)=.ok (log,true)) :
    LogInv {s with
      cache := s.cache.setStage h (.pinning (s.cache.ctrl (s.cache.slot h)).refcnt)
      writer := some h} := by
  have hphase := hi.recording (write_outstanding hr)
  obtain ⟨hnot,hroom⟩ : blocknoOf s.cache h∉s.log.lh.entries ∧ s.log.lh.len+2<logSize := by
    rcases write_eq_ok hr with ⟨-,-,e⟩|⟨h1,h2,-⟩
    · cases e
    · exact ⟨h1,h2⟩
  have hstep : BufferCache.step s.cache (.pinRead h)=.next
      (s.cache.setStage h (.pinning (s.cache.ctrl (s.cache.slot h)).refcnt)) := if_pos ⟨hl,hs⟩
  have hno := hi.no_counting hw (fun n x e => by rw [hphase] at e; cases e)
  refine ⟨step_inv (a:=.pinRead h) hi.inv trivial hstep,hi.device,?_,hi.nodup,hi.length,?_,?_,?_,?_,hi.emptied⟩
  · exact hi.pinned.change hi.inv (step_change hstep) rfl
  · intro x hx hcount
    by_cases e : x=h
    · rw [e]
      exact .inl rfl
    · change (Function.update s.cache.stage h _ x).counting=true at hcount
      rw [Function.update_of_ne e,hno x hx] at hcount
      cases hcount
  · intro x hx
    cases hx
    exact ⟨hl,⟨_,Function.update_self _ _ _⟩,hphase,hnot,hroom⟩
  · intro hp
    exact absurd hphase hp
  · intro n x hp
    change s.phase=.unpin n x at hp
    rw [hphase] at hp
    cases hp

/-- `LOG.write` pins the block and records it. -/
theorem LogInv.logPin (hi : LogInv s) {h rc : ℕ} (hw : s.writer=some h)
    (hs : s.cache.stage h=.pinning rc) :
    LogInv {s with
      cache := pinWrite s.cache h rc
      log := {s.log with lh := s.log.lh.push (blocknoOf s.cache h)}
      writer := none} := by
  obtain ⟨hl,-,hphase,hnot,hroom⟩ := hi.writing h hw
  have hstep : BufferCache.step s.cache (.pinWrite h)=.next (pinWrite s.cache h rc) := by
    rw [BufferCache.step,hs]
    exact if_pos hl
  have hentries := push_entries (blocknoOf s.cache h) (show s.log.lh.len<logSize-1 by omega)
  have hpend : pending s=s.log.lh.entries := by rw [pending,hphase]
  have hother := hi.counting_other (h:=h) (fun x e => Option.some.inj (e.symm.trans hw))
    fun n x e => by rw [hphase] at e; cases e
  refine ⟨step_inv (a:=.pinWrite h) hi.inv trivial hstep,hi.device,?_,?_,?_,?_,?_,?_,?_,?_⟩
  · have hp := hi.pinned
    rw [hpend] at hp
    have hopen : (s.cache.stage h).open=true := by
      rw [hs]
      rfl
    have hpin : Pinned (pinWrite s.cache h rc) _ _ :=
      hp.pin hi.inv hl hopen hnot (hi.device h hl)
    rw [←hentries] at hpin
    have hpend' : pending {s with
        cache := pinWrite s.cache h rc
        log := {s.log with lh := s.log.lh.push (blocknoOf s.cache h)}
        writer := none}=(s.log.lh.push (blocknoOf s.cache h)).entries := by
      rw [pending]
      simp only [hphase]
    rw [hpend']
    exact hpin
  · change (s.log.lh.push (blocknoOf s.cache h)).entries.Nodup
    rw [hentries,List.nodup_append]
    refine ⟨hi.nodup,List.nodup_singleton _,?_⟩
    intro a ha b hb e
    rw [List.mem_singleton] at hb
    rw [e,hb] at ha
    exact hnot ha
  · change (s.log.lh.push (blocknoOf s.cache h)).entries.length=s.log.lh.len+1
    rw [hentries,List.length_append,hi.length]
    rfl
  · intro x hx hcount
    change (Function.update s.cache.stage h .held x).counting=true at hcount
    rw [held_counting hother hx] at hcount
    cases hcount
  · intro x hx
    cases hx
  · intro hp
    exact absurd hphase hp
  · intro n x hp
    change s.phase=.unpin n x at hp
    rw [hphase] at hp
    cases hp
  · intro hp
    change s.phase=.endCommit at hp
    rw [hphase] at hp
    cases hp

/-- The block of the entry that is installed is pending. -/
theorem drop_entry {n : ℕ} {b : UInt32} (h : s.log.lh.entries[n]?=some b) :
    s.log.lh.entries.drop n=b::s.log.lh.entries.drop (n+1) := by
  obtain ⟨hn,e⟩ := List.getElem?_eq_some_iff.mp h
  rw [List.drop_eq_getElem_cons hn,e]

/-- The buffer of a pending block has a pin besides the references. -/
theorem LogInv.refcnt_two (hi : LogInv s) {h : ℕ} (hl : h∈s.cache.live) {b : UInt32}
    (hb : b∈pending s) (hk : (s.cache.buf h).key=(s.log.dev,b.toNat)) :
    0 < s.cache.pins (s.cache.slot h) ∧ 1<(s.cache.ctrl (s.cache.slot h)).refcnt := by
  have h1 := hi.pinned.slot hi.inv hl hb hk
  have hp : 0<(s.cache.handlesAt (s.cache.slot h)).card := card_fiber_pos hl
  have hc := hi.inv.refs.count (s.cache.slot h)
  omega

/-- `install_trans` begins to undo a pin. -/
theorem LogInv.beginUndo (hi : LogInv s) {n h : ℕ} (hp : s.phase=.install n)
    (hl : h∈s.cache.live) (hs : s.cache.stage h=.held) {b : UInt32}
    (hb : s.log.lh.entries[n]?=some b) (hk : (s.cache.buf h).key=(s.log.dev,b.toNat)) :
    LogInv {s with
      cache := s.cache.setStage h (.unpinning (s.cache.ctrl (s.cache.slot h)).refcnt)
      phase := .unpin n h} := by
  obtain ⟨hw,hclosed⟩ := hi.closed (by rw [hp]; exact fun e => by cases e)
  have hpend : pending s=s.log.lh.entries.drop n := by rw [pending,hp]
  have hmem : b∈pending s := by
    rw [hpend,drop_entry hb]
    exact List.mem_cons_self
  obtain ⟨hpos,htwo⟩ := hi.refcnt_two hl hmem hk
  have hstep : BufferCache.step s.cache (.unpinRead h)=.next
      (s.cache.setStage h (.unpinning (s.cache.ctrl (s.cache.slot h)).refcnt)) := by
    rw [BufferCache.step,if_pos ⟨hl,hs,hpos⟩,BufferCache.unpinRead,if_neg (by omega)]
  have hno := hi.no_counting hw (fun n x e => by rw [hp] at e; cases e)
  refine ⟨step_inv (a:=.unpinRead h) hi.inv trivial hstep,hi.device,?_,hi.nodup,hi.length,?_,?_,?_,?_,?_⟩
  · have hpin := hi.pinned.change hi.inv (step_change hstep) rfl
    rw [hpend] at hpin
    exact hpin
  · intro x hx hcount
    by_cases e : x=h
    · rw [e]
      exact .inr ⟨n,rfl⟩
    · change (Function.update s.cache.stage h _ x).counting=true at hcount
      rw [Function.update_of_ne e,hno x hx] at hcount
      cases hcount
  · intro x hx
    change s.writer=some x at hx
    rw [hw] at hx
    cases hx
  · intro _
    exact ⟨hw,hclosed⟩
  · intro m x hmx
    cases hmx
    exact ⟨hl,⟨_,Function.update_self _ _ _⟩,b,hb,hk⟩
  · intro hmx
    cases hmx

/-- `install_trans` undoes a pin. -/
theorem LogInv.undo (hi : LogInv s) {n h rc : ℕ} (hp : s.phase=.unpin n h)
    (hs : s.cache.stage h=.unpinning rc) :
    LogInv {s with cache := unpinWrite s.cache h rc,phase := .install (n+1)} := by
  obtain ⟨hl,-,b,hb,hk⟩ := hi.undoing n h hp
  obtain ⟨hw,hclosed⟩ := hi.closed (by rw [hp]; exact fun e => by cases e)
  have hpend : pending s=b::s.log.lh.entries.drop (n+1) := by
    rw [pending,hp]
    exact drop_entry hb
  have hstep : BufferCache.step s.cache (.unpinWrite h)=.next (unpinWrite s.cache h rc) := by
    rw [BufferCache.step,hs]
    exact if_pos hl
  have hother := hi.counting_other (h:=h) (fun x e => by rw [hw] at e; cases e)
    fun m x e => by rw [hp] at e; cases e; rfl
  refine ⟨step_inv (a:=.unpinWrite h) hi.inv trivial hstep,hi.device,?_,hi.nodup,hi.length,?_,?_,?_,?_,?_⟩
  · have hpin := hi.pinned
    rw [hpend] at hpin
    have hnd : (b::s.log.lh.entries.drop (n+1)).Nodup := by
      rw [←drop_entry hb]
      exact hi.nodup.sublist (List.drop_sublist _ _)
    exact hpin.unpin hnd hi.inv hl hk
  · intro x hx hcount
    change (Function.update s.cache.stage h .held x).counting=true at hcount
    rw [held_counting hother hx] at hcount
    cases hcount
  · intro x hx
    change s.writer=some x at hx
    rw [hw] at hx
    cases hx
  · intro _
    exact ⟨hw,hclosed⟩
  · intro m x hmx
    cases hmx
  · intro hmx
    cases hmx

/-- A step of the cache that was taken. -/
theorem lift_eq_next {o : Outcome BufferCache.Panic (System Buffer)} (h : s.lift o=.next t) :
    ∃ c,o=.next c ∧ t={s with cache := c} := by
  cases o with
  | blocked => cases h
  | fault e => cases h
  | next c =>
    cases h
    exact ⟨c,rfl,rfl⟩

/-- A plain section is quiet and no `bget`. -/
theorem quiet_of_plain {a : BufferCache.Label Buffer} (ha : plain a=true) :
    quiet a=true ∧ ∀ h dev blockno,a≠.bget h dev blockno := by
  refine ⟨?_,?_⟩
  · cases a <;> first | rfl | cases ha
  · intro h dev blockno e
    rw [e] at ha
    cases ha

/-- Every section of the log and of the cache without a race keeps the pins right. -/
theorem LogInv.step (hi : LogInv s) {a : Label} (hn : NoRace s a) (h : step s a=.next t) :
    LogInv t := by
  cases a with
  | bget x blockno =>
    obtain ⟨c,hc,rfl⟩ := lift_eq_next h
    refine hi.quiet (a:=.bget x s.log.dev blockno.toNat) hn rfl ?_ hc
    intro y dev b e
    cases e
    exact ⟨rfl,blockno.toNat_lt⟩
  | cache a =>
    rw [LogPins.step] at h
    split at h
    · rename_i ha
      obtain ⟨hq,hb⟩ := quiet_of_plain ha
      obtain ⟨c,hc,rfl⟩ := lift_eq_next h
      exact hi.quiet hn hq (fun y dev b e => absurd e (hb y dev b)) hc
    · cases h
  | beginOp =>
    rw [LogPins.step] at h
    split at h
    · rename_i hw
      split at h
      · rename_i log hl
        obtain ⟨hc,-,rfl⟩ := beginOp_eq_some hl
        cases h
        refine hi.recount _ _ hw ?_
        intro hp
        have hcommit := (hi.closed hp).2.2
        rw [hc] at hcommit
        cases hcommit
      · cases h
    · cases h
  | logWrite x =>
    rw [LogPins.step] at h
    split at h
    · rename_i hx
      split at h
      · cases h
      · cases h
        exact hi
      · rename_i log hw
        cases h
        exact hi.logWrite hx.1 hx.2.1 hx.2.2 hw
    · cases h
  | logPin =>
    rw [LogPins.step] at h
    split at h
    · cases h
    · rename_i x hw
      split at h
      · rename_i rc hs
        cases h
        exact hi.logPin hw hs
      · cases h
  | endOp =>
    rw [LogPins.step] at h
    split at h
    · rename_i hw
      split at h
      · cases h
      · rename_i log he
        cases h
        obtain ⟨hout,hlog⟩ := endOp_eq_ok he
        rcases hlog with ⟨-,e⟩|⟨rfl,-⟩
        · cases e
        · exact hi.recount _ _ hw fun hp => absurd (hi.recording hout) hp
      · rename_i log he
        cases h
        obtain ⟨hout,hlog⟩ := endOp_eq_ok he
        rcases hlog with ⟨rfl,-⟩|⟨-,e⟩
        · exact hi.beginCommit hw (hi.recording hout)
        · cases e
    · cases h
  | commit =>
    rw [LogPins.step] at h
    split at h
    · rename_i hp
      split at h
      · cases h
      · split at h
        · cases h
          refine hi.advance hp (by decide) (fun _ _ e => by cases e) ?_ (fun _ _ e => by cases e)
            fun e => by cases e
          simp only [pending,hp]
        · rename_i hlen
          cases h
          have h0 : s.log.lh.len=0 := by omega
          refine hi.advance hp (by decide) (fun _ _ e => by cases e) ?_ (fun _ _ e => by cases e)
            fun _ => h0
          simp only [pending,hp]
          exact (hi.entries_nil h0).symm
    · cases h
  | writeLog hlog hhome =>
    rw [LogPins.step] at h
    split at h
    · rename_i n hp
      split at h
      · split at h
        · cases h
        · split at h
          · rename_i hheld
            cases h
            have hput := hi.putBuf (s.cache.data (s.cache.slot hhome)) hheld.1.1 hheld.1.2.1
            refine hput.advance hp (fun e => by cases e) (fun _ _ e => by cases e) ?_
              (fun _ _ e => by cases e) fun e => by cases e
            simp only [pending,hp]
          · cases h
      · cases h
    · cases h
  | loopEnd =>
    rw [LogPins.step] at h
    split at h
    · rename_i n hp
      split at h
      · cases h
      · cases h
        refine hi.advance hp (fun e => by cases e) (fun _ _ e => by cases e) ?_
          (fun _ _ e => by cases e) fun e => by cases e
        simp only [pending,hp]
    · rename_i n hp
      split at h
      · cases h
      · rename_i hlen
        cases h
        refine hi.advance hp (fun e => by cases e) (fun _ _ e => by cases e) ?_
          (fun _ _ e => by cases e) fun e => by cases e
        simp only [pending,hp]
        refine (List.drop_eq_nil_of_le ?_).symm
        rw [hi.length]
        omega
    · cases h
  | writeHead x =>
    rw [LogPins.step] at h
    split at h
    · rename_i hx
      cases h
      have hput := hi.putBuf (LogDisk.putHeader (s.cache.data (s.cache.slot x)) s.log.lh)
        hx.2.1 hx.2.2.1
      refine hput.advance hx.1 (by decide) (fun _ _ e => by cases e) ?_ (fun _ _ e => by cases e)
        fun e => by cases e
      simp only [pending,hx.1]
      rfl
    · cases h
  | install hlog hhome =>
    rw [LogPins.step] at h
    split at h
    · rename_i n hp
      split at h
      · rename_i hlen
        split at h
        · cases h
        · rename_i b hb
          split at h
          · rename_i hheld
            have hput := hi.putBuf (s.cache.data (s.cache.slot hlog)) hheld.2.1.1 hheld.2.1.2.1
            rw [BufferCache.unpinRead] at h
            split at h
            · rename_i c hc
              split at hc
              · cases hc
              · cases hc
                cases h
                exact hput.beginUndo hp hheld.2.1.1 hheld.2.1.2.1 ((entries_getElem? hlen).trans hb)
                  hheld.2.1.2.2
            · cases h
            · cases h
          · cases h
      · cases h
    · cases h
  | unpin =>
    rw [LogPins.step] at h
    split at h
    · rename_i n x hp
      split at h
      · rename_i rc hs
        cases h
        exact hi.undo hp hs
      · cases h
    · cases h
  | emptyHead x =>
    rw [LogPins.step] at h
    split at h
    · rename_i hx
      cases h
      exact hi.headEmptied _ hx.1 hx.2.1 hx.2.2.1
    · cases h
  | endCommit =>
    rw [LogPins.step] at h
    split at h
    · rename_i hx
      cases h
      exact hi.commitEnded hx.1 hx.2
    · cases h

/-- The log after boot. -/
theorem boot_logInv (start size dev : ℕ) (zero : Buffer) (disk : ℕ×ℕ → Buffer) :
    LogInv (boot start size dev zero disk) := by
  have hno : ∀ h,h∉(boot start size dev zero disk).cache.live := Finset.notMem_empty
  refine ⟨binit_inv zero disk,?_,⟨?_,?_⟩,List.nodup_nil,rfl,?_,?_,?_,?_,fun _ => rfl⟩
  · exact fun h hl => absurd hl (hno h)
  · intro b hb
    cases hb
  · intro i h0
    exact absurd rfl h0
  · exact fun h hl => absurd hl (hno h)
  · intro h hw
    cases hw
  · intro hp
    exact absurd rfl hp
  · intro n h hp
    cases hp

/-- Where `unpin` can panic. -/
theorem step_fault_unpin {a : Label} (h : step s a=.fault (.cache .unpinMismatch)) :
    ∃ n b x,s.phase=.install n ∧ s.log.lh.entries[n]?=some b ∧ Holds s.cache x s.log.dev b.toNat ∧
      (s.cache.ctrl (s.cache.slot x)).refcnt ≤ 1 := by
  have hquiet : ∀ a,quiet a=true → s.lift (BufferCache.step s.cache a)≠
      .fault (.cache .unpinMismatch) := by
    intro a ha hf
    have hstep : BufferCache.step s.cache a=.fault .unpinMismatch := by
      cases ho : BufferCache.step s.cache a with
      | blocked => rw [ho] at hf; cases hf
      | fault e => rw [ho] at hf; cases hf; rfl
      | next c => rw [ho] at hf; cases hf
    cases a with
    | bget x dev blockno =>
      rw [BufferCache.step] at hstep
      split at hstep
      · cases hstep
      · rw [BufferCache.bget] at hstep
        split at hstep
        · cases hstep
        · split at hstep <;> cases hstep
    | brelse x =>
      rw [BufferCache.step] at hstep
      split at hstep
      · rw [BufferCache.brelse] at hstep
        dsimp only at hstep
        split at hstep <;> cases hstep
      · cases hstep
    | pinRead x => cases ha
    | pinWrite x => cases ha
    | unpinRead x => cases ha
    | unpinWrite x => cases ha
    | acquire x => rw [BufferCache.step] at hstep; split at hstep <;> cases hstep
    | check x => rw [BufferCache.step] at hstep; split at hstep <;> cases hstep
    | read x => rw [BufferCache.step] at hstep; split at hstep <;> cases hstep
    | store x => rw [BufferCache.step] at hstep; split at hstep <;> cases hstep
    | modify x y => rw [BufferCache.step] at hstep; split at hstep <;> cases hstep
    | bwrite x => rw [BufferCache.step] at hstep; split at hstep <;> cases hstep
    | release x => rw [BufferCache.step] at hstep; split at hstep <;> cases hstep
  cases a with
  | bget x blockno => exact absurd h (hquiet _ rfl)
  | cache a =>
    rw [LogPins.step] at h
    split at h
    · rename_i ha
      exact absurd h (hquiet a (quiet_of_plain ha).1)
    · cases h
  | install hlog hhome =>
    rw [LogPins.step] at h
    split at h
    · rename_i n hp
      split at h
      · rename_i hlen
        split at h
        · cases h
        · rename_i b hb
          split at h
          · rename_i hheld
            rw [BufferCache.unpinRead] at h
            split at h
            · cases h
            · rename_i e hc
              split at hc
              · rename_i hle
                exact ⟨n,b,hhome,hp,(entries_getElem? hlen).trans hb,hheld.2.1,hle⟩
              · cases hc
            · cases h
          · cases h
      · cases h
    · cases h
  | beginOp => rw [LogPins.step] at h; split at h <;> [split at h <;> cases h; cases h]
  | logWrite x => rw [LogPins.step] at h; split at h <;> [split at h <;> cases h; cases h]
  | logPin => rw [LogPins.step] at h; split at h <;> [cases h; split at h <;> cases h]
  | endOp => rw [LogPins.step] at h; split at h <;> [split at h <;> cases h; cases h]
  | commit =>
    rw [LogPins.step] at h
    split at h
    · split at h
      · cases h
      · split at h <;> cases h
    · cases h
  | writeLog hlog hhome =>
    rw [LogPins.step] at h
    split at h
    · split at h
      · split at h
        · cases h
        · split at h <;> cases h
      · cases h
    · cases h
  | loopEnd =>
    rw [LogPins.step] at h
    split at h
    · split at h <;> cases h
    · split at h <;> cases h
    · cases h
  | writeHead x => rw [LogPins.step] at h; split at h <;> cases h
  | unpin => rw [LogPins.step] at h; split at h <;> [split at h <;> cases h; cases h]
  | emptyHead x => rw [LogPins.step] at h; split at h <;> cases h
  | endCommit => rw [LogPins.step] at h; split at h <;> cases h

/-- `unpin` does not panic. -/
theorem LogInv.no_unpin_panic (hi : LogInv s) (a : Label) :
    LogPins.step s a≠.fault (.cache .unpinMismatch) := by
  intro h
  obtain ⟨n,b,x,hp,hb,hheld,hle⟩ := step_fault_unpin h
  have hpend : pending s=s.log.lh.entries.drop n := by rw [pending,hp]
  have hmem : b∈pending s := by
    rw [hpend,drop_entry hb]
    exact List.mem_cons_self
  have htwo := (hi.refcnt_two hheld.1 hmem hheld.2.2).2
  omega

end Steps

section Results

variable {s t : LogSystem}

/-- What the pins of the log achieve. -/
structure Logged (s : LogSystem) : Prop where
  /-- No block is recorded twice. -/
  nodup : s.log.lh.entries.Nodup
  /-- A block that is recorded and not yet home is in a buffer with a reference and one pin, and
  what was left there last is still there. -/
  cached : ∀ b∈pending s,∃ i,i<nbuf ∧ (s.cache.ctrl i).key=(s.log.dev,b.toNat) ∧
    1 ≤ (s.cache.ctrl i).refcnt ∧ s.cache.pins i=1 ∧
    s.cache.last (s.log.dev,b.toNat)=some (s.cache.data i)
  /-- No buffer with a pin is recycled. -/
  kept : ∀ a t,step s a=.next t → ∀ i,s.cache.pins i≠0 →
    (t.cache.ctrl i).key=(s.cache.ctrl i).key
  /-- A pin is the only one of its buffer, and for a block that is not yet home. -/
  only : ∀ i,s.cache.pins i≠0 → s.cache.pins i=1 ∧
    ∃ b∈pending s,(s.cache.ctrl i).key=(s.log.dev,b.toNat)
  /-- Once everything is home every pin is undone. -/
  undone : pending s=[] → ∀ i,s.cache.pins i=0
  /-- `write_log` copies what was left in the buffer of the block last. -/
  latest : ∀ hlog hhome t,step s (.writeLog hlog hhome)=.next t → ∃ n b,s.phase=.writeLog n ∧
    s.log.lh.entries[n]?=some b ∧ b∈pending s ∧
    s.cache.last (s.log.dev,b.toNat)=some (t.cache.data (t.cache.slot hlog))

/-- No section gives a buffer with references to another block. -/
theorem key_of_step {a : Label} (h : step s a=.next t) {i : ℕ}
    (hp : 0<(s.cache.ctrl i).refcnt) : (t.cache.ctrl i).key=(s.cache.ctrl i).key := by
  have hset : ∀ (c : System Buffer) j n,(Function.update c.ctrl j
      ⟨(c.ctrl j).dev,(c.ctrl j).blockno,n⟩ i).key=(c.ctrl i).key := by
    intro c j n
    rw [Function.update_apply]
    split
    · rename_i e
      rw [e]
      rfl
    · rfl
  cases a with
  | bget x blockno =>
    obtain ⟨c,hc,rfl⟩ := lift_eq_next h
    exact key_of_referenced (step_change hc) hp
  | cache a =>
    rw [step] at h
    split at h
    · obtain ⟨c,hc,rfl⟩ := lift_eq_next h
      exact key_of_referenced (step_change hc) hp
    · cases h
  | beginOp =>
    rw [step] at h
    split at h
    · split at h <;> cases h
      rfl
    · cases h
  | logWrite x => rw [step] at h; split at h <;> [split at h <;> cases h <;> rfl; cases h]
  | logPin =>
    rw [step] at h
    split at h
    · cases h
    · split at h
      · cases h
        exact hset _ _ _
      · cases h
  | endOp => rw [step] at h; split at h <;> [split at h <;> cases h <;> rfl; cases h]
  | commit =>
    rw [step] at h
    split at h
    · split at h
      · cases h
      · split at h <;> cases h <;> rfl
    · cases h
  | writeLog hlog hhome =>
    rw [step] at h
    split at h
    · split at h
      · split at h
        · cases h
        · split at h <;> cases h
          rfl
      · cases h
    · cases h
  | loopEnd =>
    rw [step] at h
    split at h
    · split at h <;> cases h
      rfl
    · split at h <;> cases h
      rfl
    · cases h
  | writeHead x => rw [step] at h; split at h <;> cases h; rfl
  | install hlog hhome =>
    rw [step] at h
    split at h
    · split at h
      · split at h
        · cases h
        · split at h
          · rw [BufferCache.unpinRead] at h
            split at h
            · rename_i c hc
              split at hc <;> cases hc
              cases h
              rfl
            · cases h
            · cases h
          · cases h
      · cases h
    · cases h
  | unpin =>
    rw [step] at h
    split at h
    · split at h
      · cases h
        exact hset _ _ _
      · cases h
    · cases h
  | emptyHead x => rw [step] at h; split at h <;> cases h; rfl
  | endCommit => rw [step] at h; split at h <;> cases h; rfl

/-- What is left in the buffer of a `Buf` that `bread` returned. -/
theorem LogInv.last_of_held (hi : LogInv s) {h dev blockno : ℕ} (hh : Holds s.cache h dev blockno) :
    s.cache.last (dev,blockno)=some (s.cache.data (s.cache.slot h)) := by
  have hv := hi.inv.contents.flag h hh.1 (by rw [hh.2.1]; rfl)
  have hm := hi.inv.contents.memory _ (hi.inv.refs.listed h hh.1) (hi.inv.refs.used h hh.1)
  rw [hi.inv.refs.key h hh.1,hh.2.2,if_pos hv] at hm
  exact hm

/-- The invariant gives what the pins achieve. -/
theorem LogInv.logged (hi : LogInv s) : Logged s := by
  refine ⟨hi.nodup,?_,?_,?_,?_,?_⟩
  · intro b hb
    obtain ⟨i,hn,h1,hk,hu,hv⟩ := hi.pinned.each b hb
    have hm := hi.inv.contents.memory i (mem_lru hi.inv hn) hu
    rw [hk,if_pos hv] at hm
    exact ⟨i,hn,hk,refcnt_pos_of_pins hi.inv (by rw [h1]; decide),h1,hm⟩
  · intro a t h i h0
    exact key_of_step h (refcnt_pos_of_pins hi.inv h0)
  · intro i h0
    obtain ⟨hn,b,hb,hk⟩ := hi.pinned.only i h0
    obtain ⟨j,hj,h1,hkj,huj,-⟩ := hi.pinned.each b hb
    have hu : s.cache.used i=true := by
      rw [←Bool.not_eq_false]
      intro hu
      have hz := (hi.inv.refs.fresh i hu).2
      have hpos := refcnt_pos_of_pins hi.inv h0
      omega
    have he : i=j := hi.inv.refs.unique (mem_lru hi.inv hn) (mem_lru hi.inv hj) hu huj
      (hk.trans hkj.symm)
    rw [he] at hk ⊢
    exact ⟨h1,b,hb,hk⟩
  · intro hnil i
    by_contra h0
    obtain ⟨-,b,hb,-⟩ := hi.pinned.only i h0
    rw [hnil] at hb
    cases hb
  · intro hlog hhome t h
    rw [LogPins.step] at h
    split at h
    · rename_i n hp
      split at h
      · rename_i hlen
        split at h
        · cases h
        · rename_i b hb
          split at h
          · rename_i hheld
            cases h
            have hentry := (entries_getElem? hlen).trans hb
            refine ⟨n,b,hp,hentry,?_,?_⟩
            · rw [pending,hp]
              exact List.mem_of_getElem? hentry
            · rw [hi.last_of_held hheld.2.1]
              change _=some (Function.update s.cache.data (s.cache.slot hlog) _
                (s.cache.slot hlog))
              rw [Function.update_self]
          · cases h
      · cases h
    · cases h

/-- In every interleaving in which nobody else changes the count of a buffer between the read
and the write of a `pin` or an `unpin`, the recorded blocks stay cached until they are home, with
one pin each, and `unpin` does not panic. -/
theorem logged_blocks_stay_cached (start size dev : ℕ) (zero : Buffer) (disk : ℕ×ℕ → Buffer)
    (labels : List Label) (hg : Guarded step NoRace (boot start size dev zero disk) labels) :
    run step (boot start size dev zero disk) labels≠.fault (.cache .unpinMismatch) ∧
    ∀ t,run step (boot start size dev zero disk) labels=.next t → Logged t := by
  have hstep : ∀ s a t,LogInv s → NoRace s a → step s a=.next t → LogInv t :=
    fun s a t hi hn h => hi.step hn h
  have h0 := boot_logInv start size dev zero disk
  refine ⟨run_no_fault hstep (fun s a hi _ => hi.no_unpin_panic a) h0 hg,?_⟩
  intro t ht
  exact (run_invariant hstep h0 hg ht).logged

instance decidableNoRace (s : LogSystem) : ∀ a,Decidable (NoRace s a)
  | .bget h blockno => inferInstanceAs (Decidable (BufferCoherence.NoRace s.cache
      (.bget h s.log.dev blockno.toNat)))
  | .cache a => inferInstanceAs (Decidable (BufferCoherence.NoRace s.cache a))
  | .beginOp | .logWrite _ | .logPin | .endOp | .commit | .writeLog _ _ | .loopEnd
  | .writeHead _ | .install _ _ | .unpin | .emptyHead _ | .endCommit =>
    inferInstanceAs (Decidable True)

/-- `bread` of a block that has to be read from disk. -/
def readBlock (h : ℕ) (blockno : UInt32) : List Label :=
  [.bget h blockno,.cache (.acquire h),.cache (.check h),.cache (.read h),.cache (.store h)]

/-- `bread` of a block that is cached. -/
def findBlock (h : ℕ) (blockno : UInt32) : List Label :=
  [.bget h blockno,.cache (.acquire h),.cache (.check h)]

/-- A `Buf` is dropped. -/
def dropBuf (h : ℕ) : List Label := [.cache (.release h),.cache (.brelse h)]

/-- Block 5 is changed, recorded twice, written to the log and installed. -/
def committed : List Label :=
  [.beginOp]++readBlock 0 5++[.cache (.modify 0 fun _ => 1),.logWrite 0,.logPin,.logWrite 0]++
  dropBuf 0++[.endOp,.commit]++readBlock 1 3++findBlock 2 5++[.writeLog 1 2]++dropBuf 2++
  dropBuf 1++[.loopEnd]++readBlock 3 2++[.writeHead 3]++dropBuf 3++findBlock 4 3++
  findBlock 5 5++[.install 4 5,.unpin,.loopEnd]

/-- The hypotheses hold of a run up to the end of `install_trans`, when nothing is pinned. -/
theorem logged_blocks_committed :
    Guarded step NoRace (boot 2 30 1 (fun _ => 0) fun _ _ => 0) committed ∧
    run step (boot 2 30 1 (fun _ => 0) fun _ _ => 0) committed≠.fault (.cache .unpinMismatch) ∧
    ∃ t,run step (boot 2 30 1 (fun _ => 0) fun _ _ => 0) committed=.next t ∧
      t.phase=.emptyHead ∧ pending t=[] ∧ Logged t := by
  have hg : Guarded step NoRace (boot 2 30 1 (fun _ => 0) fun _ _ => 0) committed := by
    decide +kernel
  have hr : (run step (boot 2 30 1 (fun _ => 0) fun _ _ => 0) committed).test
      (fun t => t.phase=.emptyHead ∧ pending t=[])=true := by decide +kernel
  obtain ⟨hno,hall⟩ := logged_blocks_stay_cached 2 30 1 (fun _ => 0) (fun _ _ => 0) committed hg
  obtain ⟨t,ht,hp⟩ := Outcome.exists_of_test hr
  obtain ⟨h1,h2⟩ := of_decide_eq_true hp
  exact ⟨hg,hno,t,ht,h1,h2,hall t ht⟩

/-- A reader counts its reference to block 5 between the two halves of the `pin`, and drops
it. -/
def lostPin : List Label :=
  [.beginOp]++readBlock 0 5++[.cache (.modify 0 fun _ => 1),.logWrite 0,.bget 1 5,.logPin]++
  dropBuf 0++[.cache (.acquire 1),.cache (.check 1)]++dropBuf 1

/-- Then block 5 is recorded and its buffer has no reference. -/
theorem logged_block_unreferenced :
    ∃ t,run step (boot 2 30 1 (fun _ => 0) fun _ _ => 0) lostPin=.next t ∧ pending t=[5] ∧
      (t.cache.ctrl 29).key=(1,5) ∧ (t.cache.ctrl 29).refcnt=0 ∧ t.log.dev=1 ∧ ¬Logged t := by
  have hr : (run step (boot 2 30 1 (fun _ => 0) fun _ _ => 0) lostPin).test (fun t =>
      pending t=[5] ∧ (t.cache.ctrl 29).key=(1,5) ∧ (t.cache.ctrl 29).refcnt=0 ∧ t.log.dev=1 ∧
        ∀ i<nbuf,(t.cache.ctrl i).key=(1,5) → (t.cache.ctrl i).refcnt=0)=true := by
    decide +kernel
  obtain ⟨t,ht,hp⟩ := Outcome.exists_of_test hr
  obtain ⟨h1,h2,h3,h4,h5⟩ := of_decide_eq_true hp
  refine ⟨t,ht,h1,h2,h3,h4,?_⟩
  intro hl
  obtain ⟨i,hi,hk,href,-⟩ := hl.cached 5 (by rw [h1]; exact List.mem_singleton.mpr rfl)
  rw [h4] at hk
  have h0 := h5 i hi hk
  omega

end Results

end Xv6Rust.LogPins

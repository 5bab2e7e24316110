import Xv6Rust.Runs
import Xv6Rust.Handles

/-!
# The buffer cache

`Bcache` in `fs/bio.rs`: control entries in LRU order under the `ctrl` spin
lock, contents under one sleep lock each, a `valid` flag for each buffer, and
the `Buf` values that hold references. A label is one section under a lock, one
access of a flag, or one disk transfer; `pin` and `unpin` read and write the
reference count without a lock and are two labels each. The type of block
contents is arbitrary. The last four fields of the state record the past and
are read by no label but `unpinRead`, whose caller owes an earlier `pin`.
-/

namespace Xv6Rust.BufferCache

open Runs Handles

/-- `NBUF`. -/
def nbuf : ℕ := 30

/-- `BufCtrl`; its place in the list is kept by the list. -/
structure BufCtrl where
  /-- Device. -/
  dev : ℕ
  /-- Block number. -/
  blockno : ℕ
  /-- Reference count. -/
  refcnt : ℕ
  deriving DecidableEq

/-- The block of a control entry. -/
def BufCtrl.key (c : BufCtrl) : ℕ×ℕ := (c.dev,c.blockno)

/-- `Buf`; its pointer is the one to the count of its index. -/
structure Buf where
  /-- Buffer. -/
  index : ℕ
  /-- Device. -/
  dev : ℕ
  /-- Block number. -/
  blockno : ℕ
  deriving DecidableEq

/-- The block of a `Buf`. -/
def Buf.key (b : Buf) : ℕ×ℕ := (b.dev,b.blockno)

/-- How far the owner of a `Buf` is. -/
inductive Stage where
  /-- `bget` has counted the reference and waits for the sleep lock. -/
  | waiting
  /-- `bget` has the sleep lock. -/
  | locked
  /-- `bread` has found the flag cleared. -/
  | reading
  /-- `bread` has read the disk. -/
  | loaded
  /-- `bread` has returned. -/
  | held
  /-- `pin` has read the count. -/
  | pinning (rc : ℕ)
  /-- `unpin` has read the count. -/
  | unpinning (rc : ℕ)
  /-- `drop` has released the contents. -/
  | released
  deriving DecidableEq

/-- The sleep lock of the buffer is held. -/
def Stage.holds : Stage → Bool
  | .waiting => false
  | .released => false
  | _ => true

/-- `bread` has returned and the contents are not released. -/
def Stage.open : Stage → Bool
  | .held => true
  | .pinning _ => true
  | .unpinning _ => true
  | _ => false

/-- The count was read and is yet to be written. -/
def Stage.counting : Stage → Bool
  | .pinning _ => true
  | .unpinning _ => true
  | _ => false

/-- The cache, the disk and all `Buf` values. -/
structure System (α : Type) where
  /-- The control entries. -/
  ctrl : ℕ → BufCtrl
  /-- The list from `head` to `tail`. -/
  lru : List ℕ
  /-- The flags. -/
  valid : ℕ → Bool
  /-- The contents of the buffers. -/
  data : ℕ → α
  /-- The sleep locks of the contents. -/
  locked : ℕ → Bool
  /-- The blocks on disk. -/
  disk : ℕ×ℕ → α
  /-- The `Buf` values that live. -/
  live : Finset ℕ
  /-- The `Buf` values. -/
  buf : ℕ → Buf
  /-- How far their owners are. -/
  stage : ℕ → Stage
  /-- The buffer was given to a block before. -/
  used : ℕ → Bool
  /-- Disk reads into a buffer since it was given to its block. -/
  reads : ℕ → ℕ
  /-- Calls of `pin` that no `unpin` has undone. -/
  pins : ℕ → ℕ
  /-- The contents left in the buffer of a block that has stayed cached. -/
  last : ℕ×ℕ → Option α

variable {α : Type}

namespace System

variable (s : System α)

/-- The buffer of a `Buf`. -/
def slot (h : ℕ) : ℕ := (s.buf h).index

/-- The live `Buf` values of a buffer. -/
def handlesAt (i : ℕ) : Finset ℕ := fiber s.live s.slot i

/-- Change a control entry. -/
def setCtrl (i : ℕ) (c : BufCtrl) : System α := {s with ctrl := Function.update s.ctrl i c}

/-- Change a reference count. -/
def setRefcnt (i n : ℕ) : System α := s.setCtrl i ⟨(s.ctrl i).dev,(s.ctrl i).blockno,n⟩

/-- Change how far an owner is. -/
def setStage (h : ℕ) (st : Stage) : System α := {s with stage := Function.update s.stage h st}

/-- Change a sleep lock. -/
def setLocked (i : ℕ) (b : Bool) : System α := {s with locked := Function.update s.locked i b}

/-- A new `Buf` to a buffer that is in use from now on. -/
def addBuf (h : ℕ) (b : Buf) : System α :=
  {s with
    live := insert h s.live
    buf := Function.update s.buf h b
    stage := Function.update s.stage h .waiting
    used := Function.update s.used b.index true}

/-- The first entry with a block, from the head on. -/
def findCached (dev blockno : ℕ) : Option ℕ :=
  s.lru.find? fun i => (s.ctrl i).dev=dev ∧ (s.ctrl i).blockno=blockno

/-- The first entry without references, from the tail on. -/
def findUnused : Option ℕ := s.lru.reverse.find? fun i => (s.ctrl i).refcnt=0

/-- `recycle` of a buffer; `bget` clears its flag. -/
def recycle (i dev blockno : ℕ) : System α :=
  {s with
    ctrl := Function.update s.ctrl i ⟨dev,blockno,(s.ctrl i).refcnt+1⟩
    valid := Function.update s.valid i false
    reads := Function.update s.reads i 0
    last := if s.used i=true then Function.update s.last (s.ctrl i).key none else s.last}

end System

/-- The ways to stop. -/
inductive Panic where
  /-- `"no usable buffer"`. -/
  | noBuffer
  /-- `"buf unpin not match"`. -/
  | unpinMismatch
  /-- Arithmetic overflow. -/
  | overflow
  deriving DecidableEq

/-- The sections of the calls, each with the `Buf` it is made for. -/
inductive Label (α : Type) where
  /-- `bget` under the `ctrl` lock. -/
  | bget (h dev blockno : ℕ)
  /-- `bget` takes the sleep lock. -/
  | acquire (h : ℕ)
  /-- `bread` loads the flag. -/
  | check (h : ℕ)
  /-- `DISK.rw(.., false)`. -/
  | read (h : ℕ)
  /-- `bread` stores the flag. -/
  | store (h : ℕ)
  /-- The contents are changed through the `Buf`. -/
  | modify (h : ℕ) (x : α)
  /-- `bwrite`. -/
  | bwrite (h : ℕ)
  /-- `pin` reads the count. -/
  | pinRead (h : ℕ)
  /-- `pin` writes the count. -/
  | pinWrite (h : ℕ)
  /-- `unpin` reads the count. -/
  | unpinRead (h : ℕ)
  /-- `unpin` writes the count. -/
  | unpinWrite (h : ℕ)
  /-- `drop` releases the contents. -/
  | release (h : ℕ)
  /-- `brelse`. -/
  | brelse (h : ℕ)

section Sections

variable (s : System α)

/-- `bget` under the `ctrl` lock. -/
def bget (h dev blockno : ℕ) : Outcome Panic (System α) :=
  match s.findCached dev blockno with
  | some i => .next ((s.setRefcnt i ((s.ctrl i).refcnt+1)).addBuf h ⟨i,dev,blockno⟩)
  | none =>
    match s.findUnused with
    | some i => .next ((s.recycle i dev blockno).addBuf h ⟨i,dev,blockno⟩)
    | none => .fault .noBuffer

/-- The contents and what is known of them after a change through a `Buf`. -/
def modify (h : ℕ) (x : α) : System α :=
  {s with
    data := Function.update s.data (s.slot h) x
    last := Function.update s.last (s.buf h).key (some x)}

/-- `bwrite`. -/
def bwrite (h : ℕ) : System α :=
  {s with disk := Function.update s.disk (s.buf h).key (s.data (s.slot h))}

/-- `pin` writes the count it computed. -/
def pinWrite (h rc : ℕ) : System α :=
  {(s.setRefcnt (s.slot h) (rc+1)).setStage h .held with
    pins := Function.update s.pins (s.slot h) (s.pins (s.slot h)+1)}

/-- `unpin` reads the count. -/
def unpinRead (h : ℕ) : Outcome Panic (System α) :=
  if (s.ctrl (s.slot h)).refcnt ≤ 1 then .fault .unpinMismatch
  else .next (s.setStage h (.unpinning (s.ctrl (s.slot h)).refcnt))

/-- `unpin` writes the count it computed. -/
def unpinWrite (h rc : ℕ) : System α :=
  {(s.setRefcnt (s.slot h) (rc-1)).setStage h .held with
    pins := Function.update s.pins (s.slot h) (s.pins (s.slot h)-1)}

/-- `brelse`: a buffer without references becomes the head of the list. -/
def brelse (h : ℕ) : Outcome Panic (System α) :=
  let i := s.slot h
  if (s.ctrl i).refcnt=0 then .fault .overflow
  else .next
    {s.setRefcnt i ((s.ctrl i).refcnt-1) with
      lru := if (s.ctrl i).refcnt-1=0 then i::s.lru.erase i else s.lru
      live := s.live.erase h}

end Sections

/-- One section of a call. -/
def step (s : System α) : Label α → Outcome Panic (System α)
  | .bget h dev blockno => if h∈s.live then .blocked else bget s h dev blockno
  | .acquire h =>
    if h∈s.live ∧ s.stage h=.waiting ∧ s.locked (s.slot h)=false then
      .next ((s.setLocked (s.slot h) true).setStage h .locked)
    else .blocked
  | .check h =>
    if h∈s.live ∧ s.stage h=.locked then
      .next (s.setStage h (if s.valid (s.slot h)=true then .held else .reading))
    else .blocked
  | .read h =>
    if h∈s.live ∧ s.stage h=.reading then
      .next {s.setStage h .loaded with
        data := Function.update s.data (s.slot h) (s.disk (s.buf h).key)
        reads := Function.update s.reads (s.slot h) (s.reads (s.slot h)+1)}
    else .blocked
  | .store h =>
    if h∈s.live ∧ s.stage h=.loaded then
      .next {s.setStage h .held with
        valid := Function.update s.valid (s.slot h) true
        last := Function.update s.last (s.buf h).key (some (s.data (s.slot h)))}
    else .blocked
  | .modify h x => if h∈s.live ∧ s.stage h=.held then .next (modify s h x) else .blocked
  | .bwrite h => if h∈s.live ∧ s.stage h=.held then .next (bwrite s h) else .blocked
  | .pinRead h =>
    if h∈s.live ∧ s.stage h=.held then
      .next (s.setStage h (.pinning (s.ctrl (s.slot h)).refcnt))
    else .blocked
  | .pinWrite h =>
    match s.stage h with
    | .pinning rc => if h∈s.live then .next (pinWrite s h rc) else .blocked
    | _ => .blocked
  | .unpinRead h =>
    if h∈s.live ∧ s.stage h=.held ∧ 0 < s.pins (s.slot h) then unpinRead s h else .blocked
  | .unpinWrite h =>
    match s.stage h with
    | .unpinning rc => if h∈s.live then .next (unpinWrite s h rc) else .blocked
    | _ => .blocked
  | .release h =>
    if h∈s.live ∧ s.stage h=.held then
      .next ((s.setLocked (s.slot h) false).setStage h .released)
    else .blocked
  | .brelse h => if h∈s.live ∧ s.stage h=.released then brelse s h else .blocked

/-- The cache after `binit`, over the blocks of a disk. -/
def binit (zero : α) (disk : ℕ×ℕ → α) : System α :=
  { ctrl := fun _ => ⟨0,0,0⟩
    lru := List.range nbuf
    valid := fun _ => false
    data := fun _ => zero
    locked := fun _ => false
    disk := disk
    live := ∅
    buf := fun _ => ⟨0,0,0⟩
    stage := fun _ => .waiting
    used := fun _ => false
    reads := fun _ => 0
    pins := fun _ => 0
    last := fun _ => none }

/-- What each section does when it is taken. -/
inductive Change (s : System α) : Label α → System α → Prop
  /-- `bget` finds the block; no entry before it has the block. -/
  | hit {h dev blockno i : ℕ} {before after : List ℕ} (new : h∉s.live)
      (list : s.lru=before++i::after) (key : (s.ctrl i).key=(dev,blockno))
      (first : ∀ j∈before,(s.ctrl j).key≠(dev,blockno)) :
      Change s (.bget h dev blockno)
        ((s.setRefcnt i ((s.ctrl i).refcnt+1)).addBuf h ⟨i,dev,blockno⟩)
  /-- `bget` recycles a buffer; no entry has the block. -/
  | miss {h dev blockno i : ℕ} (new : h∉s.live) (listed : i∈s.lru) (unused : (s.ctrl i).refcnt=0)
      (absent : ∀ j∈s.lru,(s.ctrl j).key≠(dev,blockno)) :
      Change s (.bget h dev blockno) ((s.recycle i dev blockno).addBuf h ⟨i,dev,blockno⟩)
  /-- The sleep lock is taken. -/
  | acquire {h : ℕ} (live : h∈s.live) (waiting : s.stage h=.waiting)
      (free : s.locked (s.slot h)=false) :
      Change s (.acquire h) ((s.setLocked (s.slot h) true).setStage h .locked)
  /-- The flag is loaded. -/
  | check {h : ℕ} (live : h∈s.live) (locked : s.stage h=.locked) :
      Change s (.check h) (s.setStage h (if s.valid (s.slot h)=true then .held else .reading))
  /-- The disk is read. -/
  | read {h : ℕ} (live : h∈s.live) (reading : s.stage h=.reading) :
      Change s (.read h) {s.setStage h .loaded with
        data := Function.update s.data (s.slot h) (s.disk (s.buf h).key)
        reads := Function.update s.reads (s.slot h) (s.reads (s.slot h)+1)}
  /-- The flag is stored. -/
  | store {h : ℕ} (live : h∈s.live) (loaded : s.stage h=.loaded) :
      Change s (.store h) {s.setStage h .held with
        valid := Function.update s.valid (s.slot h) true
        last := Function.update s.last (s.buf h).key (some (s.data (s.slot h)))}
  /-- The contents are changed. -/
  | modify {h : ℕ} {x : α} (live : h∈s.live) (held : s.stage h=.held) :
      Change s (.modify h x) (BufferCache.modify s h x)
  /-- The disk is written. -/
  | bwrite {h : ℕ} (live : h∈s.live) (held : s.stage h=.held) :
      Change s (.bwrite h) (BufferCache.bwrite s h)
  /-- `pin` begins. -/
  | pinRead {h : ℕ} (live : h∈s.live) (held : s.stage h=.held) :
      Change s (.pinRead h) (s.setStage h (.pinning (s.ctrl (s.slot h)).refcnt))
  /-- `pin` ends. -/
  | pinWrite {h rc : ℕ} (live : h∈s.live) (pinning : s.stage h=.pinning rc) :
      Change s (.pinWrite h) (BufferCache.pinWrite s h rc)
  /-- `unpin` begins. -/
  | unpinRead {h : ℕ} (live : h∈s.live) (held : s.stage h=.held) (owed : 0 < s.pins (s.slot h)) :
      Change s (.unpinRead h) (s.setStage h (.unpinning (s.ctrl (s.slot h)).refcnt))
  /-- `unpin` ends. -/
  | unpinWrite {h rc : ℕ} (live : h∈s.live) (unpinning : s.stage h=.unpinning rc) :
      Change s (.unpinWrite h) (BufferCache.unpinWrite s h rc)
  /-- The contents are released. -/
  | release {h : ℕ} (live : h∈s.live) (held : s.stage h=.held) :
      Change s (.release h) ((s.setLocked (s.slot h) false).setStage h .released)
  /-- The reference is given back. -/
  | brelse {h n : ℕ} (live : h∈s.live) (released : s.stage h=.released)
      (refs : (s.ctrl (s.slot h)).refcnt=n+1) :
      Change s (.brelse h) {s.setRefcnt (s.slot h) n with
        lru := if n=0 then s.slot h::s.lru.erase (s.slot h) else s.lru
        live := s.live.erase h}

/-- An entry that `bget` finds. -/
theorem findCached_eq_some {s : System α} {dev blockno i : ℕ}
    (h : s.findCached dev blockno=some i) :
    ∃ before after,s.lru=before++i::after ∧ (s.ctrl i).key=(dev,blockno) ∧
      ∀ j∈before,(s.ctrl j).key≠(dev,blockno) := by
  obtain ⟨hi,before,after,hl,hb⟩ := List.find?_eq_some_iff_append.mp h
  rw [decide_eq_true_iff] at hi
  refine ⟨before,after,hl,by rw [BufCtrl.key,hi.1,hi.2],?_⟩
  intro j hj e
  have hn := hb j hj
  rw [BufCtrl.key,Prod.mk.injEq] at e
  rw [decide_eq_true e] at hn
  cases hn

/-- What it means that `bget` finds no entry. -/
theorem findCached_eq_none {s : System α} {dev blockno : ℕ} (h : s.findCached dev blockno=none) :
    ∀ j∈s.lru,(s.ctrl j).key≠(dev,blockno) := by
  intro j hj e
  have hn := List.find?_eq_none.mp h j hj
  rw [BufCtrl.key,Prod.mk.injEq] at e
  exact hn (decide_eq_true e)

/-- An entry that can be recycled. -/
theorem findUnused_eq_some {s : System α} {i : ℕ} (h : s.findUnused=some i) :
    i∈s.lru ∧ (s.ctrl i).refcnt=0 := by
  have hp := List.find?_some h
  rw [decide_eq_true_iff] at hp
  exact ⟨List.mem_reverse.mp (List.mem_of_find?_eq_some h),hp⟩

/-- Every section that is taken makes one of the changes. -/
theorem step_change {s t : System α} {a : Label α} (h : step s a=.next t) : Change s a t := by
  cases a with
  | bget x dev blockno =>
    rw [step] at h
    split at h
    · cases h
    · rename_i hn
      rw [bget] at h
      split at h
      · rename_i i hc
        cases h
        obtain ⟨before,after,h1,h2,h3⟩ := findCached_eq_some hc
        exact .hit hn h1 h2 h3
      · rename_i hc
        split at h
        · rename_i i hu
          cases h
          obtain ⟨h1,h2⟩ := findUnused_eq_some hu
          exact .miss hn h1 h2 (findCached_eq_none hc)
        · cases h
  | acquire x =>
    rw [step] at h
    split at h
    · rename_i hc
      cases h
      exact .acquire hc.1 hc.2.1 hc.2.2
    · cases h
  | check x =>
    rw [step] at h
    split at h
    · rename_i hc
      cases h
      exact .check hc.1 hc.2
    · cases h
  | read x =>
    rw [step] at h
    split at h
    · rename_i hc
      cases h
      exact .read hc.1 hc.2
    · cases h
  | store x =>
    rw [step] at h
    split at h
    · rename_i hc
      cases h
      exact .store hc.1 hc.2
    · cases h
  | modify x d =>
    rw [step] at h
    split at h
    · rename_i hc
      cases h
      exact .modify hc.1 hc.2
    · cases h
  | bwrite x =>
    rw [step] at h
    split at h
    · rename_i hc
      cases h
      exact .bwrite hc.1 hc.2
    · cases h
  | pinRead x =>
    rw [step] at h
    split at h
    · rename_i hc
      cases h
      exact .pinRead hc.1 hc.2
    · cases h
  | pinWrite x =>
    rw [step] at h
    split at h
    · rename_i rc hs
      split at h
      · rename_i hl
        cases h
        exact .pinWrite hl hs
      · cases h
    · cases h
  | unpinRead x =>
    rw [step] at h
    split at h
    · rename_i hc
      rw [unpinRead] at h
      split at h
      · cases h
      · cases h
        exact .unpinRead hc.1 hc.2.1 hc.2.2
    · cases h
  | unpinWrite x =>
    rw [step] at h
    split at h
    · rename_i rc hs
      split at h
      · rename_i hl
        cases h
        exact .unpinWrite hl hs
      · cases h
    · cases h
  | release x =>
    rw [step] at h
    split at h
    · rename_i hc
      cases h
      exact .release hc.1 hc.2
    · cases h
  | brelse x =>
    rw [step] at h
    split at h
    · rename_i hc
      rw [brelse] at h
      dsimp only at h
      split at h
      · cases h
      · rename_i h0
        obtain ⟨n,hn⟩ := Nat.exists_eq_succ_of_ne_zero h0
        rw [hn] at h
        cases h
        exact .brelse hc.1 hc.2 hn
    · cases h

section Locking

variable {s t : System α}

/-- Sleep locks fit the stages. -/
def Locks (s : System α) : Prop :=
  Locking s.live s.slot (fun h => (s.stage h).holds) s.locked

/-- Two owners with the sleep lock of one buffer are one. -/
theorem Locks.alone (hk : Locks s) {x y : ℕ} (hx : x∈s.live) (hy : y∈s.live)
    (hhx : (s.stage x).holds=true) (hhy : (s.stage y).holds=true) (he : s.slot x=s.slot y) :
    x=y := hk.exclusive x hx y hy hhx hhy he

/-- Changing one stage leaves the others. -/
theorem holds_update (s : System α) {h : ℕ} (st : Stage) :
    ∀ x,x≠h → (Function.update s.stage h st x).holds=(s.stage x).holds := by
  intro x hx
  rw [Function.update_of_ne hx]

/-- The stage that is changed. -/
theorem holds_update_self (s : System α) (h : ℕ) (st : Stage) :
    (Function.update s.stage h st h).holds=st.holds := by
  rw [Function.update_self]

/-- A new `Buf` holds no lock. -/
theorem Locks.add (hk : Locks s) {h : ℕ} (hn : h∉s.live) (b : Buf) : Locks (s.addBuf h b) := by
  have hne : ∀ x∈s.live,x≠h := fun x hx => ne_of_mem_of_not_mem hx hn
  refine Locking.insert hk ?_ ?_ ?_
  · intro x hx
    exact congrArg Buf.index (Function.update_of_ne (hne x hx) _ _)
  · intro x hx
    exact holds_update s _ x (hne x hx)
  · exact holds_update_self s h .waiting

/-- The owner of a lock goes on with it. -/
theorem Locks.restage (hk : Locks s) {h : ℕ} {st : Stage} (hh : (s.stage h).holds=true)
    (hst : st.holds=true) : Locks (s.setStage h st) := by
  refine Locking.congr hk (fun x _ => rfl) ?_
  intro x _
  by_cases e : x=h
  · rw [e]
    exact ((holds_update_self s h st).trans hst).trans hh.symm
  · exact holds_update s st x e

/-- Every section keeps the locks right. -/
theorem Locks.change (hk : Locks s) {a : Label α} (h : Change s a t) : Locks t := by
  cases h with
  | @hit x dev blockno i before after new => exact Locks.add (s:=s.setRefcnt i _) hk new _
  | @miss x dev blockno i new => exact Locks.add (s:=s.recycle i dev blockno) hk new _
  | @acquire x live waiting free =>
    exact Locking.acquire hk live free (holds_update_self s x .locked) (holds_update s _)
  | @check x live locked =>
    refine hk.restage (by rw [locked]; rfl) ?_
    split <;> rfl
  | read live reading => exact hk.restage (by rw [reading]; rfl) rfl
  | store live loaded => exact hk.restage (by rw [loaded]; rfl) rfl
  | modify => exact hk
  | bwrite => exact hk
  | pinRead live held => exact hk.restage (by rw [held]; rfl) rfl
  | pinWrite live pinning => exact hk.restage (by rw [pinning]; rfl) rfl
  | unpinRead live held => exact hk.restage (by rw [held]; rfl) rfl
  | unpinWrite live unpinning => exact hk.restage (by rw [unpinning]; rfl) rfl
  | @release x live held =>
    have hh : (s.stage x).holds=true := by rw [held]; rfl
    exact Locking.release hk live hh (holds_update_self s x .released) (holds_update s _)
  | @brelse x n live released =>
    have hh : (s.stage x).holds=false := by rw [released]; rfl
    exact Locking.erase hk hh

end Locking

end Xv6Rust.BufferCache

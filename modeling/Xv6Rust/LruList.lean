import Xv6Rust.Runs
import Xv6Rust.IntrusiveList
import Xv6Rust.BufferCache

/-!
# The list of the buffer cache

`BufLru` of `fs/bio.rs` with its raw pointers: control entries linked both ways by
fields that may be null, and a pointer to the first and to the last of them. With null
as the head node this is a circular list, and `move_if_no_ref` is a removal followed
by an insertion after the head. The order of the list is the order in which the
buffers last lost their references.
-/

namespace Xv6Rust.LruList

open Runs IntrusiveList

open BufferCache (nbuf)

/-- `BufCtrl`; a pointer to a control entry is its place in the array. -/
structure BufCtrl where
  /-- Device. -/
  dev : UInt32
  /-- Block number. -/
  blockno : UInt32
  /-- The entry before, or null. -/
  prev : Option ℕ
  /-- The entry after, or null. -/
  next : Option ℕ
  /-- Reference count. -/
  refcnt : ℕ
  /-- Index of its data. -/
  index : ℕ
  deriving DecidableEq

/-- `BufLru`. -/
structure BufLru where
  /-- The control entries. -/
  inner : ℕ → BufCtrl
  /-- The first entry of the list. -/
  head : Option ℕ
  /-- The last entry of the list. -/
  tail : Option ℕ

/-- The ways to stop. -/
inductive Panic where
  /-- An index past the array. -/
  | bounds
  /-- Arithmetic overflow. -/
  | overflow
  /-- A loop over the list that does not end. -/
  | endless
  deriving DecidableEq

namespace BufLru

/-- `BufLru::new`. -/
def new : BufLru := ⟨fun _ => ⟨0,0,none,none,0,0⟩,none,none⟩

variable (s : BufLru)

/-- Change the control entry at a place. -/
def set (i : ℕ) (b : BufCtrl) : BufLru := {s with inner := Function.update s.inner i b}

/-- Assign to `prev`. -/
def setPrev (i : ℕ) (p : Option ℕ) : BufLru := s.set i {s.inner i with prev := p}

/-- Assign to `next`. -/
def setNext (i : ℕ) (p : Option ℕ) : BufLru := s.set i {s.inner i with next := p}

/-- Assign to `prev` behind a pointer, unless it is null. -/
def setPrevAt (b p : Option ℕ) : BufLru :=
  match b with
  | none => s
  | some i => s.setPrev i p

/-- Assign to `next` behind a pointer, unless it is null. -/
def setNextAt (b p : Option ℕ) : BufLru :=
  match b with
  | none => s
  | some i => s.setNext i p

/-- `binit`. -/
def binit : BufLru :=
  let s := {s with head := some 0,tail := some (nbuf-1)}
  let s := (s.setPrev 0 none).setNext 0 (some 1)
  let s := (s.setPrev (nbuf-1) (some (nbuf-2))).setNext (nbuf-1) none
  let s := (List.range' 1 (nbuf-2)).foldl
    (fun s i => (s.setPrev i (some (i-1))).setNext i (some (i+1))) s
  (List.range nbuf).foldl (fun s i => s.set i {s.inner i with index := i}) s

/-- The loops of `find_cached` and `recycle`: follow the pointers to the first entry
that passes a test. -/
def search (link : ℕ → Option ℕ) (test : ℕ → Bool) : ℕ → Option ℕ → Except Panic (Option ℕ)
  | _,none => .ok none
  | 0,some _ => .error .endless
  | fuel+1,some b => if test b=true then .ok (some b) else search link test fuel (link b)

/-- `find_cached`: index and entry of the block, with one more reference. -/
def findCached (dev blockno : UInt32) : Except Panic (Option (ℕ×ℕ)×BufLru) := do
  match ← search (fun b => (s.inner b).next)
      (fun b => decide ((s.inner b).dev=dev ∧ (s.inner b).blockno=blockno)) nbuf s.head with
  | none => .ok (none,s)
  | some b =>
    if (s.inner b).refcnt+1<2^64 then
      .ok (some ((s.inner b).index,b),s.set b {s.inner b with refcnt := (s.inner b).refcnt+1})
    else .error .overflow

/-- `recycle`: index and entry of an unused buffer, which is given to the block. -/
def recycle (dev blockno : UInt32) : Except Panic (Option (ℕ×ℕ)×BufLru) := do
  match ← search (fun b => (s.inner b).prev) (fun b => decide ((s.inner b).refcnt=0)) nbuf
      s.tail with
  | none => .ok (none,s)
  | some b =>
    .ok (some ((s.inner b).index,b),
      s.set b {s.inner b with dev := dev,blockno := blockno,refcnt := (s.inner b).refcnt+1})

/-- The end of `move_if_no_ref`: take an entry out of the list and put it at the head. -/
def moveToHead (index : ℕ) : BufLru :=
  let s :=
    if s.tail=some index ∧ (s.inner index).prev≠none then {s with tail := (s.inner index).prev}
    else s
  let s := s.setPrevAt (s.inner index).next (s.inner index).prev
  let s := s.setNextAt (s.inner index).prev (s.inner index).next
  let s := (s.setPrev index none).setNext index s.head
  let s := s.setPrevAt s.head (some index)
  {s with head := some index}

/-- `move_if_no_ref`. -/
def moveIfNoRef (index : ℕ) : Except Panic BufLru :=
  if nbuf ≤ index then .error .bounds
  else if (s.inner index).refcnt=0 then .error .overflow
  else
    let s := s.set index {s.inner index with refcnt := (s.inner index).refcnt-1}
    .ok (if (s.inner index).refcnt=0 ∧ s.head≠some index then s.moveToHead index else s)

/-- Follow the pointers to null and collect the entries on the way. -/
def walk (link : ℕ → Option ℕ) : ℕ → Option ℕ → Option (List ℕ)
  | _,none => some []
  | 0,some _ => none
  | fuel+1,some b => (walk link fuel (link b)).map (b::·)

/-- The pointers of the list, with null for the node between its last and its first
entry. -/
def links : Links (Option ℕ) where
  prev := fun b =>
    match b with
    | none => s.tail
    | some i => (s.inner i).prev
  next := fun b =>
    match b with
    | none => s.head
    | some i => (s.inner i).next

end BufLru

/-- The calls on the list. -/
inductive Action where
  /-- `find_cached`. -/
  | findCached (dev blockno : UInt32)
  /-- `recycle`. -/
  | recycle (dev blockno : UInt32)
  /-- `move_if_no_ref`. -/
  | moveIfNoRef (index : ℕ)
  deriving DecidableEq

/-- The reference counts. -/
def BufLru.refcnts (s : BufLru) (i : ℕ) : ℕ := (s.inner i).refcnt

/-- The entry is the block's. -/
def BufLru.Holds (s : BufLru) (dev blockno : UInt32) (i : ℕ) : Prop :=
  (s.inner i).dev=dev ∧ (s.inner i).blockno=blockno

/-- What a call does to the reference counts: `find_cached` adds a reference to a buffer of
the block, `recycle` gives the first one to an unused buffer, and `move_if_no_ref` takes
one away. -/
def Counted (s t : BufLru) : Action → Prop
  | .findCached dev blockno =>
    (t=s ∧ ∀ i<nbuf,¬s.Holds dev blockno i) ∨
      ∃ i<nbuf,s.Holds dev blockno i ∧
        t.refcnts=Function.update s.refcnts i (s.refcnts i+1)
  | .recycle dev blockno =>
    (t=s ∧ ∀ i<nbuf,0 < s.refcnts i) ∨
      ∃ i<nbuf,s.refcnts i=0 ∧ t.Holds dev blockno i ∧
        t.refcnts=Function.update s.refcnts i 1
  | .moveIfNoRef index => t.refcnts=Function.update s.refcnts index (s.refcnts index-1)

/-- The list with a record of its past. -/
structure Traced where
  /-- The list. -/
  lru : BufLru
  /-- The buffers that gave up their only reference, the latest first. -/
  drops : List ℕ

/-- The list after `binit`. -/
def boot : Traced := ⟨BufLru.new.binit,[]⟩

/-- One call. `move_if_no_ref` is called for a buffer with references; the record is made
from the count before it. -/
def step (s : Traced) : Action → Outcome Panic Traced
  | .findCached dev blockno =>
    match s.lru.findCached dev blockno with
    | .ok (_,t) => .next {s with lru := t}
    | .error e => .fault e
  | .recycle dev blockno =>
    match s.lru.recycle dev blockno with
    | .ok (_,t) => .next {s with lru := t}
    | .error e => .fault e
  | .moveIfNoRef index =>
    if index<nbuf ∧ 0<(s.lru.inner index).refcnt then
      match s.lru.moveIfNoRef index with
      | .ok t => .next ⟨t,if (s.lru.inner index).refcnt=1 then index::s.drops else s.drops⟩
      | .error e => .fault e
    else .blocked

/-- A buffer last lost its references before another did: its last drop is further back
in the record, or neither was ever dropped and it is nearer to the tail the list
started with. A buffer that was never dropped is not in the record. -/
def Older (drops : List ℕ) (i j : ℕ) : Prop :=
  drops.idxOf j<drops.idxOf i ∨ (i∉drops ∧ j∉drops ∧ j < i)

/-- The list is a list of all buffers in both directions, and `recycle` takes the unused
buffer that has been unused for the longest time. -/
structure LeastRecentlyUsed (s : Traced) : Prop where
  /-- Both walks meet every buffer once, in opposite orders, and end in null. -/
  list : ∃ l : List ℕ,l.Perm (List.range nbuf) ∧
    BufLru.walk (fun b => (s.lru.inner b).next) nbuf s.lru.head=some l ∧
    BufLru.walk (fun b => (s.lru.inner b).prev) nbuf s.lru.tail=some l.reverse
  /-- Nothing is found exactly when every buffer is in use. -/
  none_iff : ∀ dev blockno,
    (∃ t,s.lru.recycle dev blockno=.ok (none,t)) ↔ ∀ i<nbuf,0<(s.lru.inner i).refcnt
  /-- Otherwise the oldest of the unused buffers is found. -/
  oldest : ∀ dev blockno,(∃ i<nbuf,(s.lru.inner i).refcnt=0) →
    ∃ i t,s.lru.recycle dev blockno=.ok (some (i,i),t) ∧ i<nbuf ∧ (s.lru.inner i).refcnt=0 ∧
      ∀ j<nbuf,j≠i → (s.lru.inner j).refcnt=0 → Older s.drops i j

@[simp] theorem BufLru.set_self (s : BufLru) (i : ℕ) (b : BufCtrl) : (s.set i b).inner i=b := by
  simp only [BufLru.set,Function.update_self]

@[simp] theorem BufLru.set_of_ne (s : BufLru) {i j : ℕ} (b : BufCtrl) (h : j≠i) :
    (s.set i b).inner j=s.inner j := by
  simp only [BufLru.set,Function.update_of_ne h]

/-- A change of one entry changes one reference count. -/
theorem BufLru.refcnts_set (s : BufLru) (i : ℕ) (b : BufCtrl) :
    (s.set i b).refcnts=Function.update s.refcnts i b.refcnt := by
  funext j
  by_cases e : j=i
  · rw [e,Function.update_self,BufLru.refcnts,BufLru.set_self]
  · rw [Function.update_of_ne e,BufLru.refcnts,BufLru.refcnts,BufLru.set_of_ne s b e]

@[simp] theorem BufLru.setPrev_of_ne (s : BufLru) {i j : ℕ} (p : Option ℕ) (h : j≠i) :
    (s.setPrev i p).inner j=s.inner j := s.set_of_ne _ h

@[simp] theorem BufLru.setPrev_head (s : BufLru) (i : ℕ) (p : Option ℕ) :
    (s.setPrev i p).head=s.head := rfl

@[simp] theorem BufLru.setNext_head (s : BufLru) (i : ℕ) (p : Option ℕ) :
    (s.setNext i p).head=s.head := rfl

section Loops

variable {l : Links (Option ℕ)} {u : Option ℕ} {bs : List ℕ} {fuel : ℕ}

/-- A loop along a chain of buffers that ends in null finds the first that passes. -/
theorem search_chain (test : ℕ → Bool) (h : Chain l u (bs.map some) none)
    (hf : bs.length≤fuel) :
    BufLru.search (fun b => l.next (some b)) test fuel (l.next u)=.ok (bs.find? test) := by
  induction bs generalizing u fuel with
  | nil =>
    rw [h.1,BufLru.search]
    rfl
  | cons b bs ih =>
    obtain ⟨fuel,rfl⟩ : ∃ k,fuel=k+1 := ⟨fuel-1,by rw [List.length_cons] at hf; omega⟩
    rw [List.length_cons,Nat.add_le_add_iff_right] at hf
    rw [h.1,BufLru.search,List.find?_cons,ih h.2.2 hf]
    cases test b <;> rfl

/-- A walk along a chain meets its buffers in order. -/
theorem walk_chain (h : Chain l u (bs.map some) none) (hf : bs.length≤fuel) :
    BufLru.walk (fun b => l.next (some b)) fuel (l.next u)=some bs := by
  induction bs generalizing u fuel with
  | nil =>
    rw [h.1,BufLru.walk]
  | cons b bs ih =>
    obtain ⟨fuel,rfl⟩ : ∃ k,fuel=k+1 := ⟨fuel-1,by rw [List.length_cons] at hf; omega⟩
    rw [List.length_cons,Nat.add_le_add_iff_right] at hf
    rw [h.1,BufLru.walk,ih h.2.2 hf,Option.map_some]

end Loops

/-- The list with its buffers in order. -/
structure Listed (s : BufLru) (bs : List ℕ) : Prop where
  /-- The pointers run through the buffers and back to null. -/
  ring : Ring s.links none (bs.map some)
  /-- Every buffer is there. -/
  perm : bs.Perm (List.range nbuf)
  /-- Entries know their place. -/
  index : ∀ i<nbuf,(s.inner i).index=i

/-- The last buffer of the list without references. -/
def unused (s : BufLru) (bs : List ℕ) : Option ℕ :=
  bs.reverse.find? fun b => decide ((s.inner b).refcnt=0)

namespace Listed

variable {s : BufLru} {bs : List ℕ}

theorem length (h : Listed s bs) : bs.length=nbuf := by
  rw [h.perm.length_eq,List.length_range]

theorem mem_iff (h : Listed s bs) {i : ℕ} : i∈bs ↔ i<nbuf := by
  rw [h.perm.mem_iff,List.mem_range]

theorem nodup (h : Listed s bs) : bs.Nodup := h.perm.nodup_iff.mpr List.nodup_range

/-- The loop from the head finds the first buffer that passes. -/
theorem search_next (h : Listed s bs) (test : ℕ → Bool) :
    BufLru.search (fun b => (s.inner b).next) test nbuf s.head=.ok (bs.find? test) :=
  search_chain test h.ring.chain h.length.le

/-- The loop from the tail finds the last one. -/
theorem search_prev (h : Listed s bs) (test : ℕ → Bool) :
    BufLru.search (fun b => (s.inner b).prev) test nbuf s.tail=.ok (bs.reverse.find? test) := by
  have hflip := h.ring.chain.flip
  rw [←List.map_reverse] at hflip
  exact search_chain test hflip (by rw [List.length_reverse,h.length])

theorem walks (h : Listed s bs) :
    BufLru.walk (fun b => (s.inner b).next) nbuf s.head=some bs ∧
      BufLru.walk (fun b => (s.inner b).prev) nbuf s.tail=some bs.reverse := by
  have hflip := h.ring.chain.flip
  rw [←List.map_reverse] at hflip
  exact ⟨walk_chain h.ring.chain h.length.le,
    walk_chain hflip (by rw [List.length_reverse,h.length])⟩

/-- A change that leaves the pointers and the indices alone keeps the list. -/
theorem set (h : Listed s bs) {i : ℕ} {b : BufCtrl} (hp : b.prev=(s.inner i).prev)
    (hn : b.next=(s.inner i).next) (hi : b.index=(s.inner i).index) : Listed (s.set i b) bs := by
  have hinner : ∀ j,((s.set i b).inner j).prev=(s.inner j).prev ∧
      ((s.set i b).inner j).next=(s.inner j).next ∧
      ((s.set i b).inner j).index=(s.inner j).index := by
    intro j
    by_cases e : j=i
    · rw [e,BufLru.set_self]
      exact ⟨hp,hn,hi⟩
    · rw [BufLru.set_of_ne s b e]
      exact ⟨rfl,rfl,rfl⟩
  have hlinks : (s.set i b).links=s.links := by
    rw [BufLru.links,BufLru.links]
    congr 1
    · funext p
      cases p with
      | none => rfl
      | some j => exact (hinner j).1
    · funext p
      cases p with
      | none => rfl
      | some j => exact (hinner j).2.1
  constructor
  · rw [hlinks]
    exact h.ring
  · exact h.perm
  · intro j hj
    rw [(hinner j).2.2]
    exact h.index j hj

/-- `find_cached` finds the first buffer of the block and counts a reference. -/
theorem findCached_cases (h : Listed s bs) (dev blockno : UInt32) :
    s.findCached dev blockno=.error .overflow ∨
      ∃ o t,s.findCached dev blockno=.ok (o,t) ∧ Listed t bs ∧
        Counted s t (.findCached dev blockno) := by
  rw [BufLru.findCached,h.search_next]
  cases hfind : bs.find? fun b => decide ((s.inner b).dev=dev ∧ (s.inner b).blockno=blockno) with
  | none =>
    refine .inr ⟨none,s,rfl,h,.inl ⟨rfl,fun i hi hblock => ?_⟩⟩
    exact List.find?_eq_none.mp hfind i (h.mem_iff.mpr hi) (decide_eq_true hblock)
  | some b =>
    have hblock : s.Holds dev blockno b := by
      have hpass := List.find?_some hfind
      rw [decide_eq_true_eq] at hpass
      exact hpass
    have hlt : b<nbuf := h.mem_iff.mp (List.mem_of_find?_eq_some hfind)
    dsimp only [bind,Except.bind]
    split
    · refine .inr ⟨_,_,rfl,h.set rfl rfl rfl,.inr ⟨b,hlt,hblock,?_⟩⟩
      rw [BufLru.refcnts_set]
      rfl
    · exact .inl rfl

/-- `recycle` finds nothing when there is no buffer without references. -/
theorem recycle_none (h : Listed s bs) (hn : unused s bs=none) (dev blockno : UInt32) :
    s.recycle dev blockno=.ok (none,s) := by
  rw [unused] at hn
  rw [BufLru.recycle,h.search_prev,hn]
  rfl

/-- `recycle` takes the last one of the list otherwise. -/
theorem recycle_some (h : Listed s bs) {b : ℕ} (hb : unused s bs=some b) (dev blockno : UInt32) :
    s.recycle dev blockno=.ok (some (b,b),s.set b {s.inner b with
      dev := dev
      blockno := blockno
      refcnt := (s.inner b).refcnt+1}) := by
  have hlt : b<nbuf := by
    rw [←h.mem_iff,←List.mem_reverse]
    exact List.mem_of_find?_eq_some hb
  rw [unused] at hb
  rw [BufLru.recycle,h.search_prev,hb]
  dsimp only [bind,Except.bind]
  rw [h.index b hlt]

theorem unused_none_iff (h : Listed s bs) :
    unused s bs=none ↔ ∀ i<nbuf,0<(s.inner i).refcnt := by
  rw [unused,List.find?_eq_none]
  constructor
  · intro hn i hi
    have hused := hn i (List.mem_reverse.mpr (h.mem_iff.mpr hi))
    rw [decide_eq_true_eq] at hused
    exact Nat.pos_of_ne_zero hused
  · intro hn i hi
    have hused := hn i (h.mem_iff.mp (List.mem_reverse.mp hi))
    rw [decide_eq_true_eq]
    exact Nat.pos_iff_ne_zero.mp hused

theorem recycle_cases (h : Listed s bs) (dev blockno : UInt32) :
    ∃ o t,s.recycle dev blockno=.ok (o,t) ∧ Listed t bs ∧
      Counted s t (.recycle dev blockno) := by
  cases hu : unused s bs with
  | none =>
    exact ⟨_,_,h.recycle_none hu dev blockno,h,.inl ⟨rfl,h.unused_none_iff.mp hu⟩⟩
  | some b =>
    refine ⟨_,_,h.recycle_some hu dev blockno,h.set rfl rfl rfl,.inr ?_⟩
    have hzero : s.refcnts b=0 := by
      have hpass := List.find?_some hu
      exact of_decide_eq_true hpass
    have hlt : b<nbuf := h.mem_iff.mp (List.mem_reverse.mp (List.mem_of_find?_eq_some hu))
    refine ⟨b,hlt,hzero,?_,?_⟩
    · rw [BufLru.Holds,BufLru.set_self]
      exact ⟨rfl,rfl⟩
    · rw [BufLru.refcnts_set]
      exact congrArg (Function.update s.refcnts b) (congrArg (·+1) hzero)

end Listed

section Move

variable {s : BufLru} {ys zs : List ℕ} {y b : ℕ}

/-- What the pointers of an entry behind the first one are. -/
theorem neighbours (h : Ring s.links none ((y::ys++b::zs).map some)) :
    s.head=some y ∧ y≠b ∧ (∃ p,(s.inner b).prev=some p ∧ p≠b) ∧
      (((s.inner b).next=none ∧ s.tail=some b) ∨
        ∃ n,(s.inner b).next=some n ∧ n≠b ∧ s.tail≠some b) := by
  have hnd : (y::ys++b::zs).Nodup := by
    have := (List.nodup_cons.mp h.nodup).2
    exact List.Nodup.of_map some this
  rw [List.nodup_append] at hnd
  obtain ⟨-,hbz,hapart⟩ := hnd
  have hb := (List.nodup_cons.mp hbz).1
  have hbefore : ∀ p∈y::ys,p≠b := fun p hp => hapart p hp b List.mem_cons_self
  have hchain := h.chain
  rw [List.map_append,List.map_cons,List.map_cons] at hchain
  obtain ⟨h1,h2⟩ := chain_append.mp hchain
  refine ⟨h1.1,hbefore y List.mem_cons_self,?_,?_⟩
  · have hm := h1.2.2.prev_mem
    rw [←List.map_cons,List.mem_map] at hm
    obtain ⟨p,hp,he⟩ := hm
    exact ⟨p,he.symm,hbefore p hp⟩
  · cases zs with
    | nil => exact .inl ⟨h2.1,h2.2⟩
    | cons z zs =>
      right
      refine ⟨z,h2.1,fun e => hb (e ▸ List.mem_cons_self),?_⟩
      have hm := h2.2.2.prev_mem
      rw [←List.map_cons,List.mem_map] at hm
      obtain ⟨p,hp,he⟩ := hm
      intro ht
      have hpb : some p=some b := he.trans ht
      rw [Option.some_inj] at hpb
      exact hb (hpb ▸ hp)

theorem links_setPrev (i : ℕ) (p : Option ℕ) :
    (s.setPrev i p).links={s.links with prev := Function.update s.links.prev (some i) p} := by
  rw [BufLru.links,BufLru.links,BufLru.setPrev]
  congr 1
  · funext q
    cases q with
    | none => simp [BufLru.set]
    | some j =>
      by_cases e : j=i
      · simp [e]
      · simp [e]
  · funext q
    cases q with
    | none => rfl
    | some j =>
      by_cases e : j=i
      · simp [e]
      · simp [e]

theorem links_setNext (i : ℕ) (p : Option ℕ) :
    (s.setNext i p).links={s.links with next := Function.update s.links.next (some i) p} := by
  rw [BufLru.links,BufLru.links,BufLru.setNext]
  congr 1
  · funext q
    cases q with
    | none => rfl
    | some j =>
      by_cases e : j=i
      · simp [e]
      · simp [e]
  · funext q
    cases q with
    | none => simp [BufLru.set]
    | some j =>
      by_cases e : j=i
      · simp [e]
      · simp [e]

theorem links_head (p : Option ℕ) :
    ({s with head := p} : BufLru).links=
      {s.links with next := Function.update s.links.next none p} := by
  rw [BufLru.links,BufLru.links]
  congr 1
  funext q
  cases q with
  | none => simp
  | some j => simp

theorem links_tail (p : Option ℕ) :
    ({s with tail := p} : BufLru).links=
      {s.links with prev := Function.update s.links.prev none p} := by
  rw [BufLru.links,BufLru.links]
  congr 1
  funext q
  cases q with
  | none => simp
  | some j => simp

/-- The assignments of `move_if_no_ref` are a removal and an insertion after the head. -/
theorem moveToHead_links (h : Ring s.links none ((y::ys++b::zs).map some)) :
    (s.moveToHead b).links=(s.links.remove (some b)).push none (some b) := by
  obtain ⟨hy,hyb,⟨p,hp,hpb⟩,hn⟩ := neighbours h
  have hy' : s.links.next none=some y := hy
  have hp' : s.links.prev (some b)=some p := hp
  rcases hn with ⟨hn,ht⟩|⟨n,hn,hnb,ht⟩
  · have hn' : s.links.next (some b)=none := hn
    have hmove : s.moveToHead b={((((({s with tail := some p} : BufLru).setNext p none).setPrev b
        none).setNext b (some y)).setPrev y (some b)) with head := some b} := by
      simp [BufLru.moveToHead,BufLru.setPrevAt,BufLru.setNextAt,ht,hp,hn,hy]
    rw [hmove,links_head,links_setPrev,links_setNext,links_setPrev,links_setNext,links_tail]
    simp [Links.remove,Links.push,hy',hp',hn',Ne.symm hpb]
  · have hn' : s.links.next (some b)=some n := hn
    have hmove : s.moveToHead b={((((((s.setPrev n (some p)).setNext p (some n)).setPrev b
        none).setNext b (some y)).setPrev y (some b)) : BufLru) with head := some b} := by
      simp [BufLru.moveToHead,BufLru.setPrevAt,BufLru.setNextAt,ht,hp,hn,hy,Ne.symm hnb]
    rw [hmove,links_head,links_setPrev,links_setNext,links_setPrev,links_setNext,links_setPrev]
    simp [Links.remove,Links.push,hy',hp',hn',Ne.symm hpb]

/-- What the pointers of an entry are not. -/
def BufCtrl.rest (c : BufCtrl) : UInt32×UInt32×ℕ×ℕ := (c.dev,c.blockno,c.refcnt,c.index)

theorem setPrev_rest (s : BufLru) (i j : ℕ) (p : Option ℕ) :
    ((s.setPrev i p).inner j).rest=(s.inner j).rest := by
  rw [BufLru.setPrev]
  by_cases e : j=i
  · rw [e,BufLru.set_self]
    rfl
  · rw [BufLru.set_of_ne s _ e]

theorem setNext_rest (s : BufLru) (i j : ℕ) (p : Option ℕ) :
    ((s.setNext i p).inner j).rest=(s.inner j).rest := by
  rw [BufLru.setNext]
  by_cases e : j=i
  · rw [e,BufLru.set_self]
    rfl
  · rw [BufLru.set_of_ne s _ e]

theorem setPrevAt_rest (s : BufLru) (b p : Option ℕ) (j : ℕ) :
    ((s.setPrevAt b p).inner j).rest=(s.inner j).rest := by
  cases b with
  | none => rfl
  | some i => exact setPrev_rest s i j p

theorem setNextAt_rest (s : BufLru) (b p : Option ℕ) (j : ℕ) :
    ((s.setNextAt b p).inner j).rest=(s.inner j).rest := by
  cases b with
  | none => rfl
  | some i => exact setNext_rest s i j p

/-- Moving an entry changes pointers only. -/
theorem moveToHead_rest (s : BufLru) (i j : ℕ) :
    ((s.moveToHead i).inner j).rest=(s.inner j).rest := by
  dsimp only [BufLru.moveToHead]
  rw [setPrevAt_rest,setNext_rest,setPrev_rest,setNextAt_rest,setPrevAt_rest]
  split <;> rfl

/-- An entry behind the first one is moved to the front of the list. -/
theorem Listed.moveToHead {bs : List ℕ} (h : Listed s bs) (hb : b∈bs) (hne : s.head≠some b) :
    Listed (s.moveToHead b) (b::bs.erase b) := by
  obtain ⟨ys,zs,rfl⟩ := List.append_of_mem hb
  cases ys with
  | nil => exact absurd h.ring.next_head hne
  | cons y ys =>
    have hnd := h.nodup
    rw [List.nodup_append] at hnd
    have hout : b∉y::ys := fun hm => hnd.2.2 b hm b List.mem_cons_self rfl
    have herase : (y::ys++b::zs).erase b=y::ys++zs := by
      rw [List.erase_append_right _ hout,List.erase_cons_head]
    have hring := h.ring
    rw [List.map_append,List.map_cons] at hring
    constructor
    · rw [moveToHead_links h.ring,herase,List.map_cons,List.map_append]
      refine hring.remove.push ?_
      have hafter : b∉zs := (List.nodup_cons.mp hnd.2.1).1
      rw [←List.map_cons,←List.map_append,List.mem_cons,List.mem_map_of_injective (Option.some_injective ℕ),
        List.mem_append]
      rintro (he|hm|hm)
      · cases he
      · exact hout hm
      · exact hafter hm
    · exact (List.perm_cons_erase hb).symm.trans h.perm
    · intro j hj
      have hrest := moveToHead_rest s b j
      have hindex : ((s.moveToHead b).inner j).index=(s.inner j).index :=
        congrArg (fun r => r.2.2.2) hrest
      rw [hindex]
      exact h.index j hj

/-- A buffer the head points to is the first of the list. -/
theorem Listed.front {bs : List ℕ} (h : Listed s bs) (hb : b∈bs) (hh : s.head=some b) :
    bs=b::bs.erase b := by
  obtain ⟨ys,zs,rfl⟩ := List.append_of_mem hb
  cases ys with
  | nil => rw [List.nil_append,List.erase_cons_head]
  | cons y ys =>
    obtain ⟨hy,hyb,-⟩ := neighbours h.ring
    exact absurd (Option.some_inj.mp (hy.symm.trans hh)) hyb

/-- Moving an entry keeps the reference counts. -/
theorem moveToHead_refcnts (s : BufLru) (i : ℕ) : (s.moveToHead i).refcnts=s.refcnts := by
  funext j
  exact congrArg (fun r => r.2.2.1) (moveToHead_rest s i j)

/-- `move_if_no_ref` counts one reference less and, when that was the only one, has the
buffer at the front of the list. -/
theorem Listed.moveIfNoRef {bs : List ℕ} (h : Listed s bs) (hb : b<nbuf)
    (hr : 0<(s.inner b).refcnt) :
    ∃ t,s.moveIfNoRef b=.ok t ∧ Counted s t (.moveIfNoRef b) ∧
      Listed t (if (s.inner b).refcnt=1 then b::bs.erase b else bs) := by
  let counted := s.set b {s.inner b with refcnt := (s.inner b).refcnt-1}
  have hcounted : Listed counted bs := h.set rfl rfl rfl
  have hrefcnts : Counted s counted (.moveIfNoRef b) := s.refcnts_set b _
  have hmem : b∈bs := h.mem_iff.mpr hb
  have hzero : (counted.inner b).refcnt=0 ↔ (s.inner b).refcnt=1 := by
    rw [BufLru.set_self]
    dsimp only
    omega
  have hcall : s.moveIfNoRef b=.ok (if (counted.inner b).refcnt=0 ∧ counted.head≠some b
      then counted.moveToHead b else counted) := by
    rw [BufLru.moveIfNoRef,if_neg (not_le.mpr hb),if_neg (Nat.pos_iff_ne_zero.mp hr)]
  rw [hcall]
  by_cases hlast : (s.inner b).refcnt=1
  · rw [if_pos hlast]
    by_cases hhead : counted.head=some b
    · rw [if_neg (fun hc => hc.2 hhead),←hcounted.front hmem hhead]
      exact ⟨counted,rfl,hrefcnts,hcounted⟩
    · rw [if_pos ⟨hzero.mpr hlast,hhead⟩]
      refine ⟨_,rfl,?_,hcounted.moveToHead hmem hhead⟩
      exact (moveToHead_refcnts counted b).trans hrefcnts
  · rw [if_neg hlast,if_neg (fun hc => hlast (hzero.mp hc.1))]
    exact ⟨counted,rfl,hrefcnts,hcounted⟩

end Move

/-- The list of the buffers is in the order of their last drops. -/
structure Inv (s : Traced) (bs : List ℕ) : Prop where
  /-- The pointers. -/
  listed : Listed s.lru bs
  /-- What stands behind is older. -/
  order : bs.Pairwise fun i j => Older s.drops j i

/-- Other buffers keep their order when one loses its last reference. -/
theorem Older.cons {drops : List ℕ} {i j b : ℕ} (h : Older drops i j) (hi : i≠b) (hj : j≠b) :
    Older (b::drops) i j := by
  rcases h with h|⟨h1,h2,h3⟩
  · left
    rw [List.idxOf_cons_ne drops (Ne.symm hi),List.idxOf_cons_ne drops (Ne.symm hj)]
    exact Nat.succ_lt_succ h
  · right
    exact ⟨List.not_mem_cons_of_ne_of_not_mem hi h1,List.not_mem_cons_of_ne_of_not_mem hj h2,h3⟩

/-- Every other buffer is older than the one that has just lost its last reference. -/
theorem older_head {drops : List ℕ} {i b : ℕ} (hi : i≠b) : Older (b::drops) i b := by
  left
  rw [List.idxOf_cons_self,List.idxOf_cons_ne drops (Ne.symm hi)]
  exact Nat.succ_pos _

/-- Every call keeps the order and counts as it should. -/
theorem Inv.step {s t : Traced} {bs : List ℕ} {a : Action} (h : Inv s bs)
    (hs : step s a=.next t) : (∃ bs',Inv t bs') ∧ Counted s.lru t.lru a := by
  cases a with
  | findCached dev blockno =>
    rw [LruList.step] at hs
    rcases h.listed.findCached_cases dev blockno with he|⟨o,u,he,hl,hc⟩
    · rw [he] at hs
      cases hs
    · rw [he] at hs
      cases hs
      exact ⟨⟨bs,hl,h.order⟩,hc⟩
  | recycle dev blockno =>
    obtain ⟨o,u,he,hl,hc⟩ := h.listed.recycle_cases dev blockno
    rw [LruList.step,he] at hs
    cases hs
    exact ⟨⟨bs,hl,h.order⟩,hc⟩
  | moveIfNoRef b =>
    rw [LruList.step] at hs
    split at hs
    · rename_i hc
      obtain ⟨u,he,hcount,hl⟩ := h.listed.moveIfNoRef hc.1 hc.2
      rw [he] at hs
      cases hs
      refine ⟨⟨_,hl,?_⟩,hcount⟩
      dsimp only
      split
      · rw [List.pairwise_cons]
        have hother : ∀ i∈bs.erase b,i≠b := fun i hi => (h.listed.nodup.mem_erase_iff.mp hi).1
        refine ⟨fun i hi => older_head (hother i hi),?_⟩
        exact (h.order.sublist List.erase_sublist).imp_of_mem fun hi hj hold =>
          hold.cons (hother _ hj) (hother _ hi)
      · exact h.order
    · cases hs

/-- The only way a call stops is a reference count that overflows. -/
theorem Inv.fault {s : Traced} {bs : List ℕ} {a : Action} {e : Panic} (h : Inv s bs)
    (hs : LruList.step s a=.fault e) : e=.overflow := by
  cases a with
  | findCached dev blockno =>
    rw [LruList.step] at hs
    rcases h.listed.findCached_cases dev blockno with he|⟨o,u,he,-⟩
    · rw [he] at hs
      cases hs
      rfl
    · rw [he] at hs
      cases hs
  | recycle dev blockno =>
    obtain ⟨o,u,he,-⟩ := h.listed.recycle_cases dev blockno
    rw [LruList.step,he] at hs
    cases hs
  | moveIfNoRef b =>
    rw [LruList.step] at hs
    split at hs
    · rename_i hc
      obtain ⟨u,he,-⟩ := h.listed.moveIfNoRef hc.1 hc.2
      rw [he] at hs
      cases hs
    · cases hs

theorem inv_boot : Inv boot (List.range nbuf) := by
  constructor
  · constructor
    · exact ⟨by decide +kernel,by decide +kernel⟩
    · exact List.Perm.refl _
    · decide +kernel
  · exact (List.pairwise_lt_range).imp fun hlt => .inr ⟨List.not_mem_nil,List.not_mem_nil,hlt⟩

/-- The last unused buffer of the list is the oldest of them. -/
theorem Inv.unused_some {s : Traced} {bs : List ℕ} {b : ℕ} (h : Inv s bs)
    (hb : unused s.lru bs=some b) :
    b<nbuf ∧ (s.lru.inner b).refcnt=0 ∧
      ∀ j<nbuf,j≠b → (s.lru.inner j).refcnt=0 → Older s.drops b j := by
  rw [unused,List.find?_eq_some_iff_append] at hb
  obtain ⟨hzero,later,earlier,hsplit,hused⟩ := hb
  rw [decide_eq_true_eq] at hzero
  have hbs : bs=earlier.reverse++b::later.reverse := by
    rw [←List.reverse_reverse bs,hsplit,List.reverse_append,List.reverse_cons,List.append_assoc]
    rfl
  have hmem : ∀ j,j<nbuf ↔ j∈earlier.reverse++b::later.reverse := by
    intro j
    rw [←hbs]
    exact h.listed.mem_iff.symm
  have horder := h.order
  rw [hbs,List.pairwise_append] at horder
  refine ⟨(hmem b).mpr (List.mem_append_right _ List.mem_cons_self),hzero,?_⟩
  intro j hj hne hunused
  rcases List.mem_append.mp ((hmem j).mp hj) with hm|hm
  · exact horder.2.2 j hm b List.mem_cons_self
  · have hlater : j∈later := List.mem_reverse.mp (List.mem_of_ne_of_mem hne hm)
    have hno := hused j hlater
    rw [hunused] at hno
    cases hno

/-- What the order of the list says about `recycle`. -/
theorem Inv.leastRecentlyUsed {s : Traced} {bs : List ℕ} (h : Inv s bs) :
    LeastRecentlyUsed s := by
  have hl := h.listed
  constructor
  · exact ⟨bs,hl.perm,hl.walks⟩
  · intro dev blockno
    rw [←hl.unused_none_iff]
    constructor
    · rintro ⟨t,ht⟩
      cases hu : unused s.lru bs with
      | none => rfl
      | some b =>
        rw [hl.recycle_some hu] at ht
        cases ht
    · intro hu
      exact ⟨s.lru,hl.recycle_none hu dev blockno⟩
  · rintro dev blockno ⟨i,hi,hzero⟩
    cases hu : unused s.lru bs with
    | none =>
      have hused := hl.unused_none_iff.mp hu i hi
      omega
    | some b => exact ⟨b,_,hl.recycle_some hu dev blockno,h.unused_some hu⟩

/-- The list of the buffer cache. In every state reached from `binit` it is a list of all
buffers in both directions, and `recycle` finds the unused buffer that has been unused
for the longest time; every call counts references as it should, no call loops, and none
stops but for a reference count of 2^64. -/
theorem buffers_least_recently_used (actions : List Action) :
    (∀ e,run step boot actions=.fault e → e=.overflow) ∧
      ∀ s,run step boot actions=.next s → LeastRecentlyUsed s ∧
        ∀ a t,step s a=.next t → Counted s.lru t.lru a := by
  have hstep : ∀ s a t,(∃ bs,Inv s bs) → True → step s a=.next t → ∃ bs,Inv t bs :=
    fun s a t hi _ hs => hi.elim fun bs h => (h.step hs).1
  have hguard : Guarded step (fun _ _ => True) boot actions :=
    guarded_of_forall (fun _ _ => trivial) boot actions
  constructor
  · intro e he
    by_contra hne
    refine run_no_fault hstep (e:=e) ?_ ⟨_,inv_boot⟩ hguard he
    rintro s a ⟨bs,h⟩ - hs
    exact hne (h.fault hs)
  · intro s hs
    obtain ⟨bs,h⟩ := run_invariant hstep ⟨_,inv_boot⟩ hguard hs
    exact ⟨h.leastRecentlyUsed,fun a t ht => (h.step ht).2⟩

/-- All buffers are given to blocks; 5 is dropped and then 9, and 5 is the first that is
found again. -/
def reuses : List Action :=
  (List.range nbuf).map (fun n => .recycle 1 (.ofNat n))++
    [.findCached 1 0,.moveIfNoRef 5,.moveIfNoRef 9,.recycle 1 40,.moveIfNoRef 5]

/-- After the run 9 has been unused for longer than 5, and it is the next to be found. -/
theorem buffers_least_recently_used_reuses :
    ∃ s t,run step boot reuses=.next s ∧ LeastRecentlyUsed s ∧ s.drops=[5,9,5] ∧
      step s (.recycle 1 41)=.next t ∧ Counted s.lru t.lru (.recycle 1 41) ∧
      s.lru.refcnts 9=0 ∧ t.lru.refcnts 9=1 ∧ t.lru.Holds 1 41 9 := by
  have hrun : (run step boot reuses).test (fun s => decide (s.drops=[5,9,5] ∧
      s.lru.refcnts 9=0 ∧ (step s (.recycle 1 41)).test fun t =>
        decide (t.lru.refcnts 9=1 ∧ (t.lru.inner 9).dev=1 ∧ (t.lru.inner 9).blockno=41)))=true := by
    decide +kernel
  obtain ⟨s,hs,ht⟩ := Outcome.exists_of_test hrun
  obtain ⟨hdrops,hzero,hnext⟩ := of_decide_eq_true ht
  obtain ⟨t,ht,hfound⟩ := Outcome.exists_of_test hnext
  obtain ⟨hone,hblock⟩ := of_decide_eq_true hfound
  obtain ⟨hlru,hcounted⟩ := (buffers_least_recently_used reuses).2 s hs
  exact ⟨s,t,hs,hlru,hdrops,ht,hcounted _ t ht,hzero,hone,hblock⟩

end Xv6Rust.LruList

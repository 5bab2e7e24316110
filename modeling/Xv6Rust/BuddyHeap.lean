import Xv6Rust.Runs
import Xv6Rust.BuddyInit

/-!
# The kernel heap

The buddy system together with the pointers its callers hold. A caller may
allocate, give back a pointer it holds with the layout it asked for, and write
to the memory of such a pointer. Over every such history the blocks of the live
pointers and the reserved leaves determine the state of the allocator, so the
memory between the metadata and the end is always split between the callers and
the free lists, and comes back to its first state with the last pointer.
-/

namespace Xv6Rust.BuddyHeap

open DyadicBlocks IntrusiveList Kalloc BuddyShape BuddyCalls BuddyInit Runs

section Level

theorem nextPowerOfTwoLoop_spec (fuel n j : ℕ) (h : n≤2^j+fuel) (hj : j=0 ∨ 2^(j-1)<n) :
    ∃ q,nextPowerOfTwoLoop fuel n (2^j)=2^q ∧ n≤2^q ∧ (q=0 ∨ 2^(q-1)<n) := by
  induction fuel generalizing j with
  | zero => exact ⟨j,rfl,h,hj⟩
  | succ fuel ih =>
    rw [nextPowerOfTwoLoop]
    split
    · rename_i hlt
      have hpos := Nat.two_pow_pos j
      have hdouble : 2*2^j=2^(j+1) := by rw [Nat.pow_succ,Nat.mul_comm]
      rw [hdouble]
      exact ih (j+1) (by omega) (.inr hlt)
    · rename_i hge
      exact ⟨j,rfl,by omega,hj⟩

/-- The next power of two is the smallest one that is not less. -/
theorem nextPowerOfTwo_spec (n : ℕ) :
    ∃ q,nextPowerOfTwo n=2^q ∧ n≤2^q ∧ (q=0 ∨ 2^(q-1)<n) :=
  nextPowerOfTwoLoop_spec n n 0 (by omega) (.inl rfl)

theorem trailingZerosLoop_pow (fuel j : ℕ) (h : j<fuel) : trailingZerosLoop fuel (2^j)=j := by
  induction fuel generalizing j with
  | zero => omega
  | succ fuel ih =>
    rw [trailingZerosLoop]
    cases j with
    | zero => rfl
    | succ j =>
      have hhalf : 2^(j+1)/2=2^j := by
        rw [Nat.pow_succ]
        omega
      rw [if_pos (by rw [Nat.pow_succ]; omega),hhalf,ih j (by omega)]

theorem trailingZeros_pow (j : ℕ) : trailingZeros (2^j)=j :=
  trailingZerosLoop_pow _ j Nat.lt_two_pow_self

/-- The requested level is the lowest whose blocks hold the size. -/
theorem levelOf_le_iff {size k : ℕ} : BuddySystem.levelOf size≤k ↔ size≤blkSize k := by
  have hpos := Nat.two_pow_pos k
  rw [BuddySystem.levelOf,blkSize]
  split
  · rename_i hle
    refine ⟨fun _ => ?_,fun _ => Nat.zero_le k⟩
    rw [leafSize] at hle ⊢
    omega
  · rename_i hgt
    obtain ⟨q,hq,hle,hmin⟩ := nextPowerOfTwo_spec size
    rw [leafSize,Nat.not_le] at hgt
    have hq4 : 4<q := by
      by_contra hnot
      have hpow : 2^q≤2^4 := Nat.pow_le_pow_right (by decide) (by omega)
      omega
    obtain ⟨j,rfl⟩ : ∃ j,q=j+4 := ⟨q-4,by omega⟩
    have hdiv : 2^(j+4)/leafSize=2^j := by
      rw [Nat.pow_add]
      exact Nat.mul_div_cancel _ (by decide)
    rw [hq,hdiv,trailingZeros_pow]
    have hleaf : 2^k*leafSize=2^(k+4) := by
      rw [Nat.pow_add]
      rfl
    rw [hleaf]
    constructor
    · intro hjk
      exact hle.trans (Nat.pow_le_pow_right (by decide) (by omega))
    · intro hsize
      have hlt : 2^(j+4-1)<2^(k+4) := lt_of_lt_of_le (hmin.resolve_left (by omega)) hsize
      have hexp := (Nat.pow_lt_pow_iff_right (by decide)).mp hlt
      omega

end Level

/-- The buddy system and the pointers its callers hold, with their layouts. -/
structure Heap where
  /-- The allocator. -/
  system : BuddySystem
  /-- The live pointers. -/
  live : List (ℕ×Layout)

/-- What the callers of the heap do. -/
inductive Call where
  /-- `alloc`. -/
  | alloc (layout : Layout)
  /-- `dealloc` of a live pointer. -/
  | dealloc (ptr : ℕ) (layout : Layout)
  /-- Stores to the memory of a live pointer, given by what the memory reads as afterwards. -/
  | write (ptr : ℕ) (layout : Layout) (bits : ℕ → Bool) (links : Links ℕ)

/-- The allocator after stores to `size` bytes from `ptr`. -/
def overwrite (s : BuddySystem) (ptr size : ℕ) (bits : ℕ → Bool) (links : Links ℕ) :
    BuddySystem :=
  {s with
    bits := fun i => if 8*ptr ≤ i ∧ i<8*(ptr+size) then bits i else s.bits i
    links := ⟨fun a => if ptr≤a ∧ a<ptr+size then links.prev a else s.links.prev a,
      fun a => if ptr≤a ∧ a<ptr+size then links.next a else s.links.next a⟩}

/-- One call. Layouts have an alignment of at most a page, and only live pointers are given back or
written to. -/
def step (t : Heap) : Call → Outcome Panic Heap
  | .alloc layout =>
    if layout.align≤pageSize then
      match t.system.allocate layout with
      | .error e => .fault e
      | .ok (none,s) => .next ⟨s,t.live⟩
      | .ok (some ptr,s) => .next ⟨s,(ptr,layout)::t.live⟩
    else .blocked
  | .dealloc ptr layout =>
    if (ptr,layout)∈t.live then
      match t.system.dealloc ptr layout with
      | .error e => .fault e
      | .ok s => .next ⟨s,t.live.erase (ptr,layout)⟩
    else .blocked
  | .write ptr layout bits links =>
    if (ptr,layout)∈t.live then .next ⟨overwrite t.system ptr layout.size bits links,t.live⟩
    else .blocked

/-- Bytes of the block of a layout. -/
def blockBytes (layout : Layout) : ℕ := blkSize (BuddySystem.levelOf layout.size)

/-- Bytes of the blocks of the live pointers. -/
def liveBytes (live : List (ℕ×Layout)) : ℕ := (live.map fun x => blockBytes x.2).sum

/-- The free lists in memory, by the addresses of their blocks. -/
def Listed (s : BuddySystem) (free : ℕ → List ℕ) : Prop :=
  ∀ k,k < s.nsizes → Ring s.links (s.head k) (free k)

/-- Memory determines the free lists. -/
theorem Listed.unique {s : BuddySystem} {free free' : ℕ → List ℕ} (h : Listed s free)
    (h' : Listed s free') {k : ℕ} (hk : k < s.nsizes) : free k=free' k :=
  (h k hk).unique (h' k hk)

section Invariant

variable (s : BuddySystem)

/-- The block of a live pointer. -/
def blk (x : ℕ×Layout) : Blk :=
  ⟨BuddySystem.levelOf x.2.size,s.blkIndex (BuddySystem.levelOf x.2.size) x.1⟩

/-- The reserved leaves and the blocks of the live pointers. -/
def held (live : List (ℕ×Layout)) : Set Blk := reserved s∪{b | b∈live.map (blk s)}

theorem held_nil : held s []=reserved s := by simp [held]

theorem held_cons (x : ℕ×Layout) (live : List (ℕ×Layout)) :
    held s (x::live)=insert (blk s x) (held s live) := by
  ext b
  simp only [held,List.map_cons,List.mem_cons,Set.mem_union,Set.mem_ofPred_eq,Set.mem_insert_iff]
  rw [or_left_comm]

/-- A live pointer is the address of its block, which is not reserved. -/
structure Owned (x : ℕ×Layout) : Prop where
  /-- The size is positive. -/
  size : x.2.size≠0
  /-- The alignment is at most a page. -/
  align : x.2.align≤pageSize
  /-- The pointer is the address of its block. -/
  addr : x.1=s.blkAddr (blk s x).level (blk s x).index
  /-- The block is not reserved. -/
  free : blk s x∉reserved s

/-- Every state of the heap: the shape of the live blocks, with the bytes that `init` found
free. -/
structure Inv (total : ℕ) (t : Heap) : Prop where
  /-- The range is the one of `init`. -/
  same : Same s t.system
  /-- The allocator has the shape of the live blocks. -/
  shape : ∃ free,Shape (reserved s) t.system (held s t.live) free ∧
    freeBytes s.nsizes free+liveBytes t.live=total
  /-- The live pointers own their blocks. -/
  owned : ∀ x∈t.live,Owned s x
  /-- Different live pointers have different blocks. -/
  nodup : (t.live.map (blk s)).Nodup

variable {s}

/-- The block of a live pointer is apart from everything else that is held. -/
theorem Inv.apart {total : ℕ} {t : Heap} (h : Inv s total t) {x : ℕ×Layout}
    {live : List (ℕ×Layout)} (hl : t.live.Perm (x::live)) :
    held s t.live=insert (blk s x) (held s live) ∧ Apart (held s live) (blk s x) := by
  have heq : held s t.live=insert (blk s x) (held s live) := by
    rw [← held_cons,held,held]
    congr 1
    ext b
    exact (hl.map (blk s)).mem_iff
  obtain ⟨free,hshape,-⟩ := h.shape
  have hanti := hshape.antichain
  rw [heq] at hanti
  have hnd := (hl.map (blk s)).nodup_iff.mp h.nodup
  rw [List.map_cons,List.nodup_cons] at hnd
  have hx := h.owned x (hl.mem_iff.mpr List.mem_cons_self)
  have hnot : blk s x∉held s live := by
    rintro (hr|hm)
    · exact hx.free hr
    · exact hnd.1 hm
  refine ⟨heq,fun o ho => ?_⟩
  have hne : o≠blk s x := fun he => hnot (he ▸ ho)
  exact ⟨hanti (Set.mem_insert_of_mem _ ho) (Set.mem_insert _ _) hne,
    hanti (Set.mem_insert _ _) (Set.mem_insert_of_mem _ ho) hne.symm⟩

theorem reserved_subset_held (live : List (ℕ×Layout)) : reserved s⊆held s live :=
  Set.subset_union_left

theorem blk_blkAddr (layout : Layout) (j : ℕ) :
    blk s (s.blkAddr (BuddySystem.levelOf layout.size) j,layout)=
      ⟨BuddySystem.levelOf layout.size,j⟩ := by
  rw [blk,blkIndex_self]

/-- `alloc` keeps the invariant. -/
theorem alloc_inv {total : ℕ} {t : Heap} (h : Inv s total t) {layout : Layout}
    (ha : layout.align≤pageSize) :
    ∃ u,step t (.alloc layout)=.next u ∧ Inv s total u := by
  obtain ⟨free,hshape,hbytes⟩ := h.shape
  have hstep : step t (.alloc layout)=match t.system.allocate layout with
      | .error e => .fault e
      | .ok (none,s) => .next ⟨s,t.live⟩
      | .ok (some ptr,s) => .next ⟨s,(ptr,layout)::t.live⟩ := if_pos ha
  rcases allocate_spec hshape (reserved_subset_held _) ha with ⟨hnone,-⟩|
    ⟨j,v,free',hsome,hz,hsame,hap,hshape',hbytes'⟩
  · rw [hstep,hnone]
    exact ⟨t,rfl,h⟩
  · have haddr := h.same.blkAddr (BuddySystem.levelOf layout.size) j
    rw [haddr] at hsome
    have hblk := blk_blkAddr (s:=s) layout j
    rw [hstep,hsome]
    refine ⟨_,rfl,h.same.trans hsame,⟨free',?_,?_⟩,?_,?_⟩
    · rw [held_cons,hblk]
      exact hshape'
    · rw [h.same.nsizes] at hbytes'
      rw [liveBytes,List.map_cons,List.sum_cons,← liveBytes,blockBytes]
      dsimp only
      omega
    · intro x hx
      rcases List.mem_cons.mp hx with rfl|hx
      · refine ⟨hz,ha,by rw [hblk],fun hr => ?_⟩
        rw [hblk] at hr
        exact (hap _ (reserved_subset_held _ hr)).1 le_rfl
      · exact h.owned x hx
    · rw [List.map_cons,List.nodup_cons,hblk]
      exact ⟨fun hm => (hap _ (.inr hm)).1 le_rfl,h.nodup⟩

theorem liveBytes_perm {live live' : List (ℕ×Layout)} (h : live.Perm live') :
    liveBytes live=liveBytes live' := (h.map _).sum_eq

/-- A live pointer's block holds its layout. -/
theorem size_le_blk (x : ℕ×Layout) : x.2.size≤blkSize (blk s x).level :=
  levelOf_le_iff.mp (Nat.le_refl _)

/-- `dealloc` of a live pointer keeps the invariant. -/
theorem dealloc_inv {total : ℕ} {t : Heap} (h : Inv s total t) (hne : (reserved s).Nonempty)
    {ptr : ℕ} {layout : Layout} (hx : (ptr,layout)∈t.live) :
    ∃ u,step t (.dealloc ptr layout)=.next u ∧ Inv s total u := by
  have hperm := List.perm_cons_erase hx
  obtain ⟨heq,hap⟩ := h.apart hperm
  obtain ⟨free,hshape,hbytes⟩ := h.shape
  have hown := h.owned _ hx
  rw [heq] at hshape
  have hsize : layout.size≤blkSize (blk s (ptr,layout)).level := size_le_blk (ptr,layout)
  obtain ⟨v,free',hok,hsame,hshape',hbytes'⟩ :=
    dealloc_spec hshape (reserved_subset_held _) hne hap hsize
  have haddr : t.system.blkAddr (blk s (ptr,layout)).level (blk s (ptr,layout)).index=ptr := by
    rw [h.same.blkAddr]
    exact hown.addr.symm
  rw [haddr] at hok
  have hstep : step t (.dealloc ptr layout)=match t.system.dealloc ptr layout with
      | .error e => .fault e
      | .ok s => .next ⟨s,t.live.erase (ptr,layout)⟩ := if_pos hx
  rw [hstep,hok]
  refine ⟨_,rfl,h.same.trans hsame,⟨free',hshape',?_⟩,fun x hmem => ?_,?_⟩
  · rw [liveBytes_perm hperm,liveBytes,List.map_cons,List.sum_cons,← liveBytes] at hbytes
    rw [h.same.nsizes] at hbytes'
    change _=_+blockBytes layout at hbytes'
    dsimp only at hbytes ⊢
    omega
  · exact h.owned x (List.mem_of_mem_erase hmem)
  · exact h.nodup.sublist (List.erase_sublist.map _)

/-- The metadata end before a block that is not reserved. -/
theorem metaEnd_le_blkAddr {b : Blk} (hb : b ≤ root s) (hfree : ¬Occupied (reserved s) b) :
    s.metaEnd ≤ s.blkAddr b.level b.index := by
  by_contra hlt
  rw [blkAddr_eq,Nat.not_le] at hlt
  refine hfree ⟨⟨0,b.start⟩,⟨rfl,?_,.inl hlt⟩,start_le b⟩
  have hleaf := (leaf_le_iff.mp ((start_le b).trans hb)).2
  simpa [root,Blk.start] using hleaf

/-- Blocks of which none lies in the other have disjoint bytes. -/
theorem blkAddr_disjoint {b c : Blk} (h : ¬b ≤ c) (h' : ¬c≤b) :
    s.blkAddr b.level b.index+blkSize b.level ≤ s.blkAddr c.level c.index ∨
      s.blkAddr c.level c.index+blkSize c.level ≤ s.blkAddr b.level b.index := by
  have hb := Nat.two_pow_pos b.level
  have hc := Nat.two_pow_pos c.level
  rw [blkAddr_eq,blkAddr_eq,blkSize,blkSize,leafSize]
  by_contra hmeet
  have hor : b.start ≤ c.start ∧ c.start<b.start+2^b.level ∨
      c.start≤b.start ∧ b.start < c.start+2^c.level := by omega
  rcases hor with hin|hin
  · exact (le_or_le_of_meet hin ⟨Nat.le_refl _,by omega⟩).elim h h'
  · exact (le_or_le_of_meet ⟨Nat.le_refl _,by omega⟩ hin).elim h h'

section Live

variable {total : ℕ} {t : Heap} (h : Inv s total t) {x : ℕ×Layout} (hx : x∈t.live)

include h hx

theorem Inv.blk_le : blk s x ≤ root s := by
  obtain ⟨free,hshape,-⟩ := h.shape
  have hle := hshape.range (blk s x) (.inr (List.mem_map_of_mem hx))
  rwa [h.same.root] at hle

theorem Inv.blk_free : ¬Occupied (reserved s) (blk s x) := by
  rintro ⟨o,ho,hle⟩
  obtain ⟨-,hap⟩ := h.apart (List.perm_cons_erase hx)
  exact (hap o (reserved_subset_held _ ho)).1 hle

/-- A live block lies between the metadata and the end. -/
theorem Inv.inside (hs : Static (reserved s) s) :
    s.metaEnd≤x.1 ∧ x.1+blockBytes x.2 ≤ s.actualEnd := by
  have hle := h.blk_le hx
  have hfree := h.blk_free hx
  have haddr := (h.owned x hx).addr
  have h1 := metaEnd_le_blkAddr hle hfree
  have h2 := blkAddr_lt_actualEnd hs hle hfree
  rw [← haddr] at h1 h2
  exact ⟨h1,h2⟩

/-- Vacant blocks do not meet a live one. -/
theorem Inv.vacant_disjoint {c : Blk} (hc : Vacant (root s) (held s t.live) c) :
    x.1+blockBytes x.2 ≤ s.blkAddr c.level c.index ∨
      s.blkAddr c.level c.index+blkSize c.level≤x.1 := by
  obtain ⟨free,hshape,-⟩ := h.shape
  have hrange := hshape.range
  rw [h.same.root] at hrange
  have hap := hc.apart hshape.antichain hrange (blk s x) (.inr (List.mem_map_of_mem hx))
  have hdis := blkAddr_disjoint (s:=s) hap.1 hap.2
  rwa [← (h.owned x hx).addr] at hdis

end Live

/-- Stores above the metadata and beside the vacant blocks do not change the shape. -/
theorem overwrite_shape {R O : Set Blk} {v : BuddySystem} {free : ℕ → List ℕ}
    (h : Shape R v O free) (hp : Placed v) {ptr size : ℕ} (hlow : v.metaEnd≤ptr)
    (hfree : ∀ c,Vacant (root v) O c → ptr+size≤v.blkAddr c.level c.index ∨
      v.blkAddr c.level c.index+blkSize c.level≤ptr) (bits : ℕ → Bool) (links : Links ℕ) :
    Shape R (overwrite v ptr size bits links) O free := by
  have hbit : ∀ i,i<8*v.metaEnd → (overwrite v ptr size bits links).bits i=v.bits i :=
    fun i hi => if_neg (by omega)
  refine {
    toStatic := {h.toStatic with}
    reserved := h.reserved
    antichain := h.antichain
    range := h.range
    alloc := fun b hb => ?_
    split := fun b hb hl => ?_
    vacant := h.vacant
    nodup := h.nodup
    rings := h.rings.congr fun k hk a ha => ?_ }
  · rw [← h.alloc b hb]
    exact Eq.congr_left (hbit _ (hp.bits_lt hb).1)
  · rw [← h.split b hb hl]
    exact Eq.congr_left (hbit _ ((hp.bits_lt hb).2 hl))
  · have hout : ¬(ptr≤a ∧ a<ptr+size) := by
      rcases List.mem_cons.mp ha with rfl|ha
      · have hhead : v.head k<v.metaEnd := head_lt_metaEnd hk
        change ¬(ptr≤v.head k ∧ v.head k<ptr+size)
        omega
      · obtain ⟨i,hi,rfl⟩ := List.mem_map.mp ha
        have hdis := hfree ⟨k,i⟩ ((h.vacant k i hk).mp hi)
        have hpos := blkSize_pos k
        change ¬(ptr≤v.blkAddr k i ∧ v.blkAddr k i<ptr+size)
        dsimp only at hdis
        omega
    exact ⟨if_neg hout,if_neg hout⟩

/-- Stores to the memory of a live pointer keep the invariant. -/
theorem write_inv {total : ℕ} {t : Heap} (h : Inv s total t) (hs : Static (reserved s) s)
    (hp : Placed s) {ptr : ℕ} {layout : Layout} (hx : (ptr,layout)∈t.live) (bits : ℕ → Bool)
    (links : Links ℕ) :
    ∃ u,step t (.write ptr layout bits links)=.next u ∧ Inv s total u := by
  have hstep : step t (.write ptr layout bits links)=
      .next ⟨overwrite t.system ptr layout.size bits links,t.live⟩ := if_pos hx
  obtain ⟨hlow,-⟩ := h.inside hx hs
  obtain ⟨free,hshape,hbytes⟩ := h.shape
  have hsize : layout.size≤blockBytes layout := size_le_blk (s:=s) (ptr,layout)
  refine ⟨_,hstep,h.same.trans ⟨rfl,rfl,rfl,rfl,rfl⟩,⟨free,?_,hbytes⟩,h.owned,h.nodup⟩
  refine overwrite_shape hshape (hp.same h.same) ?_ (fun c hc => ?_) bits links
  · rw [metaEnd_congr h.same.base h.same.nsizes]
    exact hlow
  · rw [h.same.root] at hc
    have hdis := h.vacant_disjoint hx hc
    rw [h.same.blkAddr]
    dsimp only at hdis
    omega

/-- Every call that is admitted succeeds and keeps the invariant. -/
theorem step_inv {total : ℕ} {t : Heap} (h : Inv s total t) (hs : Static (reserved s) s)
    (hp : Placed s) (hne : (reserved s).Nonempty) (call : Call) :
    step t call=.blocked ∨ ∃ u,step t call=.next u ∧ Inv s total u := by
  cases call with
  | alloc layout =>
    by_cases ha : layout.align≤pageSize
    · exact .inr (alloc_inv h ha)
    · exact .inl (if_neg ha)
  | dealloc ptr layout =>
    by_cases hx : (ptr,layout)∈t.live
    · exact .inr (dealloc_inv h hne hx)
    · exact .inl (if_neg hx)
  | write ptr layout bits links =>
    by_cases hx : (ptr,layout)∈t.live
    · exact .inr (write_inv h hs hp hx bits links)
    · exact .inl (if_neg hx)

/-- No history of calls panics, and every state it reaches keeps the invariant. -/
theorem run_inv {total : ℕ} {t : Heap} (h : Inv s total t) (hs : Static (reserved s) s)
    (hp : Placed s) (hne : (reserved s).Nonempty) (calls : List Call) :
    (∀ e,run step t calls≠.fault e) ∧ ∀ u,run step t calls=.next u → Inv s total u := by
  have hg : Guarded step (fun _ _ => True) t calls := guarded_of_forall (fun _ _ => trivial) t calls
  have hstep : ∀ t a u,Inv s total t → True → step t a=.next u → Inv s total u := by
    intro t a u ht _ hu
    rcases step_inv ht hs hp hne a with hb|⟨u',hu',hinv⟩
    · rw [hb] at hu
      cases hu
    · rw [hu'] at hu
      cases hu
      exact hinv
  refine ⟨fun e => run_no_fault hstep (fun t a ht _ hf => ?_) h hg,fun u hu =>
    run_invariant hstep h hg hu⟩
  rcases step_inv ht hs hp hne a with hb|⟨u',hu',-⟩
  · rw [hb] at hf
    cases hf
  · rw [hu'] at hf
    cases hf

/-- A successful `init` starts the invariant. -/
theorem init_inv {s₀ : BuddySystem} {start stop : ℕ} (h : s₀.init start stop=.ok s) :
    ∃ free,Shape (reserved s) s (reserved s) free ∧ (reserved s).Nonempty ∧ pageSize∣s.base ∧
      Placed s ∧ Inv s (freeBytes s.nsizes free) ⟨s,[]⟩ := by
  obtain ⟨free,hshape,hne,hbase,hp⟩ := init_shape h
  refine ⟨free,hshape,hne,hbase,hp,Same.refl s,⟨free,?_,rfl⟩,?_,List.nodup_nil⟩
  · rw [held_nil]
    exact hshape
  · intro x hx
    cases hx

end Invariant

/-- Two ranges, given by address and bytes, do not meet. -/
def Clear (x y : ℕ×ℕ) : Prop := x.1+x.2≤y.1 ∨ y.1+y.2≤x.1

/-- The ranges of the live blocks. -/
def liveSpans (live : List (ℕ×Layout)) : List (ℕ×ℕ) := live.map fun x => (x.1,blockBytes x.2)

/-- The ranges of the blocks on the free lists. -/
def freeSpans (n : ℕ) (free : ℕ → List ℕ) : List (ℕ×ℕ) :=
  (List.range n).flatMap fun k => (free k).map fun a => (a,blkSize k)

section Spans

variable {s : BuddySystem} {total : ℕ} {t : Heap}

theorem liveSpans_pairwise (h : Inv s total t) : (liveSpans t.live).Pairwise Clear := by
  obtain ⟨free,hshape,-⟩ := h.shape
  have hnd : t.live.Pairwise fun x y => blk s x≠blk s y := List.pairwise_map.mp h.nodup
  refine List.pairwise_map.mpr (hnd.imp_of_mem fun {x y} hx hy hne => ?_)
  have hxm : blk s x∈held s t.live := .inr (List.mem_map_of_mem hx)
  have hym : blk s y∈held s t.live := .inr (List.mem_map_of_mem hy)
  have hdis := blkAddr_disjoint (s:=s) (hshape.antichain hxm hym hne)
    (hshape.antichain hym hxm hne.symm)
  rwa [← (h.owned x hx).addr,← (h.owned y hy).addr] at hdis

/-- Different vacant blocks have disjoint bytes. -/
theorem vacant_clear {O : Set Blk} {b c : Blk} (hb : Vacant (root s) O b)
    (hc : Vacant (root s) O c) (hne : b≠c) :
    Clear (s.blkAddr b.level b.index,blkSize b.level)
      (s.blkAddr c.level c.index,blkSize c.level) :=
  blkAddr_disjoint (fun hle => hne (hb.eq_of_le hc hle)) fun hle => hne (hc.eq_of_le hb hle).symm

theorem freeSpans_pairwise {R O : Set Blk} {free : ℕ → List ℕ} (h : Shape R s O free) :
    (freeSpans s.nsizes fun k => (free k).map (s.blkAddr k)).Pairwise Clear := by
  rw [freeSpans,List.pairwise_flatMap]
  constructor
  · intro k hk
    have hkn := List.mem_range.mp hk
    rw [List.map_map,List.pairwise_map]
    refine (h.nodup k hkn).imp_of_mem fun {i j} hi hj hne => ?_
    exact vacant_clear (b:=⟨k,i⟩) (c:=⟨k,j⟩) ((h.vacant k i hkn).mp hi) ((h.vacant k j hkn).mp hj)
      fun he => hne (congrArg Blk.index he)
  · refine List.pairwise_lt_range.imp_of_mem fun {k l} hk hl hlt x hx y hy => ?_
    have hkn := List.mem_range.mp hk
    have hln := List.mem_range.mp hl
    rw [List.map_map,List.mem_map] at hx hy
    obtain ⟨i,hi,rfl⟩ := hx
    obtain ⟨j,hj,rfl⟩ := hy
    exact vacant_clear (b:=⟨k,i⟩) (c:=⟨l,j⟩) ((h.vacant k i hkn).mp hi) ((h.vacant l j hln).mp hj)
      fun he => hlt.ne (congrArg Blk.level he)

/-- The blocks of the live pointers and of the free lists are pairwise disjoint. -/
theorem spans_pairwise (h : Inv s total t) {free : ℕ → List ℕ}
    (hshape : Shape (reserved s) t.system (held s t.live) free) :
    (liveSpans t.live++freeSpans s.nsizes fun k => (free k).map (s.blkAddr k)).Pairwise Clear := by
  have haddr : s.blkAddr=t.system.blkAddr := by
    funext k i
    exact (h.same.blkAddr k i).symm
  rw [List.pairwise_append]
  refine ⟨liveSpans_pairwise h,?_,?_⟩
  · have hfree := freeSpans_pairwise hshape
    rwa [h.same.nsizes,← haddr] at hfree
  · intro x hx y hy
    obtain ⟨x,hmem,rfl⟩ := List.mem_map.mp hx
    obtain ⟨k,hk,hy⟩ := List.mem_flatMap.mp hy
    rw [List.map_map,List.mem_map] at hy
    obtain ⟨i,hi,rfl⟩ := hy
    have hkn : k<t.system.nsizes := h.same.nsizes.symm ▸ List.mem_range.mp hk
    have hvac := (hshape.vacant k i hkn).mp hi
    rw [h.same.root] at hvac
    exact h.vacant_disjoint hmem hvac

/-- A power of two that is not larger divides the bytes of a block. -/
theorem align_dvd_blkSize {layout : Layout} {k : ℕ} (h : layout.align≤blkSize k) :
    layout.align∣blkSize k := by
  obtain ⟨j,hj⟩ := layout.align_pow
  have hpow : blkSize k=2^(k+4) := by
    rw [blkSize,Nat.pow_add]
    rfl
  rw [hj,hpow] at h ⊢
  exact Nat.pow_dvd_pow 2 ((Nat.pow_le_pow_iff_right (by decide)).mp h)

/-- A live pointer is aligned if the alignment divides the size. -/
theorem Owned.aligned {x : ℕ×Layout} (h : Owned s x) (hbase : pageSize∣s.base)
    (hdvd : x.2.align∣x.2.size) : x.2.align∣x.1 := by
  have hle : x.2.align≤x.2.size := Nat.le_of_dvd (Nat.pos_of_ne_zero h.size) hdvd
  have hblk := align_dvd_blkSize (hle.trans (size_le_blk (s:=s) x))
  have hpage : x.2.align∣pageSize := align_dvd_blkSize (k:=8) h.align
  rw [h.addr,BuddySystem.blkAddr]
  exact Nat.dvd_add (hpage.trans hbase) (Dvd.dvd.mul_left hblk _)

/-- The free lists of a shape, by address. -/
theorem listed {R O : Set Blk} {v : BuddySystem} {free : ℕ → List ℕ} (hsame : Same s v)
    (h : Shape R v O free) : Listed v fun k => (free k).map (s.blkAddr k) := by
  intro k hk
  have haddr : s.blkAddr k=v.blkAddr k := by
    funext i
    exact (hsame.blkAddr k i).symm
  dsimp only
  rw [haddr]
  exact h.rings.ring k hk

theorem freeBytes_map (n : ℕ) (free : ℕ → List ℕ) (f : ℕ → ℕ → ℕ) :
    freeBytes n (fun k => (free k).map (f k))=freeBytes n free := by
  simp [freeBytes]

theorem mem_map_blkAddr {k i : ℕ} {is : List ℕ} : s.blkAddr k i∈is.map (s.blkAddr k) ↔ i∈is := by
  refine ⟨fun hm => ?_,List.mem_map_of_mem⟩
  obtain ⟨j,hj,heq⟩ := List.mem_map.mp hm
  have hji := congrArg (s.blkIndex k) heq
  rw [blkIndex_self,blkIndex_self] at hji
  exact hji ▸ hj

/-- No two buddies are free. -/
theorem not_buddies {free : ℕ → List ℕ}
    (hshape : Shape (reserved s) t.system (held s t.live) free) (hne : (reserved s).Nonempty)
    {k i : ℕ} (hk : k<t.system.nsizes) (hi : i∈free k) : BuddySystem.buddyIndex i∉free k := by
  intro hbuddy
  have hvac := (hshape.vacant k i hk).mp hi
  have hvac' := (hshape.vacant k _ hk).mp hbuddy
  refine hvac.not_buddy (fun heq => ?_) hvac'
  obtain ⟨r,hr⟩ := hne
  have hmem := hshape.reserved hr
  exact hvac.free ⟨r,hmem,heq ▸ hshape.range r hmem⟩

/-- A null pointer for a positive size means that no large enough block is free. -/
theorem null_empty {O : Set Blk} {v u : BuddySystem} {free : ℕ → List ℕ}
    (h : Shape (reserved s) v O free) {layout : Layout} (hz : layout.size≠0)
    (hnone : v.allocate layout=.ok (none,u)) {k : ℕ} (hk : k<v.nsizes)
    (hsize : layout.size≤blkSize k) : free k=[] := by
  have ha : layout.align≤pageSize := by
    by_contra hgt
    rw [BuddySystem.allocate,if_neg hz,if_pos (by omega)] at hnone
    cases hnone
  rcases allocate_spec h h.reserved ha with ⟨-,hor⟩|⟨j,w,free',hsome,-⟩
  · exact hor.resolve_left hz k (levelOf_le_iff.mpr hsize) hk
  · rw [hsome] at hnone
    cases hnone

/-- The set of blocks determines the bits. -/
theorem bits_eq {R O : Set Blk} {v : BuddySystem} {free free' : ℕ → List ℕ} (hsame : Same s v)
    (h : Shape R v O free) (h' : Shape R s O free') {k i : ℕ} (hk : k < s.nsizes)
    (hi : i < s.nBlk k) :
    v.isAllocSet k i=s.isAllocSet k i ∧ (0<k → v.isSplitSet k i=s.isSplitSet k i) := by
  have hle : (⟨k,i⟩ : Blk) ≤ root s := le_root s (by rw [BuddySystem.maxSize]; omega) hi
  have hle' : (⟨k,i⟩ : Blk) ≤ root v := hsame.root.symm ▸ hle
  refine ⟨Bool.eq_iff_iff.mpr ?_,fun hpos => Bool.eq_iff_iff.mpr ?_⟩
  · exact (h.alloc ⟨k,i⟩ hle').trans (h'.alloc ⟨k,i⟩ hle).symm
  · exact (h.split ⟨k,i⟩ hle' hpos).trans (h'.split ⟨k,i⟩ hle hpos).symm

end Spans

/-- A heap of three pages. -/
def threePages : Except Panic BuddySystem := (uninit (fun _ => false) ⟨id,id⟩).init 4096 16384

/-- The live pointers after some calls on a heap. -/
def pointers (heap : Except Panic BuddySystem) (calls : List Call) : Option (List ℕ) :=
  match heap with
  | .error _ => none
  | .ok s =>
    match run step ⟨s,[]⟩ calls with
    | .next t => some (t.live.map Prod.fst)
    | _ => none

theorem pointers_eq_some {heap : Except Panic BuddySystem} {calls : List Call} {ptrs : List ℕ}
    (h : pointers heap calls=some ptrs) :
    ∃ s t,heap=.ok s ∧ run step ⟨s,[]⟩ calls=.next t ∧ t.live.map Prod.fst=ptrs := by
  unfold pointers at h
  split at h
  · cases h
  · rename_i s
    split at h
    · rename_i t ht
      injection h with h
      exact ⟨s,t,rfl,ht,h⟩
    · cases h

/-- Allocations of three sizes, stores to the page among them, and a larger request. -/
def mixedCalls : List Call :=
  [.alloc ⟨24,8,⟨3,rfl⟩⟩,.alloc ⟨4096,4096,⟨12,rfl⟩⟩,.alloc ⟨16,4,⟨2,rfl⟩⟩,
    .write 12288 ⟨4096,4096,⟨12,rfl⟩⟩ (fun _ => true) ⟨id,id⟩,.dealloc 5024 ⟨24,8,⟨3,rfl⟩⟩,
    .alloc ⟨100,4,⟨2,rfl⟩⟩]

/-- From a successful `init` no history of calls panics, and in every state it reaches each live
pointer has a block of at least its size between the metadata and the end and is aligned if its
size is a multiple of the alignment, and the blocks of the live pointers and of the free lists are
pairwise disjoint. -/
theorem heap_safe {s₀ s : BuddySystem} {start stop : ℕ} (h : s₀.init start stop=.ok s)
    (calls : List Call) :
    (∀ e,run step ⟨s,[]⟩ calls≠.fault e) ∧
      ∀ t,run step ⟨s,[]⟩ calls=.next t →
        (∀ x∈t.live,s.metaEnd≤x.1 ∧ x.1+blockBytes x.2 ≤ s.actualEnd ∧
          (x.2.align∣x.2.size → x.2.align∣x.1) ∧ x.2.size≤blockBytes x.2) ∧
        ∃ free,Listed t.system free ∧
          (liveSpans t.live++freeSpans s.nsizes free).Pairwise Clear := by
  obtain ⟨free₀,hshape₀,hne,hbase,hp,hinv⟩ := init_inv h
  obtain ⟨hsafe,hrun⟩ := run_inv hinv hshape₀.toStatic hp hne calls
  refine ⟨hsafe,fun t ht => ?_⟩
  have hinv' := hrun t ht
  refine ⟨fun x hx => ?_,?_⟩
  · obtain ⟨h1,h2⟩ := hinv'.inside hx hshape₀.toStatic
    exact ⟨h1,h2,fun hdvd => (hinv'.owned x hx).aligned hbase hdvd,size_le_blk (s:=s) x⟩
  · obtain ⟨free,hshape,-⟩ := hinv'.shape
    exact ⟨_,listed hinv'.same hshape,spans_pairwise hinv' hshape⟩

/-- The calls run on the heap of three pages, and the live blocks and free blocks are disjoint
in the end. -/
theorem heap_safe_mixedCalls : ∃ s t,threePages=.ok s ∧ run step ⟨s,[]⟩ mixedCalls=.next t ∧
    t.live.map Prod.fst=[5120,5056,12288] ∧ (∀ e,run step ⟨s,[]⟩ mixedCalls≠.fault e) ∧
    ∃ free,Listed t.system free ∧
      (liveSpans t.live++freeSpans s.nsizes free).Pairwise Clear := by
  have hrun : pointers threePages mixedCalls=some [5120,5056,12288] := by decide +kernel
  obtain ⟨s,t,hs,ht,hlive⟩ := pointers_eq_some hrun
  obtain ⟨hsafe,hreach⟩ := heap_safe hs mixedCalls
  exact ⟨s,t,hs,ht,hlive,hsafe,(hreach t ht).2⟩

/-- From a successful `init` every history of calls keeps the bytes of the free lists and of the
live blocks constant and leaves no two buddies free; a null pointer for a positive size means that
every list with large enough blocks is empty, and without live pointers the free lists, the alloc
bits and the split bits are those of `init`. -/
theorem heap_conserves {s₀ s : BuddySystem} {start stop : ℕ} (h : s₀.init start stop=.ok s)
    (calls : List Call) {t : Heap} (ht : run step ⟨s,[]⟩ calls=.next t) :
    ∃ free₀ free,Listed s free₀ ∧ Listed t.system free ∧
      freeBytes s.nsizes free+liveBytes t.live=freeBytes s.nsizes free₀ ∧
      (∀ k i,k < s.nsizes → s.blkAddr k i∈free k → s.blkAddr k (BuddySystem.buddyIndex i)∉free k) ∧
      (∀ layout u,layout.size≠0 → t.system.allocate layout=.ok (none,u) →
        ∀ k,k < s.nsizes → layout.size≤blkSize k → free k=[]) ∧
      (t.live=[] → (∀ k,k < s.nsizes → ∀ a,a∈free k ↔ a∈free₀ k) ∧
        ∀ k i,k < s.nsizes → i < s.nBlk k →
          t.system.isAllocSet k i=s.isAllocSet k i ∧
            (0<k → t.system.isSplitSet k i=s.isSplitSet k i)) := by
  obtain ⟨free₀,hshape₀,hne,hbase,hp,hinv⟩ := init_inv h
  have hinv' := (run_inv hinv hshape₀.toStatic hp hne calls).2 t ht
  obtain ⟨free,hshape,hbytes⟩ := hinv'.shape
  have hn := hinv'.same.nsizes
  refine ⟨_,_,listed (Same.refl s) hshape₀,listed hinv'.same hshape,?_,?_,?_,?_⟩
  · rw [freeBytes_map,freeBytes_map]
    exact hbytes
  · intro k i hk
    rw [mem_map_blkAddr,mem_map_blkAddr]
    exact not_buddies hshape hne (hn.symm ▸ hk)
  · intro layout u hz hnone k hk hsize
    rw [null_empty hshape hz hnone (hn.symm ▸ hk) hsize,List.map_nil]
  · intro hlive
    rw [hlive,held_nil] at hshape
    refine ⟨fun k hk a => ?_,fun k i hk hi => ?_⟩
    · rw [List.mem_map,List.mem_map]
      refine exists_congr fun i => and_congr_left fun _ => ?_
      rw [hshape.vacant k i (hn.symm ▸ hk),hshape₀.vacant k i hk,hinv'.same.root]
    · exact bits_eq hinv'.same hshape hshape₀ hk hi

/-- The pointers of the mixed calls given back, not in the order of their allocation. -/
def returnCalls : List Call :=
  [.dealloc 12288 ⟨4096,4096,⟨12,rfl⟩⟩,.dealloc 5120 ⟨100,4,⟨2,rfl⟩⟩,
    .dealloc 5056 ⟨16,4,⟨2,rfl⟩⟩]

/-- With the last pointer the free lists and the bits of the heap of three pages are those of
`init` again. -/
theorem heap_conserves_returnCalls : ∃ s t,threePages=.ok s ∧
    run step ⟨s,[]⟩ (mixedCalls++returnCalls)=.next t ∧ t.live=[] ∧
    ∃ free₀ free,Listed s free₀ ∧ Listed t.system free ∧
      (∀ k,k < s.nsizes → ∀ a,a∈free k ↔ a∈free₀ k) ∧
      ∀ k i,k < s.nsizes → i < s.nBlk k → t.system.isAllocSet k i=s.isAllocSet k i := by
  have hrun : pointers threePages (mixedCalls++returnCalls)=some [] := by decide +kernel
  obtain ⟨s,t,hs,ht,hlive⟩ := pointers_eq_some hrun
  have hnil : t.live=[] := List.map_eq_nil_iff.mp hlive
  obtain ⟨free₀,free,h1,h2,-,-,-,hback⟩ := heap_conserves hs _ ht
  obtain ⟨hlists,hbits⟩ := hback hnil
  exact ⟨s,t,hs,ht,hnil,free₀,free,h1,h2,hlists,fun k i hk hi => (hbits k i hk hi).1⟩

end Xv6Rust.BuddyHeap

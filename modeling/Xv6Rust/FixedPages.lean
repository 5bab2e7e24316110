import Xv6Rust.KernelStacks
import Xv6Rust.TableBudget

/-!
# The fixed mappings

Four formulas divide the top of the user's address space: the trampoline, `USYSCALL`, the trap frame
of a process by its `pid` and the trap frames of tasks by their `tid`; and two the top of the
kernel's: the stacks of processes by their place in the table and the stacks of tasks by their
`tid`. They are apart from each other, but that the trap frame of `pid` zero is `USYSCALL`, and zero
is the first `pid` that there is.
-/

namespace Xv6Rust.FixedPages

open Runs Results Paging PageTable UserMemory PageEffects UserUnmap TableBudget
open UserCopy (pageCount)
open PageWalk (Space Usize Aligned FreshAnswers)
open PageMap (Meets Shape binding)
open KernelStacks (Kernel Stage Action kernelStackSize kstackByPos kstackBottom
  kernelStackPositionByTid kernelHeapEnd StackPage BootPage HeapPage heapPages boot)

/-- `map_pages` of `Task::new` and `Task::from` reports `remap`. -/
def Remaps (pgt : PageTable) (m : Mem) (tid : ℕ) : Prop :=
  ∃ ppn heap v w,m.heap=ppn::heap ∧
    pgt.mapPages (m.zeroed heap ppn) (trapframeFromTid tid) pageSize ppn (flagR|||flagW)=
      .ok (v,w,.error .remap)

/-- The pages that are mapped are those of the kernel and the first ones of the user, of which
there are no more than pages were taken from the heap. -/
structure Low (pid free n : ℕ) (pgt : PageTable) (m : Mem) : Prop where
  /-- No others are mapped. -/
  bare : ∀ q,q<pages → ValidAt pgt q → q∈kernelPages pid ∨ q<n
  /-- Pages were taken for them. -/
  taken : n+m.heap.length ≤ free

section Growing

variable {pgt u : PageTable} {m m' : Mem} {pid free n k : ℕ}

/-- A new page table. -/
theorem low_fresh {tramp tf up : ℕ} (h : allocProcPagetable m tramp tf up pid=.ok (m',some u)) :
    Low pid m.heap.length 0 u m' := by
  obtain ⟨pgt,he,hb⟩ | ⟨he,-⟩ := allocProcPagetable_built h
  · cases he
    refine ⟨fun q hq hv => ?_,by have := hb.taken; omega⟩
    by_contra hout
    refine hb.laid.bare q hq (fun hin => hout ?_) hv
    exact (mem_laidPages.mp hin).symm.imp_right id
  · cases he

/-- One more page of the user is mapped. -/
theorem Low.page {heap : List ℕ} {ppn : ℕ} {data : ℕ → Page} {perm : PteFlag}
    (h : Low pid free n pgt m) (hm : m.heap=ppn::heap)
    (hr : pgt.mapPages ⟨heap,data⟩ (n*pageSize) pageSize ppn perm=.ok (u,m',.ok ())) :
    Low pid free (n+1) u m' := by
  obtain ⟨-,-,rfl,hpage,-⟩ | ⟨⟨e,he⟩,-⟩ := mapPages_cases (K:=∅) hr
  · refine ⟨fun q hq hv => ?_,?_⟩
    · by_cases e : q=n
      · exact .inr (by omega)
      · rw [ValidAt,hpage.other q hq e] at hv
        exact (h.bare q hq hv).imp_right fun hlt => by omega
    · have ht := h.taken
      rw [hm,List.length_cons] at ht
      rw [afterTables,List.length_drop]
      dsimp only
      omega
  · cases he

/-- The loop of `uvm_alloc`. -/
theorem Low.allocLoop {old : ℕ} (h : Low pid free k pgt m)
    (hr : pgt.allocLoop m old (k*pageSize) n=.ok (u,m',true)) : Low pid free (k+n) u m' := by
  induction n generalizing pgt m k with
  | zero =>
    cases hr
    exact h
  | succ n ih =>
    rw [PageTable.allocLoop] at hr
    split at hr
    · obtain ⟨r,-,hr⟩ := bind_eq_ok hr
      cases hr
    · rename_i ppn heap hm
      obtain ⟨⟨v,m1,w⟩,hmap,hr⟩ := bind_eq_ok hr
      cases w with
      | ok x =>
        dsimp only at hr
        rw [← Nat.succ_mul] at hr
        rw [show k+(n+1)=k+1+n by omega]
        exact ih (h.page hm hmap) hr
      | error e =>
        obtain ⟨r,-,hr⟩ := bind_eq_ok hr
        cases hr

/-- `uvm_alloc`. -/
theorem Low.alloc {old new size : ℕ} (h : Low pid free (pageCount old) pgt m)
    (hr : pgt.uvmAlloc m old new=.ok (u,m',some size)) : Low pid free (pageCount size) u m' := by
  rw [uvmAlloc] at hr
  split at hr
  · cases hr
    exact h
  · obtain ⟨⟨v,m1,done⟩,hloop,hr⟩ := bind_eq_ok hr
    cases done with
    | false => cases hr
    | true =>
      cases hr
      rename_i hlt
      have hle : pageCount old ≤ pageCount new := Nat.div_le_div_right (by omega)
      rw [pgRoundUp_pageCount,pgRoundUp_pageCount,← Nat.sub_mul,Nat.mul_div_cancel _ (by decide)]
        at hloop
      have hlow := h.allocLoop hloop
      rwa [Nat.add_sub_cancel' hle] at hlow

/-- The loop of `load` over the segments. -/
theorem Low.segments {segments : List (ℕ×ℕ)} {size size' : ℕ}
    (h : Low pid free (pageCount size) pgt m)
    (hr : loadSegments pgt m size segments=.ok (u,m',size',true)) :
    Low pid free (pageCount size') u m' := by
  induction segments generalizing pgt m size with
  | nil =>
    cases hr
    exact h
  | cons seg rest ih =>
    obtain ⟨vaddr,memsz⟩ := seg
    rw [loadSegments] at hr
    split at hr
    · cases hr
    split at hr
    · cases hr
    · obtain ⟨⟨v,m1,w⟩,halloc,hr⟩ := bind_eq_ok hr
      cases w with
      | none => cases hr
      | some size1 => exact ih (h.alloc halloc) hr

/-- `load`. -/
theorem Low.load {img : Image} {size : ℕ} (h : Low pid free 0 pgt m)
    (hr : loadImage pgt m img pid=.ok (m',some (u,size))) : ∃ n,Low pid free n u m' := by
  obtain ⟨⟨u1,m1,size1,done⟩,hseg,hr⟩ := bind_eq_ok hr
  dsimp only at hr
  split at hr
  · obtain ⟨m2,-,hr⟩ := bind_eq_ok hr
    cases hr
  · rename_i hdone
    obtain rfl : done=true := by
      cases done
      · exact absurd rfl hdone
      · rfl
    have hstart : Low pid free (pageCount 0) pgt m := h
    have hlow := hstart.segments hseg
    obtain ⟨⟨u2,m2,w⟩,halloc,hr⟩ := bind_eq_ok hr
    cases w with
    | none =>
      obtain ⟨m3,-,hr⟩ := bind_eq_ok hr
      cases hr
    | some size2 =>
      obtain ⟨u3,hguards,hr⟩ := bind_eq_ok hr
      split at hr
      · obtain ⟨m3,-,hr⟩ := bind_eq_ok hr
        cases hr
      · cases hr
        have hround : pageCount (pgRoundUp size1)=pageCount size1 := by
          rw [pgRoundUp_pageCount]
          simp only [pageCount,pageSize]
          omega
        rw [← hround] at hlow
        have hre : Rearranges ∅ ∅ u2 m' u m' := clearGuards_effect hguards
        have hlow2 := hlow.alloc halloc
        refine ⟨_,fun q hq hv => hlow2.bare q hq ?_,hlow2.taken⟩
        obtain hw | hz := hre.area q hq (Set.notMem_empty q)
        · rw [ValidAt,hw.isValid] at hv
          exact hv
        · rw [ValidAt,hz] at hv
          cases hv

/-- The loop of `uvm_copy`. -/
theorem Low.copyLoop {parent : PageTable} (h : Low pid free k pgt m)
    (hr : PageTable.copyLoop parent pgt m k n=.ok (u,m',true)) : ∃ n,Low pid free n u m' := by
  induction n generalizing pgt m k with
  | zero =>
    cases hr
    exact ⟨k,h⟩
  | succ n ih =>
    rw [PageTable.copyLoop] at hr
    split at hr
    · cases hr
    · rename_i pte hf
      split at hr
      · cases hr
        exact ⟨k,h⟩
      · rename_i ppn m1 hc
        obtain ⟨heap,hm,rfl⟩ := tryClone_eq_some hc
        obtain ⟨⟨v,m2,w⟩,hmap,hr⟩ := bind_eq_ok hr
        cases w with
        | ok x => exact ih (h.page hm hmap) hr
        | error e =>
          obtain ⟨r,-,hr⟩ := bind_eq_ok hr
          cases hr

end Growing

section Tasks

variable {pgt : PageTable} {m : Mem} {pid tid n : ℕ}

/-- The `tid` that the heap has pages for have trap frames. -/
theorem tidFits_of_lt (h : tid<heapPages+nproc) : TidFits tid := by
  simp only [heapPages,nproc] at h
  simp only [TidFits,nproc,trapframe,trampoline,maxva,pageSize]
  omega

/-- The trap frames of tasks are an odd number of pages from those of processes. -/
theorem trapframes_apart (hpid : PidFits pid) (h : tid<heapPages+nproc) :
    trapframeFromPid pid≠trapframeFromTid tid := by
  simp only [heapPages,nproc] at h
  simp only [PidFits,trapframe,trampoline,maxva,pageSize] at hpid
  simp only [trapframeFromPid,trapframeFromTid,nproc,trapframe,trampoline,maxva,pageSize]
  omega

/-- The four pages are apart. -/
theorem pages_apart (h0 : pid≠0) (hpid : PidFits pid) (h : tid<heapPages+nproc) :
    [trampoline,usyscall,trapframeFromPid pid,trapframeFromTid tid].Nodup := by
  have hframes := trapframes_apart hpid h
  have htid : trapframeFromTid tid<usyscall := by
    simp only [heapPages,nproc] at h
    simp only [trapframeFromTid,usyscall,nproc,trapframe,trampoline,maxva,pageSize]
    omega
  have hframe : trapframeFromPid pid<usyscall := by
    simp only [trapframeFromPid,usyscall,trapframe,trampoline,maxva,pageSize]
    omega
  have htop : usyscall<trampoline := by decide
  simp only [List.nodup_cons,List.mem_cons,List.not_mem_nil,or_false,not_or,not_false_iff,
    List.nodup_nil,and_true]
  exact ⟨⟨htop.ne',(hframe.trans htop).ne',(htid.trans htop).ne'⟩,⟨hframe.ne',htid.ne'⟩,hframes⟩

/-- Trap frames of tasks are apart from the pages of the kernel and the first pages of the user. -/
theorem taskPage_free (h0 : pid≠0) (hpid : PidFits pid) (h : tid<heapPages+nproc) :
    taskPage tid∉kernelPages pid ∧ heapPages ≤ taskPage tid := by
  have hfit := trapframeFromTid_aligned (tidFits_of_lt h)
  have hne := pages_apart h0 hpid h
  simp only [List.nodup_cons,List.mem_cons,List.not_mem_nil,or_false,not_or] at hne
  constructor
  · intro hin
    simp only [kernelPages,Finset.mem_insert,Finset.mem_singleton] at hin
    obtain e | e | e := hin
    · rw [← hfit,e,trampoline_aligned] at hne
      exact hne.1.2.2 rfl
    · rw [← hfit,e,trapframeFromPid_aligned hpid] at hne
      exact hne.2.2.1 rfl
    · rw [← hfit,e,usyscallPage,usyscall_aligned] at hne
      exact hne.2.1.2 rfl
  · simp only [heapPages,nproc] at h
    simp only [heapPages,taskPage,trapframeFromTid,nproc,trapframe,trampoline,maxva,pageSize]
    omega

/-- A page that is not mapped is not mapped again. -/
theorem not_remaps (ht : tid<heapPages+nproc) (h : ¬ValidAt pgt (taskPage tid)) :
    ¬Remaps pgt m tid := by
  rintro ⟨ppn,heap,v,w,-,hr⟩
  rw [← trapframeFromTid_aligned (tidFits_of_lt ht),mapPages_page] at hr
  split at hr
  · cases hr
  split at hr
  · cases hr
  split at hr
  · cases hr
  split at hr
  · rename_i hv
    exact h hv
  · cases hr

/-- A page table with few pages of the user has room for the trap frame of a task. -/
theorem Low.not_remaps {free : ℕ} {m' : Mem} (hlow : Low pid free n pgt m) (hfree : free ≤ heapPages)
    (h0 : pid≠0) (hpid : PidFits pid) (ht : tid<heapPages+nproc) : ¬Remaps pgt m' tid := by
  obtain ⟨hkernel,hle⟩ := taskPage_free h0 hpid ht
  refine FixedPages.not_remaps ht fun hv => ?_
  have hlt : taskPage tid<pages := by
    rw [taskPage,Nat.div_lt_iff_lt_mul (by decide)]
    exact lt_of_le_of_lt (Nat.sub_le ..) (by decide)
  obtain hin | hin := hlow.bare _ hlt hv
  · exact hkernel hin
  · have := hlow.taken
    omega

end Tasks

/-- `alloc_proc_pagetable` returns, and fails only where the heap has too few pages for the
tables. -/
def OnlyMemoryFails (pid : ℕ) : Prop :=
  ∀ m tramp tf up,∃ m' r,allocProcPagetable m tramp tf up pid=.ok (m',r) ∧
    (r=none → m.heap.length<need pid 0)

/-- It does so exactly if the `pid` is not zero and its trap frame has an address. -/
theorem onlyMemoryFails_iff (pid : ℕ) : OnlyMemoryFails pid ↔ pid≠0 ∧ PidFits pid := by
  constructor
  · intro h
    obtain ⟨m',r,hr,hfail⟩ := h ⟨List.replicate (need pid 0) 0,fun _ _ => 0⟩ 0 0 0
    obtain ⟨pgt,-,hb⟩ | ⟨hnone,-⟩ := allocProcPagetable_built hr
    · exact ⟨hb.room.pos.ne',hb.room.fits⟩
    · have hlt := hfail hnone
      rw [List.length_replicate] at hlt
      exact absurd hlt (lt_irrefl _)
  · rintro ⟨h0,hpid⟩ m tramp tf up
    obtain ⟨m',r,hr,-,hcases⟩ | ⟨hno,-⟩ := allocProcPagetable_laid m tramp tf up pid
    · refine ⟨m',r,hr,fun hnone => ?_⟩
      obtain ⟨pgt,rfl,-⟩ | ⟨-,hroom⟩ := hcases
      · cases hnone
      · by_contra hlt
        refine hroom ⟨Nat.pos_of_ne_zero h0,hpid,?_,not_lt.mp hlt⟩
        rw [Nat.zero_mul]
        exact Nat.zero_le _
    · exact absurd hpid hno

/-- Whose a kernel stack is. -/
inductive Owner where
  /-- A process, by its place in the table. -/
  | process (pos : ℕ)
  /-- A task. -/
  | task (tid : ℕ)

/-- The bottom of a kernel stack. -/
def Owner.bottom : Owner → ℕ
  | .process pos => kstackByPos pos
  | .task tid => kstackBottom tid

/-- Stacks are numbered from the trampoline down. -/
def Owner.number : Owner → ℕ
  | .process pos => pos+1
  | .task tid => tid+4+nproc

/-- There is such a process, or such a `tid` was given out. -/
def InUse (s : Kernel) : Owner → Prop
  | .process pos => pos<nproc
  | .task tid => tid < s.tids.current

/-- The process that a step is for. -/
def slotOf : Action → ℕ
  | .alloc i => i
  | .page i _ => i
  | .map i _ => i
  | .drop i => i

/-- The kernel's page table maps no more than what is mapped at boot and stacks of `tid` that were
given out, and each of these has a block of pages or a process that asks for one. -/
structure Inv (etext : ℕ) (s : Kernel) : Prop where
  /-- The table is well formed. -/
  shape : ∃ path,Shape s.space path
  /-- What is mapped. -/
  bound : ∀ v,v < maxva/pageSize → binding s.space v≠none →
    BootPage etext v ∨ ∃ tid,tid < s.tids.current ∧ StackPage tid v
  /-- Who has the `tid` that were given out. -/
  given : ∀ tid,tid < s.tids.current →
    (∃ pa,(tid,pa)∈s.blocks) ∨ ∃ i,i<nproc ∧ s.tasks i=.named tid
  /-- Those that are named were given out. -/
  named : ∀ i tid,s.tasks i=.named tid → tid < s.tids.current
  /-- So were those with a block. -/
  backed : ∀ i tid pa,s.tasks i=.backed tid pa → (tid,pa)∈s.blocks ∧ tid < s.tids.current
  /-- And those that were given back. -/
  recycled : ∀ tid∈s.tids.recycled,tid < s.tids.current
  /-- Blocks are given once. -/
  nodup : (s.blocks.map Prod.snd).Nodup
  /-- They are in the heap. -/
  heap : ∀ x∈s.blocks,HeapPage x.2

section Steps

variable {etext : ℕ} {s t : Kernel}

/-- The `tid` that a task waits with for its block. -/
def waiting : Stage → Option ℕ
  | .named tid => some tid
  | _ => none

/-- There are no more `tid` than pages of the heap and processes. -/
theorem Inv.lt (h : Inv etext s) {tid : ℕ} (ht : tid < s.tids.current) : tid<heapPages+nproc := by
  have hsub : List.range s.tids.current⊆
      s.blocks.map Prod.fst++(List.range nproc).filterMap fun i => waiting (s.tasks i) := by
    intro k hk
    rw [List.mem_append]
    obtain ⟨pa,hpa⟩ | ⟨i,hi,hname⟩ := h.given k (List.mem_range.mp hk)
    · exact .inl (List.mem_map.mpr ⟨_,hpa,rfl⟩)
    · refine .inr (List.mem_filterMap.mpr ⟨i,List.mem_range.mpr hi,?_⟩)
      rw [hname]
      rfl
  have hle := (List.nodup_range.subperm hsub).length_le
  have hblocks := KernelStacks.blocks_length h.nodup h.heap
  have hwait := List.length_filterMap_le (fun i => waiting (s.tasks i)) (List.range nproc)
  rw [List.length_append,List.length_map,List.length_range] at hle
  rw [List.length_range] at hwait
  omega

/-- What `tid_alloc` returns was given out before or is the next one. -/
theorem tidAlloc_spec (tids : KernelStacks.RecycleAllocator)
    (h : ∀ tid∈tids.recycled,tid<tids.current) :
    tids.current ≤ tids.tidAlloc.2.current ∧ tids.tidAlloc.1<tids.tidAlloc.2.current ∧
      (∀ k,k<tids.tidAlloc.2.current → k<tids.current ∨ k=tids.tidAlloc.1) ∧
      ∀ k∈tids.tidAlloc.2.recycled,k<tids.tidAlloc.2.current := by
  unfold KernelStacks.RecycleAllocator.tidAlloc
  cases hr : tids.recycled with
  | nil =>
    refine ⟨Nat.le_succ _,Nat.lt_succ_self _,fun k hk => Nat.lt_succ_iff_lt_or_eq.mp hk,fun k hk => ?_⟩
    dsimp only at hk
    cases hk
  | cons tid rest =>
    have hmem : tid∈tids.recycled := by
      rw [hr]
      exact List.mem_cons_self
    refine ⟨le_rfl,h tid hmem,fun k hk => .inl hk,fun k hk => h k ?_⟩
    rw [hr]
    exact List.mem_cons_of_mem _ hk

/-- A process asks for a `tid`. -/
theorem Inv.alloc (h : Inv etext s) {i : ℕ} (hi : i<nproc) (habsent : s.tasks i=.absent) :
    Inv etext {s.put i (.named s.tids.tidAlloc.1) with tids := s.tids.tidAlloc.2} := by
  obtain ⟨hle,hlt,hnew,hrec⟩ := tidAlloc_spec s.tids h.recycled
  have hother : ∀ j,j≠i → (s.put i (.named s.tids.tidAlloc.1)).tasks j=s.tasks j := fun j hj =>
    Function.update_of_ne hj ..
  have hself : (s.put i (.named s.tids.tidAlloc.1)).tasks i=.named s.tids.tidAlloc.1 :=
    Function.update_self ..
  refine ⟨h.shape,fun v hv hb => ?_,fun k hk => ?_,fun j k hj => ?_,fun j k pa hj => ?_,hrec,
    h.nodup,h.heap⟩
  · obtain hboot | ⟨k,hk,hkv⟩ := h.bound v hv hb
    · exact .inl hboot
    · exact .inr ⟨k,hk.trans_le hle,hkv⟩
  · obtain hk | rfl := hnew k hk
    · obtain hblock | ⟨j,hj,hname⟩ := h.given k hk
      · exact .inl hblock
      · refine .inr ⟨j,hj,?_⟩
        refine (hother j fun e => ?_).trans hname
        rw [e,habsent] at hname
        cases hname
    · exact .inr ⟨i,hi,hself⟩
  · by_cases e : j=i
    · rw [e] at hj
      cases hself.symm.trans hj
      exact hlt
    · exact (h.named j k ((hother j e).symm.trans hj)).trans_le hle
  · by_cases e : j=i
    · rw [e] at hj
      cases hself.symm.trans hj
    · obtain ⟨hblock,hk⟩ := h.backed j k pa ((hother j e).symm.trans hj)
      exact ⟨hblock,hk.trans_le hle⟩

/-- A task moves on, and leaves no `tid` without a block. -/
theorem Inv.put (h : Inv etext s) (i : ℕ) (stage : Stage)
    (hkeep : ∀ tid,s.tasks i=.named tid → ∃ pa,(tid,pa)∈s.blocks)
    (hnamed : ∀ tid,stage≠.named tid)
    (hbacked : ∀ tid pa,stage=.backed tid pa → (tid,pa)∈s.blocks ∧ tid < s.tids.current) :
    Inv etext (s.put i stage) := by
  have hother : ∀ j,j≠i → (s.put i stage).tasks j=s.tasks j := fun j hj =>
    Function.update_of_ne hj ..
  have hself : (s.put i stage).tasks i=stage := Function.update_self ..
  refine ⟨h.shape,h.bound,fun k hk => ?_,fun j k hj => ?_,fun j k pa hj => ?_,h.recycled,h.nodup,
    h.heap⟩
  · obtain hblock | ⟨j,hj,hname⟩ := h.given k hk
    · exact .inl hblock
    · by_cases e : j=i
      · rw [e] at hname
        exact .inl (hkeep k hname)
      · exact .inr ⟨j,hj,(hother j e).trans hname⟩
  · by_cases e : j=i
    · rw [e,hself] at hj
      exact absurd hj (hnamed k)
    · exact h.named j k ((hother j e).symm.trans hj)
  · by_cases e : j=i
    · rw [e,hself] at hj
      exact hbacked k pa hj
    · exact h.backed j k pa ((hother j e).symm.trans hj)

/-- A task gets a block of pages. -/
theorem Inv.block (h : Inv etext s) {tid : ℕ} {pa : Usize} (hheap : HeapPage pa)
    (hnew : pa∉s.blocks.map Prod.snd) : Inv etext {s with blocks := (tid,pa)::s.blocks} where
  shape := h.shape
  bound := h.bound
  given k hk := by
    obtain ⟨pa',hblock⟩ | hname := h.given k hk
    · exact .inl ⟨pa',List.mem_cons_of_mem _ hblock⟩
    · exact .inr hname
  named := h.named
  backed j k pa' hj := ⟨List.mem_cons_of_mem _ (h.backed j k pa' hj).1,(h.backed j k pa' hj).2⟩
  recycled := h.recycled
  nodup := List.nodup_cons.mpr ⟨hnew,h.nodup⟩
  heap x hx := by
    obtain rfl | hx := List.mem_cons.mp hx
    · exact hheap
    · exact h.heap x hx

/-- A stack is mapped. -/
theorem Inv.map (h : Inv etext s) {i tid : ℕ} {pa : Usize} (hi : s.tasks i=.backed tid pa)
    {space : Space} {answers : PageWalk.Answers} (hf : FreshAnswers s.space answers)
    (hm : PageWalk.mapPages s.space (kstackBottom tid) kernelStackSize pa (flagR|||flagW) answers=
      .ok (space,.ok ())) : Inv etext {s with space := space,mapped := s.mapped+1} := by
  obtain ⟨hblock,htid⟩ := h.backed i tid pa hi
  obtain ⟨hshape,hbind⟩ := KernelStacks.mapPages_stack h.shape hf (h.heap _ hblock).1 hm
  refine ⟨hshape,fun v hv hb => ?_,h.given,h.named,h.backed,h.recycled,h.nodup,h.heap⟩
  by_cases hp : StackPage tid v
  · exact .inr ⟨tid,htid,hp⟩
  · rw [(hbind v hv).2 hp] at hb
    exact h.bound v hv hb

/-- `kvm_task_kstack_map` of a stack, which may be mapped or left alone. -/
theorem Inv.kvmMap (h : Inv etext s) {i tid : ℕ} {pa : Usize} (hi : s.tasks i=.backed tid pa)
    {answers : PageWalk.Answers} (hf : FreshAnswers s.space answers)
    (hm : KernelStacks.kvmTaskKstackMap s (kstackBottom tid) pa tid kernelStackSize (flagR|||flagW)
      answers=.ok t) : Inv etext t ∧ t.tasks=s.tasks := by
  rw [KernelStacks.kvmTaskKstackMap] at hm
  split at hm
  · split at hm
    · cases hm
    · cases hm
    · rename_i space hmap
      cases hm
      exact ⟨h.map hi hf hmap,rfl⟩
  · cases hm
    exact ⟨h,rfl⟩

/-- A `tid` is given back. -/
theorem Inv.giveBack (h : Inv etext s) {tid : ℕ} {tids : KernelStacks.RecycleAllocator}
    (hd : s.tids.tidDealloc tid=some tids) : Inv etext {s with tids := tids} := by
  rw [KernelStacks.RecycleAllocator.tidDealloc] at hd
  split at hd
  · rename_i hgiven
    cases hd
    refine ⟨h.shape,h.bound,h.given,h.named,h.backed,fun k hk => ?_,h.nodup,h.heap⟩
    obtain rfl | hk := List.mem_cons.mp hk
    · exact hgiven.1
    · exact h.recycled k hk
  · cases hd

/-- A step for a process of the table keeps the invariant. -/
theorem Inv.step {a : Action} (h : Inv etext s) (hslot : slotOf a<nproc)
    (hs : KernelStacks.step s a=.next t) : Inv etext t := by
  cases a with
  | alloc i =>
    rw [KernelStacks.step] at hs
    split at hs
    · rename_i habsent
      cases hs
      exact h.alloc hslot habsent
    · cases hs
  | page i pa =>
    rw [KernelStacks.step] at hs
    split at hs
    · rename_i tid hi
      split at hs
      · rename_i hpa
        cases hs
        have hmore : Inv etext {s with blocks := (tid,pa)::s.blocks} := h.block hpa.1 hpa.2
        have hput := hmore.put i (.backed tid pa)
          (fun k hk => by cases hi.symm.trans hk; exact ⟨pa,List.mem_cons_self⟩)
          (fun k e => by cases e)
          (fun k pa' e => by cases e; exact ⟨List.mem_cons_self,h.named i _ hi⟩)
        exact ⟨hput.shape,hput.bound,hput.given,hput.named,hput.backed,hput.recycled,hput.nodup,
          hput.heap⟩
      · cases hs
    · cases hs
  | map i answers =>
    rw [KernelStacks.step] at hs
    split at hs
    · rename_i tid pa hi
      split at hs
      · rename_i hf
        split at hs
        · cases hs
        · rename_i bottom top hpos
          split at hs
          · cases hs
          · rename_i u hmap
            cases hs
            have hbottom : bottom=kstackBottom tid := by
              rw [kernelStackPositionByTid] at hpos
              split at hpos
              · exact (Prod.mk.inj (Option.some.inj hpos)).1.symm
              · cases hpos
            rw [hbottom] at hmap
            obtain ⟨hu,htasks⟩ := h.kvmMap hi hf hmap
            refine hu.put i (.live tid) (fun k hk => ?_) (fun k e => by cases e)
              (fun k pa' e => by cases e)
            rw [htasks,hi] at hk
            cases hk
      · cases hs
    · cases hs
  | drop i =>
    rw [KernelStacks.step] at hs
    split at hs
    · rename_i tid hi
      split at hs
      · cases hs
      · rename_i tids hd
        cases hs
        exact (h.giveBack hd).put i .absent (fun k hk => by cases hi.symm.trans hk)
          (fun k e => by cases e) (fun k pa e => by cases e)
    · cases hs

/-- A run for processes of the table keeps the invariant. -/
theorem inv_run (etext : ℕ) {space : Space} (hspace : ∃ path,Shape space path)
    (hboot : ∀ v,v < maxva/pageSize → binding space v≠none → BootPage etext v) {as : List Action}
    (hslots : ∀ a∈as,slotOf a<nproc) (hrun : run KernelStacks.step (boot space) as=.next s) :
    Inv etext s := by
  have h0 : Inv etext (boot space) :=
    ⟨hspace,fun v hv hb => .inl (hboot v hv hb),fun _ hk => absurd hk (Nat.not_lt_zero _),
      (fun _ _ e => by cases e),(fun _ _ _ e => by cases e),(fun _ hk => by cases hk),
      List.nodup_nil,(fun _ hx => by cases hx)⟩
  have hguard : Guarded KernelStacks.step (fun _ a => slotOf a<nproc) (boot space) as :=
    guarded_of_mem (fun a ha _ => hslots a ha) _
  exact run_invariant (fun _ _ _ h hc hs => h.step hc hs) h0 hguard hrun

end Steps

section Stacks

variable {etext v : ℕ} {s : Kernel} {x y : Owner}

theorem Owner.bottom_eq (x : Owner) :
    x.bottom=trampoline-x.number*(kernelStackSize+pageSize) := by
  cases x <;> rfl

/-- The pages of a kernel stack. -/
theorem meets_bottom : Meets v x.bottom kernelStackSize ↔
    67108863-5*x.number ≤ v ∧ v<67108863-5*x.number+4 := by
  rw [Owner.bottom_eq]
  simp only [Meets,kernelStackSize,pageSize,trampoline,maxva]
  omega

/-- There are few kernel stacks. -/
theorem number_le (h : Inv etext s) (hx : InUse s x) : x.number ≤ 40000 := by
  cases x with
  | process pos =>
    simp only [InUse,nproc] at hx
    simp only [Owner.number]
    omega
  | task tid =>
    have hlt := h.lt hx
    simp only [heapPages,nproc] at hlt
    simp only [Owner.number,nproc]
    omega

/-- Each has a number of its own. -/
theorem number_inj (hx : InUse s x) (hy : InUse s y) (he : x.number=y.number) : x=y := by
  cases x <;> cases y <;> simp only [InUse,Owner.number,nproc] at hx hy he
  · rw [Nat.succ.inj he]
  · omega
  · omega
  · rw [Nat.add_right_cancel (Nat.add_right_cancel he)]

/-- Kernel stacks have no page in common. -/
theorem stacks_disjoint (h : Inv etext s) (hx : InUse s x) (hy : InUse s y) (hne : x≠y)
    (hv : Meets v x.bottom kernelStackSize) : ¬Meets v y.bottom kernelStackSize := by
  intro hv'
  rw [meets_bottom] at hv hv'
  have hxn := number_le h hx
  have hyn := number_le h hy
  exact hne (number_inj hx hy (by omega))

/-- The page below a kernel stack. -/
theorem guard_page (x : Owner) : x.bottom/pageSize-1=67108862-5*x.number := by
  rw [Owner.bottom_eq]
  simp only [kernelStackSize,pageSize,trampoline,maxva]
  omega

/-- It is not mapped at boot. -/
theorem guard_not_boot (he : etext ≤ kernelHeapEnd) (hn : x.number ≤ 40000) :
    ¬BootPage etext (67108862-5*x.number) := by
  rintro ⟨r,hr,hm⟩
  simp only [kernelHeapEnd] at he
  obtain hr | hr := List.mem_append.mp hr
  · simp only [List.mem_cons,List.not_mem_nil,or_false] at hr
    obtain rfl | rfl | rfl | rfl | rfl | rfl | rfl | rfl := hr <;>
      simp only [Meets,pageSize,KernelStacks.kernBase,kernelHeapEnd,KernelStacks.physTop,trampoline,
        maxva] at hm <;> omega
  · obtain ⟨pos,hpos,rfl⟩ := List.mem_map.mp hr
    rw [List.mem_range,ProcTable.nproc] at hpos
    have hm : Meets (67108862-5*x.number) (Owner.process pos).bottom kernelStackSize := hm
    rw [meets_bottom,Owner.number] at hm
    omega

/-- It is not mapped later. -/
theorem guard_unmapped (he : etext ≤ kernelHeapEnd) (h : Inv etext s) (hx : InUse s x) :
    binding s.space (x.bottom/pageSize-1)=none := by
  have hn := number_le h hx
  rw [guard_page]
  by_contra hb
  have hlt : 67108862-5*x.number < maxva/pageSize := by
    simp only [maxva,pageSize]
    omega
  obtain hboot | ⟨tid,ht,hm⟩ := h.bound _ hlt hb
  · exact guard_not_boot he hn hboot
  · have hk : (Owner.task tid).number ≤ 40000 := number_le h ht
    have hm : Meets (67108862-5*x.number) (Owner.task tid).bottom kernelStackSize := hm
    rw [meets_bottom] at hm
    omega

end Stacks

/-- The fixed mappings do not collide: those of a process with a `pid`, and those of the kernel, as
far as `tid` were given out. -/
structure NoCollision (s : Kernel) (pid : ℕ) : Prop where
  /-- The four pages of the user are apart. -/
  apart : ∀ tid,tid < s.tids.current →
    TidFits tid ∧ [trampoline,usyscall,trapframeFromPid pid,trapframeFromTid tid].Nodup
  /-- `alloc_proc_pagetable` fails only for lack of memory. -/
  memory : OnlyMemoryFails pid
  /-- `Task::from` in `fork` does not map again. -/
  fork : ∀ m tramp m1 child,∀ parent : Proc,∀ pgt m2,m.heap.length ≤ heapPages →
    allocProc m tramp pid=.ok (m1,some child) →
    uvmCopy parent.pgt child.pgt m1 parent.size=.ok (pgt,m2,true) →
    ∀ tid,tid < s.tids.current → ¬Remaps pgt m2 tid
  /-- `Task::new` in `load` does not map again. -/
  load : ∀ m tramp tf up m1 pgt,∀ img : Image,∀ m2 u size m3,m.heap.length ≤ heapPages →
    allocProcPagetable m tramp tf up pid=.ok (m1,some pgt) →
    loadImage pgt m1 img pid=.ok (m2,some (u,size)) →
    ∀ tid,tid < s.tids.current → ¬Remaps u m3 tid
  /-- The stacks of tasks have a position. -/
  position : ∀ tid,tid < s.tids.current →
    kernelStackPositionByTid tid=some (kstackBottom tid,kstackBottom tid+kernelStackSize)
  /-- Kernel stacks have no page in common. -/
  disjoint : ∀ x y,InUse s x → InUse s y → x≠y → ∀ v,Meets v x.bottom kernelStackSize →
    ¬Meets v y.bottom kernelStackSize
  /-- The page below each is not mapped. -/
  guard : ∀ x,InUse s x → binding s.space (x.bottom/pageSize-1)=none

/-- The page table of a process that `alloc_proc` returns. -/
theorem allocProc_low {m m' : Mem} {tramp pid : ℕ} {child : Proc}
    (h : allocProc m tramp pid=.ok (m',some child)) :
    ∃ free,free ≤ m.heap.length ∧ Low pid free 0 child.pgt m' := by
  rw [allocProc] at h
  split at h
  · rename_i tf up alarm heap hm
    obtain ⟨⟨m1,r⟩,halloc,h⟩ := bind_eq_ok h
    cases r with
    | none => cases h
    | some pgt =>
      cases h
      refine ⟨_,?_,low_fresh halloc⟩
      rw [hm]
      show heap.length ≤ heap.length+3
      omega
  · cases h

/-- In every state of a run for processes of the table, the fixed mappings of a `pid` do not collide
exactly if it is not zero and its trap frame has an address. -/
theorem fixed_pages_apart_iff {etext : ℕ} (he : etext ≤ kernelHeapEnd) {space : Space}
    (hspace : ∃ path,Shape space path)
    (hboot : ∀ v,v < maxva/pageSize → binding space v≠none → BootPage etext v) {as : List Action}
    (hslots : ∀ a∈as,slotOf a<nproc) {s : Kernel}
    (hrun : run KernelStacks.step (boot space) as=.next s) (pid : ℕ) :
    NoCollision s pid ↔ pid≠0 ∧ PidFits pid := by
  have h := inv_run etext hspace hboot hslots hrun
  constructor
  · intro hf
    exact (onlyMemoryFails_iff pid).mp hf.memory
  · rintro ⟨h0,hpid⟩
    refine ⟨fun tid ht => ⟨tidFits_of_lt (h.lt ht),pages_apart h0 hpid (h.lt ht)⟩,
      (onlyMemoryFails_iff pid).mpr ⟨h0,hpid⟩,?_,?_,
      fun tid ht => KernelStacks.kernelStackPositionByTid_eq (h.lt ht),
      fun x y hx hy hne v hv => stacks_disjoint h hx hy hne hv,fun x hx => guard_unmapped he h hx⟩
    · intro m tramp m1 child parent pgt m2 hheap halloc hcopy tid ht
      obtain ⟨free,hfree,hlow⟩ := allocProc_low halloc
      obtain ⟨n,hlow⟩ := hlow.copyLoop hcopy
      exact hlow.not_remaps (hfree.trans hheap) h0 hpid (h.lt ht)
    · intro m tramp tf up m1 pgt img m2 u size m3 hheap halloc hload tid ht
      obtain ⟨n,hlow⟩ := (low_fresh halloc).load hload
      exact hlow.not_remaps hheap h0 hpid (h.lt ht)

theorem fixed_pages_apart_iff_oneByOne :
    ∃ s,run KernelStacks.step (boot KernelStacks.emptyTable) KernelStacks.oneByOne=.next s ∧
      NoCollision s 1 := by
  obtain ⟨s,hs,-⟩ := Outcome.exists_of_test
    (o:=run KernelStacks.step (boot KernelStacks.emptyTable) KernelStacks.oneByOne)
    (p:=fun s : Kernel => decide (s.tasks 1=.live 0)) (by decide +kernel)
  have hboot : ∀ v,v < maxva/pageSize → binding KernelStacks.emptyTable v≠none →
      BootPage 0x80010000 v := fun v _ hb => absurd (KernelStacks.emptyTable_binding v) hb
  refine ⟨s,hs,(fixed_pages_apart_iff (by decide) ⟨_,PageMap.empty_shape _ _⟩ hboot (by decide)
    hs 1).mpr ⟨by decide,by decide⟩⟩

/-- `PID_ALLOCATOR` gives out every number, zero first. -/
theorem pidAlloc_all (n : ℕ) :
    ((fun pids : ProcTable.RecycleAllocator => pids.pidAlloc.2)^[n] ⟨0,[]⟩).pidAlloc.1=n := by
  have hrun : (fun pids : ProcTable.RecycleAllocator => pids.pidAlloc.2)^[n] ⟨0,[]⟩=⟨n,[]⟩ := by
    induction n with
    | zero => rfl
    | succ n ih =>
      rw [Function.iterate_succ_apply',ih]
      rfl
  rw [hrun]
  rfl

/-- The first `pid` has its trap frame at `USYSCALL`, and no heap is large enough for its page
table. -/
theorem first_pid_collides :
    ProcTable.boot.pids.pidAlloc.1=0 ∧ trapframeFromPid 0=usyscall ∧
      (∀ m tramp tf up,∃ m',allocProcPagetable m tramp tf up 0=.ok (m',none)) ∧
      ¬NoCollision (boot KernelStacks.emptyTable) 0 := by
  refine ⟨pidAlloc_all 0,rfl,fun m tramp tf up => ?_,fun h => ?_⟩
  · obtain ⟨m',r,hr,-,⟨pgt,-,-,hpos,-⟩ | ⟨rfl,-⟩⟩ | ⟨hno,-⟩ :=
      allocProcPagetable_laid m tramp tf up 0
    · exact absurd hpos (lt_irrefl 0)
    · exact ⟨m',hr⟩
    · exact absurd (by decide) hno
  · exact ((onlyMemoryFails_iff 0).mp h.memory).1 rfl

end Xv6Rust.FixedPages

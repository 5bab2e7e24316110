import Xv6Rust.KernelStacks
import Xv6Rust.Results
import Xv6Rust.UserMemory

/-!
# The kernel stack of a new task

`kstack_alloc`, on the heap that all pages come from. It takes a block of four pages in any case,
and maps it into the kernel page table if no stack was mapped for the `tid` before; then tables may
be missing there, and these are pages of the same heap.
-/

namespace Xv6Rust.TaskStacks

open RadixTable Paging PageTable UserMemory
open KernelStacks (kernelStackSize kstackBottom kernelStackPositionByTid)

/-- `KERNEL_PAGE_TABLE`, and what its lock holds. -/
structure KernelTable where
  /-- The page table. -/
  table : PageTable
  /-- `kernel_table_lock`: so many kernel stacks are mapped. -/
  mapped : ℕ

/-- Panics of `kstack_alloc`. -/
inductive StackPanic where
  /-- The position of the stack overflows. -/
  | position
  /-- `RawQuadPage::new_zeroed` finds no such block. -/
  | noBlock
  /-- A panic below `map_pages`. -/
  | paging (e : Panic)
  /-- `kvm_map: ...`. -/
  | kvmMap (e : MapError)
  deriving DecidableEq

/-- `kvm_task_kstack_map`. -/
def kvmTaskKstackMap (kernel : KernelTable) (m : Mem) (va ppn tid size : ℕ) (perm : PteFlag) :
    Except StackPanic (KernelTable×Mem) :=
  if kernel.mapped ≤ tid then
    match kernel.table.mapPages m va size ppn perm with
    | .error e => .error (.paging e)
    | .ok (_,_,.error e) => .error (.kvmMap e)
    | .ok (table,m,.ok ()) => .ok (⟨table,kernel.mapped+1⟩,m)
  else .ok (kernel,m)

/-- `kstack_alloc`, with the block that the heap gives if it is free. -/
def kstackAlloc (kernel : KernelTable) (m : Mem) (tid base : ℕ) :
    Except StackPanic (KernelTable×Mem) :=
  match kernelStackPositionByTid tid with
  | none => .error .position
  | some (bottom,_) =>
    if FreeBlock m base then
      kvmTaskKstackMap kernel (takeBlock m base) bottom base tid kernelStackSize (flagR|||flagW)
    else .error .noBlock

/-- The first page of the stack of a `tid`. -/
def stackPage (tid : ℕ) : ℕ := kstackBottom tid/pageSize

/-- Tables that the kernel page table misses for the stack of a `tid`, if it is mapped. -/
def stackTables (kernel : KernelTable) (tid : ℕ) : ℕ :=
  if kernel.mapped ≤ tid then kernel.table.lackingRange (stackPage tid) 4 else 0

/-- There are pages for the kernel stack of a `tid`, and, where it is mapped, nothing is in its
place. -/
structure StackFits (kernel : KernelTable) (m : Mem) (tid base : ℕ) : Prop where
  /-- The stack has a position. -/
  position : (kernelStackPositionByTid tid).isSome=true
  /-- The block is free. -/
  block : FreeBlock m base
  /-- Nothing is mapped where the stack is. -/
  bare : kernel.mapped ≤ tid → kernel.table.Bare (stackPage tid) 4
  /-- There are pages for the tables. -/
  tables : stackTables kernel tid+4 ≤ m.heap.length

section Blocks

variable {m m' : Mem} {base : ℕ}

/-- Four pages of the heap are in the block. -/
theorem length_takeBlock (hn : m.heap.Nodup) (h : FreeBlock m base) :
    (takeBlock m base).heap.length+4=m.heap.length := by
  obtain ⟨h0,h1,h2,h3⟩ := h
  have hblock : (m.heap.filter fun ppn => InBlock base ppn).Perm
      [base,base+1,base+2,base+3] := by
    refine (List.perm_ext_iff_of_nodup (hn.filter _) (by simp)).mpr fun ppn => ?_
    rw [List.mem_filter,decide_eq_true_iff]
    simp only [List.mem_cons,List.not_mem_nil,or_false]
    constructor
    · rintro ⟨-,hle,hlt⟩
      omega
    · rintro (rfl | rfl | rfl | rfl)
      · exact ⟨h0,by simp [InBlock]⟩
      · exact ⟨h1,by simp [InBlock]⟩
      · exact ⟨h2,by simp [InBlock]⟩
      · exact ⟨h3,by simp [InBlock]⟩
  have hsplit := List.length_eq_length_filter_add (l:=m.heap) fun ppn => decide (InBlock base ppn)
  rw [hblock.length_eq] at hsplit
  simp only [takeBlock,decide_not]
  simp only [List.length_cons,List.length_nil] at hsplit
  omega

/-- A page that is not free is not in a block that is. -/
theorem not_inBlock (h : FreeBlock m base) {ppn : ℕ} (hp : ppn∉m.heap) : ¬InBlock base ppn := by
  rintro ⟨hle,hlt⟩
  obtain ⟨h0,h1,h2,h3⟩ := h
  obtain rfl | rfl | rfl | rfl : ppn=base ∨ ppn=base+1 ∨ ppn=base+2 ∨ ppn=base+3 := by omega
  · exact hp h0
  · exact hp h1
  · exact hp h2
  · exact hp h3

end Blocks

section Stacks

variable {kernel : KernelTable} {m m' : Mem} {tid base : ℕ}

theorem StackFits.congr (hheap : m'.heap=m.heap) :
    StackFits kernel m' tid base ↔ StackFits kernel m tid base := by
  have hblock : FreeBlock m' base ↔ FreeBlock m base := by rw [FreeBlock,FreeBlock,hheap]
  exact ⟨fun h => ⟨h.position,hblock.mp h.block,h.bare,hheap ▸ h.tables⟩,
    fun h => ⟨h.position,hblock.mpr h.block,h.bare,hheap.symm ▸ h.tables⟩⟩

/-- A stack that has a position begins with a page, and ends below `MAXVA`. -/
theorem kernelStackPosition_page {bottom top : ℕ}
    (h : kernelStackPositionByTid tid=some (bottom,top)) :
    bottom=stackPage tid*pageSize ∧ (stackPage tid+4)*pageSize ≤ maxva := by
  rw [kernelStackPositionByTid] at h
  split at h
  · rename_i hle
    obtain ⟨rfl,-⟩ := Prod.mk.inj (Option.some.inj h)
    simp only [KernelStacks.PositionFits,stackPage,kstackBottom,kernelStackSize,ProcTable.nproc,
      trampoline,maxva,pageSize] at hle ⊢
    omega
  · cases h

/-- What `kstack_alloc` leaves where there is memory for a stack. -/
structure Taken (kernel : KernelTable) (m m' : Mem) (tid : ℕ) : Prop where
  /-- Number of pages. -/
  length : m'.heap.length+4+stackTables kernel tid=m.heap.length
  /-- No page is added to the heap. -/
  free : ∀ ppn∈m'.heap,ppn∈m.heap
  /-- Pages that were not free are as before. -/
  data : ∀ ppn,ppn∉m.heap → m'.data ppn=m.data ppn

theorem takeBlock_data (h : FreeBlock m base) {ppn : ℕ} (hp : ppn∉m.heap) :
    (takeBlock m base).data ppn=m.data ppn := if_neg (not_inBlock h hp)

/-- `kstack_alloc` succeeds if there is memory for the stack, and panics otherwise. -/
theorem kstackAlloc_cases (hn : m.heap.Nodup) :
    (StackFits kernel m tid base ∧ ∃ kernel' m',kstackAlloc kernel m tid base=.ok (kernel',m') ∧
      Taken kernel m m' tid) ∨
    (¬StackFits kernel m tid base ∧ ∃ e,kstackAlloc kernel m tid base=.error e) := by
  rw [kstackAlloc]
  cases hpos : kernelStackPositionByTid tid with
  | none =>
    refine .inr ⟨fun h => ?_,_,rfl⟩
    have hsome := h.position
    rw [hpos] at hsome
    cases hsome
  | some range =>
    obtain ⟨bottom,top⟩ := range
    have hsome : (kernelStackPositionByTid tid).isSome=true := by
      rw [hpos]
      rfl
    obtain ⟨hbottom,hmax⟩ := kernelStackPosition_page hpos
    dsimp only
    by_cases hb : FreeBlock m base
    swap
    · rw [if_neg hb]
      exact .inr ⟨fun h => hb h.block,_,rfl⟩
    have hlen := length_takeBlock hn hb
    have hfree : ∀ ppn∈(takeBlock m base).heap,ppn∈m.heap := fun ppn hp => List.mem_of_mem_filter hp
    rw [if_pos hb,kvmTaskKstackMap,hbottom]
    by_cases hmapped : kernel.mapped ≤ tid
    · have hrange := @mapPages_range kernel.table (takeBlock m base) (stackPage tid) 4 base
        (flagR|||flagW) hmax
      have htables : stackTables kernel tid=kernel.table.lackingRange (stackPage tid) 4 :=
        if_pos hmapped
      rw [if_pos hmapped,kernelStackSize]
      obtain ⟨⟨hbare,hle⟩,v,hr⟩ | ⟨hno,v,w,e,hr⟩ := hrange
      · rw [hr]
        refine .inl ⟨⟨hsome,hb,fun _ => hbare,by omega⟩,_,_,rfl,?_,fun ppn hp => ?_,
          fun ppn hp => takeBlock_data hb hp⟩
        · rw [List.length_drop]
          omega
        · exact hfree ppn (List.mem_of_mem_drop hp)
      · rw [hr]
        refine .inr ⟨fun h => hno ⟨h.bare hmapped,?_⟩,_,rfl⟩
        have := h.tables
        omega
    · have htables : stackTables kernel tid=0 := if_neg hmapped
      rw [if_neg hmapped]
      exact .inl ⟨⟨hsome,hb,fun h => absurd h hmapped,by omega⟩,_,_,rfl,by omega,hfree,
        fun ppn hp => takeBlock_data hb hp⟩

end Stacks

/-- A kernel page table without kernel stacks. -/
def noStacks : PageTable := ⟨Table.empty Pte.zero 2,[]⟩

end Xv6Rust.TaskStacks

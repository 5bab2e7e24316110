import Xv6Rust.PageMap
import Xv6Rust.ProcTable

/-!
# Kernel stacks of tasks

`kstack_alloc` of `task.rs`, `kvm_task_kstack_map` of `kvm.rs` and the allocator of `tid.rs`. The
stack of a `tid` is mapped at its first use and stays mapped; whether a use is the first is decided
by comparing a counter of mapped stacks with the `tid`. This is right as long as new `tid` reach the
comparison in the order in which they were given out.
-/

namespace Xv6Rust.KernelStacks

open Paging PageWalk PageMap Runs
open ProcTable (nproc)

/-- `KERNEL_STACK_SIZE`. -/
def kernelStackSize : ℕ := 4*pageSize

/-- `PHYSTOP`. -/
def physTop : ℕ := 0x8c000000

/-- `KERNBASE`. -/
def kernBase : ℕ := 0x80000000

/-- `KERNEL_HEAP_END`. -/
def kernelHeapEnd : ℕ := 0x88000000

/-- `kstack_by_pos`. -/
def kstackByPos (pos : ℕ) : ℕ := trampoline-(pos+1)*(kernelStackSize+pageSize)

/-- The bottom of a stack. -/
def kstackBottom (tid : ℕ) : ℕ := trampoline-(tid+4+nproc)*(kernelStackSize+pageSize)

/-- The subtraction of `kernel_stack_position_by_tid` does not underflow. -/
def PositionFits (tid : ℕ) : Prop := (tid+4+nproc)*(kernelStackSize+pageSize) ≤ trampoline

-- a comparison with the `tid` alone, since the product takes long to evaluate for an open one
instance (tid : ℕ) : Decidable (PositionFits tid) :=
  decidable_of_iff (tid ≤ trampoline/(kernelStackSize+pageSize)-(4+nproc)) (by
    simp only [PositionFits,kernelStackSize,nproc,trampoline,maxva,pageSize]
    omega)

/-- `kernel_stack_position_by_tid`, if the difference does not overflow. -/
def kernelStackPositionByTid (tid : ℕ) : Option (ℕ×ℕ) :=
  if PositionFits tid then
    some (kstackBottom tid,kstackBottom tid+kernelStackSize)
  else none

/-- The ranges that `kvm_init` and `proc_init` map. -/
def bootRanges (etext : ℕ) : List (ℕ×ℕ) :=
  [(0x10000000,pageSize),(0x10001000,pageSize),(0x2000000,0x10000),(0xc000000,0x400000),
    (kernBase,etext-kernBase),(etext,kernelHeapEnd-etext),(kernelHeapEnd,physTop-kernelHeapEnd),
    (trampoline,pageSize)]++(List.range nproc).map fun pos => (kstackByPos pos,kernelStackSize)

/-- A page that is mapped at boot. -/
def BootPage (etext v : ℕ) : Prop := ∃ r∈bootRanges etext,Meets v r.1 r.2

/-- A page of the kernel heap. -/
def HeapPage (pa : Usize) : Prop :=
  Aligned pa ∧ kernBase ≤ pa.toNat ∧ pa.toNat < kernelHeapEnd

instance (pa : Usize) : Decidable (HeapPage pa) :=
  inferInstanceAs (Decidable (pa&&&0xfff=0 ∧ kernBase ≤ pa.toNat ∧ pa.toNat < kernelHeapEnd))

/-- `RecycleAllocator`. -/
structure RecycleAllocator where
  /-- The next `tid` that was never given out. -/
  current : ℕ
  /-- The `tid` that were given back, the last one first. -/
  recycled : List ℕ

/-- `tid_alloc`. -/
def RecycleAllocator.tidAlloc (alloc : RecycleAllocator) : ℕ×RecycleAllocator :=
  match alloc.recycled with
  | tid::recycled => (tid,{alloc with recycled := recycled})
  | [] => (alloc.current,{alloc with current := alloc.current+1})

/-- `tid_dealloc`, if its assertions hold. -/
def RecycleAllocator.tidDealloc (alloc : RecycleAllocator) (tid : ℕ) : Option RecycleAllocator :=
  if tid < alloc.current ∧ tid∉alloc.recycled then
    some {alloc with recycled := tid::alloc.recycled}
  else none

/-- Where a task is in its life. -/
inductive Stage where
  /-- It does not exist. -/
  | absent
  /-- `new` or `from` has its `tid`. -/
  | named (tid : ℕ)
  /-- `kstack_alloc` has pages. -/
  | backed (tid : ℕ) (pa : Usize)
  /-- It is constructed. -/
  | live (tid : ℕ)
  deriving DecidableEq

/-- The kernel page table, the counter of its lock, the `tid` and the tasks. -/
structure Kernel where
  /-- `KERNEL_PAGE_TABLE`. -/
  space : Space
  /-- `kernel_table_lock`. -/
  mapped : ℕ
  /-- `TID_ALLOCATOR`. -/
  tids : RecycleAllocator
  /-- The tasks. -/
  tasks : ℕ → Stage
  /-- The pages that `kstack_alloc` got, which are never freed, and for which `tid`. -/
  blocks : List (ℕ×Usize)

/-- How a step fails. -/
inductive Failure where
  /-- A panic below `map_pages`. -/
  | panic (e : Panic)
  /-- `kvm_map: ...`. -/
  | kvmMap (e : MapError)
  /-- The position of a stack overflows. -/
  | position
  /-- An assertion of `tid_dealloc`. -/
  | tidDealloc

/-- Steps of processes that create and drop tasks. -/
inductive Action where
  /-- `tid_alloc`. -/
  | alloc (i : ℕ)
  /-- `RawQuadPage::new_zeroed`. -/
  | page (i : ℕ) (pa : Usize)
  /-- `kvm_task_kstack_map`, with what the heap answers for new tables. -/
  | map (i : ℕ) (answers : Answers)
  /-- `tid_dealloc` in the drop of a task. -/
  | drop (i : ℕ)

/-- A task moves on. -/
def Kernel.put (s : Kernel) (i : ℕ) (stage : Stage) : Kernel :=
  {s with tasks := Function.update s.tasks i stage}

/-- `kvm_task_kstack_map`. -/
def kvmTaskKstackMap (s : Kernel) (va : ℕ) (pa : Usize) (tid size : ℕ) (perm : PteFlag)
    (answers : Answers) : Except Failure Kernel :=
  if s.mapped ≤ tid then
    match mapPages s.space va size pa perm answers with
    | .error e => .error (.panic e)
    | .ok (_,.error e) => .error (.kvmMap e)
    | .ok (space,.ok ()) => .ok {s with space := space,mapped := s.mapped+1}
  else .ok s

local instance : LawfulBEq Usize := inferInstance

/-- A step. The heap gives pages that are in no use. -/
def step (s : Kernel) : Action → Outcome Failure Kernel
  | .alloc i =>
    match s.tasks i with
    | .absent => .next {s.put i (.named s.tids.tidAlloc.1) with tids := s.tids.tidAlloc.2}
    | _ => .blocked
  | .page i pa =>
    match s.tasks i with
    | .named tid =>
      if HeapPage pa ∧ pa∉s.blocks.map Prod.snd then
        .next {s.put i (.backed tid pa) with blocks := (tid,pa)::s.blocks}
      else .blocked
    | _ => .blocked
  | .map i answers =>
    match s.tasks i with
    | .backed tid pa =>
      if FreshAnswers s.space answers then
        match kernelStackPositionByTid tid with
        | none => .fault .position
        | some (bottom,_) =>
          match kvmTaskKstackMap s bottom pa tid kernelStackSize (flagR|||flagW) answers with
          | .error e => .fault e
          | .ok s => .next (s.put i (.live tid))
      else .blocked
    | _ => .blocked
  | .drop i =>
    match s.tasks i with
    | .live tid =>
      match s.tids.tidDealloc tid with
      | none => .fault .tidDealloc
      | some tids => .next {s.put i .absent with tids := tids}
    | _ => .blocked

/-- The kernel before the first task. -/
def boot (space : Space) : Kernel := ⟨space,0,⟨0,[]⟩,fun _ => .absent,[]⟩

/-- No `tid` reaches `kvm_task_kstack_map` while a smaller one has no stack. -/
def InOrder (s : Kernel) : Action → Prop
  | .map i _ =>
    match s.tasks i with
    | .backed tid _ => tid ≤ s.mapped
    | _ => True
  | _ => True

instance (s : Kernel) : DecidablePred (InOrder s)
  | .map i _ =>
    match h : s.tasks i with
    | .backed tid _ => decidable_of_iff (tid ≤ s.mapped) (by rw [InOrder,h])
    | .absent => isTrue (by rw [InOrder,h]; trivial)
    | .named _ => isTrue (by rw [InOrder,h]; trivial)
    | .live _ => isTrue (by rw [InOrder,h]; trivial)
  | .alloc _ => inferInstanceAs (Decidable True)
  | .page _ _ => inferInstanceAs (Decidable True)
  | .drop _ => inferInstanceAs (Decidable True)

/-- A page of the stack of a `tid`. -/
def StackPage (tid v : ℕ) : Prop := Meets v (kstackBottom tid) kernelStackSize

/-- Pages of the kernel heap. -/
def heapPages : ℕ := 32768

section Positions

variable {tid tid' v etext : ℕ}

/-- The pages of a stack. -/
theorem stackPage_iff : StackPage tid v ↔
    67108863-5*(tid+516) ≤ v ∧ v < 67108863-5*(tid+516)+4 := by
  simp only [StackPage,Meets,kstackBottom,kernelStackSize,pageSize,trampoline,maxva,nproc]
  omega

/-- A `tid` that is not far above the pages of the heap has a position. -/
theorem kernelStackPositionByTid_eq (h : tid < heapPages+nproc) :
    kernelStackPositionByTid tid=some (kstackBottom tid,kstackBottom tid+kernelStackSize) := by
  rw [kernelStackPositionByTid,if_pos]
  simp only [heapPages,nproc] at h
  simp only [PositionFits,kernelStackSize,pageSize,trampoline,maxva,nproc]
  omega

/-- Stacks of different `tid` are apart. -/
theorem stackPage_disjoint (ht : tid < heapPages) (ht' : tid' < heapPages) (h : StackPage tid v)
    (h' : StackPage tid' v) : tid=tid' := by
  rw [stackPage_iff] at h h'
  simp only [heapPages] at ht ht'
  omega

/-- Pages mapped at boot lie below `PHYSTOP`, or at the stacks of processes and above. -/
theorem bootPage_range (he : etext ≤ kernelHeapEnd) (h : BootPage etext v) :
    v < 573440 ∨ 67106303 ≤ v := by
  obtain ⟨r,hr,hm⟩ := h
  obtain hr | hr := List.mem_append.mp hr
  · simp only [kernelHeapEnd] at he
    simp only [List.mem_cons,List.not_mem_nil,or_false] at hr
    obtain rfl | rfl | rfl | rfl | rfl | rfl | rfl | rfl := hr <;>
      simp only [Meets,pageSize,kernBase,kernelHeapEnd,physTop,trampoline,maxva] at hm <;> omega
  · obtain ⟨pos,hpos,rfl⟩ := List.mem_map.mp hr
    rw [List.mem_range] at hpos
    simp only [Meets,kstackByPos,kernelStackSize,pageSize,trampoline,maxva,nproc] at hm hpos
    omega

/-- No stack lies on a page mapped at boot. -/
theorem stackPage_not_boot (he : etext ≤ kernelHeapEnd) (ht : tid < heapPages)
    (h : StackPage tid v) : ¬BootPage etext v := by
  intro hb
  rw [stackPage_iff] at h
  simp only [heapPages] at ht
  have hr := bootPage_range he hb
  omega

/-- Pages of stacks are in the table. -/
theorem stackPage_lt (h : StackPage tid v) : v < maxva/pageSize := by
  rw [stackPage_iff] at h
  simp only [maxva,pageSize]
  omega

end Positions

section Blocks

variable {blocks : List (ℕ×Usize)}

theorem aligned_mod {pa : Usize} (h : Aligned pa) : pa.toNat%4096=0 := by
  have hand : (pa&&&0xfff#64).toNat=pa.toNat%4096 := by
    rw [BitVec.toNat_and]
    exact Nat.and_two_pow_sub_one_eq_mod pa.toNat 12
  rw [← hand]
  exact congrArg BitVec.toNat h

/-- The heap has no more blocks than pages. -/
theorem blocks_length (hnodup : (blocks.map Prod.snd).Nodup) (hheap : ∀ x∈blocks,HeapPage x.2) :
    blocks.length ≤ heapPages := by
  have hpages : ((blocks.map Prod.snd).map fun pa => (pa.toNat-kernBase)/4096).Nodup := by
    refine List.Nodup.map_on (fun a ha b hb e => ?_) hnodup
    obtain ⟨x,hx,rfl⟩ := List.mem_map.mp ha
    obtain ⟨y,hy,rfl⟩ := List.mem_map.mp hb
    obtain ⟨hxa,hx1,-⟩ := hheap x hx
    obtain ⟨hya,hy1,-⟩ := hheap y hy
    have hxm := aligned_mod hxa
    have hym := aligned_mod hya
    apply BitVec.eq_of_toNat_eq
    simp only [kernBase] at hx1 hy1 e
    omega
  have hsub : ((blocks.map Prod.snd).map fun pa => (pa.toNat-kernBase)/4096)⊆List.range heapPages := by
    intro k hk
    obtain ⟨pa,hpa,rfl⟩ := List.mem_map.mp hk
    obtain ⟨x,hx,rfl⟩ := List.mem_map.mp hpa
    obtain ⟨-,h1,h2⟩ := hheap x hx
    rw [List.mem_range]
    simp only [kernBase,kernelHeapEnd,heapPages] at h1 h2 ⊢
    omega
  have hle := (hpages.subperm hsub).length_le
  rwa [List.length_map,List.length_map,List.length_range] at hle

/-- Where all smaller `tid` have blocks, there are as many blocks. -/
theorem tids_length {n : ℕ} (h : ∀ tid,tid < n → ∃ pa,(tid,pa)∈blocks) : n ≤ blocks.length := by
  have hsub : List.range n⊆blocks.map Prod.fst := by
    intro tid ht
    obtain ⟨pa,hpa⟩ := h tid (List.mem_range.mp ht)
    exact List.mem_map.mpr ⟨_,hpa,rfl⟩
  have hle := (List.nodup_range.subperm hsub).length_le
  rwa [List.length_range,List.length_map] at hle

end Blocks

/-- The stacks below the counter are mapped, and nothing else but what is mapped at boot. -/
structure Inv (etext : ℕ) (s : Kernel) : Prop where
  /-- The table is well formed. -/
  shape : ∃ path,Shape s.space path
  /-- What is mapped. -/
  bound : ∀ v,v < maxva/pageSize → binding s.space v≠none →
    BootPage etext v ∨ ∃ tid,tid < s.mapped ∧ StackPage tid v
  /-- Stacks below the counter. -/
  mapped : ∀ tid,tid < s.mapped → ∀ v,StackPage tid v → binding s.space v≠none
  /-- They have blocks. -/
  blocks : ∀ tid,tid < s.mapped → ∃ pa,(tid,pa)∈s.blocks
  /-- So have tasks that wait to be mapped. -/
  backed : ∀ i tid pa,s.tasks i=.backed tid pa → (tid,pa)∈s.blocks
  /-- Tasks that are constructed have stacks below the counter. -/
  live : ∀ i tid,s.tasks i=.live tid → tid < s.mapped
  /-- Blocks are given once. -/
  nodup : (s.blocks.map Prod.snd).Nodup
  /-- They are in the heap. -/
  heap : ∀ x∈s.blocks,HeapPage x.2

section Steps

variable {etext : ℕ} {s t : Kernel}

/-- There are fewer stacks than pages of the heap. -/
theorem Inv.lt (h : Inv etext s) {tid : ℕ} (ht : tid < s.mapped) : tid < heapPages :=
  Nat.lt_of_lt_of_le ht ((tids_length h.blocks).trans (blocks_length h.nodup h.heap))

/-- A `tid` that is next has a position in the table. -/
theorem Inv.next (h : Inv etext s) {i tid : ℕ} {pa : Usize} (hi : s.tasks i=.backed tid pa)
    (ht : tid ≤ s.mapped) : tid < heapPages := by
  obtain hlt | rfl := Nat.lt_or_eq_of_le ht
  · exact h.lt hlt
  · have hall : ∀ k,k < s.mapped+1 → ∃ pa,(k,pa)∈s.blocks := by
      intro k hk
      obtain hlt | rfl := Nat.lt_or_eq_of_le (Nat.lt_succ_iff.mp hk)
      · exact h.blocks k hlt
      · exact ⟨pa,h.backed i _ pa hi⟩
    exact Nat.lt_of_lt_of_le (Nat.lt_succ_self _)
      ((tids_length hall).trans (blocks_length h.nodup h.heap))

/-- A task moves to a stage without a claim on the table. -/
theorem Inv.put (h : Inv etext s) (i : ℕ) (stage : Stage)
    (hb : ∀ tid pa,stage=.backed tid pa → (tid,pa)∈s.blocks)
    (hl : ∀ tid,stage=.live tid → tid < s.mapped) : Inv etext (s.put i stage) := by
  have hother : ∀ j,j≠i → (s.put i stage).tasks j=s.tasks j := fun j hj =>
    Function.update_of_ne hj ..
  have hself : (s.put i stage).tasks i=stage := Function.update_self ..
  refine ⟨h.shape,h.bound,h.mapped,h.blocks,fun j tid pa hj => ?_,fun j tid hj => ?_,h.nodup,h.heap⟩
  · by_cases e : j=i
    · rw [e,hself] at hj
      exact hb tid pa hj
    · rw [hother j e] at hj
      exact h.backed j tid pa hj
  · by_cases e : j=i
    · rw [e,hself] at hj
      exact hl tid hj
    · rw [hother j e] at hj
      exact h.live j tid hj

/-- A page is bound after a stack was mapped if it is of the stack, or was bound. -/
theorem mapPages_stack {space space' : Space} {tid : ℕ} {pa : Usize} {answers : Answers}
    (hs : ∃ path,Shape space path) (hf : FreshAnswers space answers) (ha : Aligned pa)
    (hm : mapPages space (kstackBottom tid) kernelStackSize pa (flagR|||flagW) answers=
      .ok (space',.ok ())) :
    (∃ path,Shape space' path) ∧ ∀ v,v < maxva/pageSize →
      (StackPage tid v → binding space' v≠none) ∧
      (¬StackPage tid v → binding space' v=binding space v) := by
  obtain ⟨path,hs⟩ := hs
  obtain ⟨path',hs',hok,-⟩ := mapPages_spec hs hf hm
  refine ⟨⟨path',hs'⟩,fun v hv => ?_⟩
  have he := hok rfl v hv
  refine ⟨fun hp => ?_,fun hp => ?_⟩
  · rw [if_pos (show Meets v (kstackBottom tid) kernelStackSize from hp)] at he
    have hvalid := (writePerm_roundtrip
      (aligned_add ha (v-kstackBottom tid/pageSize)) (flagR|||flagW)).2.2
    rw [binding,he,if_pos hvalid]
    exact Option.some_ne_none _
  · rw [if_neg (show ¬Meets v (kstackBottom tid) kernelStackSize from hp)] at he
    rw [binding,binding,he]

/-- The next stack is mapped. -/
theorem Inv.map (h : Inv etext s) {i tid : ℕ} {pa : Usize} (hi : s.tasks i=.backed tid pa)
    (ht : tid=s.mapped) {space : Space} {answers : Answers} (hf : FreshAnswers s.space answers)
    (hm : mapPages s.space (kstackBottom tid) kernelStackSize pa (flagR|||flagW) answers=
      .ok (space,.ok ())) : Inv etext {s with space := space,mapped := s.mapped+1} := by
  have ha : Aligned pa := (h.heap _ (h.backed i tid pa hi)).1
  obtain ⟨hshape,hbind⟩ := mapPages_stack h.shape hf ha hm
  refine ⟨hshape,fun v hv hb => ?_,fun k hk v hv => ?_,fun k hk => ?_,h.backed,
    fun j k hj => Nat.lt_succ_of_lt (h.live j k hj),h.nodup,h.heap⟩
  · by_cases hp : StackPage tid v
    · exact .inr ⟨tid,ht ▸ Nat.lt_succ_self _,hp⟩
    · rw [(hbind v hv).2 hp] at hb
      refine (h.bound v hv hb).imp_right fun hk => ?_
      obtain ⟨k,hk,hkv⟩ := hk
      exact ⟨k,Nat.lt_succ_of_lt hk,hkv⟩
  · by_cases hp : StackPage tid v
    · exact (hbind v (stackPage_lt hv)).1 hp
    · rw [(hbind v (stackPage_lt hv)).2 hp]
      obtain hlt | rfl := Nat.lt_or_eq_of_le (Nat.lt_succ_iff.mp hk)
      · exact h.mapped k hlt v hv
      · exact absurd (ht ▸ hv) hp
  · obtain hlt | rfl := Nat.lt_or_eq_of_le (Nat.lt_succ_iff.mp hk)
    · exact h.blocks k hlt
    · exact ⟨pa,ht ▸ h.backed i tid pa hi⟩

/-- The next stack is not mapped yet. -/
theorem Inv.no_remap (h : Inv etext s) (he : etext ≤ kernelHeapEnd) {i tid : ℕ} {pa : Usize}
    (hi : s.tasks i=.backed tid pa) (ht : tid=s.mapped) {space : Space} {answers : Answers}
    (hf : FreshAnswers s.space answers) :
    mapPages s.space (kstackBottom tid) kernelStackSize pa (flagR|||flagW) answers≠
      .ok (space,.error .remap) := by
  intro hm
  obtain ⟨path,hs⟩ := h.shape
  have hlt := h.next hi (Nat.le_of_eq ht)
  obtain ⟨v,hv,hp,hvalid⟩ := mapPages_remap hs hf hm
  have hbound : binding s.space v≠none := by
    rw [binding,if_pos hvalid]
    exact Option.some_ne_none _
  obtain hboot | ⟨k,hk,hkv⟩ := h.bound v hv hbound
  · exact stackPage_not_boot he hlt hp hboot
  · have e := stackPage_disjoint (h.lt hk) hlt hkv hp
    omega

/-- A step in order keeps the stacks below the counter mapped, and does not map one again. -/
theorem Inv.step {a : Action} (h : Inv etext s) (he : etext ≤ kernelHeapEnd) (hc : InOrder s a) :
    KernelStacks.step s a≠.fault (.kvmMap .remap) ∧
      ∀ t,KernelStacks.step s a=.next t → Inv etext t := by
  cases a with
  | alloc i =>
    rw [KernelStacks.step]
    split
    · have hp := h.put i (.named s.tids.tidAlloc.1) (fun _ _ e => by cases e) fun _ e => by cases e
      exact Outcome.next_safe
        ⟨hp.shape,hp.bound,hp.mapped,hp.blocks,hp.backed,hp.live,hp.nodup,hp.heap⟩
    · exact Outcome.blocked_safe
  | page i pa =>
    rw [KernelStacks.step]
    split
    · rename_i tid hi
      split
      · rename_i hpa
        have hmore : Inv etext {s with blocks := (tid,pa)::s.blocks} := by
          refine ⟨h.shape,h.bound,h.mapped,fun k hk => ?_,fun j k pa' hj => ?_,h.live,
            List.nodup_cons.mpr ⟨hpa.2,h.nodup⟩,fun x hx => ?_⟩
          · obtain ⟨pa',hk⟩ := h.blocks k hk
            exact ⟨pa',List.mem_cons_of_mem _ hk⟩
          · exact List.mem_cons_of_mem _ (h.backed j k pa' hj)
          · obtain rfl | hx := List.mem_cons.mp hx
            · exact hpa.1
            · exact h.heap x hx
        have hp := hmore.put i (.backed tid pa)
          (fun tid' pa' e => by cases e; exact List.mem_cons_self ..) fun _ e => by cases e
        exact Outcome.next_safe
          ⟨hp.shape,hp.bound,hp.mapped,hp.blocks,hp.backed,hp.live,hp.nodup,hp.heap⟩
      · exact Outcome.blocked_safe
    · exact Outcome.blocked_safe
  | map i answers =>
    rw [KernelStacks.step]
    split
    · rename_i tid pa hi
      rw [InOrder,hi] at hc
      split
      · rename_i hf
        have hpos : kernelStackPositionByTid tid=
            some (kstackBottom tid,kstackBottom tid+kernelStackSize) :=
          kernelStackPositionByTid_eq (Nat.lt_add_right _ (h.next hi hc))
        rw [hpos]
        dsimp only
        rw [kvmTaskKstackMap]
        by_cases hmap : s.mapped ≤ tid
        · have ht : tid=s.mapped := Nat.le_antisymm hc hmap
          rw [if_pos hmap]
          cases hm : mapPages s.space (kstackBottom tid) kernelStackSize pa (flagR|||flagW) answers with
          | error e => exact ⟨(fun hfault => by cases hfault),fun t ht => by cases ht⟩
          | ok r =>
            obtain ⟨space,r⟩ := r
            cases r with
            | error e =>
              refine ⟨fun hfault => ?_,fun t ht => by cases ht⟩
              cases hfault
              exact h.no_remap he hi ht hf hm
            | ok u =>
              exact Outcome.next_safe ((h.map hi ht hf hm).put i _ (fun _ _ e => by cases e)
                (fun k e => by cases e; exact ht ▸ Nat.lt_succ_self _))
        · rw [if_neg hmap]
          exact Outcome.next_safe (h.put i _ (fun _ _ e => by cases e)
            (fun k e => by cases e; exact Nat.lt_of_not_le hmap))
      · exact Outcome.blocked_safe
    · exact Outcome.blocked_safe
  | drop i =>
    rw [KernelStacks.step]
    split
    · split
      · exact ⟨(fun hfault => by cases hfault),fun t ht => by cases ht⟩
      · have hp := h.put i .absent (fun _ _ e => by cases e) fun _ e => by cases e
        exact Outcome.next_safe
          ⟨hp.shape,hp.bound,hp.mapped,hp.blocks,hp.backed,hp.live,hp.nodup,hp.heap⟩
    · exact Outcome.blocked_safe

end Steps

/-- In every run in which no `tid` reaches `kvm_task_kstack_map` while a smaller one has no stack,
from a page table that maps what `kvm_init` and `proc_init` map: no stack is mapped again, and the
stacks of all constructed tasks are mapped, those of different `tid` apart. -/
theorem kstacks_mapped (etext : ℕ) (he : etext ≤ kernelHeapEnd) (space : Space)
    (hspace : ∃ path,Shape space path)
    (hboot : ∀ v,v < maxva/pageSize → binding space v≠none → BootPage etext v) (as : List Action)
    (hc : Guarded step InOrder (boot space) as) :
    run step (boot space) as≠.fault (.kvmMap .remap) ∧
      ∀ t,run step (boot space) as=.next t → ∀ i tid,t.tasks i=.live tid →
        kernelStackPositionByTid tid=some (kstackBottom tid,kstackBottom tid+kernelStackSize) ∧
        (∀ v,StackPage tid v → binding t.space v≠none) ∧
        ∀ j tid',t.tasks j=.live tid' → tid≠tid' → ∀ v,StackPage tid v → ¬StackPage tid' v := by
  have h0 : Inv etext (boot space) :=
    ⟨hspace,fun v hv hb => .inl (hboot v hv hb),fun _ hk => absurd hk (Nat.not_lt_zero _),
      fun _ hk => absurd hk (Nat.not_lt_zero _),nofun,nofun,List.nodup_nil,nofun⟩
  have hstep : ∀ s a t,Inv etext s → InOrder s a → step s a=.next t → Inv etext t :=
    fun s a t h hc ht => (h.step he hc).2 t ht
  refine ⟨run_no_fault hstep (fun s a h hc => (h.step he hc).1) h0 hc,fun t ht i tid hi => ?_⟩
  have h := run_invariant hstep h0 hc ht
  have hlt := h.lt (h.live i tid hi)
  refine ⟨kernelStackPositionByTid_eq (Nat.lt_add_right _ hlt),h.mapped tid (h.live i tid hi),
    fun j tid' hj hne v hv hv' => ?_⟩
  exact hne (stackPage_disjoint hlt (h.lt (h.live j tid' hj)) hv hv')

/-- A page table without entries. -/
def emptyTable : Space := PageWalk.empty (fun _ _ => PageTableEntry.zero) 0x80000000

theorem emptyTable_binding (v : ℕ) : binding emptyTable v=none := by
  have hget : ∀ slot,emptyTable.get slot=PageTableEntry.zero := by
    intro slot
    show (if slot.1=0x80000000 then PageTableEntry.zero else PageTableEntry.zero)=_
    rw [ite_self]
  have hentry : entry emptyTable (v*pageSize)=PageTableEntry.zero := by
    rw [entry]
    split
    · rfl
    · exact hget _
  rw [binding,hentry,PageWalk.zero_not_valid,if_neg Bool.false_ne_true]

/-- A task is created and dropped, another one gets its `tid`, and a third one the next. -/
def oneByOne : List Action :=
  [.alloc 0,.page 0 0x80100000,.map 0 [some 0x80001000,some 0x80002000],.drop 0,
    .alloc 1,.page 1 0x80104000,.map 1 [],.alloc 2,.page 2 0x80108000,.map 2 []]

theorem kstacks_mapped_oneByOne :
    ∃ t,run step (boot emptyTable) oneByOne=.next t ∧ t.tasks 1=.live 0 ∧ t.tasks 2=.live 1 ∧
      (∀ tid∈[0,1],∀ v,StackPage tid v → binding t.space v≠none) ∧
      ∀ v,StackPage 0 v → ¬StackPage 1 v := by
  obtain ⟨t,ht,hlive⟩ := Outcome.exists_of_test (o:=run step (boot emptyTable) oneByOne)
    (p:=fun t : Kernel => decide (t.tasks 1=.live 0 ∧ t.tasks 2=.live 1)) (by decide +kernel)
  obtain ⟨hlive,hlive'⟩ := of_decide_eq_true hlive
  have h := kstacks_mapped 0x80010000 (by decide) emptyTable ⟨_,empty_shape _ _⟩
    (fun v _ hb => absurd (emptyTable_binding v) hb) oneByOne (by decide +kernel)
  obtain ⟨-,hmapped,hapart⟩ := h.2 t ht 1 0 hlive
  obtain ⟨-,hmapped',-⟩ := h.2 t ht 2 1 hlive'
  refine ⟨t,ht,hlive,hlive',fun tid htid => ?_,hapart 2 1 hlive' (by decide)⟩
  obtain rfl | htid := List.mem_cons.mp htid
  · exact hmapped
  · rw [List.mem_singleton.mp htid]
    exact hmapped'

/-- Two tasks are created, and the second maps its stack first. -/
def outOfOrder : List Action :=
  [.alloc 0,.alloc 1,.page 0 0x80100000,.page 1 0x80104000,
    .map 1 [some 0x80001000,some 0x80002000],.map 0 []]

theorem outOfOrder_not_mapped :
    ∃ t,run step (boot emptyTable) outOfOrder=.next t ∧ t.tasks 0=.live 0 ∧
      StackPage 0 67106283 ∧ binding t.space 67106283=none := by
  obtain ⟨t,ht,htest⟩ := Outcome.exists_of_test (o:=run step (boot emptyTable) outOfOrder)
    (p:=fun t : Kernel => decide (t.tasks 0=.live 0) && (binding t.space 67106283).isNone)
    (by decide +kernel)
  rw [Bool.and_eq_true,decide_eq_true_iff,Option.isNone_iff_eq_none] at htest
  exact ⟨t,ht,htest.1,stackPage_iff.mpr (by decide),htest.2⟩

end Xv6Rust.KernelStacks

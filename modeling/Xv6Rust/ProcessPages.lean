import Xv6Rust.UserIsolation
import Xv6Rust.KernelStacks
import Xv6Rust.FirstTable

/-!
# Pages over the life of a process

The pages that leave the heap on behalf of a process, from its `fork` to the `wait` that reaps it.
`kstack_alloc` takes four pages for each task. They are mapped when the `tid` is used for the first
time; later they are mapped nowhere and written down nowhere, and so no run returns them.
-/

namespace Xv6Rust.ProcessPages

open Runs Results RadixTable Paging PageTable UserUnmap UserMemory PageEffects UserIsolation
open KernelStacks (RecycleAllocator)
open FirstTable (uvmAlloc_eq_first unmapLoop_eq_first)

/-- Ways to stop. -/
inductive Stop where
  /-- A panic of the memory functions. -/
  | panic (e : Panic)
  /-- The parent in `fork` has no task. -/
  | noTask
  /-- An assertion of `tid_dealloc`. -/
  | tidDealloc
  /-- `RawQuadPage::new_zeroed` finds no such block. -/
  | noBlock
  /-- A step of `UserMemory` stops. -/
  | user (e : UserMemory.Stop)

/-- Processes and memory, the `tid`, the kernel stacks that are mapped, and the pages taken. -/
structure System where
  /-- Memory and the process table. -/
  user : UserMemory.System
  /-- `TID_ALLOCATOR`. -/
  tids : RecycleAllocator
  /-- `kernel_table_lock`: so many kernel stacks are mapped. -/
  mapped : ℕ
  /-- The pages that left the heap on behalf of the process that `fork` last made in a slot, but for
  the kernel stacks that were mapped, and are not back. -/
  behalf : ℕ → List ℕ

/-- What `Task::new` and `Task::from` leave. -/
structure Created where
  /-- The page table of the process. -/
  pgt : PageTable
  /-- Memory. -/
  mem : Mem
  /-- `TID_ALLOCATOR`. -/
  tids : RecycleAllocator
  /-- `kernel_table_lock`. -/
  mapped : ℕ
  /-- The task. -/
  task : Task

/-- `Task::new` and `Task::from`: the block for the kernel stack is mapped if the `tid` has none,
as in `kvm_task_kstack_map`; the tables for this are pages of the kernel. -/
def createTask (pgt : PageTable) (m : Mem) (tids : RecycleAllocator) (mapped base : ℕ) :
    Except Stop Created :=
  if FreeBlock m base then do
    let r ← (newTask pgt (takeBlock m base) tids.tidAlloc.1).mapError .panic
    .ok ⟨r.1,r.2.1,tids.tidAlloc.2,if mapped ≤ tids.tidAlloc.1 then mapped+1 else mapped,r.2.2⟩
  else .error .noBlock

/-- `fork`. -/
def fork (s : System) (parent : Proc) (pid base : ℕ) :
    Except Stop (Mem×RecycleAllocator×ℕ×Option Proc) := do
  let r ← (allocProc s.user.mem s.user.trampolinePage pid).mapError .panic
  match r with
  | (m,none) => .ok (m,s.tids,s.mapped,none)
  | (m,some child) => do
    let r ← (uvmCopy parent.pgt child.pgt m parent.size).mapError .panic
    match r with
    | (pgt,m,false) => do
      let m ← (cleanup {child with pgt := pgt} m).mapError .panic
      .ok (m.free child.alarm,s.tids,s.mapped,none)
    | (pgt,m,true) =>
      if parent.task=none then .error .noTask
      else do
        let r ← createTask pgt m s.tids s.mapped base
        .ok (r.mem,r.tids,r.mapped,
          some {child with pgt := r.pgt,size := parent.size,task := some r.task})

/-- `Drop for Task`. -/
def dropTask (pgt : PageTable) (m : Mem) (tids : RecycleAllocator) (task : Option Task) :
    Except Stop (PageTable×Mem×RecycleAllocator) := do
  let r ← (UserMemory.dropTask pgt m task).mapError .panic
  match task with
  | none => .ok (r.1,r.2,tids)
  | some task =>
    match tids.tidDealloc task.tid with
    | none => .error .tidDealloc
    | some tids => .ok (r.1,r.2,tids)

/-- `exec`. -/
def exec (s : System) (p : Proc) (img : Image) (base : ℕ) :
    Except Stop (Mem×RecycleAllocator×ℕ×Proc) := do
  let r ← (allocProcPagetable s.user.mem s.user.trampolinePage p.trapframe p.up p.pid).mapError
    .panic
  match r with
  | (m,none) => .ok (m,s.tids,s.mapped,p)
  | (m,some pgt) => do
    let r ← (loadImage pgt m img p.pid).mapError .panic
    match r with
    | (m,none) => .ok (m,s.tids,s.mapped,p)
    | (m,some (pgt,size)) => do
      let old ← dropTask p.pgt m s.tids p.task
      let r ← createTask pgt old.2.1 old.2.2 s.mapped base
      let m ← (discard old.1 r.mem p.size p.pid).mapError .panic
      .ok (m,r.tids,r.mapped,{p with pgt := r.pgt,size := size,task := some r.task})

/-- Steps. `fork` and `exec` name the block that the allocator picks for the kernel stack. -/
inductive Label where
  /-- `fork` into a free slot. -/
  | fork (i j pid base : ℕ)
  /-- `exec`. -/
  | exec (i : ℕ) (img : Image) (base : ℕ)
  /-- `exit`. -/
  | exit (i : ℕ)
  /-- Any other step of `UserMemory`. -/
  | other (a : UserMemory.Label)

/-- The pages that left the heap, without those of a kernel stack that was mapped. -/
def taken (m m' : Mem) (mapped : Bool) (base : ℕ) : List ℕ :=
  m.heap.filter fun ppn => ppn∉m'.heap ∧ (mapped=true → ¬InBlock base ppn)

/-- The slot whose process takes pages in a step of `UserMemory`. -/
def taker : UserMemory.Label → Option ℕ
  | .sbrk i _ => some i
  | .fault i _ => some i
  | _ => none

/-- The steps of `UserMemory` that create or drop tasks. -/
def own : UserMemory.Label → Bool
  | .fork _ _ _ _ => true
  | .exec _ _ _ => true
  | .exit _ => true
  | _ => false

/-- The state after a step in which pages left the heap on behalf of a slot. -/
def System.settle (s : System) (user : UserMemory.System) (tids : RecycleAllocator) (mapped : ℕ)
    (i : Option ℕ) (pages : List ℕ) : System :=
  ⟨user,tids,mapped,fun k =>
    (if i=some k then pages else [])++(s.behalf k).filter fun ppn => ppn∉user.mem.heap⟩

/-- A slot starts without pages. -/
def System.forget (s : System) (i : ℕ) : System :=
  {s with behalf := Function.update s.behalf i []}

/-- A step. -/
def step (s : System) : Label → Outcome Stop System
  | .fork i j pid base =>
    match s.user.procs i with
    | none => .blocked
    | some parent =>
      if parent.zombie=false ∧ s.user.Vacant j then
        match fork s parent pid base with
        | .error e => .fault e
        | .ok (m,tids,mapped,none) =>
          .next (s.settle {s.user with mem := m} tids mapped none [])
        | .ok (m,tids,mapped,some child) =>
          .next ((s.forget j).settle (s.user.put j m (some child)) tids mapped (some j)
            (taken s.user.mem m (decide (s.mapped≠mapped)) base))
      else .blocked
  | .exec i img base =>
    match s.user.procs i with
    | none => .blocked
    | some p =>
      if p.zombie=true then .blocked
      else
        match exec s p img base with
        | .error e => .fault e
        | .ok (m,tids,mapped,p) =>
          .next (s.settle (s.user.put i m (some p)) tids mapped (some i)
            (taken s.user.mem m (decide (s.mapped≠mapped)) base))
  | .exit i =>
    match s.user.procs i with
    | none => .blocked
    | some p =>
      if p.zombie=true then .blocked
      else
        match dropTask p.pgt s.user.mem s.tids p.task with
        | .error e => .fault e
        | .ok (pgt,m,tids) =>
          .next (s.settle (s.user.put i m (some {p with pgt := pgt,task := none,zombie := true}))
            tids s.mapped none [])
  | .other a =>
    if own a=true then .blocked
    else
      match UserMemory.step s.user a with
      | .blocked => .blocked
      | .fault e => .fault (.user e)
      | .next user =>
        .next (s.settle user s.tids s.mapped (taker a) (taken s.user.mem user.mem false 0))

/-- What each step does when it is taken. -/
inductive Change (s : System) : Label → System → Prop
  /-- `fork` fails. -/
  | forkFailed {i j pid base mapped : ℕ} {m : Mem} {tids : RecycleAllocator} {parent : Proc}
      (place : s.user.procs i=some parent) (alive : parent.zombie=false) (vacant : s.user.Vacant j)
      (done : fork s parent pid base=.ok (m,tids,mapped,none)) :
      Change s (.fork i j pid base) (s.settle {s.user with mem := m} tids mapped none [])
  /-- `fork`. -/
  | fork {i j pid base mapped : ℕ} {m : Mem} {tids : RecycleAllocator} {parent child : Proc}
      (place : s.user.procs i=some parent) (alive : parent.zombie=false) (vacant : s.user.Vacant j)
      (done : ProcessPages.fork s parent pid base=.ok (m,tids,mapped,some child)) :
      Change s (.fork i j pid base) ((s.forget j).settle (s.user.put j m (some child)) tids mapped
        (some j) (taken s.user.mem m (decide (s.mapped≠mapped)) base))
  /-- `exec`. -/
  | exec {i base mapped : ℕ} {img : Image} {m : Mem} {tids : RecycleAllocator} {p p' : Proc}
      (place : s.user.procs i=some p) (alive : p.zombie=false)
      (done : exec s p img base=.ok (m,tids,mapped,p')) :
      Change s (.exec i img base) (s.settle (s.user.put i m (some p')) tids mapped (some i)
        (taken s.user.mem m (decide (s.mapped≠mapped)) base))
  /-- `exit`. -/
  | exit {i : ℕ} {m : Mem} {tids : RecycleAllocator} {pgt : PageTable} {p : Proc}
      (place : s.user.procs i=some p) (alive : p.zombie=false)
      (done : dropTask p.pgt s.user.mem s.tids p.task=.ok (pgt,m,tids)) :
      Change s (.exit i)
        (s.settle (s.user.put i m (some {p with pgt := pgt,task := none,zombie := true})) tids
          s.mapped none [])
  /-- Any other step. -/
  | other {a : UserMemory.Label} {user : UserMemory.System} (shared : own a=false)
      (done : UserMemory.step s.user a=.next user) :
      Change s (.other a)
        (s.settle user s.tids s.mapped (taker a) (taken s.user.mem user.mem false 0))

/-- Every step that is taken is one of these. -/
theorem step_change {s t : System} {a : Label} (h : step s a=.next t) : Change s a t := by
  cases a with
  | fork i j pid base =>
    rw [step] at h
    split at h
    · cases h
    · rename_i parent hp
      split at h
      · rename_i hv
        split at h
        · cases h
        · rename_i m tids mapped hf
          cases h
          exact .forkFailed hp hv.1 hv.2 hf
        · rename_i m tids mapped child hf
          cases h
          exact .fork hp hv.1 hv.2 hf
      · cases h
  | exec i img base =>
    rw [step] at h
    split at h
    · cases h
    · rename_i p hp
      split at h
      · cases h
      · rename_i hz
        split at h
        · cases h
        · rename_i m tids mapped p' he
          cases h
          exact .exec hp (Bool.eq_false_iff.mpr hz) he
  | exit i =>
    rw [step] at h
    split at h
    · cases h
    · rename_i p hp
      split at h
      · cases h
      · rename_i hz
        split at h
        · cases h
        · rename_i pgt m tids hd
          cases h
          exact .exit hp (Bool.eq_false_iff.mpr hz) hd
  | other a =>
    rw [step] at h
    split at h
    · cases h
    · rename_i ha
      split at h
      · cases h
      · cases h
      · rename_i user hu
        cases h
        exact .other (Bool.eq_false_iff.mpr ha) hu

/-- The page is behind no entry of a page table. -/
def Clear (x : ℕ) (pgt : PageTable) : Prop :=
  ∀ page,page<pages → ValidAt pgt page → (pgt.entryAt page).ppn≠x

/-- No entry of a page table, none of its tables and no free page is the page. -/
structure Absent (x : ℕ) (pgt : PageTable) (m : Mem) : Prop where
  /-- It is not free. -/
  heap : x∉m.heap
  /-- It is no table. -/
  frames : x∉pgt.frames
  /-- It is behind no entry. -/
  entries : Clear x pgt

section Absence

variable {x : ℕ} {K : Finset ℕ} {A : Set ℕ} {pgt pgt' : PageTable} {m m' : Mem} {page ppn : ℕ}
  {perm : PteFlag}

/-- Pages behind entries. -/
theorem mem_leaves_iff : x∈leaves K pgt ↔
    ∃ page,page<pages ∧ page∉K ∧ ValidAt pgt page ∧ (pgt.entryAt page).ppn=x := by
  rw [leaves,Multiset.mem_sum]
  constructor
  · rintro ⟨page,hp,hx⟩
    obtain ⟨hlt,hk⟩ := Finset.mem_sdiff.mp hp
    by_cases hv : ValidAt pgt page
    · rw [cell_of_valid hv] at hx
      exact ⟨page,Finset.mem_range.mp hlt,hk,hv,(Multiset.mem_singleton.mp hx).symm⟩
    · rw [cell_of_not_valid hv] at hx
      exact absurd hx (Multiset.notMem_zero x)
  · rintro ⟨page,hlt,hk,hv,rfl⟩
    refine ⟨page,Finset.mem_sdiff.mpr ⟨Finset.mem_range.mpr hlt,hk⟩,?_⟩
    rw [cell_of_valid hv]
    exact Multiset.mem_singleton_self _

theorem not_mem_pool : x∉pool K pgt m ↔ x∉m.heap ∧ x∉pgt.frames ∧ x∉leaves K pgt := by
  rw [pool,Multiset.mem_add,Multiset.mem_add,not_or,not_or,Multiset.mem_coe,Multiset.mem_coe,
    and_assoc]

/-- A page that is absent is not in the pool. -/
theorem Absent.pool (h : Absent x pgt m) : x∉pool K pgt m := by
  refine not_mem_pool.mpr ⟨h.heap,h.frames,fun hl => ?_⟩
  obtain ⟨page,hlt,-,hv,hx⟩ := mem_leaves_iff.mp hl
  exact h.entries page hlt hv hx

/-- A page outside the pool is absent, unless it is behind an entry that does not count. -/
theorem absent_of_pool (h : x∉PageEffects.pool K pgt m)
    (hK : ∀ page∈K,page<pages → ValidAt pgt page → (pgt.entryAt page).ppn≠x) : Absent x pgt m := by
  obtain ⟨h1,h2,h3⟩ := not_mem_pool.mp h
  refine ⟨h1,h2,fun page hlt hv => ?_⟩
  by_cases hk : page∈K
  · exact hK page hk hlt hv
  · exact fun e => h3 (e ▸ mem_leaves hlt hk hv)

/-- A rearrangement refers to no new page. -/
theorem Absent.rearranges (h : Absent x pgt m) (hr : Rearranges K A pgt m pgt' m') :
    Absent x pgt' m' := by
  have hp : x∉PageEffects.pool K pgt' m' := hr.pool ▸ h.pool
  refine absent_of_pool hp fun page hk hlt hv => ?_
  have hw := hr.kept page hk hlt
  rw [hw.ppn]
  rw [ValidAt,hw.isValid] at hv
  exact h.entries page hlt hv

/-- `map_pages` of a page writes that page into the entries. -/
theorem Clear.mapPages {r : Except MapError Unit} (h : Clear x pgt) (hne : ppn≠x)
    (hm : pgt.mapPages m (page*pageSize) pageSize ppn perm=.ok (pgt',m',r)) : Clear x pgt' := by
  intro q hlt hv
  obtain ⟨-,-,-,hmap,-⟩ | ⟨-,hs,-,-⟩ := mapPages_cases (K:=∅) hm
  · by_cases e : q=page
    · rw [e,hmap.self]
      exact hne
    · have hsame := hmap.other q hlt e
      rw [ValidAt,hsame] at hv
      rw [hsame]
      exact h q hlt hv
  · rw [ValidAt,hs q] at hv
    rw [hs q]
    exact h q hlt hv

/-- `map_pages` of a page refers to that page and to pages of the heap. -/
theorem Absent.mapPages {r : Except MapError Unit} (h : Absent x pgt m) (hne : ppn≠x)
    (hm : pgt.mapPages m (page*pageSize) pageSize ppn perm=.ok (pgt',m',r)) : Absent x pgt' m' := by
  -- all entries count but that of the page
  obtain ⟨K,hpage⟩ : ∃ K : Finset ℕ,page∈K := ⟨{page},Finset.mem_singleton_self page⟩
  have hp : PageEffects.pool K pgt' m'=PageEffects.pool K pgt m := by
    obtain ⟨-,-,hm',hmap,hf⟩ | ⟨-,-,hp,-⟩ := mapPages_cases (K:=K) hm
    · rw [pool_mapped (K:=K) hm' hmap hf,if_pos hpage,add_zero]
    · exact hp
  have hx : x∉PageEffects.pool K pgt' m' := hp ▸ h.pool
  obtain ⟨h1,h2,-⟩ := not_mem_pool.mp hx
  exact ⟨h1,h2,h.entries.mapPages hne hm⟩

/-- Clearing an entry. -/
theorem Absent.clearPage (h : Absent x pgt m) : Absent x (clearPage pgt page) m := by
  refine ⟨h.heap,clearPage_frames pgt page ▸ h.frames,fun q hlt hv => ?_⟩
  rw [UserUnmap.clearPage] at hv ⊢
  split at hv
  · rename_i hm
    rw [if_pos hm]
    rw [ValidAt,entryAt_setPte (find_of_valid (valid_of_mapped hm))] at hv
    rw [entryAt_setPte (find_of_valid (valid_of_mapped hm))]
    split at hv
    · exact absurd hv (by decide)
    · rename_i hne
      rw [if_neg hne]
      exact h.entries q hlt hv
  · rename_i hm
    rw [if_neg hm]
    exact h.entries q hlt hv

theorem trapframeFromTid_page (tid : ℕ) :
    trapframeFromTid tid/pageSize*pageSize=trapframeFromTid tid ∧
      trapframeFromTid tid/pageSize*pageSize+pageSize<2^64 := by
  simp only [trapframeFromTid,trapframe,trampoline,maxva,pageSize]
  omega

/-- `Drop for Task` unmaps the trap frame. -/
theorem Absent.dropTask {task : Option Task} (h : Absent x pgt m)
    (hd : UserMemory.dropTask pgt m task=.ok (pgt',m')) : Absent x pgt' m' := by
  cases task with
  | none =>
    cases hd
    exact h
  | some task =>
    obtain ⟨hpage,hb⟩ := trapframeFromTid_page task.tid
    rw [UserMemory.dropTask,← hpage] at hd
    obtain ⟨hr,-⟩ | ⟨hr,-⟩ := @uvmUnmap_keep pgt m _ hb
    · rw [hr] at hd
      cases hd
      exact h.clearPage
    · rw [hr] at hd
      cases hd

/-- One more kernel page in a new page table. -/
theorem Clear.mapKernelPage (h : Clear x pgt) (hne : ppn≠x)
    (hm : pgt.mapKernelPage m (page*pageSize) ppn perm=.ok (m',some pgt')) : Clear x pgt' := by
  obtain ⟨⟨u,v,w⟩,hr,he⟩ := bind_eq_ok hm
  cases w with
  | ok _ =>
    cases he
    exact h.mapPages hne hr
  | error _ => cases he

/-- `alloc_proc_pagetable` maps the pages it is given. -/
theorem clear_allocProcPagetable {tramp tf up pid : ℕ} (h1 : tramp≠x) (h2 : tf≠x) (h3 : up≠x)
    (h : allocProcPagetable m tramp tf up pid=.ok (m',some pgt)) : Clear x pgt := by
  rw [allocProcPagetable] at h
  split at h
  · cases h
  · rename_i frame heap hm
    have hempty : Clear x (⟨Table.empty Pte.zero 2,[frame]⟩ : PageTable) := by
      intro page _ hv
      rw [ValidAt,entryAt_empty] at hv
      exact absurd hv (by decide)
    obtain ⟨⟨m1,r1⟩,e1,h⟩ := bind_eq_ok h
    rw [← trampoline_aligned] at e1
    cases r1 with
    | none => cases h
    | some pgt1 =>
      dsimp only at h
      split at h
      · cases h
      · rename_i hpid
        obtain ⟨⟨m2,r2⟩,e2,h⟩ := bind_eq_ok h
        rw [← trapframeFromPid_aligned (not_not.mp hpid)] at e2
        cases r2 with
        | none => cases h
        | some pgt2 =>
          dsimp only at h
          rw [← usyscall_aligned] at h
          exact ((hempty.mapKernelPage h1 e1).mapKernelPage h2 e2).mapKernelPage h3 h

/-- `alloc_proc_pagetable` refers to the pages it is given and to pages of the heap. -/
theorem absent_allocProcPagetable {tramp tf up pid : ℕ} {r : Option PageTable} (hx : x∉m.heap)
    (h1 : tramp≠x) (h2 : tf≠x) (h3 : up≠x)
    (h : allocProcPagetable m tramp tf up pid=.ok (m',r)) :
    x∉m'.heap ∧ ∀ pgt,r=some pgt → Absent x pgt m' := by
  obtain ⟨rfl,he⟩ | ⟨pgt,rfl,-,-,he,-⟩ := allocProcPagetable_effect h
  · refine ⟨fun hin => hx ?_,fun pgt e => by cases e⟩
    exact Multiset.mem_coe.mp (he ▸ Multiset.mem_coe.mpr hin)
  · have hpages : x∉(m'.heap : Multiset ℕ)+pgt.frames := fun hin =>
      hx (Multiset.mem_coe.mp (he ▸ hin))
    rw [Multiset.mem_add,not_or,Multiset.mem_coe,Multiset.mem_coe] at hpages
    refine ⟨hpages.1,fun pgt' e => ?_⟩
    cases e
    exact ⟨hpages.1,hpages.2,clear_allocProcPagetable h1 h2 h3 h⟩

/-- `dealloc_proc_pagetable` frees pages that the page table refers to. -/
theorem Absent.discard {size pid : ℕ} (h : Absent x pgt m)
    (hd : discard pgt m size pid=.ok m') : x∉m'.heap := fun hx =>
  h.pool (Multiset.mem_of_le (discard_effect hd) hx)

/-- `load`. -/
theorem Absent.loadImage {img : Image} {pid : ℕ} {r : Option (PageTable×ℕ)}
    (h : Absent x pgt m) (hK : KernelValid (kernelPages pid) pgt)
    (hl : loadImage pgt m img pid=.ok (m',r)) :
    x∉m'.heap ∧ ∀ pgt' size,r=some (pgt',size) → Absent x pgt' m' := by
  obtain ⟨rfl,hle⟩ | ⟨pgt',size,rfl,hre⟩ := loadImage_effect hK hl
  · exact ⟨fun hx => h.pool (Multiset.mem_of_le hle hx),fun pgt' size e => by cases e⟩
  · have hu := h.rearranges hre
    refine ⟨hu.heap,fun pgt' size e => ?_⟩
    cases e
    exact hu

/-- `Task::new`. -/
theorem Absent.newTask {tid : ℕ} {task : Task} (h : Absent x pgt m)
    (hn : newTask pgt m tid=.ok (pgt',m',task)) : Absent x pgt' m' ∧ task.page≠x := by
  obtain ⟨K,hpage,hK⟩ : ∃ K : Finset ℕ,taskPage tid∈K ∧ ∀ q∈K,q=taskPage tid :=
    ⟨{taskPage tid},Finset.mem_singleton_self _,fun q => Finset.mem_singleton.mp⟩
  obtain ⟨-,-,-,hpool,-,hself,-⟩ := newTask_effect (K:=K) hn
  rw [Finset.insert_eq_of_mem hpage] at hpool
  have hx : x∉PageEffects.pool K pgt' m'+{task.page} := hpool ▸ h.pool
  rw [Multiset.mem_add,not_or,Multiset.mem_singleton] at hx
  refine ⟨absent_of_pool hx.1 fun page hk _ _ => ?_,Ne.symm hx.2⟩
  rw [hK page hk,hself]
  exact Ne.symm hx.2

/-- Only the free pages of memory matter. -/
theorem Absent.memory (h : Absent x pgt m) (hx : x∉m'.heap) : Absent x pgt m' :=
  ⟨hx,h.frames,h.entries⟩

end Absence

/-- No page of a process, and no free page, is the page. -/
structure Unused (x : ℕ) (p : Proc) (m : Mem) : Prop where
  /-- Its page table. -/
  pgt : Absent x p.pgt m
  /-- Its trap frame. -/
  trapframe : p.trapframe≠x
  /-- The page behind `USYSCALL`. -/
  up : p.up≠x
  /-- The alarm frame. -/
  alarm : p.alarm≠x

section Operations

variable {x : ℕ} {s : System} {p p' : Proc} {m m' : Mem} {pgt pgt' : PageTable} {pid base : ℕ}

/-- `alloc_proc` refers to pages of the heap and to the trampoline. -/
theorem allocProc_unused {tramp : ℕ} {r : Option Proc} (hx : x∉m.heap) (ht : tramp≠x)
    (h : allocProc m tramp pid=.ok (m',r)) : x∉m'.heap ∧ ∀ p,r=some p → Unused x p m' := by
  rw [allocProc] at h
  split at h
  · rename_i tf up alarm heap hm
    rw [hm] at hx
    simp only [List.mem_cons,not_or] at hx
    obtain ⟨h1,h2,h3,h4⟩ := hx
    obtain ⟨⟨m₁,r₁⟩,hr,h⟩ := bind_eq_ok h
    obtain ⟨a,b⟩ := absent_allocProcPagetable h4 ht (Ne.symm h1) (Ne.symm h2) hr
    cases r₁ with
    | none =>
      cases h
      exact ⟨List.not_mem_cons_of_ne_of_not_mem h1 a,fun p e => by cases e⟩
    | some pgt =>
      cases h
      refine ⟨a,fun p e => ?_⟩
      cases e
      exact ⟨b pgt rfl,Ne.symm h1,Ne.symm h2,Ne.symm h3⟩
  · cases h
    exact ⟨List.not_mem_nil,fun p e => by cases e⟩

/-- `cleanup`. -/
theorem Unused.cleanup (h : Unused x p m) (hc : cleanup p m=.ok m') : x∉m'.heap := by
  refine (h.pgt.memory ?_).discard hc
  simp only [Mem.free,List.mem_cons,not_or]
  exact ⟨Ne.symm h.up,Ne.symm h.trapframe,h.pgt.heap⟩

/-- `uvm_copy`. -/
theorem Absent.uvmCopy {parent : PageTable} {size : ℕ} {done : Bool} (h : Absent x pgt m)
    (hc : uvmCopy parent pgt m size=.ok (pgt',m',done)) : Absent x pgt' m' := by
  obtain ⟨K,hK⟩ : ∃ K : Finset ℕ,∀ q,q∉K := ⟨∅,Finset.notMem_empty⟩
  exact h.rearranges (copyLoop_effect (K:=K) (fun q hq => absurd hq (hK q))
    (fun j hj => absurd hj (Nat.not_lt_zero j)) hc)

/-- A block leaves the heap. -/
theorem Absent.takeBlock (h : Absent x pgt m) : Absent x pgt (takeBlock m base) :=
  h.memory fun hx => h.heap (List.mem_of_mem_filter hx)

/-- The computation is one of the memory functions. -/
theorem ok_of_mapError {α : Type} {r : Except Panic α} {a : α}
    (h : r.mapError Stop.panic=.ok a) : r=.ok a := by
  cases r with
  | ok b =>
    cases h
    rfl
  | error e => cases h

/-- `Task::new` and `Task::from`. -/
theorem Absent.createTask {tids : RecycleAllocator} {mapped : ℕ} {r : Created}
    (h : Absent x pgt m) (hc : createTask pgt m tids mapped base=.ok r) : Absent x r.pgt r.mem := by
  rw [ProcessPages.createTask] at hc
  split at hc
  · obtain ⟨⟨u,v,w⟩,hr,hc⟩ := bind_eq_ok hc
    cases hc
    exact (h.takeBlock.newTask (ok_of_mapError hr)).1
  · cases hc

/-- `fork`. -/
theorem fork_unused {tids : RecycleAllocator} {mapped : ℕ} {r : Option Proc}
    (hx : x∉s.user.mem.heap) (ht : s.user.trampolinePage≠x)
    (h : fork s p pid base=.ok (m,tids,mapped,r)) :
    x∉m.heap ∧ ∀ child,r=some child → Unused x child m := by
  obtain ⟨⟨m₁,r₁⟩,hr,h⟩ := bind_eq_ok h
  obtain ⟨a,b⟩ := allocProc_unused hx ht (ok_of_mapError hr)
  cases r₁ with
  | none =>
    cases h
    exact ⟨a,fun child e => by cases e⟩
  | some child =>
    obtain ⟨⟨pgt,m₂,done⟩,hcopy,h⟩ := bind_eq_ok h
    have hu := b child rfl
    have hpgt := hu.pgt.uvmCopy (ok_of_mapError hcopy)
    cases done with
    | false =>
      obtain ⟨m₃,hc,h⟩ := bind_eq_ok h
      cases h
      have hchild : Unused x {child with pgt := pgt} m₂ := ⟨hpgt,hu.trapframe,hu.up,hu.alarm⟩
      exact ⟨List.not_mem_cons_of_ne_of_not_mem (Ne.symm hu.alarm)
        (hchild.cleanup (ok_of_mapError hc)),fun child e => by cases e⟩
    | true =>
      dsimp only at h
      split at h
      · cases h
      · obtain ⟨r₃,hn,h⟩ := bind_eq_ok h
        cases h
        have hnew := hpgt.createTask hn
        refine ⟨hnew.heap,fun child' e => ?_⟩
        cases e
        exact ⟨hnew,hu.trapframe,hu.up,hu.alarm⟩

/-- `Drop for Task`. -/
theorem Absent.drop {task : Option Task} {tids tids' : RecycleAllocator} (h : Absent x pgt m)
    (hd : ProcessPages.dropTask pgt m tids task=.ok (pgt',m',tids')) : Absent x pgt' m' := by
  obtain ⟨⟨u,v⟩,hr,hd⟩ := bind_eq_ok hd
  have hu := h.dropTask (ok_of_mapError hr)
  cases task with
  | none =>
    cases hd
    exact hu
  | some task =>
    dsimp only at hd
    split at hd
    · cases hd
    · cases hd
      exact hu

/-- `exec`. -/
theorem Unused.exec {tids : RecycleAllocator} {mapped : ℕ} {img : Image}
    (hu : Unused x p s.user.mem) (ht : s.user.trampolinePage≠x)
    (h : exec s p img base=.ok (m,tids,mapped,p')) : Unused x p' m := by
  obtain ⟨⟨m₁,r₁⟩,h1,h⟩ := bind_eq_ok h
  have h1 := ok_of_mapError h1
  obtain ⟨a,b⟩ := absent_allocProcPagetable hu.pgt.heap ht hu.trapframe hu.up h1
  cases r₁ with
  | none =>
    cases h
    exact ⟨hu.pgt.memory a,hu.trapframe,hu.up,hu.alarm⟩
  | some pgt =>
    have hK : KernelValid (kernelPages p.pid) pgt := by
      obtain ⟨e,-⟩ | ⟨pgt',e,-,hf,-⟩ := allocProcPagetable_effect h1
      · cases e
      · cases e
        exact hf.kernel
    obtain ⟨⟨m₂,r₂⟩,h2,h⟩ := bind_eq_ok h
    obtain ⟨c,d⟩ := (b pgt rfl).loadImage hK (ok_of_mapError h2)
    cases r₂ with
    | none =>
      cases h
      exact ⟨hu.pgt.memory c,hu.trapframe,hu.up,hu.alarm⟩
    | some loaded =>
      obtain ⟨⟨old,m₃,tids₁⟩,h3,h⟩ := bind_eq_ok h
      obtain ⟨r,h4,h⟩ := bind_eq_ok h
      obtain ⟨m₅,h5,h⟩ := bind_eq_ok h
      cases h
      have hold := (hu.pgt.memory c).drop h3
      have hnew := ((d loaded.1 loaded.2 rfl).memory hold.heap).createTask h4
      have hend := (hold.memory hnew.heap).discard (ok_of_mapError h5)
      exact ⟨hnew.memory hend,hu.trapframe,hu.up,hu.alarm⟩

/-- `sbrk`. -/
theorem Unused.sbrk {increment : ℤ} (hu : Unused x p m) (h : sbrk p m increment=.ok (m',p')) :
    Unused x p' m' := by
  rw [UserMemory.sbrk] at h
  split at h
  · split at h
    · cases h
    · cases h
      exact ⟨hu.pgt,hu.trapframe,hu.up,hu.alarm⟩
  split at h
  · split at h
    · cases h
    · obtain ⟨⟨u,v,w⟩,hr,h⟩ := bind_eq_ok h
      cases h
      obtain ⟨K,hK⟩ : ∃ K : Finset ℕ,∀ q,q∉K := ⟨∅,Finset.notMem_empty⟩
      exact ⟨hu.pgt.rearranges (uvmDealloc_effect (K:=K) hr fun i _ _ => hK _).1,hu.trapframe,
        hu.up,hu.alarm⟩
  · cases h
    exact hu

/-- A page fault maps page 0 or a page of the heap. -/
theorem Unused.pageFault {va : ℕ} (hu : Unused x p m) (h0 : x≠0)
    (h : pageFault p m va=.ok (m',p')) : Unused x p' m' := by
  rw [UserMemory.pageFault] at h
  have hround : pgRoundDown va=va/pageSize*pageSize := rfl
  rw [hround] at h
  split at h
  · obtain ⟨⟨u,v,w⟩,hr,h⟩ := bind_eq_ok h
    cases h
    exact ⟨hu.pgt.mapPages (Ne.symm h0) hr,hu.trapframe,hu.up,hu.alarm⟩
  · rename_i ppn heap hm
    obtain ⟨⟨u,v,w⟩,hr,h⟩ := bind_eq_ok h
    cases h
    have hx := hu.pgt.heap
    rw [hm,List.mem_cons,not_or] at hx
    have hless : Absent x p.pgt {m with heap := heap} := hu.pgt.memory hx.2
    exact ⟨hless.mapPages (Ne.symm hx.1) hr,hu.trapframe,hu.up,hu.alarm⟩

/-- `user_init` after `alloc_proc`. -/
theorem Unused.userInit (hu : Unused x p m) (h : userInit p m=.ok (m',p')) : Unused x p' m' := by
  obtain ⟨ppn,heap,u,hm,rfl,hr⟩ := userInit_maps h
  have hx := hu.pgt.heap
  rw [hm,List.mem_cons,not_or] at hx
  have hless : Absent x p.pgt (m.zeroed heap ppn) := hu.pgt.memory hx.2
  exact ⟨hless.mapPages (Ne.symm hx.1) hr,hu.trapframe,hu.up,hu.alarm⟩

end Operations

/-- A page of the heap that nothing refers to. -/
structure Outside (x : ℕ) (s : UserMemory.System) : Prop where
  /-- It is not page 0. -/
  zero : x≠0
  /-- It is not the page of the trampoline code. -/
  trampoline : s.trampolinePage≠x
  /-- It is not free. -/
  heap : x∉s.mem.heap
  /-- It is no page that the kernel gives back. -/
  kernel : x∉s.kernel
  /-- It is no page of a process. -/
  procs : ∀ i p,s.procs i=some p → Unused x p s.mem

section Steps

variable {x i : ℕ} {s t : UserMemory.System} {p : Proc} {m : Mem}

/-- Memory changes, and one slot. -/
theorem Outside.put (h : Outside x s) {r : Option Proc} (hx : x∉m.heap)
    (hr : ∀ p,r=some p → Unused x p m) : Outside x (s.put i m r) := by
  refine ⟨h.zero,h.trampoline,hx,h.kernel,fun j p hj => ?_⟩
  by_cases e : j=i
  · have hself : (s.put i m r).procs j=r := e ▸ Function.update_self ..
    exact hr p (hself ▸ hj)
  · have hsame : (s.put i m r).procs j=s.procs j := Function.update_of_ne e ..
    have hu := h.procs j p (hsame ▸ hj)
    exact ⟨hu.pgt.memory hx,hu.trapframe,hu.up,hu.alarm⟩

/-- Memory changes. -/
theorem Outside.memory (h : Outside x s) (hx : x∉m.heap) : Outside x {s with mem := m} := by
  refine ⟨h.zero,h.trampoline,hx,h.kernel,fun j p hj => ?_⟩
  have hu := h.procs j p hj
  exact ⟨hu.pgt.memory hx,hu.trapframe,hu.up,hu.alarm⟩

/-- A process does not refer to the page after an operation. -/
theorem Outside.process (h : Outside x s) (hu : Unused x p m) : Outside x (s.put i m (some p)) := by
  refine h.put hu.pgt.heap fun q e => ?_
  cases e
  exact hu

/-- Reaping a process frees its pages. -/
theorem Outside.wait (h : Outside x s) {alarm : Bool} (hp : s.procs i=some p)
    (hc : cleanup p s.mem=.ok m) :
    Outside x (s.put i (if alarm=true then m.free p.alarm else m) none) := by
  have hu := h.procs i p hp
  have hx := hu.cleanup hc
  refine h.put ?_ fun q e => by cases e
  split
  · exact List.not_mem_cons_of_ne_of_not_mem (Ne.symm hu.alarm) hx
  · exact hx

/-- The steps of `UserMemory` that `System` shares do not refer to the page. -/
theorem Outside.userStep (h : Outside x s) {a : UserMemory.Label}
    (ha : own a=false) (hs : UserMemory.step s a=.next t) : Outside x t := by
  cases UserMemory.step_change hs with
  | init hv hp hi =>
    exact h.process (((allocProc_unused h.heap h.trampoline hp).2 _ rfl).userInit hi)
  | forkFailed hp hz hv hf => cases ha
  | fork hp hz hv hf => cases ha
  | exec hp hz hf => cases ha
  | sbrk hp hz hf => exact h.process ((h.procs _ _ hp).sbrk hf)
  | fault hp hz hf => exact h.process ((h.procs _ _ hp).pageFault h.zero hf)
  | exit hp hz hf => cases ha
  | wait hp hz hc => exact h.wait hp hc
  | reorder hperm => exact h.memory fun hx => h.heap (hperm.mem_iff.mp hx)
  | @take ppn heap hm =>
    have hx := h.heap
    rw [hm,List.mem_cons,not_or] at hx
    have hm' := h.memory (m:={s.mem with heap := heap}) hx.2
    exact ⟨hm'.zero,hm'.trampoline,hm'.heap,List.not_mem_cons_of_ne_of_not_mem hx.1 h.kernel,
      hm'.procs⟩
  | @give ppn hin =>
    have hne : x≠ppn := fun e => h.kernel (e ▸ hin)
    have hm' := h.memory (m:=s.mem.free ppn) (List.not_mem_cons_of_ne_of_not_mem hne h.heap)
    exact ⟨hm'.zero,hm'.trampoline,hm'.heap,fun hk => h.kernel (List.mem_of_mem_erase hk),
      hm'.procs⟩

end Steps

/-- No step refers to a page that nothing refers to. -/
theorem outside_step {x : ℕ} {s t : System} {a : Label} (h : Outside x s.user)
    (hs : step s a=.next t) : Outside x t.user := by
  cases step_change hs with
  | forkFailed hp hz hv hf => exact h.memory (fork_unused h.heap h.trampoline hf).1
  | fork hp hz hv hf =>
    obtain ⟨h1,h2⟩ := fork_unused h.heap h.trampoline hf
    exact h.put h1 h2
  | exec hp hz he => exact h.process ((h.procs _ _ hp).exec h.trampoline he)
  | @exit i m tids pgt p hp hz hd =>
    have hu := h.procs i p hp
    have hpgt := hu.pgt.drop hd
    refine h.put hpgt.heap fun q e => ?_
    cases e
    exact ⟨hpgt,hu.trapframe,hu.up,hu.alarm⟩
  | other ha hu => exact h.userStep ha hu

section Leak

variable {x j : ℕ} {s t : System}

/-- A slot that has a process keeps one. -/
theorem put_procs {s : UserMemory.System} {i : ℕ} {m : Mem} {r : Option Proc}
    (hj : s.procs j≠none) (hr : i=j → r≠none) : (s.put i m r).procs j≠none := by
  by_cases e : j=i
  · have hself : (s.put i m r).procs j=r := e ▸ Function.update_self ..
    rw [hself]
    exact hr e.symm
  · have hsame : (s.put i m r).procs j=s.procs j := Function.update_of_ne e ..
    rw [hsame]
    exact hj

/-- A step of `UserMemory` other than `wait` keeps the process in its slot. -/
theorem userStep_procs {s t : UserMemory.System} {a : UserMemory.Label} (ha : own a=false)
    (hw : ∀ alarm,a≠.wait j alarm) (hj : s.procs j≠none) (hs : UserMemory.step s a=.next t) :
    t.procs j≠none := by
  cases UserMemory.step_change hs with
  | init hv hp hi => exact put_procs hj fun _ => Option.some_ne_none _
  | forkFailed hp hz hv hf => cases ha
  | fork hp hz hv hf => cases ha
  | exec hp hz hf => cases ha
  | sbrk hp hz hf => exact put_procs hj fun _ => Option.some_ne_none _
  | fault hp hz hf => exact put_procs hj fun _ => Option.some_ne_none _
  | exit hp hz hf => cases ha
  | @wait i alarm m p hp hz hc =>
    have hne : i≠j := fun e => hw alarm (e ▸ rfl)
    exact put_procs hj fun e => absurd e hne
  | reorder hperm => exact hj
  | take hm => exact hj
  | give hin => exact hj

/-- A page that is not back stays on the list. -/
theorem mem_settle {user : UserMemory.System} {tids : RecycleAllocator} {mapped : ℕ}
    {i : Option ℕ} {pages : List ℕ} (hx : x∈s.behalf j) (hout : x∉user.mem.heap) :
    x∈(s.settle user tids mapped i pages).behalf j :=
  List.mem_append_right _ (List.mem_filter.mpr ⟨hx,decide_eq_true hout⟩)

/-- A page that left the heap on behalf of the process of a slot, and that nothing refers to. -/
structure Leaked (x j : ℕ) (s : System) : Prop where
  /-- Nothing refers to it. -/
  outside : Outside x s.user
  /-- It is not back. -/
  behalf : x∈s.behalf j

/-- Only another process in the slot takes the page off the list. -/
theorem Leaked.step {a : Label} (h : Leaked x j s) (hj : s.user.procs j≠none)
    (hs : step s a=.next t) : Leaked x j t := by
  have hout := outside_step h.outside hs
  refine ⟨hout,?_⟩
  cases step_change hs with
  | forkFailed hp hz hv hf => exact mem_settle h.behalf hout.heap
  | @fork i k pid base mapped m tids parent child hp hz hv hf =>
    refine mem_settle ?_ hout.heap
    have hne : j≠k := fun e => hj (Option.isNone_iff_eq_none.mp (e ▸ hv.2))
    have hsame : (s.forget k).behalf j=s.behalf j := Function.update_of_ne hne ..
    rw [hsame]
    exact h.behalf
  | exec hp hz he => exact mem_settle h.behalf hout.heap
  | exit hp hz hd => exact mem_settle h.behalf hout.heap
  | other ha hu => exact mem_settle h.behalf hout.heap

/-- The step does not reap the process of a slot. -/
def NotReaped (j : ℕ) (_ : System) (a : Label) : Prop := ∀ alarm,a≠.other (.wait j alarm)

/-- A process stays in its slot until it is reaped. -/
theorem step_procs {a : Label} (hj : s.user.procs j≠none) (hw : NotReaped j s a)
    (hs : step s a=.next t) : t.user.procs j≠none := by
  cases step_change hs with
  | forkFailed hp hz hv hf => exact hj
  | fork hp hz hv hf => exact put_procs hj fun _ => Option.some_ne_none _
  | exec hp hz he => exact put_procs hj fun _ => Option.some_ne_none _
  | exit hp hz hd => exact put_procs hj fun _ => Option.some_ne_none _
  | other ha hu => exact userStep_procs ha (fun alarm e => hw alarm (e ▸ rfl)) hj hu

end Leak

/-- Free pages are free once, and nothing else refers to them. -/
structure Separate (s : UserMemory.System) : Prop where
  /-- No page is free twice. -/
  nodup : s.mem.heap.Nodup
  /-- The others do not refer to it. -/
  outside : ∀ x∈s.mem.heap,Outside x {s with mem := {s.mem with heap := s.mem.heap.erase x}}

section Fork

variable {x : ℕ} {m m₁ m₂ : Mem} {tramp pid size : ℕ} {child : Proc} {parent pgt : PageTable}
  {done : Bool}

/-- A page that is still free after memory was copied for a child is no page of the child. -/
theorem free_after_copy (hn : m.heap.Nodup)
    (ha : allocProc m tramp pid=.ok (m₁,some child))
    (hc : uvmCopy parent child.pgt m₁ size=.ok (pgt,m₂,done)) (hx : x∈m₂.heap) :
    x∈m.heap ∧ x∉pgt.frames ∧ (tramp≠x → Clear x pgt) ∧ child.trapframe≠x ∧ child.up≠x ∧ child.alarm≠x := by
  rw [allocProc] at ha
  split at ha
  · rename_i tf up alarm heap hm
    rw [hm] at hn ⊢
    obtain ⟨h1,hn⟩ := List.nodup_cons.mp hn
    obtain ⟨h2,hn⟩ := List.nodup_cons.mp hn
    obtain ⟨h3,hn⟩ := List.nodup_cons.mp hn
    simp only [List.mem_cons,not_or] at h1 h2
    obtain ⟨⟨m₀,r₀⟩,hr,ha⟩ := bind_eq_ok ha
    cases r₀ with
    | none => cases ha
    | some fresh =>
      cases ha
      obtain ⟨e,-⟩ | ⟨_,e,-,hf,heq,-⟩ := allocProcPagetable_effect hr
      · cases e
      cases e
      have hcopy := copyLoop_effect hf.kernel (fun j hj => absurd hj (Nat.not_lt_zero j)) hc
      -- free pages, tables and pages behind the user's entries come from the rest of the heap
      have hpool : pool (kernelPages pid) pgt m₂=heap := by
        rw [hcopy.pool,pool,leaves_of_zero hf.zero,add_zero]
        exact heq
      have hnodup : (pool (kernelPages pid) pgt m₂).Nodup := by
        rw [hpool]
        exact Multiset.coe_nodup.mpr hn
      have hrest : x∈heap := by
        rw [← Multiset.mem_coe,← hpool,pool,Multiset.mem_add,Multiset.mem_add]
        exact .inl (.inl (Multiset.mem_coe.mpr hx))
      rw [pool,add_assoc] at hnodup
      have hdisj := Multiset.disjoint_left.mp (Multiset.nodup_add.mp hnodup).2.2
        (Multiset.mem_coe.mpr hx)
      rw [Multiset.mem_add,not_or,Multiset.mem_coe] at hdisj
      have e1 : tf≠x := fun e => h1.2.2 (e ▸ hrest)
      have e2 : up≠x := fun e => h2.2 (e ▸ hrest)
      have e3 : alarm≠x := fun e => h3 (e ▸ hrest)
      refine ⟨List.mem_cons_of_mem _ (List.mem_cons_of_mem _ (List.mem_cons_of_mem _ hrest)),
        hdisj.1,fun ht page hlt hv => ?_,e1,e2,e3⟩
      by_cases hk : page∈kernelPages pid
      · have hw := hcopy.kept page hk hlt
        rw [hw.ppn]
        rw [ValidAt,hw.isValid] at hv
        exact clear_allocProcPagetable ht e1 e2 hr page hlt hv
      · exact fun e => hdisj.2 (e ▸ mem_leaves hlt hk hv)
  · cases ha

/-- The block for the kernel stack of a child is lost, unless it is mapped. -/
theorem fork_leaks {s u : System} {i j base : ℕ} (hsep : Separate s.user)
    (hused : s.tids.tidAlloc.1 < s.mapped) (hs : step s (.fork i j pid base)=.next u)
    (hj : u.user.procs j≠none) : Leaked base j u ∧ u.user.procs j≠none := by
  refine ⟨?_,hj⟩
  cases step_change hs with
  | forkFailed hp hz hv hf => exact absurd (Option.isNone_iff_eq_none.mp hv.2) hj
  | @fork _ _ _ _ mapped m tids parent child hp hz hv hf =>
    obtain ⟨⟨m₁,r₁⟩,ha,hf⟩ := bind_eq_ok hf
    cases r₁ with
    | none => cases hf
    | some new =>
      obtain ⟨⟨pgt,m₂,done⟩,hc,hf⟩ := bind_eq_ok hf
      cases done with
      | false =>
        obtain ⟨m₃,-,hf⟩ := bind_eq_ok hf
        cases hf
      | true =>
        dsimp only at hf
        split at hf
        · cases hf
        obtain ⟨r,hn,hf⟩ := bind_eq_ok hf
        cases hf
        have hblock : FreeBlock m₂ base ∧ r.mapped=s.mapped := by
          rw [createTask] at hn
          split at hn
          · rename_i hb
            obtain ⟨r',-,hn⟩ := bind_eq_ok hn
            cases hn
            exact ⟨hb,if_neg (Nat.not_le.mpr hused)⟩
          · cases hn
        obtain ⟨hin,hfr,hclear,h1,h2,h3⟩ := free_after_copy hsep.nodup (ok_of_mapError ha)
          (ok_of_mapError hc) hblock.1.1
        have hout := hsep.outside base hin
        have hpgt : Absent base r.pgt r.mem := by
          rw [createTask,if_pos hblock.1] at hn
          obtain ⟨⟨u,v,w⟩,hr,hn⟩ := bind_eq_ok hn
          cases hn
          have htaken : base∉(takeBlock m₂ base).heap := fun hm =>
            of_decide_eq_true (List.mem_filter.mp hm).2
              ⟨Nat.le_refl base,Nat.lt_add_of_pos_right (by decide)⟩
          have habsent : Absent base pgt (takeBlock m₂ base) :=
            ⟨htaken,hfr,hclear hout.trampoline⟩
          exact (habsent.newTask (ok_of_mapError hr)).1
        refine ⟨hout.put hpgt.heap fun q e => ?_,List.mem_append_left _ ?_⟩
        · cases e
          exact ⟨hpgt,h1,h2,h3⟩
        · rw [if_pos rfl]
          refine List.mem_filter.mpr ⟨hin,decide_eq_true ⟨hpgt.heap,fun hm => ?_⟩⟩
          exact absurd hblock.2.symm (of_decide_eq_true hm)

end Fork

/-- All pages are back that left the heap on behalf of the last process of a slot. -/
def Returned (s : System) (j : ℕ) : Prop := s.behalf j=[]

/-- Where free pages are in no other use, and the `tid` of a child was in use before: in every run
that starts with its `fork` and ends with the `wait` that reaps it, whatever processes do in
between, some page that left the heap on its behalf is not back. -/
theorem reaped_keeps_pages {s u v t : System} {i j pid base : ℕ} {as : List Label} {alarm : Bool}
    (hsep : Separate s.user) (hused : s.tids.tidAlloc.1 < s.mapped)
    (hf : step s (.fork i j pid base)=.next u) (hj : u.user.procs j≠none)
    (hg : Guarded step (NotReaped j) u as) (hr : run step u as=.next v)
    (hw : step v (.other (.wait j alarm))=.next t) : ¬Returned t j := by
  have hstep : ∀ s a t,Leaked base j s ∧ s.user.procs j≠none → NotReaped j s a →
      step s a=.next t → Leaked base j t ∧ t.user.procs j≠none :=
    fun s a t h hc hs => ⟨h.1.step h.2 hs,step_procs h.2 hc hs⟩
  have hv := run_invariant hstep (fork_leaks hsep hused hf hj) hg hr
  have ht := hv.1.step hv.2 hw
  intro hnil
  have hmem := ht.behalf
  rw [hnil] at hmem
  cases hmem

/-- A process without user memory. -/
def emptyProc : Proc :=
  ⟨⟨Table.empty Pte.zero 2,[20]⟩,0,1,21,22,23,some ⟨0,24⟩,false,false⟩

/-- It is the only process, and two tasks were created before. -/
def oneProcess : System :=
  ⟨⟨⟨List.range' 100 30,fun _ _ => 0⟩,fun i => if i=0 then some emptyProc else none,[],1⟩,⟨2,[1]⟩,2,
    fun _ => []⟩

theorem oneProcess_separate : Separate oneProcess.user := by
  have hn : oneProcess.user.mem.heap.Nodup := List.nodup_range'
  refine ⟨hn,fun x hx => ?_⟩
  have hle : 100 ≤ x := (List.mem_range'_1.mp hx).1
  have hnot : x∉oneProcess.user.mem.heap.erase x := hn.not_mem_erase
  refine ⟨by omega,?_,hnot,List.not_mem_nil,fun i p hp => ?_⟩
  · change 1≠x
    omega
  · dsimp only [oneProcess] at hp
    split at hp
    · cases hp
      refine ⟨⟨hnot,?_,fun page _ hv => ?_⟩,?_,?_,?_⟩
      · intro hm
        have e : x=20 := List.mem_singleton.mp hm
        omega
      · rw [ValidAt,emptyProc,entryAt_empty] at hv
        exact absurd hv (by decide)
      · change 21≠x
        omega
      · change 22≠x
        omega
      · change 23≠x
        omega
    · cases hp

/-- The theorem at a child that exits at once. -/
theorem reaped_keeps_pages_exit :
    ∃ u v t,step oneProcess (.fork 0 1 7 124)=.next u ∧ run step u [.exit 1]=.next v ∧
      step v (.other (.wait 1 true))=.next t ∧ ¬Returned t 1 := by
  obtain ⟨u,hu,hj⟩ := Outcome.exists_of_test (o:=step oneProcess (.fork 0 1 7 124))
    (p:=fun u : System => (u.user.procs 1).isSome &&
      ((run step u [.exit 1]).test fun v : System => (step v (.other (.wait 1 true))).test
        fun _ : System => true)) (by decide +kernel)
  rw [Bool.and_eq_true] at hj
  obtain ⟨v,hv,hw⟩ := Outcome.exists_of_test hj.2
  obtain ⟨t,ht,-⟩ := Outcome.exists_of_test hw
  have hg : Guarded step (NotReaped 1) u [.exit 1] := by
    refine ⟨(fun alarm e => by cases e),?_⟩
    split <;> trivial
  exact ⟨u,v,t,hu,hv,ht,reaped_keeps_pages oneProcess_separate (by decide) hu
    (Option.isSome_iff_ne_none.mp hj.1) hg hv ht⟩

/-- A kernel without processes. -/
def boot (count : ℕ) : System :=
  ⟨⟨⟨List.range' 100 count,fun _ _ => 0⟩,fun _ => none,[],1⟩,⟨0,[]⟩,0,fun _ => []⟩

/-- The first process executes a program, shrinks to a page, and has had a child. -/
def firstChild : List Label :=
  [.other (.init 0 1),.exec 0 ⟨[(0,4096)],true,true⟩ 490,.other (.sbrk 0 (-1310720)),
    .fork 0 1 7 486,.exit 1,.other (.wait 1 true)]

/-- A second child exits and is reaped: five pages fewer are free than before its `fork`. -/
theorem secondChild_keeps_pages :
    ∃ s t,run step (boot 400) firstChild=.next s ∧ s.tids.tidAlloc.1 < s.mapped ∧
      run step s [.fork 0 1 7 482,.exit 1,.other (.wait 1 true)]=.next t ∧
      t.user.mem.heap.length+5=s.user.mem.heap.length ∧ ¬Returned t 1 := by
  have hrun : ∀ s : System,s=boot 400 → (run step s firstChild).test (fun s : System =>
      decide (s.tids.tidAlloc.1 < s.mapped) &&
      (run step s [.fork 0 1 7 482,.exit 1,.other (.wait 1 true)]).test fun t : System =>
        decide (t.user.mem.heap.length+5=s.user.mem.heap.length) &&
          decide (t.behalf 1≠[]))=true := by
    intro s hs
    -- the state is a variable until the 320 pages of the stacks are mapped and unmapped at once
    simp only [firstChild,run,step,exec,loadImage,uvmAlloc_eq_first,UserMemory.step,sbrk,uvmDealloc,
      uvmUnmap,unmapLoop_eq_first]
    subst hs
    decide +kernel
  obtain ⟨s,hs,htest⟩ := Outcome.exists_of_test (hrun _ rfl)
  rw [Bool.and_eq_true,decide_eq_true_iff] at htest
  obtain ⟨t,ht,hleft⟩ := Outcome.exists_of_test htest.2
  rw [Bool.and_eq_true,decide_eq_true_iff,decide_eq_true_iff] at hleft
  exact ⟨s,t,hs,htest.1,ht,hleft.1,hleft.2⟩

end Xv6Rust.ProcessPages

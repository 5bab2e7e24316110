import Xv6Rust.UserBounds

/-!
# Isolation of processes

Every page of the heap has one place: it is free, taken by the rest of the kernel,
or held by one process, as a page table, behind an entry, or as one of the pages
of its trap frames, `USYSCALL` and the alarm. An operation moves pages between
these places or loses them, so no page is ever behind user entries of two
processes. A page fault without memory, which maps page 0, and a shrink that
reaches the kernel's part of the address space are the exceptions.
-/

namespace Xv6Rust.UserIsolation

open Runs Results Paging PageTable UserUnmap UserMemory PageEffects UserBounds

/-- The pages of the page table that the kernel maps. -/
def kernelSet (p : Proc) : Finset ℕ :=
  match p.task with
  | none => kernelPages p.pid
  | some task => insert (taskPage task.tid) (kernelPages p.pid)

/-- The pages that the record of a process names. -/
def recordPages (p : Proc) : Multiset ℕ :=
  {p.trapframe}+{p.up}+{p.alarm}+
    (match p.task with
    | none => 0
    | some task => {task.page})

/-- All pages of a process. -/
def holdings (p : Proc) : Multiset ℕ :=
  (p.pgt.frames : Multiset ℕ)+leaves (kernelSet p) p.pgt+recordPages p

/-- A process whose page table has the kernel's pages in place. -/
structure WellFormed (p : Proc) : Prop where
  /-- They are mapped. -/
  kernel : KernelValid (kernelSet p) p.pgt
  /-- Only `USYSCALL` is the user's. -/
  guarded : ∀ q∈kernelSet p,q≠usyscallPage → (p.pgt.entryAt q).isUser=false
  /-- `USYSCALL` is mapped to its page. -/
  usys : (p.pgt.entryAt usyscallPage).ppn=p.up
  /-- The trap frame of a task is apart from the other pages of the kernel. -/
  task : ∀ task∈p.task,TidFits task.tid ∧ taskPage task.tid<pages ∧
    taskPage task.tid∉kernelPages p.pid
  /-- A zombie has no task. -/
  zombie : p.zombie=true → p.task=none

/-- An operation on a process makes no page. -/
def Conserves (p : Proc) (m : Mem) (p' : Proc) (m' : Mem) : Prop :=
  (m'.heap : Multiset ℕ)+holdings p' ≤ (m.heap : Multiset ℕ)+holdings p

section Processes

variable {p p' : Proc} {m m' : Mem} {pgt pgt' : PageTable} {A : Set ℕ} {pid tid : ℕ}

theorem usyscallPage_mem (pid : ℕ) : usyscallPage∈kernelPages pid :=
  Finset.mem_insert_of_mem (Finset.mem_insert_of_mem (Finset.mem_singleton_self _))

theorem usyscallPage_mem_kernelSet (p : Proc) : usyscallPage∈kernelSet p := by
  rw [kernelSet]
  split
  · exact usyscallPage_mem p.pid
  · exact Finset.mem_insert_of_mem (usyscallPage_mem p.pid)

/-- Free pages and the pages of a process are its pool and the pages of its record. -/
theorem heap_add_holdings (p : Proc) (m : Mem) :
    (m.heap : Multiset ℕ)+holdings p=pool (kernelSet p) p.pgt m+recordPages p := by
  rw [holdings,pool]
  abel

theorem Conserves.of_pool (h : pool (kernelSet p') p'.pgt m' ≤ pool (kernelSet p) p.pgt m)
    (hr : recordPages p'=recordPages p) : Conserves p m p' m' := by
  rw [Conserves,heap_add_holdings,heap_add_holdings,hr]
  exact add_le_add h le_rfl

/-- A change of the page table that keeps the kernel's entries. -/
theorem WellFormed.rearrange (hw : WellFormed p)
    (h : Rearranges (kernelSet p) A p.pgt m pgt' m') (size : ℕ) (killed : Bool) :
    WellFormed {p with pgt := pgt',size := size,killed := killed} := by
  have hu := (hw.kernel _ (usyscallPage_mem_kernelSet p)).1
  refine ⟨h.kernelValid hw.kernel,?_,?_,hw.task,hw.zombie⟩
  · intro q hq hne
    cases hq' : (pgt'.entryAt q).isUser with
    | false => rfl
    | true =>
      have he := (h.kept q hq (hw.kernel q hq).1).eq_of_user hq'
      rw [he,hw.guarded q hq hne] at hq'
      cases hq'
  · exact (h.kept _ (usyscallPage_mem_kernelSet p) hu).ppn.trans hw.usys

/-- A new process has the pages that left the heap. -/
theorem allocProc_holdings {tramp : ℕ} {r : Option Proc}
    (h : allocProc m tramp pid=.ok (m',r)) :
    (r=none ∧ (m'.heap : Multiset ℕ) ≤ m.heap) ∨
    ∃ p,r=some p ∧ WellFormed p ∧ p.task=none ∧ p.zombie=false ∧ p.pid=pid ∧
      Fresh (kernelPages pid) p.pgt ∧ (m'.heap : Multiset ℕ)+holdings p=m.heap := by
  rw [allocProc] at h
  split at h
  · rename_i tf up alarm heap hm
    have hheap : (m.heap : Multiset ℕ)={tf}+{up}+{alarm}+(heap : Multiset ℕ) := by
      rw [hm,← Multiset.cons_coe,← Multiset.cons_coe,← Multiset.cons_coe,
        ← Multiset.singleton_add,← Multiset.singleton_add,← Multiset.singleton_add]
      abel
    obtain ⟨⟨m1,r1⟩,h1,h⟩ := bind_eq_ok h
    obtain ⟨rfl,he⟩ | ⟨pgt,rfl,-,hf,he,hus⟩ := allocProcPagetable_effect h1
    · cases h
      refine .inl ⟨rfl,?_⟩
      rw [Mem.free,← Multiset.cons_coe,← Multiset.singleton_add,he,hheap,add_assoc,add_assoc]
      exact add_le_add le_rfl ((Multiset.le_add_left _ _).trans (Multiset.le_add_left _ _))
    · cases h
      refine .inr ⟨_,rfl,⟨hf.kernel,hf.guarded,hus,?_,fun hz => ?_⟩,rfl,rfl,rfl,hf,?_⟩
      · intro task ht
        cases ht
      · cases hz
      · have hz := leaves_of_zero hf.zero
        have he' : (m'.heap : Multiset ℕ)+pgt.frames=heap := he
        rw [holdings,recordPages,hheap,← he']
        change (m'.heap : Multiset ℕ)+(pgt.frames+leaves (kernelPages pid) pgt+_)=_
        rw [hz]
        dsimp only
        abel
  · cases h
    exact .inl ⟨rfl,Multiset.zero_le _⟩

/-- `cleanup` of a process without a task gives back none but its pages. -/
theorem cleanup_holdings (ht : p.task=none) (h : cleanup p m=.ok m') :
    (m'.heap : Multiset ℕ)+{p.alarm} ≤ (m.heap : Multiset ℕ)+holdings p := by
  have hd := discard_effect h
  have hp : pool (kernelPages p.pid) p.pgt ((m.free p.trapframe).free p.up)+{p.alarm}=
      (m.heap : Multiset ℕ)+holdings p := by
    rw [heap_add_holdings,kernelSet,recordPages,ht,pool,pool]
    dsimp only [Mem.free]
    rw [← Multiset.cons_coe,← Multiset.cons_coe,← Multiset.singleton_add,
      ← Multiset.singleton_add]
    abel
  rw [← hp]
  exact add_le_add hd le_rfl

/-- `user_init` after `alloc_proc`. -/
theorem userInit_holdings (hw : WellFormed p) (h : userInit p m=.ok (m',p')) :
    WellFormed p' ∧ Conserves p m p' m' := by
  obtain ⟨ppn,heap,u,hm,rfl,hr⟩ := userInit_maps h
  obtain ⟨hre,-⟩ := rearranges_map hm hw.kernel hr
  exact ⟨hw.rearrange hre pageSize p.killed,Conserves.of_pool (le_of_eq hre.pool) rfl⟩

/-- A process without a task gets one, with its trap frame from the heap. -/
theorem newTask_holdings {task : Task} (hw : WellFormed p) (ht : p.task=none)
    (hz : p.zombie=false) (h : newTask p.pgt m tid=.ok (pgt',m',task)) (size : ℕ) :
    WellFormed {p with pgt := pgt',size := size,task := some task} ∧
      (m'.heap : Multiset ℕ)+holdings {p with pgt := pgt',size := size,task := some task}=
        (m.heap : Multiset ℕ)+holdings p := by
  have hK : kernelSet p=kernelPages p.pid := by rw [kernelSet,ht]
  obtain ⟨rfl,hfit,hlt,hpool,hother,hself,hbefore⟩ := newTask_effect (K:=kernelPages p.pid) h
  have hkernel := hw.kernel
  have hguarded := hw.guarded
  rw [hK] at hkernel hguarded
  have hnot : taskPage task.tid∉kernelPages p.pid := fun hin => hbefore (hkernel _ hin).2
  have hne : ∀ q∈kernelPages p.pid,pgt'.entryAt q=p.pgt.entryAt q := fun q hq =>
    hother q (hkernel q hq).1 fun e => hnot (e ▸ hq)
  refine ⟨⟨?_,?_,?_,?_,?_⟩,?_⟩
  · intro q hq
    obtain rfl | hq := Finset.mem_insert.mp hq
    · refine ⟨hlt,?_⟩
      rw [ValidAt,hself]
      exact Pte.writePerm_valid _ _
    · obtain ⟨h1,h2⟩ := hkernel q hq
      refine ⟨h1,?_⟩
      rw [ValidAt,hne q hq]
      exact h2
  · intro q hq hus
    obtain rfl | hq := Finset.mem_insert.mp hq
    · rw [hself]
      exact writePerm_not_user _ (by decide)
    · rw [hne q hq]
      exact hguarded q hq hus
  · rw [hne _ (usyscallPage_mem p.pid)]
    exact hw.usys
  · intro task' ht'
    cases ht'
    exact ⟨hfit,hlt,hnot⟩
  · intro hz'
    have hz'' : p.zombie=true := hz'
    rw [hz] at hz''
    cases hz''
  · rw [heap_add_holdings,heap_add_holdings,hK,← hpool,recordPages,recordPages,ht,kernelSet]
    dsimp only
    abel

/-- `fork`: the child has the pages that left the heap. -/
theorem fork_holdings {tramp : ℕ} {r : Option Proc}
    (h : UserMemory.fork m tramp p pid tid=.ok (m',r)) :
    (r=none ∧ (m'.heap : Multiset ℕ) ≤ m.heap) ∨
    ∃ child,r=some child ∧ WellFormed child ∧ (m'.heap : Multiset ℕ)+holdings child=m.heap := by
  obtain ⟨⟨m1,r1⟩,h1,h⟩ := bind_eq_ok h
  obtain ⟨rfl,hle⟩ | ⟨child,rfl,hw,ht,hz,-,-,heq⟩ := allocProc_holdings h1
  · cases h
    exact .inl ⟨rfl,hle⟩
  · obtain ⟨⟨pgt,m2,done⟩,h2,h⟩ := bind_eq_ok h
    have hcopy := copyLoop_effect hw.kernel (fun j hj => absurd hj (Nat.not_lt_zero j)) h2
    have hw2 := hw.rearrange hcopy child.size child.killed
    have heq2 : (m2.heap : Multiset ℕ)+holdings {child with pgt := pgt}=m.heap := by
      rw [← heq,heap_add_holdings,heap_add_holdings]
      exact congrArg (· + recordPages child) hcopy.pool
    cases done with
    | false =>
      obtain ⟨m3,h3,h⟩ := bind_eq_ok h
      cases h
      refine .inl ⟨rfl,?_⟩
      have hc := cleanup_holdings (p:={child with pgt := pgt}) ht h3
      rw [heq2] at hc
      rw [Mem.free,← Multiset.cons_coe,← Multiset.singleton_add,add_comm]
      exact hc
    | true =>
      obtain ⟨⟨pgt3,m3,task⟩,h3,h⟩ := bind_eq_ok h
      cases h
      obtain ⟨hw3,heq3⟩ := newTask_holdings (p:={child with pgt := pgt}) hw2 ht hz h3 p.size
      exact .inr ⟨_,rfl,hw3,heq3.trans heq2⟩

/-- The segments of a program. -/
theorem loadSegments_effect {K : Finset ℕ} {segments : List (ℕ×ℕ)} {size size' : ℕ} {done : Bool}
    (hK : KernelValid K pgt)
    (h : loadSegments pgt m size segments=.ok (pgt',m',size',done)) :
    Rearranges K Set.univ pgt m pgt' m' := by
  induction segments generalizing pgt m size with
  | nil =>
    cases h
    exact Rearranges.refl
  | cons seg rest ih =>
    obtain ⟨vaddr,memsz⟩ := seg
    rw [loadSegments] at h
    split at h
    · cases h
    split at h
    · cases h
      exact Rearranges.refl
    · obtain ⟨⟨u,v,w⟩,hr,he⟩ := bind_eq_ok h
      have hre := (uvmAlloc_effect hK hr).1
      cases w with
      | none =>
        cases he
        exact hre.mono (Set.subset_univ _)
      | some size1 => exact (hre.trans (ih (hre.kernelValid hK) he)).mono (Set.subset_univ _)

/-- `load` returns a page table over the pages it took, or gives none back that it had not. -/
theorem loadImage_effect {img : Image} {r : Option (PageTable×ℕ)}
    (hK : KernelValid (kernelPages pid) pgt) (h : loadImage pgt m img pid=.ok (m',r)) :
    (r=none ∧ (m'.heap : Multiset ℕ) ≤ pool (kernelPages pid) pgt m) ∨
    ∃ pgt' size,r=some (pgt',size) ∧ Rearranges (kernelPages pid) Set.univ pgt m pgt' m' := by
  obtain ⟨⟨u1,m1,size1,done⟩,hr1,h⟩ := bind_eq_ok h
  have hre1 := loadSegments_effect hK hr1
  split at h
  · obtain ⟨m2,h2,h⟩ := bind_eq_ok h
    cases h
    exact .inl ⟨rfl,(discard_effect h2).trans (le_of_eq hre1.pool)⟩
  · obtain ⟨⟨u2,m2,w⟩,hr2,h⟩ := bind_eq_ok h
    have hre2 := hre1.trans (uvmAlloc_effect (hre1.kernelValid hK) hr2).1
    cases w with
    | none =>
      obtain ⟨m3,h3,h⟩ := bind_eq_ok h
      cases h
      exact .inl ⟨rfl,(discard_effect h3).trans (le_of_eq hre2.pool)⟩
    | some size2 =>
      obtain ⟨u3,hr3,h⟩ := bind_eq_ok h
      have hre3 := hre2.trans (clearGuards_effect (m:=m2) hr3)
      split at h
      · obtain ⟨m3,h3,h⟩ := bind_eq_ok h
        cases h
        exact .inl ⟨rfl,(discard_effect h3).trans (le_of_eq hre3.pool)⟩
      · cases h
        exact .inr ⟨_,_,rfl,hre3.mono (Set.subset_univ _)⟩

/-- Dropping the task leaves its page behind. -/
theorem dropTask_pool (hw : WellFormed p) (h : dropTask p.pgt m p.task=.ok (pgt',m')) :
    m'=m ∧ pool (kernelPages p.pid) pgt' m=pool (kernelSet p) p.pgt m ∧
      ∀ q∈kernelPages p.pid,pgt'.entryAt q=p.pgt.entryAt q := by
  cases ht : p.task with
  | none =>
    rw [ht] at h
    cases h
    rw [kernelSet,ht]
    exact ⟨rfl,rfl,fun _ _ => rfl⟩
  | some task =>
    obtain ⟨hfit,hlt,hnot⟩ := hw.task task ht
    rw [ht] at h
    obtain ⟨rfl,rfl,hpool,-⟩ := dropTask_effect (K:=kernelPages p.pid) hfit hlt h
    rw [kernelSet,ht]
    refine ⟨rfl,hpool,fun q hq => entryAt_clearPage hlt ?_ fun e => hnot (e ▸ hq)⟩
    have hq' : q∈kernelSet p := by
      rw [kernelSet,ht]
      exact Finset.mem_insert_of_mem hq
    exact (hw.kernel q hq').1

/-- `exec`. -/
theorem exec_holdings {tramp : ℕ} {img : Image} (hw : WellFormed p) (hz : p.zombie=false)
    (h : UserMemory.exec p m tramp img tid=.ok (m',p')) :
    WellFormed p' ∧ Conserves p m p' m' := by
  obtain ⟨⟨m1,r1⟩,h1,h⟩ := bind_eq_ok h
  obtain ⟨rfl,he⟩ | ⟨pgt,rfl,-,hf,he,hus⟩ := allocProcPagetable_effect h1
  · cases h
    exact ⟨hw,add_le_add (le_of_eq he) le_rfl⟩
  have hpool1 : pool (kernelPages p.pid) pgt m1=m.heap := by
    rw [pool,leaves_of_zero hf.zero,add_zero]
    exact he
  obtain ⟨⟨m2,r2⟩,h2,h⟩ := bind_eq_ok h
  obtain ⟨rfl,hle⟩ | ⟨pgt2,size,rfl,hre⟩ := loadImage_effect hf.kernel h2
  · cases h
    exact ⟨hw,add_le_add (hle.trans (le_of_eq hpool1)) le_rfl⟩
  obtain ⟨⟨old,mold⟩,hold,h⟩ := bind_eq_ok h
  obtain ⟨⟨pgt3,m3,task⟩,h3,h⟩ := bind_eq_ok h
  obtain ⟨m4,h4,h⟩ := bind_eq_ok h
  cases h
  obtain ⟨rfl,hpoolOld,-⟩ := dropTask_pool hw hold
  -- The new page table belongs to a process like the old one, without a task.
  have hw1 : WellFormed {p with pgt := pgt,task := none} := by
    refine ⟨hf.kernel,hf.guarded,hus,fun task ht => ?_,fun _ => rfl⟩
    cases ht
  have hw2 := hw1.rearrange hre p.size p.killed
  obtain ⟨hw3,heq3⟩ := newTask_holdings (p:={p with pgt := pgt2,task := none}) hw2 rfl hz h3 size
  refine ⟨hw3,?_⟩
  have hd := discard_effect h4
  have hrec : recordPages {p with pgt := pgt2,task := none} ≤ recordPages p := by
    rw [recordPages,recordPages]
    exact add_le_add le_rfl (Multiset.zero_le _)
  have hnew : (m3.heap : Multiset ℕ)+holdings {p with pgt := pgt3,size := size,task := some task}=
      (m.heap : Multiset ℕ)+recordPages {p with pgt := pgt2,task := none} := by
    rw [← hpool1,← hre.pool]
    exact heq3.trans (heap_add_holdings _ _)
  have hpages : (old.frames : Multiset ℕ)+leaves (kernelPages p.pid) old=
      p.pgt.frames+leaves (kernelSet p) p.pgt := by
    rw [pool,pool,add_assoc,add_assoc] at hpoolOld
    exact add_left_cancel hpoolOld
  rw [pool,add_assoc,hpages] at hd
  rw [Conserves]
  refine (add_le_add hd le_rfl).trans ?_
  rw [add_right_comm,hnew,holdings,add_assoc,add_comm (recordPages _)]
  exact add_le_add le_rfl (add_le_add le_rfl hrec)

/-- `sbrk`, unless it shrinks into the kernel's pages. -/
theorem sbrk_holdings {increment : ℤ} (hw : WellFormed p)
    (ha : increment<0 → Avoids (kernelSet p) p.pgt (deallocStart (p.size-(-increment).toNat))
      (deallocCount p.size (p.size-(-increment).toNat)))
    (h : UserMemory.sbrk p m increment=.ok (m',p')) : WellFormed p' ∧ Conserves p m p' m' := by
  rw [UserMemory.sbrk] at h
  split at h
  · split at h
    · cases h
    · cases h
      have hre : Rearranges (kernelSet p) ∅ p.pgt m p.pgt m := Rearranges.refl
      exact ⟨hw.rearrange hre _ p.killed,le_refl _⟩
  split at h
  · rename_i hneg
    split at h
    · cases h
    · obtain ⟨⟨u,v,w⟩,hr,h⟩ := bind_eq_ok h
      cases h
      have hre := (uvmDealloc_effect hr (ha hneg)).1
      exact ⟨hw.rearrange hre _ p.killed,Conserves.of_pool (le_of_eq hre.pool) rfl⟩
  · cases h
    exact ⟨hw,le_refl _⟩

/-- The same entries are a rearrangement, whatever is lost of the heap. -/
theorem WellFormed.same (hw : WellFormed p) (hs : SameEntries p.pgt pgt') (killed : Bool) :
    WellFormed {p with pgt := pgt',killed := killed} := by
  refine ⟨fun q hq => ?_,fun q hq hne => ?_,?_,hw.task,hw.zombie⟩
  · obtain ⟨h1,h2⟩ := hw.kernel q hq
    refine ⟨h1,?_⟩
    rw [ValidAt,hs]
    exact h2
  · rw [hs]
    exact hw.guarded q hq hne
  · rw [hs]
    exact hw.usys

/-- A page fault, unless it maps page 0. -/
theorem pageFault_holdings {va : ℕ} (hw : WellFormed p)
    (hno : m.heap=[] → MapsNothing p.pgt va) (h : pageFault p m va=.ok (m',p')) :
    WellFormed p' ∧ Conserves p m p' m' := by
  rw [pageFault] at h
  split at h
  · rename_i hm
    obtain ⟨⟨u,v,w⟩,hr,h⟩ := bind_eq_ok h
    cases h
    obtain ⟨-,hlack,-,hmap,-⟩ | ⟨-,hs,hp,-⟩ := mapPages_cases (K:=kernelSet p) hr
    · rw [hm,List.length_nil] at hlack
      obtain h1 | h1 | h1 := hno hm
      · exact absurd h1 (Nat.not_lt.mpr hmap.bound)
      · exact absurd hlack (Nat.not_le.mpr h1)
      · exact absurd h1 hmap.before
    · exact ⟨hw.same hs true,Conserves.of_pool (le_of_eq hp) rfl⟩
  · rename_i ppn heap hm
    obtain ⟨⟨u,v,w⟩,hr,h⟩ := bind_eq_ok h
    cases h
    obtain ⟨he,-⟩ | ⟨-,hs,hp,-⟩ := mapPages_cases (K:=kernelSet p) hr
    · rw [he] at hr
      obtain ⟨hre,-⟩ := rearranges_map hm hw.kernel hr
      exact ⟨hw.rearrange hre p.size p.killed,Conserves.of_pool (le_of_eq hre.pool) rfl⟩
    · refine ⟨hw.same hs p.killed,Conserves.of_pool (hp.trans_le ?_) rfl⟩
      rw [pool,pool,hm,← Multiset.cons_coe]
      exact add_le_add (add_le_add (Multiset.le_cons_self _ _) le_rfl) le_rfl

/-- `exiting`. -/
theorem exiting_holdings (hw : WellFormed p) (h : UserMemory.exiting p m=.ok (m',p')) :
    WellFormed p' ∧ Conserves p m p' m' := by
  obtain ⟨⟨u,v⟩,hr,h⟩ := bind_eq_ok h
  cases h
  obtain ⟨rfl,hp,hk⟩ := dropTask_pool hw hr
  have hsub : ∀ q∈kernelPages p.pid,q∈kernelSet p := by
    intro q hq
    rw [kernelSet]
    split
    · exact hq
    · exact Finset.mem_insert_of_mem hq
  refine ⟨⟨fun q hq => ?_,fun q hq hne => ?_,?_,fun task ht => ?_,fun _ => rfl⟩,?_⟩
  · obtain ⟨h1,h2⟩ := hw.kernel q (hsub q hq)
    refine ⟨h1,?_⟩
    rw [ValidAt,hk q hq]
    exact h2
  · rw [hk q hq]
    exact hw.guarded q (hsub q hq) hne
  · rw [hk _ (usyscallPage_mem p.pid)]
    exact hw.usys
  · cases ht
  · rw [Conserves,heap_add_holdings,heap_add_holdings]
    refine add_le_add (le_of_eq hp) ?_
    rw [recordPages,recordPages]
    exact add_le_add le_rfl (Multiset.zero_le _)

end Processes

/-- The pages of a slot. -/
def slotPages : Option Proc → Multiset ℕ
  | none => 0
  | some p => holdings p

/-- The pages of some slots. -/
@[irreducible] def slotsPages (slots : Finset ℕ) (procs : ℕ → Option Proc) : Multiset ℕ :=
  ∑ i∈slots,slotPages (procs i)

/-- One slot and the others. -/
theorem slotsPages_erase {slots : Finset ℕ} {i : ℕ} (hi : i∈slots) (procs : ℕ → Option Proc) :
    slotsPages slots procs=slotPages (procs i)+slotsPages (slots.erase i) procs := by
  rw [slotsPages,slotsPages,Finset.add_sum_erase _ (fun i => slotPages (procs i)) hi]

/-- The pages of the other slots do not change. -/
theorem slotsPages_update (slots : Finset ℕ) (procs : ℕ → Option Proc) (i : ℕ) (r : Option Proc) :
    slotsPages (slots.erase i) (Function.update procs i r)=slotsPages (slots.erase i) procs := by
  rw [slotsPages,slotsPages]
  refine Finset.sum_congr rfl fun j hj => ?_
  rw [Function.update_of_ne (Finset.mem_erase.mp hj).1]

/-- All pages that have a place. -/
def total (s : System) : Multiset ℕ :=
  (s.mem.heap : Multiset ℕ)+(s.kernel : Multiset ℕ)+slotsPages (Finset.range nproc) s.procs

/-- Every page of the heap has at most one place, and the processes are well formed. -/
structure Inv (s0 s : System) : Prop where
  /-- No page has two places. -/
  nodup : (total s).Nodup
  /-- All pages are pages of the heap. -/
  le : total s ≤ total s0
  /-- The process table has `NPROC` slots. -/
  bound : ∀ i,nproc ≤ i → s.procs i=none
  /-- The processes. -/
  procs : ∀ i,∀ p∈s.procs i,WellFormed p

/-- The steps that keep processes apart: a fault without memory maps nothing, and a shrink does not
reach the pages that the kernel maps. -/
def Isolating (s : System) : Label → Prop
  | .fault i va => s.mem.heap=[] → ∀ p∈s.procs i,MapsNothing p.pgt va
  | .sbrk i increment => increment<0 → ∀ p∈s.procs i,
      Avoids (kernelSet p) p.pgt (deallocStart (p.size-(-increment).toNat))
        (deallocCount p.size (p.size-(-increment).toNat))
  | _ => True

instance (K : Finset ℕ) (pgt : PageTable) (page n : ℕ) : Decidable (Avoids K pgt page n) :=
  inferInstanceAs (Decidable (∀ i,i<n → (∀ j,j ≤ i → ValidAt pgt (page+j)) → (page+i)%pages∉K))

instance (s : System) : ∀ a,Decidable (Isolating s a)
  | .fault i va => inferInstanceAs
      (Decidable (s.mem.heap=[] → ∀ p∈s.procs i,MapsNothing p.pgt va))
  | .sbrk i increment => inferInstanceAs (Decidable (increment<0 → ∀ p∈s.procs i,
      Avoids (kernelSet p) p.pgt (deallocStart (p.size-(-increment).toNat))
        (deallocCount p.size (p.size-(-increment).toNat))))
  | .init _ _ => inferInstanceAs (Decidable True)
  | .fork _ _ _ _ => inferInstanceAs (Decidable True)
  | .exec _ _ _ => inferInstanceAs (Decidable True)
  | .exit _ => inferInstanceAs (Decidable True)
  | .wait _ _ => inferInstanceAs (Decidable True)
  | .reorder _ => inferInstanceAs (Decidable True)
  | .take => inferInstanceAs (Decidable True)
  | .give _ => inferInstanceAs (Decidable True)

section Steps

variable {s0 s t : System} {m : Mem} {i : ℕ}

/-- The total after a slot is changed. -/
theorem total_put (hi : i<nproc) (r : Option Proc) :
    total (s.put i m r)+((s.mem.heap : Multiset ℕ)+slotPages (s.procs i))=
      total s+((m.heap : Multiset ℕ)+slotPages r) := by
  have hmem := Finset.mem_range.mpr hi
  have h1 : (s.put i m r).procs=Function.update s.procs i r := rfl
  rw [total,total,h1,slotsPages_erase hmem,slotsPages_erase hmem,slotsPages_update,
    Function.update_self,System.put]
  dsimp only
  abel

/-- A smaller total keeps the invariant. -/
theorem Inv.lower (h : Inv s0 s) (hle : total t ≤ total s)
    (hb : ∀ i,nproc ≤ i → t.procs i=none) (hp : ∀ i,∀ p∈t.procs i,WellFormed p) : Inv s0 t :=
  ⟨Multiset.nodup_of_le hle h.nodup,le_trans hle h.le,hb,hp⟩

/-- A slot is changed and no page is made. -/
theorem Inv.put (h : Inv s0 s) (hi : i<nproc) {r : Option Proc}
    (hle : (m.heap : Multiset ℕ)+slotPages r ≤
      (s.mem.heap : Multiset ℕ)+slotPages (s.procs i))
    (hw : ∀ p∈r,WellFormed p) : Inv s0 (s.put i m r) := by
  refine h.lower ?_ (fun j hj => ?_) fun j p hp => ?_
  · have ht := total_put (s:=s) (m:=m) hi r
    have hadd := add_le_add (le_refl (total s)) hle
    rw [← ht] at hadd
    exact Multiset.le_of_add_le_add_right hadd
  · have hne : j≠i := by omega
    exact (Function.update_of_ne hne ..).trans (h.bound j hj)
  · by_cases e : j=i
    · rw [e] at hp
      have hp' : p∈Function.update s.procs i r i := hp
      rw [Function.update_self] at hp'
      exact hw p hp'
    · have hp' : p∈Function.update s.procs i r j := hp
      rw [Function.update_of_ne e] at hp'
      exact h.procs j p hp'

/-- A slot in use is below `NPROC`. -/
theorem Inv.lt {p : Proc} (h : Inv s0 s) (hp : s.procs i=some p) : i<nproc := by
  by_contra hge
  rw [h.bound i (Nat.not_lt.mp hge)] at hp
  cases hp

/-- A process changes and conserves its pages. -/
theorem Inv.conserve {p p' : Proc} (h : Inv s0 s) (hp : s.procs i=some p)
    (hf : WellFormed p' ∧ Conserves p s.mem p' m) : Inv s0 (s.put i m (some p')) := by
  refine h.put (h.lt hp) ?_ fun q hq => ?_
  · rw [hp]
    exact hf.2
  · cases hq
    exact hf.1

/-- A free slot is filled with a process whose pages left the heap. -/
theorem Inv.fill {p : Proc} (h : Inv s0 s) (hv : s.Vacant i) (hw : WellFormed p)
    (hc : (m.heap : Multiset ℕ)+holdings p ≤ s.mem.heap) : Inv s0 (s.put i m (some p)) := by
  refine h.put hv.1 ?_ fun q hq => ?_
  · rw [Option.isNone_iff_eq_none.mp hv.2]
    exact hc.trans (Multiset.le_add_right _ _)
  · cases hq
    exact hw

/-- The heap loses pages. -/
theorem Inv.shrink (h : Inv s0 s) (hle : (m.heap : Multiset ℕ) ≤ s.mem.heap) :
    Inv s0 {s with mem := m} := by
  refine h.lower ?_ h.bound h.procs
  rw [total,total]
  exact add_le_add (add_le_add hle le_rfl) le_rfl

/-- An isolating step keeps the invariant. -/
theorem step_inv {a : Label} (h : Inv s0 s) (hc : Isolating s a) (hs : step s a=.next t) :
    Inv s0 t := by
  cases step_change hs with
  | init hv hp hu =>
    obtain ⟨hn,-⟩ | ⟨q,hq,hw,-,-,-,-,heq⟩ := allocProc_holdings hp
    · cases hn
    · cases hq
      obtain ⟨hw',hc'⟩ := userInit_holdings hw hu
      exact h.fill hv hw' (hc'.trans (le_of_eq heq))
  | forkFailed hp hz hv hf =>
    obtain ⟨-,hle⟩ | ⟨q,hq,-⟩ := fork_holdings hf
    · exact h.shrink hle
    · cases hq
  | fork hp hz hv hf =>
    obtain ⟨hn,-⟩ | ⟨q,hq,hw,heq⟩ := fork_holdings hf
    · cases hn
    · cases hq
      exact h.fill hv hw (le_of_eq heq)
  | exec hp hz hf => exact h.conserve hp (exec_holdings (h.procs _ _ hp) hz hf)
  | sbrk hp hz hf =>
    exact h.conserve hp (sbrk_holdings (h.procs _ _ hp) (fun hneg => hc hneg _ hp) hf)
  | fault hp hz hf =>
    exact h.conserve hp (pageFault_holdings (h.procs _ _ hp) (fun hm => hc hm _ hp) hf)
  | exit hp hz hf => exact h.conserve hp (exiting_holdings (h.procs _ _ hp) hf)
  | @wait i alarm m' p hp hz hcl =>
    have hle := cleanup_holdings ((h.procs i p hp).zombie hz) hcl
    refine h.put (h.lt hp) ?_ fun q hq => absurd hq (Option.not_mem_none q)
    rw [hp,slotPages,slotPages,add_zero]
    refine le_trans ?_ hle
    split
    · rw [Mem.free,← Multiset.cons_coe,← Multiset.singleton_add,add_comm]
    · exact Multiset.le_add_right _ _
  | reorder hperm => exact h.shrink (le_of_eq (Multiset.coe_eq_coe.mpr hperm))
  | @take ppn heap hm =>
    refine h.lower (le_of_eq ?_) h.bound h.procs
    rw [total,total,hm,← Multiset.cons_coe,← Multiset.cons_coe,← Multiset.singleton_add,
      ← Multiset.singleton_add]
    dsimp only
    abel
  | @give ppn hin =>
    refine h.lower (le_of_eq ?_) h.bound h.procs
    have hk : (s.kernel : Multiset ℕ)={ppn}+((s.kernel.erase ppn : List ℕ) : Multiset ℕ) := by
      rw [Multiset.singleton_add,Multiset.cons_coe]
      exact Multiset.coe_eq_coe.mpr (List.perm_cons_erase hin)
    rw [total,total,hk,Mem.free,← Multiset.cons_coe,← Multiset.singleton_add]
    dsimp only
    abel

end Steps

section Isolation

variable {s0 s : System} {i j ppn : ℕ} {p q : Proc}

/-- The page behind a user leaf is a page of the process. -/
theorem user_page_held (hw : WellFormed p) {v : ℕ} (hv : v<pages) (hu : UserLeaf p.pgt v) :
    (p.pgt.entryAt v).ppn∈holdings p := by
  rw [holdings]
  by_cases hk : v∈kernelSet p
  · by_cases e : v=usyscallPage
    · have hrec : p.up∈recordPages p := by
        rw [recordPages,Multiset.mem_add,Multiset.mem_add,Multiset.mem_add]
        exact .inl (.inl (.inr (Multiset.mem_singleton_self _)))
      rw [e,hw.usys]
      exact Multiset.mem_add.mpr (.inr hrec)
    · have hg := hw.guarded v hk e
      rw [hu.2] at hg
      cases hg
  · exact Multiset.mem_add.mpr (.inl (Multiset.mem_add.mpr (.inr
      (mem_leaves hv hk (valid_of_mapped hu.1)))))

/-- The pages of one process, and all others. -/
theorem Inv.split (h : Inv s0 s) (hp : s.procs i=some p) :
    total s=(s.mem.heap : Multiset ℕ)+(s.kernel : Multiset ℕ)+
      (holdings p+slotsPages ((Finset.range nproc).erase i) s.procs) := by
  rw [total,slotsPages_erase (Finset.mem_range.mpr (h.lt hp)) s.procs,hp,slotPages]

/-- A page of a process is not free, not the kernel's, and a page of the heap. -/
theorem Inv.held (h : Inv s0 s) (hp : s.procs i=some p) (hin : ppn∈holdings p) :
    ppn∉s.mem.heap ∧ ppn∉s.kernel ∧ ppn∈total s0 := by
  have hn := h.nodup
  have hle := h.le
  rw [h.split hp] at hn hle
  have hdisj := (Multiset.nodup_add.mp hn).2.2
  have hmem := Multiset.mem_add.mpr (.inl hin : ppn∈holdings p ∨
    ppn∈slotsPages ((Finset.range nproc).erase i) s.procs)
  have hout : ppn∉(s.mem.heap : Multiset ℕ)+(s.kernel : Multiset ℕ) := fun hk =>
    Multiset.disjoint_left.mp hdisj hk hmem
  rw [Multiset.mem_add,not_or,Multiset.mem_coe,Multiset.mem_coe] at hout
  exact ⟨hout.1,hout.2,Multiset.mem_of_le hle (Multiset.mem_add.mpr (.inr hmem))⟩

/-- Two processes have no page in common. -/
theorem Inv.apart (h : Inv s0 s) (hp : s.procs i=some p) (hq : s.procs j=some q) (hne : i≠j)
    (hin : ppn∈holdings p) : ppn∉holdings q := by
  have hn := h.nodup
  have hj : j∈(Finset.range nproc).erase i :=
    Finset.mem_erase.mpr ⟨Ne.symm hne,Finset.mem_range.mpr (h.lt hq)⟩
  rw [h.split hp,slotsPages_erase hj,hq,slotPages] at hn
  have hdisj := (Multiset.nodup_add.mp (Multiset.nodup_add.mp hn).2.1).2.2
  exact fun hin' => Multiset.disjoint_left.mp hdisj hin (Multiset.mem_add.mpr (.inl hin'))

/-- A system before its first process. -/
theorem inv_start (hempty : ∀ i,s0.procs i=none) (hn : (s0.mem.heap++s0.kernel).Nodup) :
    Inv s0 s0 ∧ total s0=((s0.mem.heap++s0.kernel : List ℕ) : Multiset ℕ) := by
  have ht : total s0=((s0.mem.heap++s0.kernel : List ℕ) : Multiset ℕ) := by
    have hz : slotsPages (Finset.range nproc) s0.procs=0 := by
      rw [slotsPages]
      refine Finset.sum_eq_zero fun i _ => ?_
      rw [hempty i]
      rfl
    rw [total,hz,add_zero,← Multiset.coe_add]
  refine ⟨⟨?_,le_refl _,fun i _ => hempty i,fun i p hp => ?_⟩,ht⟩
  · rw [ht]
    exact Multiset.coe_nodup.mpr hn
  · rw [hempty i] at hp
    cases hp

end Isolation

/-- In every run in which no fault without memory maps page 0 and no shrink reaches the pages that
the kernel maps, the pages behind user leaves of two processes differ, and a user leaf other than
that of `USYSCALL` points to a page that came from the heap, is not free, and is held by no one
else. -/
theorem pages_isolated {s0 t : System} {as : List Label} (hempty : ∀ i,s0.procs i=none)
    (hn : (s0.mem.heap++s0.kernel).Nodup) (hg : Guarded step Isolating s0 as)
    (hr : run step s0 as=.next t) :
    (∀ i j p q,t.procs i=some p → t.procs j=some q → i≠j → ∀ v w,v<pages → w<pages →
      UserLeaf p.pgt v → UserLeaf q.pgt w → (p.pgt.entryAt v).ppn≠(q.pgt.entryAt w).ppn) ∧
    (∀ i p v,t.procs i=some p → v<pages → UserLeaf p.pgt v → v≠usyscallPage →
      (p.pgt.entryAt v).ppn∈leaves (kernelSet p) p.pgt ∧
      (p.pgt.entryAt v).ppn∈s0.mem.heap++s0.kernel ∧ (p.pgt.entryAt v).ppn∉t.mem.heap ∧
      (p.pgt.entryAt v).ppn∉t.kernel ∧
      ∀ j q,t.procs j=some q → j≠i → (p.pgt.entryAt v).ppn∉holdings q) := by
  obtain ⟨h0,ht0⟩ := inv_start hempty hn
  have h : Inv s0 t := run_invariant (fun _ _ _ h hc hs => step_inv h hc hs) h0 hg hr
  refine ⟨fun i j p q hp hq hne v w hv hw hu hu' e => ?_,fun i p v hp hv hu hne => ?_⟩
  · have h1 := user_page_held (h.procs i p hp) hv hu
    have h2 := user_page_held (h.procs j q hq) hw hu'
    rw [← e] at h2
    exact h.apart hp hq hne h1 h2
  · have hwf := h.procs i p hp
    have hin := user_page_held hwf hv hu
    obtain ⟨hheap,hkernel,htotal⟩ := h.held hp hin
    rw [ht0,Multiset.mem_coe] at htotal
    have hk : v∉kernelSet p := by
      intro hk
      have hguard := hwf.guarded v hk hne
      rw [hu.2] at hguard
      cases hguard
    exact ⟨mem_leaves hv hk (valid_of_mapped hu.1),htotal,hheap,hkernel,
      fun j q hq hj => h.apart hp hq (Ne.symm hj) hin⟩

/-- Two processes grow by a page each and touch it. -/
def twoGrow : List Label :=
  [.init 0 1,.init 1 2,.sbrk 0 4096,.fault 0 5000,.sbrk 1 4096,.fault 1 4096]

/-- Each has two pages, and the four are different and from the heap. -/
theorem pages_isolated_twoGrow :
    ∃ t p q,run step (booted 32) twoGrow=.next t ∧ t.procs 0=some p ∧ t.procs 1=some q ∧
      (∀ v,v<2 → UserLeaf p.pgt v ∧ UserLeaf q.pgt v) ∧
      (∀ v w,v<2 → w<2 → (p.pgt.entryAt v).ppn≠(q.pgt.entryAt w).ppn) ∧
      ∀ v,v<2 → (p.pgt.entryAt v).ppn∈(booted 32).mem.heap ∧ (p.pgt.entryAt v).ppn∉t.mem.heap := by
  have ht : (run step (booted 32) twoGrow).test (fun t =>
      (t.procs 0).any fun p => (t.procs 1).any fun q =>
        (List.range 2).all fun v => decide (UserLeaf p.pgt v ∧ UserLeaf q.pgt v))=true := by
    decide +kernel
  obtain ⟨t,hr,hleaves⟩ := Outcome.exists_of_test ht
  have hg : Guarded step Isolating (booted 32) twoGrow := by decide +kernel
  obtain ⟨hapart,hheld⟩ := pages_isolated (fun _ => rfl) (by decide) hg hr
  obtain ⟨p,hp,hleaves⟩ := (Option.any_eq_true _ _).mp hleaves
  obtain ⟨q,hq,hleaves⟩ := (Option.any_eq_true _ _).mp hleaves
  have hu : ∀ v,v<2 → UserLeaf p.pgt v ∧ UserLeaf q.pgt v := fun v hv =>
    of_decide_eq_true (List.all_eq_true.mp hleaves v (List.mem_range.mpr hv))
  have hlt : ∀ v,v<2 → v<pages ∧ v≠usyscallPage := fun v hv => by
    have hlow : 2 ≤ usyscallPage := by decide
    have hpages := usyscallPage_lt
    omega
  refine ⟨t,p,q,hr,hp,hq,hu,fun v w hv hw => ?_,fun v hv => ?_⟩
  · exact hapart 0 1 p q hp hq (by decide) v w (hlt v hv).1 (hlt w hw).1 (hu v hv).1 (hu w hw).2
  · obtain ⟨-,htotal,hfree,-⟩ := hheld 0 p v hp (hlt v hv).1 (hu v hv).1 (hlt v hv).2
    exact ⟨htotal,hfree⟩

/-- The first process takes the last page of the heap, grows, and touches the new page. -/
def faultWithoutMemory : List Label := [.init 0 1,.sbrk 0 4096,.fault 0 4096]

/-- The new page is page 0, which is no page of the heap. -/
theorem fault_without_memory_maps_null :
    ∃ t,run step (booted 9) faultWithoutMemory=.next t ∧ ∃ p,t.procs 0=some p ∧
      UserLeaf p.pgt 1 ∧ (p.pgt.entryAt 1).ppn=0 ∧ 0∉(booted 9).mem.heap := by
  have ht : (run step (booted 9) faultWithoutMemory).test (fun t =>
      match t.procs 0 with
      | none => false
      | some p => decide (UserLeaf p.pgt 1) && decide ((p.pgt.entryAt 1).ppn=0))=true := by
    decide +kernel
  obtain ⟨t,hr,hp⟩ := Outcome.exists_of_test ht
  split at hp
  · cases hp
  · rename_i p hp0
    rw [Bool.and_eq_true,decide_eq_true_eq,decide_eq_true_eq] at hp
    exact ⟨t,hr,p,hp0,hp.1,hp.2,by decide⟩

end Xv6Rust.UserIsolation

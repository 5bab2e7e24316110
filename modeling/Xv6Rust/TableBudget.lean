import Xv6Rust.UserAlloc
import Xv6Rust.UserBytes
import Xv6Rust.UserCopy

/-!
# The pages that a new page table takes

`alloc_proc_pagetable` maps the pages of the kernel, and `uvm_alloc` the pages of the user from zero
on. Which tables there are follows from the pages that are mapped, and so does how many pages of
the heap it takes. Pages are mapped as long as the heap has that many and the user's pages end
below the kernel's. What a page table has taken, `dealloc_proc_pagetable` gives back.
-/

namespace Xv6Rust.TableBudget

open RadixTable Results Paging PageTable UserUnmap UserMemory PageEffects UserAlloc
open UserBytes (UserPage)
open UserCopy (pageCount)

/-- Tables on the paths of some pages. -/
def treeOf : List ℕ → Table Pte 2
  | [] => Table.empty Pte.zero 2
  | q::ps => grow fan Pte.zero (treeOf ps) q

/-- Their number. -/
def tableCount : List ℕ → ℕ
  | [] => 1
  | q::ps => tableCount ps+missing fan (treeOf ps) q

/-- The pages of the kernel, and the first pages of the user. -/
def laidPages (pid : ℕ) : ℕ → List ℕ
  | 0 => [usyscallPage,trapframeFromPid pid/pageSize,trampoline/pageSize]
  | n+1 => n::laidPages pid n

/-- Pages of the heap behind the first pages of the user, with the tables. -/
def need (pid n : ℕ) : ℕ := n+tableCount (laidPages pid n)

/-- There is room for the first pages of the user. -/
structure Room (pid n free : ℕ) : Prop where
  /-- The trap frame of the process has a page of its own. -/
  pos : 0 < pid
  /-- It is a page. -/
  fits : PidFits pid
  /-- The user's pages end below it. -/
  low : n*pageSize ≤ trapframeFromPid pid
  /-- There are enough free pages. -/
  enough : need pid n ≤ free

/-- Exactly some pages are mapped, and the tables are those on their paths. -/
structure Laid (ps : List ℕ) (pgt : PageTable) : Prop where
  /-- The tables. -/
  shape : SameShape pgt.root (treeOf ps)
  /-- Their number. -/
  count : pgt.frames.length=tableCount ps
  /-- The pages are mapped. -/
  mapped : ∀ q∈ps,pgt.Mapped q
  /-- No others are. -/
  bare : ∀ q,q < pages → q∉ps → ¬ValidAt pgt q

/-- The memory that was free is free again. -/
structure Returned (m0 m : Mem) : Prop where
  /-- The free pages. -/
  heap : m.heap.Perm m0.heap
  /-- The others are as before. -/
  data : ∀ p,p∉m0.heap → m.data p=m0.data p

/-- A page table that can be taken apart: its pages were free, and the user's come first. -/
structure Held (m0 : Mem) (pid n : ℕ) (pgt : PageTable) (m : Mem) : Prop where
  /-- The pages of the kernel. -/
  kernel : ∀ q∈kernelPages pid,pgt.Mapped q ∧ n ≤ q
  /-- The pages of the user. -/
  user : ∀ q,q < n → pgt.Mapped q
  /-- No others are mapped. -/
  bare : ∀ q,q < pages → q∉kernelPages pid → n ≤ q → ¬ValidAt pgt q
  /-- No page is lost. -/
  pool : pool (kernelPages pid) pgt m=(m0.heap : Multiset ℕ)
  /-- Pages that were not free are as before. -/
  data : ∀ p,p∉m0.heap → m.data p=m0.data p

/-- A page table that is built as far as a number of pages of the user. -/
structure Built (m0 : Mem) (pid n : ℕ) (pgt : PageTable) (m : Mem) : Prop where
  /-- The pages that are mapped. -/
  laid : Laid (laidPages pid n) pgt
  /-- There was room for them. -/
  room : Room pid n m0.heap.length
  /-- The free pages that are left. -/
  heap : m.heap=m0.heap.drop (need pid n)
  /-- The user reaches its pages. -/
  user : ∀ q,q < n → UserPage pgt q
  /-- No page is lost. -/
  pool : PageEffects.pool (kernelPages pid) pgt m=(m0.heap : Multiset ℕ)
  /-- Pages that were not free are as before. -/
  data : ∀ p,p∉m0.heap → m.data p=m0.data p

section Counting

variable {pid n k q free : ℕ}

theorem need_succ (pid n : ℕ) :
    need pid (n+1)=need pid n+1+missing fan (treeOf (laidPages pid n)) n := by
  rw [need,need,laidPages,tableCount]
  omega

theorem need_mono (pid : ℕ) : Monotone (need pid) := by
  refine monotone_nat_of_le_succ fun n => ?_
  rw [need_succ]
  omega

example : need 1 0=3 ∧ need 1 1=6 := by decide +kernel

/-- Room for more pages is room for fewer. -/
theorem Room.mono (h : Room pid n free) (hk : k ≤ n) : Room pid k free :=
  ⟨h.pos,h.fits,(Nat.mul_le_mul_right _ hk).trans h.low,(need_mono pid hk).trans h.enough⟩

/-- The pages of the kernel, from the lowest up. -/
theorem kernel_order (h : PidFits pid) (h0 : 0 < pid) :
    trapframeFromPid pid/pageSize < usyscallPage ∧ usyscallPage < trampoline/pageSize := by
  simp only [PidFits,trapframeFromPid,usyscallPage,usyscall,trapframe,trampoline,maxva,pageSize] at h ⊢
  omega

theorem Room.below (h : Room pid n free) : ∀ q∈kernelPages pid,n ≤ q := by
  have hlow : n ≤ trapframeFromPid pid/pageSize := by
    rw [Nat.le_div_iff_mul_le (by decide)]
    exact h.low
  obtain ⟨h1,h2⟩ := kernel_order h.fits h.pos
  intro q hq
  rw [kernelPages,Finset.mem_insert,Finset.mem_insert,Finset.mem_singleton] at hq
  omega

/-- All pages that are mapped are below `MAXVA`. -/
theorem Room.bound (h : Room pid n free) : n*pageSize+pageSize ≤ maxva := by
  have hlow : n*pageSize ≤ trapframe := h.low.trans (Nat.sub_le ..)
  have htop : trapframe+pageSize ≤ maxva := by decide
  omega

theorem mem_laidPages : q∈laidPages pid n ↔ q < n ∨ q∈kernelPages pid := by
  induction n with
  | zero =>
    rw [laidPages,kernelPages]
    simp only [List.mem_cons,List.not_mem_nil,or_false,Finset.mem_insert,Finset.mem_singleton,
      Nat.not_lt_zero,false_or]
    exact or_reverse
  | succ n ih =>
    rw [laidPages,List.mem_cons,ih,← or_assoc]
    exact or_congr (by omega) Iff.rfl

end Counting

section Mapping

variable {ps : List ℕ} {pgt : PageTable} {m : Mem} {q ppn : ℕ} {perm : PteFlag}

/-- A page that `uvm_alloc` maps is the user's. -/
theorem writePerm_user (ppn : ℕ) : (Pte.writePerm ppn userPerm).isUser=true := by
  have h : (userPerm|||flagV)&&&flagU≠0 := by decide
  rw [Pte.isUser,Pte.writePerm]
  exact bne_iff_ne.mpr h

theorem laid_empty (frame : ℕ) : Laid [] ⟨Table.empty Pte.zero 2,[frame]⟩ where
  shape := SameShape.refl _
  count := rfl
  mapped q hq := by cases hq
  bare q _ _ hv := by
    rw [ValidAt,entryAt_empty] at hv
    exact absurd hv (by decide)

/-- A page is mapped if it is not yet, and the tables on its path find memory. -/
theorem Laid.map (h : Laid ps pgt) (m : Mem) (hb : q*pageSize+pageSize ≤ maxva)
    (hperm : (Pte.writePerm ppn perm).isMapped=true) :
    ∃ v w r,pgt.mapPages m (q*pageSize) pageSize ppn perm=.ok (v,w,r) ∧ w.data=m.data ∧
      ((r=.ok () ∧ q∉ps ∧ missing fan (treeOf ps) q ≤ m.heap.length ∧
          w.heap=m.heap.drop (missing fan (treeOf ps) q) ∧
          MapsPage pgt v q (Pte.writePerm ppn perm) ∧ Laid (q::ps) v) ∨
        ((∃ e,r=.error e) ∧ (q∈ps ∨ m.heap.length < missing fan (treeOf ps) q))) := by
  have hlt := lt_pages_of_maxva hb
  have hlack : pgt.lacking q=missing fan (treeOf ps) q := h.shape.missing_eq q
  have hover : ¬q*pageSize+pageSize ≥ 2^64 := by
    simp only [pageSize,maxva] at hb ⊢
    omega
  rw [mapPages_page,if_neg hover,if_neg (not_lt.mpr hb)]
  by_cases hfew : pgt.lacking q > m.heap.length
  · rw [if_pos hfew]
    rw [hlack] at hfew
    exact ⟨_,_,_,rfl,rfl,.inr ⟨⟨_,rfl⟩,.inr hfew⟩⟩
  rw [if_neg hfew]
  have hle : pgt.lacking q ≤ m.heap.length := not_lt.mp hfew
  by_cases hv : (pgt.entryAt q).isValid=true
  · rw [if_pos hv]
    refine ⟨_,_,_,rfl,rfl,.inr ⟨⟨_,rfl⟩,.inl ?_⟩⟩
    by_contra hq
    exact h.bare q hlt hq hv
  · rw [if_neg hv]
    have hq : q∉ps := fun hq => hv (valid_of_mapped (h.mapped q hq))
    have hentry := fun q' => entryAt_mapped hle (Pte.writePerm ppn perm) q'
    have hother : ∀ q',q' < pages → q'≠q →
        (pgt.mapped m q (Pte.writePerm ppn perm)).entryAt q'=pgt.entryAt q' := fun q' hq' hne => by
      rw [hentry,if_neg]
      rwa [Nat.mod_eq_of_lt hq',Nat.mod_eq_of_lt hlt]
    have hself : (pgt.mapped m q (Pte.writePerm ppn perm)).entryAt q=Pte.writePerm ppn perm := by
      rw [hentry,if_pos rfl]
    refine ⟨_,_,_,rfl,rfl,.inl ⟨rfl,hq,hlack ▸ hle,?_,⟨hb,hv,hself,hother⟩,?_,?_,fun q' hin => ?_,
      fun q' hq' hout => ?_⟩⟩
    · rw [afterTables,hlack]
    · show SameShape (RadixTable.set fan _ (q*pageSize/pageSize) _) _
      refine SameShape.set ?_ _ _
      show SameShape (create fan Pte.zero pgt.root q m.heap).1 _
      rw [create_table hle]
      exact h.shape.grow q
    · show (m.heap.take (pgt.lacking q)++pgt.frames).length=_
      rw [List.length_append,List.length_take,h.count,tableCount,← hlack]
      omega
    · rw [Mapped,hentry]
      split
      · exact hperm
      · rename_i hne
        obtain rfl | hin := List.mem_cons.mp hin
        · exact absurd rfl hne
        · exact h.mapped q' hin
    · rw [List.mem_cons,not_or] at hout
      rw [ValidAt,hother q' hq' hout.1]
      exact h.bare q' hq' hout.2

/-- A page of the kernel is mapped, or the page table is gone. -/
theorem Laid.mapKernel (h : Laid ps pgt) (m : Mem) (hb : q*pageSize+pageSize ≤ maxva)
    (hperm : (Pte.writePerm ppn perm).isMapped=true) :
    ∃ w r,pgt.mapKernelPage m (q*pageSize) ppn perm=.ok (w,r) ∧ w.data=m.data ∧
      ((∃ v,r=some v ∧ q∉ps ∧ missing fan (treeOf ps) q ≤ m.heap.length ∧
          w.heap=m.heap.drop (missing fan (treeOf ps) q) ∧ Laid (q::ps) v) ∨
        (r=none ∧ (q∈ps ∨ m.heap.length < missing fan (treeOf ps) q))) := by
  obtain ⟨v,w,r,hr,hdata,⟨rfl,hq,hle,hheap,-,hl⟩ | ⟨⟨e,rfl⟩,hwhy⟩⟩ := h.map m hb hperm
  · rw [mapKernelPage,hr]
    exact ⟨w,some v,rfl,hdata,.inl ⟨v,rfl,hq,hle,hheap,hl⟩⟩
  · rw [mapKernelPage,hr]
    exact ⟨v.drop w,none,rfl,hdata,.inr ⟨rfl,hwhy⟩⟩

end Mapping

section Start

theorem trampolinePage_bound : trampoline/pageSize*pageSize+pageSize ≤ maxva := by decide

theorem usyscallPage_bound : usyscallPage*pageSize+pageSize ≤ maxva := by decide

theorem trapframePage_bound (pid : ℕ) : trapframeFromPid pid/pageSize*pageSize+pageSize ≤ maxva := by
  have hle : trapframeFromPid pid/pageSize*pageSize ≤ trapframe :=
    (Nat.div_mul_le_self ..).trans (Nat.sub_le ..)
  have htop : trapframe+pageSize ≤ maxva := by decide
  omega

theorem trapframePage_mem (pid : ℕ) : trapframeFromPid pid/pageSize∈kernelPages pid :=
  Finset.mem_insert_of_mem (Finset.mem_insert_self _ _)

theorem kernelPages_lt {pid q : ℕ} (h : q∈kernelPages pid) : q < pages := by
  have h1 := trampolinePage_lt
  have h2 := usyscallPage_lt
  have h3 := trapframePage_lt pid
  rw [kernelPages,Finset.mem_insert,Finset.mem_insert,Finset.mem_singleton] at h
  omega

/-- The page of the trap frame is not that of the trampoline. -/
theorem trapframePage_ne (pid : ℕ) : trapframeFromPid pid/pageSize≠trampoline/pageSize := by
  have hle : trapframeFromPid pid/pageSize ≤ trapframe/pageSize :=
    Nat.div_le_div_right (Nat.sub_le ..)
  have htop : trapframe/pageSize < trampoline/pageSize := by decide
  omega

/-- `alloc_proc_pagetable` maps the pages of the kernel, if there is room for them. -/
theorem allocProcPagetable_laid (m : Mem) (tramp tf up pid : ℕ) :
    (∃ m' r,allocProcPagetable m tramp tf up pid=.ok (m',r) ∧ m'.data=m.data ∧
      ((∃ pgt,r=some pgt ∧ Laid (laidPages pid 0) pgt ∧ 0 < pid ∧ need pid 0 ≤ m.heap.length ∧
          m'.heap=m.heap.drop (need pid 0)) ∨
        (r=none ∧ ¬Room pid 0 m.heap.length))) ∨
    (¬PidFits pid ∧ ∃ e,allocProcPagetable m tramp tf up pid=.error e) := by
  have hneed : need pid 0=1+missing fan (treeOf []) (trampoline/pageSize)+
      missing fan (treeOf [trampoline/pageSize]) (trapframeFromPid pid/pageSize)+
      missing fan (treeOf [trapframeFromPid pid/pageSize,trampoline/pageSize]) usyscallPage := by
    rw [need,Nat.zero_add]
    rfl
  rw [allocProcPagetable]
  cases hm : m.heap with
  | nil =>
    refine .inl ⟨m,none,rfl,rfl,.inr ⟨rfl,fun hr => ?_⟩⟩
    have hle := hr.enough
    rw [List.length_nil] at hle
    omega
  | cons frame heap =>
    dsimp only
    have hlen : (frame::heap).length=heap.length+1 := rfl
    have hshort : ∀ k,heap.length < k → k+1 ≤ need pid 0 → ¬Room pid 0 (heap.length+1) :=
      fun k hk hle hr => by
        have := hr.enough
        omega
    obtain ⟨m1,r1,h1,d1,hr1⟩ := (laid_empty frame).mapKernel ⟨heap,m.data⟩ trampolinePage_bound
      (writePerm_mapped tramp (flagR|||flagX) (by decide))
    rw [trampoline_aligned] at h1
    rw [h1,hlen,ok_bind]
    obtain ⟨pgt1,rfl,-,k1,c1,l1⟩ | ⟨rfl,hwhy⟩ := hr1
    swap
    · obtain hin | hfew := hwhy
      · cases hin
      · exact .inl ⟨m1,none,rfl,d1,.inr ⟨rfl,hshort _ hfew (by omega)⟩⟩
    dsimp only at k1 c1 ⊢
    have n1 : m1.heap.length=heap.length-missing fan (treeOf []) (trampoline/pageSize) := by
      rw [c1,List.length_drop]
    by_cases h : PidFits pid
    swap
    · rw [if_pos h]
      exact .inr ⟨h,_,rfl⟩
    refine .inl ?_
    rw [if_neg (not_not.mpr h)]
    obtain ⟨m2,r2,h2,d2,hr2⟩ := l1.mapKernel m1 (trapframePage_bound pid)
      (writePerm_mapped tf (flagR|||flagW) (by decide))
    rw [trapframeFromPid_aligned h] at h2
    rw [h2,ok_bind]
    obtain ⟨pgt2,rfl,-,k2,c2,l2⟩ | ⟨rfl,hwhy⟩ := hr2
    swap
    · obtain hin | hfew := hwhy
      · exact absurd (List.mem_singleton.mp hin) (trapframePage_ne pid)
      · refine ⟨m2,none,rfl,d2.trans d1,.inr ⟨rfl,hshort
          (missing fan (treeOf []) (trampoline/pageSize)+
            missing fan (treeOf [trampoline/pageSize]) (trapframeFromPid pid/pageSize)) ?_ ?_⟩⟩
        · omega
        · omega
    dsimp only
    have n2 : m2.heap.length=
        m1.heap.length-missing fan (treeOf [trampoline/pageSize]) (trapframeFromPid pid/pageSize) := by
      rw [c2,List.length_drop]
    obtain ⟨m3,r3,h3,d3,hr3⟩ := l2.mapKernel m2 usyscallPage_bound
      (writePerm_mapped up (flagR|||flagU) (by decide))
    rw [usyscallPage,usyscall_aligned] at h3
    have hd : m3.data=m.data := d3.trans (d2.trans d1)
    obtain ⟨pgt3,rfl,hnew,k3,c3,l3⟩ | ⟨rfl,hwhy⟩ := hr3
    · refine ⟨m3,_,h3,hd,.inl ⟨pgt3,rfl,l3,?_,by omega,?_⟩⟩
      · by_contra h0
        have hz : pid=0 := by omega
        refine hnew ?_
        rw [hz]
        decide
      · -- the first page is that of the page table
        have hsum : need pid 0=missing fan (treeOf []) (trampoline/pageSize)+
            (missing fan (treeOf [trampoline/pageSize]) (trapframeFromPid pid/pageSize)+
              missing fan (treeOf [trapframeFromPid pid/pageSize,trampoline/pageSize])
                usyscallPage)+1 := by
          omega
        rw [c3,c2,c1,List.drop_drop,List.drop_drop,hsum,List.drop_succ_cons]
    · refine ⟨m3,_,h3,hd,.inr ⟨rfl,?_⟩⟩
      obtain hin | hfew := hwhy
      · intro hr
        obtain ⟨k1,k2⟩ := kernel_order hr.fits hr.pos
        rw [List.mem_cons,List.mem_singleton] at hin
        omega
      · refine hshort (missing fan (treeOf []) (trampoline/pageSize)+
          missing fan (treeOf [trampoline/pageSize]) (trapframeFromPid pid/pageSize)+
          missing fan (treeOf [trapframeFromPid pid/pageSize,trampoline/pageSize]) usyscallPage) ?_ ?_
        · omega
        · omega

/-- The page table that `alloc_proc_pagetable` makes is built, and has no pages of the user. -/
theorem allocProcPagetable_built {m m' : Mem} {tramp tf up pid : ℕ} {r : Option PageTable}
    (h : allocProcPagetable m tramp tf up pid=.ok (m',r)) :
    (∃ pgt,r=some pgt ∧ Built m pid 0 pgt m') ∨
      (r=none ∧ Returned m m' ∧ ¬Room pid 0 m.heap.length) := by
  have heffect := allocProcPagetable_effect h
  obtain ⟨u,v,hr,hdata,hl⟩ | ⟨-,e,hr⟩ := allocProcPagetable_laid m tramp tf up pid
  · rw [h] at hr
    cases hr
    have hkeep : ∀ p,p∉m.heap → m'.data p=m.data p := fun p _ => by rw [hdata]
    obtain ⟨rfl,hheap⟩ | ⟨pgt,rfl,hfits,hfresh,hheap,-⟩ := heffect
    · obtain ⟨pgt,he,-⟩ | ⟨-,hroom⟩ := hl
      · cases he
      · exact .inr ⟨rfl,⟨Multiset.coe_eq_coe.mp hheap,hkeep⟩,hroom⟩
    · obtain ⟨pgt',he,hlaid,hpos,hle,hfree⟩ | ⟨he,-⟩ := hl
      · cases he
        refine .inl ⟨pgt,rfl,hlaid,⟨hpos,hfits,by omega,hle⟩,hfree,fun q hq => by omega,?_,hkeep⟩
        rw [pool,leaves_of_zero hfresh.zero,add_zero]
        exact hheap
      · cases he
  · rw [hr] at h
    cases h

end Start

section Growing

variable {m0 m m' : Mem} {pgt pgt' : PageTable} {pid n k size : ℕ}

/-- No page of the heap is outside the heap from before. -/
theorem Held.free (h : Held m0 pid n pgt m) {p : ℕ} (hp : p∈m.heap) : p∈m0.heap := by
  have hin : p∈PageEffects.pool (kernelPages pid) pgt m :=
    Multiset.mem_add.mpr (.inl (Multiset.mem_add.mpr (.inl hp)))
  rw [h.pool] at hin
  exact hin

/-- The pages of the user are from the heap. -/
theorem Held.owned (h : Held m0 pid n pgt m) {q : ℕ} (hq : q < n) :
    (pgt.entryAt q).ppn∈m0.heap := by
  have hkernel := fun hk => (h.kernel q hk).2
  have htramp := (h.kernel (trampoline/pageSize) (Finset.mem_insert_self _ _)).2
  have hlt := trampolinePage_lt
  have hin : (pgt.entryAt q).ppn∈PageEffects.pool (kernelPages pid) pgt m :=
    Multiset.mem_add.mpr (.inr (mem_leaves (by omega) (fun hk => by have := hkernel hk; omega)
      (valid_of_mapped (h.user q hq))))
  rw [h.pool] at hin
  exact hin

/-- The number of pages that were taken. -/
theorem Built.taken (h : Built m0 pid n pgt m) : m.heap.length+need pid n=m0.heap.length := by
  have henough := h.room.enough
  rw [h.heap,List.length_drop]
  omega

theorem Built.held (h : Built m0 pid n pgt m) : Held m0 pid n pgt m where
  kernel q hq := ⟨h.laid.mapped q (mem_laidPages.mpr (.inr hq)),h.room.below q hq⟩
  user q hq := h.laid.mapped q (mem_laidPages.mpr (.inl hq))
  bare q hlt hk hn := h.laid.bare q hlt fun hin => by
    obtain hq | hq := mem_laidPages.mp hin
    · omega
    · exact hk hq
  pool := h.pool
  data := h.data

/-- Writing to the pages of the user changes nothing but them. -/
theorem Built.write (h : Built m0 pid n pgt m) (hheap : m'.heap=m.heap)
    (hdata : ∀ p,p∉m0.heap → m'.data p=m.data p) : Built m0 pid n pgt m' where
  laid := h.laid
  room := h.room
  heap := hheap.trans h.heap
  user := h.user
  pool := by
    rw [PageEffects.pool,hheap]
    exact h.pool
  data p hp := (hdata p hp).trans (h.data p hp)

/-- The next page of the user is mapped if there is room for it. -/
theorem Built.next (h : Built m0 pid n pgt m) {ppn : ℕ} {heap : List ℕ} (hm : m.heap=ppn::heap) :
    ∃ v w r,pgt.mapPages (m.zeroed heap ppn) (n*pageSize) pageSize ppn userPerm=.ok (v,w,r) ∧
      ((r=.ok () ∧ Built m0 pid (n+1) v w) ∨
        ((∃ e,r=.error e) ∧ ¬Room pid (n+1) m0.heap.length)) := by
  have htaken := h.taken
  rw [hm,List.length_cons] at htaken
  have hsucc := need_succ pid n
  have hlen : (m.zeroed heap ppn).heap.length=heap.length := rfl
  have hfree : ppn∈m0.heap := h.held.free (by rw [hm]; exact List.mem_cons_self ..)
  obtain ⟨v,w,r,hr,hdata,⟨rfl,hnew,hle,hheap,hmap,hlaid⟩ | ⟨he,hwhy⟩⟩ := h.laid.map (m.zeroed heap ppn)
    h.room.bound (writePerm_mapped ppn userPerm (by decide))
  · have hkernel : KernelValid (kernelPages pid) pgt := fun q hq =>
      ⟨kernelPages_lt hq,valid_of_mapped (h.held.kernel q hq).1⟩
    have hpool := (rearranges_map hm hkernel hr).1.pool
    have htail : heap=m.heap.drop 1 := by rw [hm,List.drop_one,List.tail_cons]
    refine ⟨v,w,_,hr,.inl ⟨rfl,hlaid,⟨h.room.pos,h.room.fits,?_,by omega⟩,?_,fun q hq => ?_,
      hpool.trans h.pool,fun p hp => ?_⟩⟩
    · have hle := h.room.below _ (trapframePage_mem pid)
      have hne : n≠trapframeFromPid pid/pageSize := fun e =>
        hnew (mem_laidPages.mpr (.inr (e ▸ trapframePage_mem pid)))
      rw [← trapframeFromPid_aligned h.room.fits]
      exact Nat.mul_le_mul_right _ (by omega)
    · rw [hheap]
      show heap.drop _=_
      rw [htail,h.heap,List.drop_drop,List.drop_drop,hsucc,Nat.add_assoc]
    · by_cases e : q=n
      · rw [UserPage,e,hmap.self]
        exact ⟨Pte.writePerm_valid _ _,writePerm_user ppn⟩
      · have hlt := hmap.lt
        rw [UserPage,hmap.other q (by omega) e]
        exact h.user q (by omega)
    · rw [hdata]
      show Function.update m.data ppn _ p=_
      have hne : p≠ppn := fun e => hp (e ▸ hfree)
      rw [Function.update_of_ne hne]
      exact h.data p hp
  · refine ⟨v,w,r,hr,.inr ⟨he,fun hroom => ?_⟩⟩
    have henough := hroom.enough
    obtain hin | hfew := hwhy
    · obtain hlt | hk := mem_laidPages.mp hin
      · omega
      · have := hroom.below n hk
        omega
    · omega

/-- The loop of `uvm_alloc` maps its pages if there is room for them. -/
theorem Built.loop (h : Built m0 pid n pgt m) {start : ℕ} {done : Bool}
    (hr : pgt.allocLoop m (start*pageSize) (n*pageSize) k=.ok (pgt',m',done)) :
    (done=true ∧ Built m0 pid (n+k) pgt' m') ∨ (done=false ∧ ¬Room pid (n+k) m0.heap.length) := by
  induction k generalizing n pgt m with
  | zero =>
    cases hr
    exact .inl ⟨rfl,h⟩
  | succ k ih =>
    have hmono : ∀ j,j ≤ n+(k+1) → ¬Room pid j m0.heap.length →
        ¬Room pid (n+(k+1)) m0.heap.length := fun j hj hno hroom => hno (hroom.mono hj)
    rw [allocLoop] at hr
    cases hm : m.heap with
    | nil =>
      rw [hm] at hr
      obtain ⟨u,-,he⟩ := bind_eq_ok hr
      cases he
      refine .inr ⟨rfl,hmono (n+1) (by omega) fun hroom => ?_⟩
      have henough := hroom.enough
      have htaken := h.taken
      rw [need_succ] at henough
      rw [hm,List.length_nil] at htaken
      omega
    | cons ppn heap =>
      rw [hm] at hr
      obtain ⟨v,w,r,hmap,⟨rfl,hb⟩ | ⟨⟨e,rfl⟩,hno⟩⟩ := h.next hm
      · rw [userPerm] at hmap
        dsimp only at hr
        rw [hmap,ok_bind] at hr
        dsimp only at hr
        rw [← Nat.succ_mul] at hr
        have hsum : n+(k+1)=n+1+k := by omega
        rw [hsum]
        exact ih hb hr
      · rw [userPerm] at hmap
        dsimp only at hr
        rw [hmap,ok_bind] at hr
        obtain ⟨u,-,he⟩ := bind_eq_ok hr
        cases he
        exact .inr ⟨rfl,hmono (n+1) (by omega) hno⟩

/-- A page table that `uvm_alloc` has restored can be taken apart as before. -/
theorem Held.restored (h : Held m0 pid n pgt m) (hr : Restored pgt m pgt' m') :
    Held m0 pid n pgt' m' := by
  have hkept : ∀ q,q < pages → pgt.Mapped q → pgt'.Mapped q := fun q hq hmap => by
    rw [Mapped,hr.entry q hq (.inl (valid_of_mapped hmap))]
    exact hmap
  have hcell : ∀ q,q < pages → cell pgt' q=cell pgt q := fun q hq => by
    by_cases hv : ValidAt pgt q ∨ ValidAt pgt' q
    · exact cell_congr (hr.entry q hq hv)
    · rw [not_or] at hv
      rw [cell_of_not_valid hv.1,cell_of_not_valid hv.2]
  have hleaves : leaves (kernelPages pid) pgt'=leaves (kernelPages pid) pgt :=
    Finset.sum_congr rfl fun q hq => hcell q (Finset.mem_range.mp (Finset.mem_sdiff.mp hq).1)
  obtain ⟨fs,hf,hp⟩ := hr.heap
  refine ⟨fun q hq => ?_,fun q hq => ?_,fun q hq hk hn hv => ?_,?_,fun p hp => ?_⟩
  · exact ⟨hkept q (kernelPages_lt hq) (h.kernel q hq).1,(h.kernel q hq).2⟩
  · have hle := (h.kernel _ (trapframePage_mem pid)).2
    have hlt := trapframePage_lt pid
    exact hkept q (by omega) (h.user q hq)
  · refine h.bare q hq hk hn ?_
    rw [ValidAt,← hr.entry q hq (.inr hv)]
    exact hv
  · rw [← h.pool,PageEffects.pool,PageEffects.pool,hleaves,hf,← Multiset.coe_add,
      ← Multiset.coe_eq_coe.mpr hp,← Multiset.coe_add]
    abel
  · have hout : p∉m.heap := fun hin => hp (h.free hin)
    rw [hr.data p hout]
    exact h.data p hp

theorem pgRoundUp_pageCount (size : ℕ) : pgRoundUp size=pageCount size*pageSize := rfl

/-- `uvm_alloc` of a page table that is built maps all pages up to the new size if there is room
for them, and leaves the page table as it was otherwise. -/
theorem Built.alloc (h : Built m0 pid n pgt m) (hn : pageCount size=n) (newSize : ℕ) :
    ∃ v w r,pgt.uvmAlloc m size newSize=.ok (v,w,r) ∧
      ((r=some (max size newSize) ∧ Built m0 pid (pageCount (max size newSize)) v w) ∨
        (r=none ∧ Held m0 pid n v w ∧
          ¬Room pid (pageCount (max size newSize)) m0.heap.length)) := by
  rw [uvmAlloc]
  by_cases hle : newSize ≤ size
  · rw [if_pos hle,max_eq_left hle,hn]
    exact ⟨pgt,m,_,rfl,.inl ⟨rfl,h⟩⟩
  · have hlt : size ≤ newSize := by omega
    rw [if_neg hle,max_eq_right hlt,pgRoundUp_pageCount,pgRoundUp_pageCount,hn]
    have hcount : (pageCount newSize*pageSize-n*pageSize)/pageSize=pageCount newSize-n := by
      rw [← Nat.sub_mul,Nat.mul_div_cancel _ (by decide)]
    have hge : n ≤ pageCount newSize := by
      rw [← hn]
      exact Nat.div_le_div_right (by omega)
    have hsum : n+(pageCount newSize-n)=pageCount newSize := by omega
    have hbound := h.room.bound
    have hnil : Grown pgt m n [] pgt m := grown_nil (by omega)
    obtain ⟨v,w,done,hr,hres⟩ := hnil.loop (pageCount newSize-n)
    rw [List.length_nil,Nat.add_zero] at hr
    have hdone := h.loop hr
    rw [hsum] at hdone
    rw [hcount,hr]
    obtain ⟨rfl,hb⟩ | ⟨rfl,hno⟩ := hdone
    · exact ⟨v,w,_,rfl,.inl ⟨rfl,hb⟩⟩
    · obtain ⟨hd,-⟩ | ⟨-,hres⟩ := hres
      · cases hd
      · exact ⟨v,w,_,rfl,.inr ⟨rfl,h.held.restored hres,hno⟩⟩

end Growing

section Discarding

variable {m0 m : Mem} {pgt : PageTable} {pid n : ℕ}

theorem noTable_of_mapped {q : ℕ} (h : pgt.Mapped q) : NoTable pgt q := fun _ => leaf_of_mapped h

/-- Clearing a page makes no table of another. -/
theorem noTable_clearPage {q : ℕ} (h : NoTable pgt q) (page : ℕ) :
    NoTable (clearPage pgt page) q := by
  rw [clearPage]
  split
  · rename_i hm
    intro hv
    rw [entryAt_setPte (find_of_valid (valid_of_mapped hm))] at hv ⊢
    split at hv
    · cases hv
    · rename_i hne
      rw [if_neg hne]
      exact h hv
  · exact h

/-- `dealloc_proc_pagetable` and the drop of the page table give all its pages back. -/
theorem Held.discard (h : Held m0 pid n pgt m) (hfits : PidFits pid) {size : ℕ}
    (hn : pageCount size=n) : ∃ m',UserMemory.discard pgt m size pid=.ok m' ∧ Returned m0 m' := by
  have hlow : n < pages := (h.kernel _ (trapframePage_mem pid)).2.trans_lt (trapframePage_lt pid)
  have htf := h.kernel _ (trapframePage_mem pid)
  have htramp := h.kernel (trampoline/pageSize) (Finset.mem_insert_self _ _)
  have hus := h.kernel usyscallPage
    (Finset.mem_insert_of_mem (Finset.mem_insert_of_mem (Finset.mem_singleton_self _)))
  have hl : KernelLeaves pgt pid := ⟨noTable_of_mapped htramp.1,
    noTable_clearPage (noTable_of_mapped htf.1) _,
    noTable_clearPage (noTable_clearPage (noTable_of_mapped hus.1) _) _⟩
  obtain ⟨hleaves,hgone,hframes⟩ := withoutKernelPages_effect hl
  have hother : ∀ q,q < pages → q∉kernelPages pid →
      (withoutKernelPages pgt pid).entryAt q=pgt.entryAt q := fun q hq hk => by
    rw [kernelPages,Finset.mem_insert,Finset.mem_insert,Finset.mem_singleton,not_or,not_or] at hk
    have hne : q≠usyscall/pageSize := hk.2.2
    have hlt : usyscall/pageSize < pages := usyscallPage_lt
    rw [withoutKernelPages,entryAt_clearPage hlt hq hne,
      entryAt_clearPage (trapframePage_lt pid) hq hk.2.1,
      entryAt_clearPage trampolinePage_lt hq hk.1]
  have huser : ∀ q,q < n → q∉kernelPages pid := fun q hq hk => by
    have := (h.kernel q hk).2
    omega
  have hmapped : ∀ q,q < n → (withoutKernelPages pgt pid).Mapped q := fun q hq => by
    rw [Mapped,hother q (by omega) (huser q hq)]
    exact h.user q hq
  -- the user's pages are unmapped from the first to the last
  have hloop : ∃ v,(withoutKernelPages pgt pid).unmapLoop m (0*pageSize) true n=
      .ok (v,{m with heap := freedPages (withoutKernelPages pgt pid) 0 n++m.heap}) ∧
      Cleared (withoutKernelPages pgt pid) v 0 n := by
    obtain ⟨k,v,hk,hc,hstop,hr⟩ | ⟨k,hk,-,-,-,hleaf,-⟩ :=
      unmapLoop_cases (withoutKernelPages pgt pid) m 0 n
    · have hkn : k=n := by
        by_contra hne
        have hv := hstop (by omega) (by omega)
        rw [Nat.zero_add,valid_of_mapped (hmapped k (by omega))] at hv
        cases hv
      rw [hkn] at hc hr
      exact ⟨v,hr,hc⟩
    · rw [Nat.zero_add,leaf_of_mapped (hmapped k hk)] at hleaf
      cases hleaf
  obtain ⟨v,hr,hc⟩ := hloop
  have hv : leaves (kernelPages pid) v=0 := by
    refine Finset.sum_eq_zero fun q hq => cell_of_not_valid fun hvalid => ?_
    obtain ⟨hlt,hk⟩ := Finset.mem_sdiff.mp hq
    rw [Finset.mem_range] at hlt
    by_cases hqn : q < n
    · rw [ValidAt,cleared_zero hc hqn (by rw [Nat.zero_add])] at hvalid
      exact absurd hvalid (by decide)
    · refine h.bare q hlt hk (by omega) ?_
      rw [ValidAt,← hother q hlt hk,← cleared_other hc]
      · exact hvalid
      · intro i hi
        rw [Nat.zero_add,Nat.mod_eq_of_lt hlt,Nat.mod_eq_of_lt (by omega)]
        omega
  have hsum := cleared_leaves hc (K:=kernelPages pid) fun i hi => by
    rw [Nat.zero_add,Nat.mod_eq_of_lt (by omega)]
    exact huser i hi
  rw [hleaves,hv,zero_add] at hsum
  have hback : Returned m0 (v.drop {m with
      heap := freedPages (withoutKernelPages pgt pid) 0 n++m.heap}) := by
    refine ⟨Multiset.coe_eq_coe.mp ?_,h.data⟩
    rw [← h.pool,PageEffects.pool,hsum,PageTable.drop,hc.frames,hframes]
    simp only [← Multiset.coe_add]
    abel
  obtain ⟨-,-,he⟩ | ⟨hno,-⟩ := deallocProcPagetable_eq pgt m size pid
  swap
  · exact absurd ⟨hfits,hl⟩ hno
  rw [UserMemory.discard,he]
  rw [Nat.zero_mul] at hr
  by_cases hsize : size > 0
  · have hpages : pages=134217728 := by decide
    have hcount : pgRoundUp size/pageSize=n := by
      rw [pgRoundUp_pageCount,Nat.mul_div_cancel _ (by decide),hn]
    have hover : ¬size+(pageSize-1) ≥ 2^64 := by
      rw [pageCount] at hn
      simp only [pageSize] at hn ⊢
      omega
    have hend : ¬0+pageSize*n ≥ 2^64 := by
      simp only [pageSize]
      omega
    rw [if_pos hsize,if_neg hover,hcount,uvmUnmap,if_neg (by decide),if_neg hend,hr]
    exact ⟨_,rfl,hback⟩
  · have hn0 : n=0 := by
      rw [← hn,Nat.eq_zero_of_not_pos hsize]
      decide
    subst hn0
    cases hr
    rw [if_neg hsize]
    exact ⟨_,rfl,hback⟩

end Discarding

end Xv6Rust.TableBudget

import Xv6Rust.PageEffects

/-!
# User mappings and the size of a process

The page fault branch of `user_trap` maps the page of any address, and a shrinking
`sbrk` stops at the first page of its range that is not mapped. As long as faults stay
below the size and shrinks leave no page behind, every user mapping but that of
`USYSCALL` lies below the size, rounded up.
-/

namespace Xv6Rust.UserBounds

open Runs Results Paging PageTable UserUnmap UserMemory PageEffects

/-- Every user leaf but that of `USYSCALL` lies below a bound. -/
def Bounded (pgt : PageTable) (bound : ℕ) : Prop :=
  ∀ v,v<pages → UserLeaf pgt v → v≠usyscallPage → v*pageSize<bound

section Effects

variable {K : Finset ℕ} {A : Set ℕ} {pgt pgt' : PageTable} {m m' : Mem} {bound : ℕ}

/-- A user leaf is an entry from before, or lies in the area. -/
theorem userLeaf_of_rearranges (h : Rearranges K A pgt m pgt' m') {v : ℕ} (hv : v<pages)
    (hA : v∉A) (hu : UserLeaf pgt' v) : pgt'.entryAt v=pgt.entryAt v := by
  obtain hw | hz := h.area v hv hA
  · exact hw.eq_of_user hu.2
  · have hm := hu.1
    rw [Mapped,hz] at hm
    cases hm

/-- Mapping below the bound keeps it. -/
theorem bounded_of_rearranges (h : Rearranges K A pgt m pgt' m') (hb : Bounded pgt bound)
    (hA : ∀ q∈A,q*pageSize<bound) : Bounded pgt' bound := by
  intro v hv hu hne
  by_cases hin : v∈A
  · exact hA v hin
  · have he := userLeaf_of_rearranges h hv hin hu
    rw [UserLeaf,Mapped,he] at hu
    exact hb v hv hu hne

theorem Bounded.mono (h : Bounded pgt bound) {bound' : ℕ} (hle : bound ≤ bound') :
    Bounded pgt bound' := fun v hv hu hne => lt_of_lt_of_le (h v hv hu hne) hle

/-- A new page table has no user leaf but `USYSCALL`. -/
theorem bounded_of_fresh (h : Fresh K pgt) : Bounded pgt bound := by
  intro v hv hu hne
  by_cases hk : v∈K
  · have hg := h.guarded v hk hne
    rw [hu.2] at hg
    cases hg
  · have hm := hu.1
    rw [Mapped,h.zero v hv hk] at hm
    cases hm

theorem kernelValid_empty (pgt : PageTable) : KernelValid ∅ pgt :=
  fun q hq => absurd hq (Finset.notMem_empty q)

/-- The trap frame of a task is no user leaf. -/
theorem bounded_of_newTask {tid : ℕ} {task : Task} (hb : Bounded pgt bound)
    (h : newTask pgt m tid=.ok (pgt',m',task)) : Bounded pgt' bound := by
  obtain ⟨-,-,-,-,hother,hself,-⟩ := newTask_effect (K:=∅) h
  intro v hv hu hne
  by_cases e : v=taskPage tid
  · have hg := hu.2
    rw [e,hself,writePerm_not_user _ (by decide)] at hg
    cases hg
  · rw [UserLeaf,Mapped,hother v hv e] at hu
    exact hb v hv hu hne

/-- The segments lie below the size that is reached. -/
theorem bounded_of_loadSegments {segments : List (ℕ×ℕ)} {size size' : ℕ}
    (hb : Bounded pgt (pgRoundUp size))
    (h : loadSegments pgt m size segments=.ok (pgt',m',size',true)) :
    Bounded pgt' (pgRoundUp size') := by
  induction segments generalizing pgt m size with
  | nil =>
    cases h
    exact hb
  | cons seg rest ih =>
    obtain ⟨vaddr,memsz⟩ := seg
    rw [loadSegments] at h
    split at h
    · cases h
    split at h
    · cases h
    · obtain ⟨⟨u,v,w⟩,hr,he⟩ := bind_eq_ok h
      cases w with
      | none => cases he
      | some size1 =>
        obtain ⟨hre,hsize⟩ := uvmAlloc_effect (kernelValid_empty pgt) hr
        have hs : size1=max size (vaddr+memsz) := hsize size1 rfl
        refine ih ?_ he
        rw [hs]
        refine bounded_of_rearranges hre (hb.mono (pgRoundUp_mono (le_max_left _ _))) ?_
        intro q hq
        exact hq

/-- The program that `load` has read lies below its size. -/
theorem bounded_of_loadImage {img : Image} {pid size : ℕ} (hb : Bounded pgt (pgRoundUp 0))
    (h : loadImage pgt m img pid=.ok (m',some (pgt',size))) :
    Bounded pgt' (pgRoundUp size) := by
  obtain ⟨⟨u1,m1,size1,done⟩,hr1,h⟩ := bind_eq_ok h
  split at h
  · obtain ⟨m2,-,h⟩ := bind_eq_ok h
    cases h
  · rename_i hdone
    have hd : done=true := by
      cases done with
      | true => rfl
      | false => exact absurd (Bool.false_and _) hdone
    rw [hd] at hr1
    have hb1 := bounded_of_loadSegments hb hr1
    obtain ⟨⟨u2,m2,w⟩,hr2,h⟩ := bind_eq_ok h
    cases w with
    | none =>
      obtain ⟨m3,-,h⟩ := bind_eq_ok h
      cases h
    | some size2 =>
      obtain ⟨hre,hsize⟩ := uvmAlloc_effect (kernelValid_empty u1) hr2
      obtain ⟨u3,hr3,h⟩ := bind_eq_ok h
      split at h
      · obtain ⟨m3,-,h⟩ := bind_eq_ok h
        cases h
      · cases h
        have hle : pgRoundUp size1 ≤
            pgRoundUp (max (pgRoundUp size1)
              (pgRoundUp size1+maxTasksPerProc*(userStackSize+pageSize))) := by
          refine le_trans ?_ (pgRoundUp_mono (le_max_left _ _))
          simp only [pgRoundUp,pageSize]
          omega
        have hb2 := bounded_of_rearranges hre (hb1.mono hle) fun q hq => hq
        rw [← hsize size rfl] at hb2
        exact bounded_of_rearranges (clearGuards_effect (K:=∅) (m:=m') hr3) hb2
          fun q hq => absurd hq (Set.notMem_empty q)

end Effects

/-- A mapping at the address is refused: the address is too large, a table would have to be
made, or the page is mapped. -/
def MapsNothing (pgt : PageTable) (va : ℕ) : Prop :=
  maxva<pgRoundDown va+pageSize ∨ 0<pgt.lacking (va/pageSize) ∨ ValidAt pgt (va/pageSize)

instance (pgt : PageTable) (va : ℕ) : Decidable (MapsNothing pgt va) :=
  inferInstanceAs (Decidable (_ ∨ _ ∨ _))

/-- A fault below the size, at a page that can be mapped, or a fault above it that finds no memory
and maps nothing. -/
def FaultFits (m : Mem) (p : Proc) (va : ℕ) : Prop :=
  (va<p.size ∧ pgRoundDown va+pageSize ≤ maxva ∧
      (ValidAt p.pgt (va/pageSize) → UserLeaf p.pgt (va/pageSize))) ∨
    (p.size≤va ∧ m.heap=[] ∧ MapsNothing p.pgt va)

instance (m : Mem) (p : Proc) (va : ℕ) : Decidable (FaultFits m p va) :=
  inferInstanceAs (Decidable (_ ∨ _))

/-- No user leaf stands behind a hole in the range of a shrink. -/
def ShrinkFits (p : Proc) (newSize : ℕ) : Prop :=
  ∀ j,j<deallocCount p.size newSize → ∀ i,i<j → ¬ValidAt p.pgt (deallocStart newSize+i) →
    UserLeaf p.pgt (deallocStart newSize+j) → (deallocStart newSize+j)%pages=usyscallPage

instance (p : Proc) (newSize : ℕ) : Decidable (ShrinkFits p newSize) :=
  inferInstanceAs (Decidable (∀ j,j<deallocCount p.size newSize → ∀ i,i<j → _))

/-- The steps that keep user mappings below the size. -/
def InRange (s : System) : Label → Prop
  | .fault i va => ∀ p∈s.procs i,FaultFits s.mem p va
  | .sbrk i increment => increment<0 → ∀ p∈s.procs i,ShrinkFits p (p.size-(-increment).toNat)
  | _ => True

instance (s : System) : ∀ a,Decidable (InRange s a)
  | .fault i va => inferInstanceAs (Decidable (∀ p∈s.procs i,FaultFits s.mem p va))
  | .sbrk i increment => inferInstanceAs
      (Decidable (increment<0 → ∀ p∈s.procs i,ShrinkFits p (p.size-(-increment).toNat)))
  | .init _ _ => inferInstanceAs (Decidable True)
  | .fork _ _ _ _ => inferInstanceAs (Decidable True)
  | .exec _ _ _ => inferInstanceAs (Decidable True)
  | .exit _ => inferInstanceAs (Decidable True)
  | .wait _ _ => inferInstanceAs (Decidable True)
  | .reorder _ => inferInstanceAs (Decidable True)
  | .take => inferInstanceAs (Decidable True)
  | .give _ => inferInstanceAs (Decidable True)

/-- The user mappings of a process lie below its size. -/
def ProcBounded (p : Proc) : Prop := Bounded p.pgt (pgRoundUp p.size)

/-- The user mappings of all processes do. -/
def AllBounded (s : System) : Prop := ∀ i,∀ p∈s.procs i,ProcBounded p

section Steps

variable {s t : System} {p p' : Proc} {m m' : Mem}

/-- A page below the size. -/
theorem page_lt_size {va size : ℕ} (h : va < size) : va/pageSize*pageSize<pgRoundUp size := by
  simp only [pgRoundUp,pageSize]
  omega

/-- Unmapping the trap frame of a task. -/
theorem bounded_of_dropTask {pgt pgt' : PageTable} {task : Option Task} {bound : ℕ}
    (hb : Bounded pgt bound) (h : dropTask pgt m task=.ok (pgt',m')) : Bounded pgt' bound := by
  cases task with
  | none =>
    cases h
    exact hb
  | some task =>
    rw [dropTask,uvmUnmap] at h
    split at h
    · cases h
    split at h
    · cases h
    · rename_i hal ho
      have ha : trapframeFromTid task.tid/pageSize*pageSize=trapframeFromTid task.tid := by
        have hz : trapframeFromTid task.tid%pageSize=0 := not_not.mp hal
        simp only [pageSize] at hz ⊢
        omega
      rw [← ha] at h
      by_cases hm : pgt.Mapped (trapframeFromTid task.tid/pageSize)
      · rw [unmapLoop_mapped hm,unmapLoop] at h
        cases h
        intro v hv hu hne
        have he := entryAt_setPte (find_of_valid (valid_of_mapped hm)) Pte.zero v
        rw [UserLeaf,Mapped,he] at hu
        split at hu
        · cases hu.1
        · exact hb v hv hu hne
      · cases hv : (pgt.entryAt (trapframeFromTid task.tid/pageSize)).isValid with
        | false =>
          rw [unmapLoop_hole hv] at h
          cases h
          exact hb
        | true =>
          have hl : (pgt.entryAt (trapframeFromTid task.tid/pageSize)).isLeaf=false := by
            cases hl : (pgt.entryAt (trapframeFromTid task.tid/pageSize)).isLeaf with
            | false => rfl
            | true =>
              rw [Mapped,Pte.isMapped,hv,hl] at hm
              exact absurd rfl hm
          rw [unmapLoop_table hv hl] at h
          cases h

theorem exec_bounded {tramp tid : ℕ} {img : Image} (hb : ProcBounded p)
    (h : exec p m tramp img tid=.ok (m',p')) : ProcBounded p' := by
  obtain ⟨⟨m1,r1⟩,h1,h⟩ := bind_eq_ok h
  obtain ⟨rfl,-⟩ | ⟨pgt,rfl,-,hf,-,-⟩ := allocProcPagetable_effect h1
  · cases h
    exact hb
  · obtain ⟨⟨m2,r2⟩,h2,h⟩ := bind_eq_ok h
    cases r2 with
    | none =>
      cases h
      exact hb
    | some r2 =>
      obtain ⟨pgt2,size⟩ := r2
      obtain ⟨old,-,h⟩ := bind_eq_ok h
      obtain ⟨⟨pgt3,m3,task⟩,h3,h⟩ := bind_eq_ok h
      obtain ⟨m4,-,h⟩ := bind_eq_ok h
      cases h
      exact bounded_of_newTask (bounded_of_loadImage (bounded_of_fresh hf) h2) h3

/-- A shrink that leaves no user leaf behind a hole. -/
theorem shrink_bounded {newSize size : ℕ} {pgt' : PageTable} (hb : ProcBounded p)
    (hfit : ShrinkFits p newSize) (hle : newSize ≤ p.size)
    (h : p.pgt.uvmDealloc m p.size newSize=.ok (pgt',m',size)) :
    Bounded pgt' (pgRoundUp newSize) := by
  have hnone : Avoids ∅ p.pgt (deallocStart newSize) (deallocCount p.size newSize) :=
    fun i _ _ => Finset.notMem_empty _
  obtain ⟨hre,k,hk,hcleared,hstop⟩ := uvmDealloc_effect h hnone
  intro v hv hu hne
  by_contra hge
  have he := userLeaf_of_rearranges hre hv (Set.notMem_empty v) hu
  have hold : UserLeaf p.pgt v := by
    rw [UserLeaf,Mapped,he] at hu
    exact hu
  have hlt := hb v hv hold hne
  have hstart := pgRoundUp_div newSize
  have hend := pgRoundUp_div p.size
  have hmono := pgRoundUp_mono hle
  obtain ⟨j,rfl⟩ : ∃ j,v=deallocStart newSize+j := by
    refine Nat.exists_eq_add_of_le ?_
    rw [deallocStart]
    simp only [pageSize] at hge hstart ⊢
    omega
  have hj : j<deallocCount p.size newSize := by
    rw [deallocStart] at hlt
    rw [deallocCount]
    simp only [pageSize] at hlt hstart hend hmono ⊢
    omega
  have hkj : k≤j := by
    by_contra hjk
    exact hcleared j (by omega) (valid_of_mapped hu.1)
  have hhole := hstop (by omega) (by omega)
  by_cases e : k=j
  · rw [e] at hhole
    exact hhole (valid_of_mapped hold.1)
  · have hus := hfit j hj k (by omega) hhole hold
    rw [Nat.mod_eq_of_lt hv] at hus
    exact hne hus

theorem sbrk_bounded {increment : ℤ} (hb : ProcBounded p)
    (hfit : increment<0 → ShrinkFits p (p.size-(-increment).toNat))
    (h : sbrk p m increment=.ok (m',p')) : ProcBounded p' := by
  rw [sbrk] at h
  split at h
  · split at h
    · cases h
    · cases h
      exact hb.mono (pgRoundUp_mono (Nat.le_add_right _ _))
  split at h
  · rename_i hneg
    split at h
    · cases h
    · obtain ⟨⟨u,v,w⟩,hr,h⟩ := bind_eq_ok h
      cases h
      exact shrink_bounded hb (hfit hneg) (Nat.sub_le _ _) hr
  · cases h
    exact hb

/-- The entry that a fault writes is a user leaf. -/
theorem faultPte_user (ppn : ℕ) : (Pte.writePerm ppn (flagR|||flagW|||flagU)).isMapped=true ∧
    (Pte.writePerm ppn (flagR|||flagW|||flagU)).isUser=true := by
  rw [Pte.isMapped,Pte.isValid,Pte.isLeaf,Pte.isUser,Pte.writePerm]
  dsimp only
  decide

/-- What a fault that fits does: above the size nothing but to kill the process, below it, if
there is memory, exactly the page is mapped. -/
theorem pageFault_effect {va : ℕ} (hfit : FaultFits m p va)
    (h : pageFault p m va=.ok (m',p')) : p'.size=p.size ∧
      (p.size≤va → SameEntries p.pgt p'.pgt ∧ p'.killed=true) ∧
      (va<p.size → (∀ q,q<pages → q≠va/pageSize → p'.pgt.entryAt q=p.pgt.entryAt q) ∧
        (p.pgt.lacking (va/pageSize) < m.heap.length → UserLeaf p'.pgt (va/pageSize))) := by
  rw [pageFault] at h
  split at h
  · rename_i hm
    obtain ⟨⟨u,v,w⟩,hr,h⟩ := bind_eq_ok h
    cases h
    refine ⟨rfl,?_⟩
    obtain ⟨-,hlack,-,hmap,-⟩ | ⟨-,hs,-⟩ := mapPages_cases (K:=∅) hr
    · refine ⟨fun hge => ?_,fun _ => ⟨hmap.other,fun hlt => ?_⟩⟩
      · obtain ⟨hlt,-⟩ | ⟨-,-,hno⟩ := hfit
        · exact absurd hge (Nat.not_le.mpr hlt)
        · rw [hm,List.length_nil] at hlack
          obtain h1 | h1 | h1 := hno
          · exact absurd h1 (Nat.not_lt.mpr hmap.bound)
          · exact absurd hlack (Nat.not_le.mpr h1)
          · exact absurd h1 hmap.before
      · rw [hm] at hlt
        exact absurd hlt (Nat.not_lt_zero _)
    · refine ⟨fun _ => ⟨hs,rfl⟩,fun _ => ⟨fun q _ _ => hs q,fun hlt => ?_⟩⟩
      rw [hm] at hlt
      exact absurd hlt (Nat.not_lt_zero _)
  · rename_i ppn heap hm
    obtain ⟨⟨u,v,w⟩,hr,h⟩ := bind_eq_ok h
    cases h
    obtain ⟨hlt,hmax,huser⟩ | ⟨-,hnil,-⟩ := hfit
    · refine ⟨rfl,fun hge => absurd hge (Nat.not_le.mpr hlt),fun _ => ?_⟩
      obtain ⟨-,-,-,hmap,-⟩ | ⟨-,hs,-,hfail⟩ := mapPages_cases (K:=∅) hr
      · refine ⟨hmap.other,fun _ => ?_⟩
        rw [UserLeaf,Mapped,hmap.self]
        exact faultPte_user ppn
      · refine ⟨fun q _ _ => hs q,fun hmem => ?_⟩
        rw [hm,List.length_cons] at hmem
        have hvalid := hfail (Nat.lt_succ_iff.mp hmem) hmax
        have hu := huser hvalid
        rw [UserLeaf,Mapped,hs]
        exact hu
    · rw [hm] at hnil
      cases hnil

theorem pageFault_bounded {va : ℕ} (hb : ProcBounded p) (hfit : FaultFits m p va)
    (h : pageFault p m va=.ok (m',p')) : ProcBounded p' := by
  obtain ⟨hsize,habove,hbelow⟩ := pageFault_effect hfit h
  intro v hv hu hne
  rw [hsize]
  by_cases hlt : va<p.size
  · by_cases e : v=va/pageSize
    · rw [e]
      exact page_lt_size hlt
    · rw [UserLeaf,Mapped,(hbelow hlt).1 v hv e] at hu
      exact hb v hv hu hne
  · rw [UserLeaf,Mapped,(habove (Nat.not_lt.mp hlt)).1 v] at hu
    exact hb v hv hu hne

theorem allocProc_bounded {tramp pid bound : ℕ} (h : allocProc m tramp pid=.ok (m',some p)) :
    Bounded p.pgt bound := by
  rw [allocProc] at h
  split at h
  · obtain ⟨⟨m1,r1⟩,h1,h⟩ := bind_eq_ok h
    obtain ⟨rfl,-⟩ | ⟨pgt,rfl,-,hf,-⟩ := allocProcPagetable_effect h1
    · cases h
    · cases h
      exact bounded_of_fresh hf
  · cases h

theorem fork_bounded {tramp pid tid : ℕ} {parent child : Proc}
    (h : fork m tramp parent pid tid=.ok (m',some child)) : ProcBounded child := by
  obtain ⟨⟨m1,r1⟩,h1,h⟩ := bind_eq_ok h
  cases r1 with
  | none => cases h
  | some fresh =>
    obtain ⟨⟨pgt,m2,done⟩,h2,h⟩ := bind_eq_ok h
    cases done with
    | false =>
      obtain ⟨m3,-,h⟩ := bind_eq_ok h
      cases h
    | true =>
      obtain ⟨⟨pgt3,m3,task⟩,h3,h⟩ := bind_eq_ok h
      cases h
      have hb : Bounded fresh.pgt (pgRoundUp parent.size) := allocProc_bounded h1
      have hcopy := copyLoop_effect (K:=∅) (kernelValid_empty _)
        (fun j hj => absurd hj (Nat.not_lt_zero j)) h2
      refine bounded_of_newTask (bounded_of_rearranges hcopy hb ?_) h3
      intro q hq
      rw [Set.mem_ofPred_eq] at hq
      simp only [pgRoundUp,pageSize] at hq ⊢
      omega

theorem userInit_bounded (hb : Bounded p.pgt pageSize) (h : userInit p m=.ok (m',p')) :
    ProcBounded p' := by
  obtain ⟨ppn,heap,u,hm,rfl,hr⟩ := userInit_maps h
  obtain ⟨hre,-⟩ := rearranges_map hm (kernelValid_empty p.pgt) hr
  have hsize : pgRoundUp pageSize=pageSize := by decide
  rw [ProcBounded,hsize]
  refine bounded_of_rearranges hre hb fun q hq => ?_
  rw [Set.mem_singleton_iff.mp hq]
  decide

/-- A slot is filled with a process whose mappings are bounded, or emptied. -/
theorem allBounded_put (h : AllBounded s) (i : ℕ) (m : Mem) {r : Option Proc}
    (hr : ∀ p∈r,ProcBounded p) : AllBounded (s.put i m r) := by
  intro j q hq
  by_cases e : j=i
  · subst e
    have hq' : q∈Function.update s.procs j r j := hq
    rw [Function.update_self] at hq'
    exact hr q hq'
  · have hq' : q∈Function.update s.procs i r j := hq
    rw [Function.update_of_ne e] at hq'
    exact h j q hq'

/-- A slot is filled. -/
theorem allBounded_some (h : AllBounded s) (i : ℕ) (m : Mem) {p : Proc} (hp : ProcBounded p) :
    AllBounded (s.put i m (some p)) := by
  refine allBounded_put h i m fun q hq => ?_
  cases hq
  exact hp

/-- A step that stays in range keeps the mappings below the sizes. -/
theorem step_bounded {a : Label} (h : AllBounded s) (hc : InRange s a) (hs : step s a=.next t) :
    AllBounded t := by
  cases step_change hs with
  | init hv hp hu => exact allBounded_some h _ _ (userInit_bounded (allocProc_bounded hp) hu)
  | forkFailed hp hz hv hf => exact h
  | fork hp hz hv hf => exact allBounded_some h _ _ (fork_bounded hf)
  | exec hp hz hf => exact allBounded_some h _ _ (exec_bounded (h _ _ hp) hf)
  | sbrk hp hz hf => exact allBounded_some h _ _ (sbrk_bounded (h _ _ hp) (fun hn => hc hn _ hp) hf)
  | fault hp hz hf => exact allBounded_some h _ _ (pageFault_bounded (h _ _ hp) (hc _ hp) hf)
  | exit hp hz hf =>
    obtain ⟨⟨u,v⟩,hr,hf⟩ := bind_eq_ok hf
    cases hf
    have hb := bounded_of_dropTask (h _ _ hp) hr
    exact allBounded_some h _ _ hb
  | wait hp hz hcl => exact allBounded_put h _ _ fun q hq => absurd hq (Option.not_mem_none q)
  | reorder hperm => exact h
  | take hm => exact h
  | give hin => exact h

end Steps

/-- In every run whose faults and shrinks fit, every user leaf of a process but that of `USYSCALL`
lies below its size, rounded up. A fault at or above the size maps nothing and kills the process,
and one below the size ends, if there is memory, with exactly that page mapped. -/
theorem mappings_in_range {s : System} {as : List Label} (h0 : ∀ i,s.procs i=none)
    (hg : Guarded step InRange s as) {t : System} (hr : run step s as=.next t) :
    AllBounded t ∧ ∀ i va u,InRange t (.fault i va) → step t (.fault i va)=.next u →
      ∃ p p',t.procs i=some p ∧ u.procs i=some p' ∧
        (p.size≤va → SameEntries p.pgt p'.pgt ∧ p'.killed=true) ∧
        (va<p.size → (∀ q,q<pages → q≠va/pageSize → p'.pgt.entryAt q=p.pgt.entryAt q) ∧
          (p.pgt.lacking (va/pageSize)<t.mem.heap.length → UserLeaf p'.pgt (va/pageSize))) := by
  have hb0 : AllBounded s := by
    intro i p hp
    rw [h0 i] at hp
    cases hp
  refine ⟨run_invariant (fun _ _ _ h hc hs => step_bounded h hc hs) hb0 hg hr,?_⟩
  intro i va u hc hs
  cases step_change hs with
  | @fault i va m' p p' hp hz hf =>
    exact ⟨p,p',hp,Function.update_self ..,(pageFault_effect (hc p hp) hf).2⟩

/-- No process, and a heap of so many pages. -/
def booted (count : ℕ) : System :=
  ⟨⟨List.range' 100 count,fun _ _ => 0⟩,fun _ => none,[],1⟩

/-- The first process grows by a page, touches the new page, and gives it back. -/
def growTouchShrink : List Label :=
  [.init 0 1,.sbrk 0 4096,.fault 0 5000,.sbrk 0 (-4096)]

/-- The theorem at a run with a fault and a shrink. -/
theorem mappings_in_range_growTouchShrink :
    ∃ t,run step (booted 16) growTouchShrink=.next t ∧ AllBounded t := by
  have ht : (run step (booted 16) growTouchShrink).test (fun _ => true)=true := by decide +kernel
  obtain ⟨t,hr,-⟩ := Outcome.exists_of_test ht
  have hg : Guarded step InRange (booted 16) growTouchShrink := by decide +kernel
  exact ⟨t,hr,(mappings_in_range (fun _ => rfl) hg hr).1⟩

/-- A process of one page touches page 256. -/
def wildFault : List Label := [.init 0 1,.fault 0 0x100000]

/-- The process is not killed and has a user mapping far above its size. -/
theorem fault_above_size_maps :
    ∃ t,run step (booted 16) wildFault=.next t ∧ ∃ p,t.procs 0=some p ∧ p.killed=false ∧
      p.size=pageSize ∧ UserLeaf p.pgt 256 ∧ ¬AllBounded t := by
  have ht : (run step (booted 16) wildFault).test (fun t => (t.procs 0).any fun p =>
      !p.killed && decide (p.size=pageSize) && decide (UserLeaf p.pgt 256))=true := by
    decide +kernel
  obtain ⟨t,hr,hp⟩ := Outcome.exists_of_test ht
  obtain ⟨p,hp0,hp⟩ := (Option.any_eq_true _ _).mp hp
  rw [Bool.and_eq_true,Bool.and_eq_true,Bool.not_eq_true',decide_eq_true_eq,decide_eq_true_eq] at hp
  obtain ⟨⟨hk,hsize⟩,hu⟩ := hp
  refine ⟨t,hr,p,hp0,hk,hsize,hu,fun hall => ?_⟩
  have hb := hall 0 p hp0 256 (by decide) hu (by decide)
  rw [hsize] at hb
  exact absurd hb (by decide)

end Xv6Rust.UserBounds

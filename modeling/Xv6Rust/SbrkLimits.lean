import Xv6Rust.UserAlloc
import Xv6Rust.Runs

/-!
# The size of a process and its limits

`exec` maps every page below the size it sets, so that the size ends below the pages of the kernel.
`sbrk` adds to the size without mapping anything, and takes from it, without looking where it ends.
A run consists of calls of both, between which the rest of the system does with memory as it likes.
-/

namespace Xv6Rust.SbrkLimits

open Runs Results Paging PageTable UserUnmap UserMemory PageEffects UserAlloc

/-- The lowest page that the kernel maps below `TRAPFRAME` for a process and its task. -/
def lowestFixed (p : Proc) : ℕ :=
  min usyscall (min (trapframeFromPid p.pid)
    ((p.task.map fun t => trapframeFromTid t.tid).getD usyscall))

/-- `sys_sbrk`: the old size, and the process after the call. -/
def sysSbrk (p : Proc) (m : Mem) (increment : Int32) : Except Panic (ℕ×Mem×Proc) := do
  let r ← sbrk p m increment.toInt
  .ok (p.size,r.1,r.2)

/-- The process ends below the pages of the kernel. -/
def Below (p : Proc) : Prop := p.size ≤ lowestFixed p

instance (p : Proc) : Decidable (Below p) := inferInstanceAs (Decidable (_ ≤ _))

/-- A call of `sbrk` does as it should: no arithmetic overflows, it returns the old size, and the
new one differs by the increment and ends below the pages of the kernel. -/
def Sound (s : Mem×Proc) (increment : Int32) : Prop :=
  sysSbrk s.2 s.1 increment≠.error .overflow ∧
    ∀ old m p,sysSbrk s.2 s.1 increment=.ok (old,m,p) →
      old=s.2.size ∧ (p.size : ℤ)=s.2.size+increment.toInt ∧ p.size ≤ lowestFixed s.2

/-- The increment is not `i32::MIN`, and leads to a size from zero to the pages of the kernel. -/
def Fits (p : Proc) (increment : Int32) : Prop :=
  increment.toInt≠-2^31 ∧ 0 ≤ (p.size : ℤ)+increment.toInt ∧
    (p.size : ℤ)+increment.toInt ≤ lowestFixed p

instance (p : Proc) (increment : Int32) : Decidable (Fits p increment) :=
  inferInstanceAs (Decidable (_ ∧ _))

/-- What happens to a process. -/
inductive Act where
  /-- `exec`, with a page for the trampoline, a program and a task number. -/
  | exec (trampolinePage : ℕ) (img : Image) (tid : ℕ)
  /-- `sbrk`. -/
  | sbrk (increment : Int32)
  /-- The rest of the system changes memory. -/
  | elsewhere (m : Mem)

/-- One step. -/
def step (s : Mem×Proc) : Act → Outcome Panic (Mem×Proc)
  | .exec tramp img tid =>
    match exec s.2 s.1 tramp img tid with
    | .ok t => .next t
    | .error e => .fault e
  | .sbrk increment =>
    match sysSbrk s.2 s.1 increment with
    | .ok t => .next t.2
    | .error e => .fault e
  | .elsewhere m => .next (m,s.2)

/-- The calls of `sbrk` fit. -/
def AllFit (s : Mem×Proc) : Act → Prop
  | .sbrk increment => Fits s.2 increment
  | _ => True

instance (s : Mem×Proc) (a : Act) : Decidable (AllFit s a) :=
  match a with
  | .exec _ _ _ => inferInstanceAs (Decidable True)
  | .sbrk increment => inferInstanceAs (Decidable (Fits s.2 increment))
  | .elsewhere _ => inferInstanceAs (Decidable True)

/-- All pages below the size are mapped, and the size ends below the pages of the kernel. -/
structure Packed (K : Finset ℕ) (pgt : PageTable) (size : ℕ) : Prop where
  /-- The pages of the kernel are mapped behind the size. -/
  low : ∀ k∈K,k < pages ∧ ValidAt pgt k ∧ size ≤ k*pageSize
  /-- The pages below the size are mapped. -/
  filled : ∀ q,q*pageSize < size → ValidAt pgt q

section Building

variable {K : Finset ℕ} {pgt pgt' : PageTable} {m m' : Mem} {size size' pid : ℕ}

/-- A user page that was mapped is valid. -/
theorem userPte_valid (p : ℕ) : (Pte.writePerm p userPerm).isValid=true := Pte.writePerm_valid ..

/-- A size that `uvm_alloc` returns is packed again. -/
theorem Packed.alloc {newSize : ℕ} (h : Packed K pgt size) (hs : size ≤ maxva)
    (hr : pgt.uvmAlloc m size newSize=.ok (pgt',m',some size')) : Packed K pgt' size' := by
  rw [uvmAlloc] at hr
  split at hr
  · cases hr
    exact h
  · rename_i hlt
    obtain ⟨v,w,done,hloop,⟨rfl,qs,hqs,hg⟩ | ⟨rfl,-⟩⟩ := alloc_rounds pgt m hs newSize
    · rw [hloop] at hr
      cases hr
      have hin : ∀ q,size ≤ q*pageSize → q*pageSize < size' →
          ¬ValidAt pgt q ∧ ValidAt v q := by
        intro q hle hq
        have hrange : InRange size size' q := by
          refine ⟨?_,hq⟩
          simp only [pgRoundUp,pageSize] at hle ⊢
          omega
        obtain ⟨i,hi,rfl⟩ := (inRange_iff size size' q).mp hrange
        rw [← hqs] at hi
        refine ⟨hg.hole i hi,?_⟩
        rw [ValidAt,hg.entry i _ (List.getElem?_eq_getElem hi)]
        exact userPte_valid _
      have hout : ∀ q,q < pages → (q*pageSize < size ∨ size' ≤ q*pageSize) →
          v.entryAt q=pgt.entryAt q := by
        intro q hq hor
        refine hg.other q hq fun i hi e => ?_
        rw [hqs] at hi
        have hrange := (inRange_iff size size' q).mpr ⟨i,hi,e⟩
        obtain ⟨h1,h2⟩ := hrange
        simp only [pgRoundUp,pageSize] at h1 h2 hor
        omega
      refine ⟨fun k hk => ?_,fun q hq => ?_⟩
      · obtain ⟨hkp,hv,hle⟩ := h.low k hk
        have hnew : size' ≤ k*pageSize := by
          by_contra hgt
          exact (hin k hle (not_le.mp hgt)).1 hv
        refine ⟨hkp,?_,hnew⟩
        rw [ValidAt,hout k hkp (.inr hnew)]
        exact hv
      · by_cases hold : q*pageSize < size
        · have hqp : q < pages := by
            have e : pages=134217728 := by decide
            simp only [pageSize,maxva] at hold hs
            omega
          rw [ValidAt,hout q hqp (.inl hold)]
          exact h.filled q hold
        · exact (hin q (not_lt.mp hold) hq).2
    · rw [hloop] at hr
      cases hr

/-- The size is below `MAXVA`, where the kernel has `USYSCALL`. -/
theorem Packed.le_maxva (h : Packed (kernelPages pid) pgt size) : size ≤ maxva := by
  have hle := (h.low usyscallPage (by simp [kernelPages])).2.2
  rw [usyscallPage,usyscall_aligned] at hle
  exact hle.trans (by decide)

theorem Packed.segments {segments : List (ℕ×ℕ)} {done : Bool}
    (h : Packed (kernelPages pid) pgt size)
    (hr : loadSegments pgt m size segments=.ok (pgt',m',size',done)) (hd : done=true) :
    Packed (kernelPages pid) pgt' size' := by
  induction segments generalizing pgt m size with
  | nil =>
    cases hr
    exact h
  | cons seg rest ih =>
    obtain ⟨vaddr,memsz⟩ := seg
    rw [loadSegments] at hr
    split at hr
    · cases hr
    split at hr
    · cases hr
      cases hd
    · obtain ⟨⟨u,v,w⟩,ha,he⟩ := bind_eq_ok hr
      cases w with
      | none =>
        cases he
        cases hd
      | some size1 => exact ih (h.alloc h.le_maxva ha) he

/-- A size that is rounded up is packed: the pages of the kernel begin at page boundaries. -/
theorem Packed.round (h : Packed K pgt size) : Packed K pgt (pgRoundUp size) := by
  refine ⟨fun k hk => ?_,fun q hq => h.filled q ?_⟩
  · obtain ⟨hkp,hv,hle⟩ := h.low k hk
    refine ⟨hkp,hv,?_⟩
    simp only [pgRoundUp,pageSize] at hle ⊢
    omega
  · simp only [pgRoundUp,pageSize] at hq ⊢
    omega

/-- Guard pages stay valid. -/
theorem Packed.guards {n top : ℕ} (h : Packed K pgt size) (hs : size ≤ maxva)
    (hr : clearGuards pgt top n=.ok pgt') : Packed K pgt' size := by
  have he := clearGuards_effect (K:=Finset.range pages) (m:=⟨[],fun _ _ => 0⟩) hr
  have hvalid : ∀ q,q < pages → ValidAt pgt q → ValidAt pgt' q := by
    intro q hq hv
    rw [ValidAt,(he.kept q (Finset.mem_range.mpr hq) hq).isValid]
    exact hv
  refine ⟨fun k hk => ?_,fun q hq => hvalid q ?_ (h.filled q hq)⟩
  · obtain ⟨hkp,hv,hle⟩ := h.low k hk
    exact ⟨hkp,hvalid k hkp hv,hle⟩
  · have e : pages=134217728 := by decide
    simp only [pageSize,maxva] at hq hs
    omega

/-- What `load` returns is packed. -/
theorem Packed.image {img : Image} (h : Packed (kernelPages pid) pgt 0)
    (hr : loadImage pgt m img pid=.ok (m',some (pgt',size'))) :
    Packed (kernelPages pid) pgt' size' := by
  obtain ⟨⟨u1,m1,size1,done⟩,hr1,hr⟩ := bind_eq_ok hr
  split at hr
  · obtain ⟨m2,-,hr⟩ := bind_eq_ok hr
    cases hr
  · rename_i hdone
    have hd : done=true := by
      by_contra hne
      refine hdone ?_
      rw [show done=false from eq_false_of_ne_true hne]
      rfl
    have h1 := (h.segments hr1 hd).round
    obtain ⟨⟨u2,m2,w⟩,hr2,hr⟩ := bind_eq_ok hr
    cases w with
    | none =>
      obtain ⟨m3,-,hr⟩ := bind_eq_ok hr
      cases hr
    | some size2 =>
      have h2 := h1.alloc h1.le_maxva hr2
      obtain ⟨u3,hr3,hr⟩ := bind_eq_ok hr
      split at hr
      · obtain ⟨m3,-,hr⟩ := bind_eq_ok hr
        cases hr
      · cases hr
        exact h2.guards h2.le_maxva hr3

/-- `exec` leaves a process that ends below the pages of the kernel. -/
theorem exec_below {p p' : Proc} {tramp tid : ℕ} {img : Image} (h : Below p)
    (hr : exec p m tramp img tid=.ok (m',p')) : Below p' := by
  obtain ⟨⟨m1,r1⟩,h1,hr⟩ := bind_eq_ok hr
  obtain ⟨rfl,-⟩ | ⟨pgt,rfl,hpid,hf,-,-⟩ := allocProcPagetable_effect h1
  · cases hr
    exact h
  · obtain ⟨⟨m2,r2⟩,h2,hr⟩ := bind_eq_ok hr
    cases r2 with
    | none =>
      cases hr
      exact h
    | some image =>
      obtain ⟨pgt2,size⟩ := image
      have hstart : Packed (kernelPages p.pid) pgt 0 :=
        ⟨fun k hk => ⟨(hf.kernel k hk).1,(hf.kernel k hk).2,Nat.zero_le _⟩,
          fun q hq => absurd hq (Nat.not_lt_zero _)⟩
      have hp := hstart.image h2
      obtain ⟨⟨old,mold⟩,-,hr⟩ := bind_eq_ok hr
      obtain ⟨⟨pgt3,m3,task⟩,h3,hr⟩ := bind_eq_ok hr
      obtain ⟨m4,-,hr⟩ := bind_eq_ok hr
      cases hr
      obtain ⟨htid,hfit,-,-,-,-,hnot⟩ := newTask_effect (K:=∅) h3
      refine le_min ?_ (le_min ?_ ?_)
      · have hle := (hp.low usyscallPage (by simp [kernelPages])).2.2
        rwa [usyscallPage,usyscall_aligned] at hle
      · have hle := (hp.low (trapframeFromPid p.pid/pageSize) (by simp [kernelPages])).2.2
        rwa [trapframeFromPid_aligned hpid] at hle
      · show size ≤ trapframeFromTid task.tid
        rw [htid,← trapframeFromTid_aligned hfit]
        by_contra hlt
        exact hnot (hp.filled _ (not_le.mp hlt))

end Building

section Calls

variable {p p' : Proc} {m m' : Mem} {increment : Int32} {old : ℕ}

theorem lowestFixed_le (p : Proc) : lowestFixed p ≤ maxva :=
  (min_le_left _ _).trans (by decide)

/-- Below `MAXVA` no arithmetic of `uvm_dealloc` overflows. -/
theorem uvmDealloc_no_overflow (pgt : PageTable) (m : Mem) {oldSize newSize : ℕ}
    (hs : oldSize ≤ maxva) : pgt.uvmDealloc m oldSize newSize≠.error .overflow := by
  intro hr
  rw [uvmDealloc] at hr
  split at hr
  · cases hr
  · rw [if_neg (by simp only [pageSize,maxva] at hs ⊢; omega)] at hr
    split at hr
    · rename_i hlt
      have haligned : ¬pgRoundUp newSize%pageSize≠0 := not_not.mpr (Nat.mul_mod_left ..)
      rw [uvmUnmap,if_neg haligned,if_neg] at hr
      · obtain ⟨k,v,-,-,-,hu⟩ | ⟨k,-,-,-,-,-,hu⟩ := unmapLoop_cases pgt m
          (pgRoundUp newSize/pageSize) ((pgRoundUp oldSize-pgRoundUp newSize)/pageSize)
        · rw [pgRoundUp_div] at hu
          rw [hu] at hr
          cases hr
        · rw [pgRoundUp_div] at hu
          rw [hu] at hr
          cases hr
      · simp only [pgRoundUp,pageSize,maxva] at hs hlt ⊢
        omega
    · cases hr

/-- A call that returns has changed the page table and the size only. -/
theorem sysSbrk_keeps (hr : sysSbrk p m increment=.ok (old,m',p')) :
    p'.pid=p.pid ∧ p'.task=p.task := by
  obtain ⟨⟨m1,p1⟩,h1,he⟩ := bind_eq_ok hr
  cases he
  rw [sbrk] at h1
  split at h1
  · split at h1
    · cases h1
    · cases h1
      exact ⟨rfl,rfl⟩
  · split at h1
    · split at h1
      · cases h1
      · obtain ⟨r,-,he⟩ := bind_eq_ok h1
        cases he
        exact ⟨rfl,rfl⟩
    · cases h1
      exact ⟨rfl,rfl⟩

/-- `sbrk` that adds. -/
theorem sysSbrk_grow (hpos : increment.toInt > 0) : sysSbrk p m increment=
    if p.size+increment.toInt.toNat ≥ 2^64 then .error .overflow
    else .ok (p.size,m,{p with size := p.size+increment.toInt.toNat}) := by
  rw [sysSbrk,sbrk,if_pos hpos]
  split <;> rfl

/-- `sbrk` that takes, where nothing overflows. -/
theorem sysSbrk_shrink (hneg : increment.toInt < 0) (hmin : increment.toInt≠-2^31)
    (hle : 0 ≤ (p.size : ℤ)+increment.toInt) : sysSbrk p m increment=
    (do
      let r ← p.pgt.uvmDealloc m p.size (p.size-(-increment.toInt).toNat)
      .ok (p.size,r.2.1,{p with pgt := r.1,size := p.size-(-increment.toInt).toNat})) := by
  have hlow := Int32.le_toInt increment
  rw [sysSbrk,sbrk,if_neg (by omega),if_pos hneg,if_neg (by omega)]
  cases p.pgt.uvmDealloc m p.size (p.size-(-increment.toInt).toNat) <;> rfl

/-- Where the process ends below the pages of the kernel, `sbrk` does as it should exactly if the
increment fits. -/
theorem sound_iff_fits (h : Below p) : Sound (m,p) increment ↔ Fits p increment := by
  have hmax := lowestFixed_le p
  have hsize : p.size ≤ maxva := h.trans hmax
  have hval : maxva=274877906944 := by decide
  obtain hpos | hzero | hneg := Int.lt_trichotomy 0 increment.toInt
  · rw [Sound,sysSbrk_grow hpos]
    by_cases hover : p.size+increment.toInt.toNat ≥ 2^64
    · rw [if_pos hover]
      exact iff_of_false (fun hs => hs.1 rfl) fun hf => by have := hf.2.2; omega
    · rw [if_neg hover]
      refine ⟨fun hs => ?_,fun hf => ⟨(fun e => by cases e),fun old m' p' e => ?_⟩⟩
      · obtain ⟨-,hadd,hle⟩ := hs.2 _ _ _ rfl
        dsimp only at hadd hle
        exact ⟨by omega,by omega,by omega⟩
      · cases e
        have hle := hf.2.2
        exact ⟨rfl,by dsimp only; omega,by dsimp only; omega⟩
  · have hsame : sysSbrk p m increment=.ok (p.size,m,p) := by
      rw [sysSbrk,sbrk,if_neg (by omega),if_neg (by omega)]
      rfl
    have hle : p.size ≤ lowestFixed p := h
    rw [Sound,hsame]
    refine iff_of_true ⟨(fun e => by cases e),fun old m' p' e => ?_⟩ ⟨by omega,by omega,by omega⟩
    cases e
    exact ⟨rfl,by dsimp only; omega,h⟩
  · by_cases hmin : increment.toInt=-2^31
    · refine iff_of_false (fun hs => hs.1 ?_) fun hf => hf.1 hmin
      rw [sysSbrk,sbrk,if_neg (by omega),if_pos hneg,if_pos (.inl (by omega))]
      rfl
    · by_cases hunder : 0 ≤ (p.size : ℤ)+increment.toInt
      · have hle : p.size ≤ lowestFixed p := h
        refine iff_of_true ⟨fun e => ?_,fun old m' p' e => ?_⟩ ⟨hmin,hunder,by omega⟩
        · rw [sysSbrk_shrink hneg hmin hunder] at e
          cases hd : p.pgt.uvmDealloc m p.size (p.size-(-increment.toInt).toNat) with
          | ok r =>
            rw [hd] at e
            cases e
          | error x =>
            rw [hd] at e
            cases e
            exact uvmDealloc_no_overflow _ _ hsize hd
        · rw [sysSbrk_shrink hneg hmin hunder] at e
          obtain ⟨r,-,e⟩ := bind_eq_ok e
          cases e
          exact ⟨rfl,by dsimp only; omega,by dsimp only; omega⟩
      · refine iff_of_false (fun hs => hs.1 ?_) fun hf => hunder hf.2.1
        have hlt : p.size < (-increment.toInt).toNat := by omega
        rw [sysSbrk,sbrk,if_neg (by omega),if_pos hneg,if_pos (.inr hlt)]
        rfl

/-- A step in which a call of `sbrk` fits leaves a process below the pages of the kernel. -/
theorem step_below {s t : Mem×Proc} {a : Act} (h : Below s.2) (hf : AllFit s a)
    (hr : step s a=.next t) : Below t.2 := by
  cases a with
  | exec tramp img tid =>
    rw [step] at hr
    split at hr
    · rename_i u hu
      cases hr
      exact exec_below h hu
    · cases hr
  | sbrk increment =>
    rw [step] at hr
    split at hr
    · rename_i u hu
      cases hr
      obtain ⟨old,m,p⟩ := u
      have hs := ((sound_iff_fits (m:=s.1) h).mpr hf).2 _ _ _ hu
      obtain ⟨hpid,htask⟩ := sysSbrk_keeps hu
      show p.size ≤ lowestFixed p
      rw [lowestFixed,hpid,htask]
      exact hs.2.2
    · cases hr
  | elsewhere m =>
    cases hr
    exact h

end Calls

/-- In every run of `exec` and `sbrk` whose increments fit, the process ends below the pages of the
kernel in every state, and the next call of `sbrk` does as it should exactly if its increment
fits. -/
theorem sbrk_sound_iff (s : Mem×Proc) (as : List Act) (h0 : Below s.2)
    (hg : Guarded step AllFit s as) (t : Mem×Proc) (hr : run step s as=.next t) :
    Below t.2 ∧ ∀ increment,Sound t increment ↔ Fits t.2 increment := by
  have hbelow : Below t.2 := run_invariant (fun _ _ _ => step_below) h0 hg hr
  exact ⟨hbelow,fun increment => sound_iff_fits hbelow⟩

/-- A process of one page. -/
def firstProc : Proc := ⟨⟨RadixTable.Table.empty Pte.zero 2,[]⟩,pageSize,1,100,102,103,none,false,false⟩

theorem sbrk_sound_iff_grow_shrink :
    ∃ t,run step (⟨[],fun _ _ => 0⟩,firstProc) [.sbrk 100,.sbrk (-50)]=.next t ∧ Below t.2 := by
  obtain ⟨t,ht,-⟩ := Outcome.exists_of_test
    (o:=run step (⟨[],fun _ _ => 0⟩,firstProc) [.sbrk 100,.sbrk (-50)])
    (p:=fun _ => true) (by decide)
  exact ⟨t,ht,(sbrk_sound_iff _ _ (by decide) (by decide) t ht).1⟩

/-- `sbrk` of the smallest number, of more than there is, and past the lowest page of the kernel. -/
theorem sbrk_not_sound :
    ¬Sound (⟨[],fun _ _ => 0⟩,firstProc) Int32.minValue ∧
      ¬Sound (⟨[],fun _ _ => 0⟩,firstProc) (-4097) ∧
      ¬Sound (⟨[],fun _ _ => 0⟩,{firstProc with size := trapframeFromPid 1}) 1 := by
  have hb : Below firstProc := by decide
  have hb' : Below {firstProc with size := trapframeFromPid 1} := by decide
  refine ⟨fun h => ?_,fun h => ?_,fun h => ?_⟩
  · exact absurd ((sound_iff_fits hb).mp h) (by decide)
  · exact absurd ((sound_iff_fits hb).mp h) (by decide)
  · exact absurd ((sound_iff_fits hb').mp h) (by decide)

end Xv6Rust.SbrkLimits

import Xv6Rust.PipeLife

/-!
# The ends of pipes

Every step keeps the counts of files and pipes, so an end is marked closed with its last file, and
both are when a pipe goes. A pipe whose first file is not allocated breaks this.
-/

namespace Xv6Rust.PipeLife

open Runs

section Steps

variable {s t : System} {p q f fd : ℕ} {w : Bool} {rest : List Drop}

/-- A process is the only one that moves when what it holds is put. -/
theorem moves_setProc (hp : p<nproc) {x : System} (proc : Process) (hx : x.procs=s.procs) :
    Moves s (x.setProc p proc) p := by
  refine ⟨hp,fun i hi => ?_⟩
  show Function.update x.procs p proc i=s.procs i
  rw [Function.update_of_ne hi,hx]

/-- The count of a file has no part in the count of the ends. -/
theorem Sound.ends_refs (h : Sound s) {file : File} {n : ℕ} (hf : s.files f=some file)
    (hfiles : t.files=Function.update s.files f (some {file with refs := n}))
    (hnf : t.nextFile=s.nextFile) (q : ℕ) (w : Bool) : ends t q w=ends s q w := by
  have he := ends_change q w (h.files.lt hf) hnf fun i hi => by
    rw [hfiles,Function.update_of_ne hi]
  rw [hfiles,Function.update_self,hf] at he
  simp only [endOf] at he
  omega

/-- The last reference to a file is dropped: its end is going to be marked closed. -/
theorem Sound.lastFile (h : Sound s) (m : Moves s t p) {file : File}
    (hd : (s.procs p).drops=.file f::rest) (hf : s.files f=some file) (h1 : file.refs=1)
    (hproc : t.procs p=
      ⟨(s.procs p).openFiles,.close file.pipe file.writable::.pipe file.pipe::rest⟩)
    (hfiles : t.files=Function.update s.files f none) (hnf : t.nextFile=s.nextFile)
    (hpipes : t.pipes=s.pipes) (hnp : t.nextPipe=s.nextPipe) (hcl : t.closes=s.closes) :
    Sound t := by
  have hrest : Paired rest := by
    have hpaired := h.paired p
    rw [hd] at hpaired
    exact hpaired
  have hends : ∀ q w,ends t q w+endOf q w (some file)=ends s q w := by
    intro q w
    have he := ends_change q w (h.files.lt hf) hnf fun i hi => by
      rw [hfiles,Function.update_of_ne hi]
    rw [hfiles,Function.update_self,hf] at he
    exact he
  have hhandles : ∀ f',fileHandles t f'+(if f=f' then 1 else 0)=fileHandles s f' := by
    intro f'
    have hc := m.fileHandles f'
    simp only [Process.fileCount,hproc,hd,List.count_cons,beq_iff_eq,Drop.file.injEq,reduceCtorEq,
      if_false] at hc
    omega
  have hpending : ∀ q,pending t (.pipe q)=pending s (.pipe q)+if file.pipe=q then 1 else 0 := by
    intro q
    have hc := m.pending (.pipe q)
    simp only [hproc,hd,List.count_cons,beq_iff_eq,Drop.pipe.injEq,reduceCtorEq,if_false] at hc
    omega
  have hclosing : ∀ q w,pending t (.close q w)=pending s (.close q w)+endOf q w (some file) := by
    intro q w
    have hc := m.pending (.close q w)
    simp only [hproc,hd,List.count_cons,beq_iff_eq,Drop.close.injEq,reduceCtorEq,if_false] at hc
    rw [endOf]
    omega
  have hboth : ∀ q,endOf q false (some file)+endOf q true (some file)=
      if file.pipe=q then 1 else 0 := by
    intro q
    simp only [endOf]
    cases file.writable <;> by_cases hq : file.pipe=q <;> simp [hq]
  refine ⟨h.files.update (h.files.lt hf) hfiles hnf ?_ (fun _ hc => by cases hc) fun f' hff => ?_,
    h.pipes.same hpipes hnp hcl (fun q => ?_) fun q w => ?_,
    h.paired_moves m (by rw [hproc]; exact ⟨rfl,hrest⟩)⟩
  · have hc := hhandles f
    have hold := h.files.refs f
    rw [hf] at hold
    change fileHandles s f=file.refs at hold
    rw [if_pos rfl] at hc
    show fileHandles t f=0
    omega
  · have hc := hhandles f'
    rwa [if_neg (Ne.symm hff)] at hc
  · have hr := hends q false
    have hw := hends q true
    have hb := hboth q
    rw [pipeHandles,pipeHandles,hpending q]
    omega
  · have he := hends q w
    rw [endHandles,endHandles,hclosing q w]
    omega

/-- A reference to a file is dropped, and there are others. -/
theorem Sound.dropFile (h : Sound s) (m : Moves s t p) {file : File}
    (hd : (s.procs p).drops=.file f::rest) (hf : s.files f=some file) (h1 : file.refs≠1)
    (hproc : t.procs p=⟨(s.procs p).openFiles,rest⟩)
    (hfiles : t.files=Function.update s.files f (some {file with refs := file.refs-1}))
    (hnf : t.nextFile=s.nextFile) (hpipes : t.pipes=s.pipes) (hnp : t.nextPipe=s.nextPipe)
    (hcl : t.closes=s.closes) : Sound t := by
  have hrest : Paired rest := by
    have hpaired := h.paired p
    rw [hd] at hpaired
    exact hpaired
  have hpos := h.files.held f file hf
  have hends := h.ends_refs hf hfiles hnf
  have hhandles : ∀ f',fileHandles t f'+(if f=f' then 1 else 0)=fileHandles s f' := by
    intro f'
    have hc := m.fileHandles f'
    simp only [Process.fileCount,hproc,hd,List.count_cons,beq_iff_eq,Drop.file.injEq] at hc
    omega
  have hpending : ∀ q,pending t (.pipe q)=pending s (.pipe q) := by
    intro q
    have hc := m.pending (.pipe q)
    simp only [hproc,hd,List.count_cons,beq_iff_eq,reduceCtorEq,if_false] at hc
    omega
  have hclosing : ∀ q w,pending t (.close q w)=pending s (.close q w) := by
    intro q w
    have hc := m.pending (.close q w)
    simp only [hproc,hd,List.count_cons,beq_iff_eq,reduceCtorEq,if_false] at hc
    omega
  refine ⟨h.files.update (h.files.lt hf) hfiles hnf ?_ (fun file' hc => ?_) fun f' hff => ?_,
    h.pipes.same hpipes hnp hcl (fun q => ?_) fun q w => ?_,
    h.paired_moves m (by rw [hproc]; exact hrest)⟩
  · have hc := hhandles f
    have hold := h.files.refs f
    rw [hf] at hold
    change fileHandles s f=file.refs at hold
    rw [if_pos rfl] at hc
    show fileHandles t f=file.refs-1
    omega
  · cases hc
    show 0<file.refs-1
    omega
  · have hc := hhandles f'
    rwa [if_neg (Ne.symm hff)] at hc
  · rw [pipeHandles,pipeHandles,hpending,hends,hends]
  · rw [endHandles,endHandles,hclosing,hends]

/-- An end is marked closed. -/
theorem Sound.markClosed (h : Sound s) (m : Moves s t p) {pipe pipe' : Pipe}
    (hd : (s.procs p).drops=.close q w::rest) (hq : s.pipes q=some pipe)
    (hrefs : pipe'.refs=pipe.refs) (hmarked : pipe'.isOpen w=false)
    (hother : pipe'.isOpen (!w)=pipe.isOpen (!w)) (hproc : t.procs p=⟨(s.procs p).openFiles,rest⟩)
    (hfiles : t.files=s.files) (hnf : t.nextFile=s.nextFile)
    (hpipes : t.pipes=Function.update s.pipes q (some pipe')) (hnp : t.nextPipe=s.nextPipe)
    (hcl : t.closes=Function.update s.closes q (Function.update (s.closes q) w (s.closes q w+1))) :
    Sound t := by
  have hrest : Paired rest := by
    have hpaired := h.paired p
    rw [hd] at hpaired
    cases rest with
    | nil => trivial
    | cons d rest =>
      cases d with
      | pipe q' => exact hpaired.2
      | file f => exact absurd hpaired id
      | close q' w' => exact absurd hpaired id
  have hends : ∀ q w,ends t q w=ends s q w := fun q w => ends_same hnf hfiles
  have hhandles : ∀ f',fileHandles t f'=fileHandles s f' := by
    intro f'
    have hc := m.fileHandles f'
    simp only [Process.fileCount,hproc,hd,List.count_cons,beq_iff_eq,reduceCtorEq,if_false] at hc
    omega
  have hpending : ∀ q,pending t (.pipe q)=pending s (.pipe q) := by
    intro q
    have hc := m.pending (.pipe q)
    simp only [hproc,hd,List.count_cons,beq_iff_eq,reduceCtorEq,if_false] at hc
    omega
  have hclosing : ∀ q' w',pending t (.close q' w')+(if q=q' ∧ w=w' then 1 else 0)=
      pending s (.close q' w') := by
    intro q' w'
    have hc := m.pending (.close q' w')
    simp only [hproc,hd,List.count_cons,beq_iff_eq,Drop.close.injEq] at hc
    omega
  have hcloses : ∀ q' w',t.closes q' w'=s.closes q' w'+if q=q' ∧ w=w' then 1 else 0 := by
    intro q' w'
    rw [hcl]
    by_cases hqq : q'=q
    · rw [hqq,Function.update_self]
      by_cases hww : w'=w
      · rw [hww,Function.update_self,if_pos ⟨rfl,rfl⟩]
      · rw [Function.update_of_ne hww,if_neg fun hc => hww hc.2.symm]
        rfl
    · rw [Function.update_of_ne hqq,if_neg fun hc => hqq hc.1.symm]
      rfl
  refine ⟨h.files.same hfiles hnf hhandles,
    h.pipes.update (h.pipes.lt hq) hpipes hnp (fun q' hqq => ?_) ?_ (fun pipe'' hc => ?_)
      (fun pipe'' w' hc => ?_) (fun q' hqq => ?_) fun q' w' => ?_,
    h.paired_moves m (by rw [hproc]; exact hrest)⟩
  · rw [hcl,Function.update_of_ne hqq]
  · have hold := h.pipes.refs q
    rw [hq] at hold
    change pipeHandles s q=pipe.refs at hold
    rw [pipeHandles,hends,hends,hpending,← pipeHandles,hold]
    exact hrefs.symm
  · cases hc
    rw [hrefs]
    exact h.pipes.held q pipe hq
  · cases hc
    rw [hcloses q w']
    by_cases hww : w'=w
    · rw [hww,hmarked,if_pos ⟨rfl,rfl⟩]
      simp
    · have hnot : w'=!w := by
        cases w' <;> cases w <;> simp_all
      rw [if_neg fun hc => hww hc.2.symm,hnot,hother]
      exact h.pipes.flags q pipe _ hq
  · rw [pipeHandles,pipeHandles,hends,hends,hpending]
  · have hc := hclosing q' w'
    rw [endHandles,endHandles,hends,hcloses]
    omega

/-- A reference to a pipe is dropped. -/
theorem Sound.dropPipe (h : Sound s) (m : Moves s t p) {pipe : Pipe} {c : Option Pipe}
    (hd : (s.procs p).drops=.pipe q::rest) (hq : s.pipes q=some pipe)
    (hc : c.elim 0 Pipe.refs=pipe.refs-1)
    (hsome : ∀ pipe',c=some pipe' → pipe'={pipe with refs := pipe.refs-1} ∧ pipe.refs≠1)
    (hproc : t.procs p=⟨(s.procs p).openFiles,rest⟩) (hfiles : t.files=s.files)
    (hnf : t.nextFile=s.nextFile) (hpipes : t.pipes=Function.update s.pipes q c)
    (hnp : t.nextPipe=s.nextPipe) (hcl : t.closes=s.closes) : Sound t := by
  have hrest : Paired rest := by
    have hpaired := h.paired p
    rw [hd] at hpaired
    exact hpaired
  have hpos := h.pipes.held q pipe hq
  have hends : ∀ q w,ends t q w=ends s q w := fun q w => ends_same hnf hfiles
  have hhandles : ∀ f',fileHandles t f'=fileHandles s f' := by
    intro f'
    have hc := m.fileHandles f'
    simp only [Process.fileCount,hproc,hd,List.count_cons,beq_iff_eq,reduceCtorEq,if_false] at hc
    omega
  have hpending : ∀ q',pending t (.pipe q')+(if q=q' then 1 else 0)=pending s (.pipe q') := by
    intro q'
    have hc := m.pending (.pipe q')
    simp only [hproc,hd,List.count_cons,beq_iff_eq,Drop.pipe.injEq] at hc
    omega
  have hclosing : ∀ q' w',pending t (.close q' w')=pending s (.close q' w') := by
    intro q' w'
    have hc := m.pending (.close q' w')
    simp only [hproc,hd,List.count_cons,beq_iff_eq,reduceCtorEq,if_false] at hc
    omega
  refine ⟨h.files.same hfiles hnf hhandles,
    h.pipes.update (h.pipes.lt hq) hpipes hnp (fun q' _ => by rw [hcl]) ?_ (fun pipe' hp' => ?_)
      (fun pipe' w' hp' => ?_) (fun q' hqq => ?_) fun q' w' => ?_,
    h.paired_moves m (by rw [hproc]; exact hrest)⟩
  · have hold := h.pipes.refs q
    have hone := hpending q
    rw [hq] at hold
    change pipeHandles s q=pipe.refs at hold
    rw [if_pos rfl] at hone
    rw [pipeHandles] at hold
    rw [pipeHandles,hends,hends,hc]
    omega
  · obtain ⟨rfl,hne⟩ := hsome pipe' hp'
    show 0<pipe.refs-1
    omega
  · obtain ⟨rfl,-⟩ := hsome pipe' hp'
    rw [hcl]
    exact h.pipes.flags q pipe w' hq
  · have hone := hpending q'
    rw [if_neg (Ne.symm hqq)] at hone
    rw [pipeHandles,pipeHandles,hends,hends]
    omega
  · rw [endHandles,endHandles,hends,hclosing,hcl]

/-- The last reference to a pipe is dropped when both its ends are closed. -/
theorem Sound.last_closed (h : Sound s) (hp : p<nproc) {pipe : Pipe}
    (hd : (s.procs p).drops=.pipe q::rest) (hq : s.pipes q=some pipe) (h1 : pipe.refs=1) :
    pipe.readOpen=pipe.writeOpen := by
  have hrest : Paired rest := by
    have hpaired := h.paired p
    rw [hd] at hpaired
    exact hpaired
  have hrefs := h.pipes.refs q
  rw [hq,pipeHandles] at hrefs
  change _=pipe.refs at hrefs
  have hhead : (s.procs p).drops.count (.pipe q) ≤ pending s (.pipe q) :=
    le_total (fun proc => proc.drops.count (.pipe q)) hp
  rw [hd,List.count_cons_self] at hhead
  have hclosed : ∀ w,pipe.isOpen w=false := by
    intro w
    -- without the head of the list no reference to the pipe is left
    let t := s.setProc p {s.procs p with drops := rest}
    have m : Moves s t p := ⟨hp,fun i hi => Function.update_of_ne hi ..⟩
    have hproc : t.procs p={s.procs p with drops := rest} := Function.update_self ..
    have hle : pending t (.close q w) ≤ pending t (.pipe q) := by
      unfold pending total
      exact Finset.sum_le_sum fun i _ =>
        (h.paired_moves m (by rw [hproc]; exact hrest) i).count_le q w
    have hcl := m.pending (.close q w)
    have hpi := m.pending (.pipe q)
    simp only [hproc,hd,List.count_cons,beq_iff_eq,reduceCtorEq,if_false,if_true] at hcl hpi
    have honce := h.pipes.once q w (h.pipes.lt hq)
    rw [endHandles] at honce
    have hno : ends s q w=0 := by
      cases w
      · omega
      · omega
    have hopen := h.pipes.flags q pipe w hq
    cases hw : pipe.isOpen w with
    | false => rfl
    | true =>
      have hzero := hopen.mp hw
      omega
  have hr := hclosed false
  have hw := hclosed true
  simp only [Pipe.isOpen,if_true,Bool.false_eq_true,if_false] at hr hw
  rw [hr,hw]

/-- Drops go on without a panic. -/
theorem Sound.dropHead (h : Sound s) (hp : p<nproc) :
    (∀ e,dropHead s p≠.fault e) ∧ (dropHead s p=.next t → Sound t) := by
  have m : ∀ {x : System} (proc : Process),x.procs=s.procs → Moves s (x.setProc p proc) p :=
    moves_setProc hp
  have hself : ∀ {x : System} (proc : Process),(x.setProc p proc).procs p=proc :=
    fun proc => Function.update_self ..
  unfold PipeLife.dropHead
  dsimp only
  split
  · exact ⟨(fun e he => by cases he),fun ht => by cases ht⟩
  · rename_i f rest hd
    obtain ⟨file,hf⟩ := h.files.some_of_count (f:=f) hp (by
      rw [Process.fileCount,hd,List.count_cons_self]
      omega)
    rw [hf]
    dsimp only
    split
    · rename_i h1
      refine ⟨(fun e he => by cases he),fun ht => ?_⟩
      cases ht
      exact h.lastFile (m _ rfl) hd hf h1 (hself _) rfl rfl rfl rfl rfl
    · rename_i h1
      refine ⟨(fun e he => by cases he),fun ht => ?_⟩
      cases ht
      exact h.dropFile (m _ rfl) hd hf h1 (hself _) rfl rfl rfl rfl rfl
  · rename_i q w rest hd
    obtain ⟨pipe,hq,-⟩ := h.pipes.some_of_count (q:=q) hp (by
      have hpaired := h.paired p
      have hle := hpaired.count_le q w
      rw [hd,List.count_cons_self] at hle
      rw [hd]
      omega)
    rw [hq]
    refine ⟨(fun e he => by cases he),fun ht => ?_⟩
    cases ht
    generalize hpipe : (if w=true then _ else _ : Pipe)=pipe'
    have hrefs : pipe'.refs=pipe.refs := by
      rw [← hpipe]
      cases w <;> rfl
    have hmarked : pipe'.isOpen w=false := by
      rw [← hpipe]
      cases w <;> rfl
    have hother : pipe'.isOpen (!w)=pipe.isOpen (!w) := by
      rw [← hpipe]
      cases w <;> rfl
    exact h.markClosed (m _ rfl) hd hq hrefs hmarked hother (hself _) rfl rfl rfl rfl rfl
  · rename_i q rest hd
    obtain ⟨pipe,hq,-⟩ := h.pipes.some_of_count (q:=q) hp (by
      rw [hd,List.count_cons_self]
      omega)
    rw [hq]
    dsimp only
    split
    · rename_i h1
      rw [if_neg (not_not.mpr (h.last_closed hp hd hq h1))]
      refine ⟨(fun e he => by cases he),fun ht => ?_⟩
      cases ht
      refine h.dropPipe (m _ rfl) hd hq ?_ (fun _ hc => by cases hc) (hself _) rfl rfl rfl rfl rfl
      show 0=pipe.refs-1
      omega
    · rename_i h1
      refine ⟨(fun e he => by cases he),fun ht => ?_⟩
      cases ht
      exact h.dropPipe (m _ rfl) hd hq rfl (fun _ hc => by cases hc; exact ⟨rfl,h1⟩) (hself _) rfl
        rfl rfl rfl rfl

/-- A clone of a reference to a file. -/
theorem Sound.share {child new : ℕ} (h : Sound s) (hp : p<nproc) (hchild : child<nproc)
    (hfree : Free (s.procs child) new) :
    (∀ e,share s p fd child new≠.fault e) ∧ (share s p fd child new=.next t → Sound t) := by
  unfold PipeLife.share
  split
  · rename_i f hget
    have hmem : some f∈(s.procs p).openFiles := List.mem_of_getElem? hget
    obtain ⟨file,hf⟩ := h.files.some_of_count (f:=f) hp (by
      have hpos := List.count_pos_iff.mpr hmem
      rw [Process.fileCount]
      omega)
    rw [hf]
    refine ⟨(fun e he => by cases he),fun ht => ?_⟩
    cases ht
    generalize ht : ({s with files := _}.setProc child _ : System)=t
    have m : Moves s t child := by
      refine ⟨hchild,fun i hi => ?_⟩
      rw [← ht]
      exact Function.update_of_ne hi ..
    have hproc : t.procs child=
        {s.procs child with openFiles := (s.procs child).openFiles.set new (some f)} := by
      rw [← ht]
      exact Function.update_self ..
    have hfiles : t.files=Function.update s.files f (some {file with refs := file.refs+1}) := by
      rw [← ht]
      rfl
    have hnf : t.nextFile=s.nextFile := by
      rw [← ht]
      rfl
    have hends := h.ends_refs hf hfiles hnf
    have hpending : ∀ d,pending t d=pending s d := by
      intro d
      have hc := m.pending d
      rw [hproc] at hc
      exact Nat.add_right_cancel hc
    have hhandles : ∀ f',fileHandles t f'=fileHandles s f'+if f'=f then 1 else 0 := by
      intro f'
      have hc := m.fileHandles f'
      rw [hproc] at hc
      simp only [Process.fileCount,count_set_free hfree] at hc
      omega
    refine ⟨h.files.update (h.files.lt hf) hfiles hnf ?_ (fun file' hc => ?_) fun f' hff => ?_,
      h.pipes.same ?_ ?_ ?_ (fun q => ?_) fun q w => ?_,
      h.paired_moves m (by rw [hproc]; exact h.paired child)⟩
    · have hold := h.files.refs f
      rw [hf] at hold
      rw [hhandles,if_pos rfl,hold]
      rfl
    · cases hc
      exact Nat.succ_pos _
    · rw [hhandles,if_neg hff]
      rfl
    · rw [← ht]
      rfl
    · rw [← ht]
      rfl
    · rw [← ht]
      rfl
    · rw [pipeHandles,pipeHandles,hpending,hends,hends]
    · rw [endHandles,endHandles,hpending,hends]
  · exact ⟨(fun e he => by cases he),fun ht => by cases ht⟩

/-- A descriptor is closed: its file is going to be dropped. -/
theorem Sound.closeFd (h : Sound s) (hp : p<nproc) (hd : (s.procs p).drops=[])
    (hget : (s.procs p).openFiles[fd]?=some (some f)) :
    Sound (s.setProc p ⟨(s.procs p).openFiles.set fd none,[.file f]⟩) := by
  generalize ht : s.setProc p ⟨(s.procs p).openFiles.set fd none,[.file f]⟩=t
  have m : Moves s t p := by
    refine ⟨hp,fun i hi => ?_⟩
    rw [← ht]
    exact Function.update_of_ne hi ..
  have hproc : t.procs p=⟨(s.procs p).openFiles.set fd none,[.file f]⟩ := by
    rw [← ht]
    exact Function.update_self ..
  have hends : ∀ q w,ends t q w=ends s q w := fun q w => by
    rw [← ht]
    exact ends_same rfl rfl
  have hpending : ∀ d,(∀ g,d≠.file g) → pending t d=pending s d := by
    intro d hne
    have hc := m.pending d
    rw [hproc,hd,List.count_nil,List.count_cons_of_ne fun e => hne f e.symm] at hc
    exact hc
  have hhandles : ∀ f',fileHandles t f'=fileHandles s f' := by
    intro f'
    have hc := m.fileHandles f'
    have hset := count_set_none (f:=f') hget
    rw [hproc] at hc
    simp only [Process.fileCount,hd,List.count_nil,List.count_cons,beq_iff_eq,Drop.file.injEq] at hc
    simp only [eq_comm (a:=f) (b:=f')] at hc
    omega
  refine ⟨h.files.same ?_ ?_ hhandles,h.pipes.same ?_ ?_ ?_ (fun q => ?_) fun q w => ?_,
    h.paired_moves m (by rw [hproc]; exact trivial)⟩
  · rw [← ht]
    rfl
  · rw [← ht]
    rfl
  · rw [← ht]
    rfl
  · rw [← ht]
    rfl
  · rw [← ht]
    rfl
  · rw [pipeHandles,pipeHandles,hpending _ (by simp),hends,hends]
  · rw [endHandles,endHandles,hpending _ (by simp),hends]

/-- Files are created. -/
theorem FilesSound.create (h : FilesSound s)
    (hold : ∀ f < s.nextFile,t.files f=s.files f ∧ fileHandles t f=fileHandles s f)
    (hnew : ∀ f,s.nextFile≤f → fileHandles t f=(t.files f).elim 0 File.refs ∧
      ∀ file,t.files f=some file → 0<file.refs)
    (hfresh : ∀ f,t.nextFile≤f → t.files f=none) : FilesSound t := by
  refine ⟨fun f => ?_,fun f file hf => ?_,hfresh⟩
  · by_cases hlt : f < s.nextFile
    · rw [(hold f hlt).1,(hold f hlt).2]
      exact h.refs f
    · exact (hnew f (not_lt.mp hlt)).1
  · by_cases hlt : f < s.nextFile
    · rw [(hold f hlt).1] at hf
      exact h.held f file hf
    · exact (hnew f (not_lt.mp hlt)).2 file hf

/-- A pipe is created, with both ends open. -/
theorem PipesSound.create (h : PipesSound s) {refs : ℕ}
    (hpipes : t.pipes=Function.update s.pipes s.nextPipe (some ⟨true,true,refs⟩))
    (hnext : t.nextPipe=s.nextPipe+1) (hcloses : t.closes=s.closes) (hpos : 0 < refs)
    (hself : pipeHandles t s.nextPipe=refs) (hone : ∀ w,endHandles t s.nextPipe w=1)
    (hrefs : ∀ q,q≠s.nextPipe → pipeHandles t q=pipeHandles s q)
    (hends : ∀ q w,q≠s.nextPipe → endHandles t q w=endHandles s q w) : PipesSound t := by
  have hzero := (h.fresh s.nextPipe (le_refl _)).2
  constructor
  · intro q
    rw [hpipes]
    by_cases hq : q=s.nextPipe
    · rw [hq,Function.update_self]
      exact hself
    · rw [Function.update_of_ne hq,hrefs q hq]
      exact h.refs q
  · intro q pipe hsome
    rw [hpipes] at hsome
    by_cases hq : q=s.nextPipe
    · rw [hq,Function.update_self] at hsome
      cases hsome
      exact hpos
    · rw [Function.update_of_ne hq] at hsome
      exact h.held q pipe hsome
  · intro q hq
    rw [hnext] at hq
    rw [hpipes,hcloses,Function.update_of_ne (by omega)]
    exact h.fresh q (by omega)
  · intro q w hq
    rw [hnext] at hq
    rw [hcloses]
    by_cases hqq : q=s.nextPipe
    · rw [hqq,hzero w,hone w]
    · rw [hends q w hqq]
      exact h.once q w (by omega)
  · intro q pipe w hsome
    rw [hpipes] at hsome
    rw [hcloses]
    by_cases hq : q=s.nextPipe
    · rw [hq,Function.update_self] at hsome
      cases hsome
      rw [hq,hzero w]
      cases w <;> simp [Pipe.isOpen]
    · rw [Function.update_of_ne hq] at hsome
      exact h.flags q pipe w hsome

/-- Nobody refers to a pipe or a file before it is created. -/
theorem Sound.unborn (h : Sound s) : (∀ w,ends s s.nextPipe w=0) ∧ pending s (.pipe s.nextPipe)=0 ∧
    (∀ w,pending s (.close s.nextPipe w)=0) ∧ ∀ f,s.nextFile≤f → fileHandles s f=0 := by
  have hrefs := h.pipes.refs s.nextPipe
  rw [(h.pipes.fresh s.nextPipe (le_refl _)).1,pipeHandles] at hrefs
  change _=0 at hrefs
  refine ⟨fun w => ?_,by omega,fun w => ?_,fun f hf => ?_⟩
  · cases w
    · omega
    · omega
  · have hle := h.pending_le s.nextPipe w
    omega
  · have hcount := h.files.refs f
    rw [h.files.fresh f hf] at hcount
    exact hcount

/-- `create` without memory for the second file: the first file and the pipe are going to be
dropped. -/
theorem Sound.noWriteFile (h : Sound s) (m : Moves s t p) (hd : (s.procs p).drops=[])
    (hproc : t.procs p=⟨(s.procs p).openFiles,
      [.close s.nextPipe true,.pipe s.nextPipe,.file s.nextFile,.pipe s.nextPipe]⟩)
    (hfiles : t.files=Function.update s.files s.nextFile (some ⟨s.nextPipe,true,false,1⟩))
    (hnf : t.nextFile=s.nextFile+1)
    (hpipes : t.pipes=Function.update s.pipes s.nextPipe (some ⟨true,true,3⟩))
    (hnp : t.nextPipe=s.nextPipe+1) (hcl : t.closes=s.closes) : Sound t := by
  obtain ⟨hnoEnds,hnoPipe,hnoClose,hnoFile⟩ := h.unborn
  have hends : ∀ q w,ends t q w=ends s q w+if s.nextPipe=q ∧ false=w then 1 else 0 :=
    ends_create hnf hfiles
  have hhandles : ∀ f,fileHandles t f=fileHandles s f+if s.nextFile=f then 1 else 0 := by
    intro f
    have hc := m.fileHandles f
    simp only [Process.fileCount,hproc,hd,List.count_cons,List.count_nil,beq_iff_eq,Drop.file.injEq,
      reduceCtorEq,if_false] at hc
    omega
  have hpending : ∀ q,pending t (.pipe q)=pending s (.pipe q)+if s.nextPipe=q then 2 else 0 := by
    intro q
    have hc := m.pending (.pipe q)
    simp only [hproc,hd,List.count_cons,List.count_nil,beq_iff_eq,Drop.pipe.injEq,reduceCtorEq,
      if_false] at hc
    split at hc <;> simp_all
  have hclosing : ∀ q w,pending t (.close q w)=
      pending s (.close q w)+if s.nextPipe=q ∧ true=w then 1 else 0 := by
    intro q w
    have hc := m.pending (.close q w)
    simp only [hproc,hd,List.count_cons,List.count_nil,beq_iff_eq,Drop.close.injEq,reduceCtorEq,
      if_false] at hc
    omega
  refine ⟨h.files.create (fun f hf => ⟨?_,?_⟩) (fun f hf => ?_) (fun f hf => ?_),
    h.pipes.create hpipes hnp hcl (by decide) ?_ (fun w => ?_) (fun q hq => ?_) fun q w hq => ?_,
    h.paired_moves m (by rw [hproc]; exact ⟨rfl,trivial⟩)⟩
  · rw [hfiles,Function.update_of_ne hf.ne]
  · rw [hhandles,if_neg (by omega)]
    rfl
  · rw [hfiles,hhandles,hnoFile f hf]
    by_cases hff : f=s.nextFile
    · rw [hff,Function.update_self,if_pos rfl]
      exact ⟨rfl,fun file hfile => by cases hfile; exact Nat.one_pos⟩
    · rw [Function.update_of_ne hff,if_neg (Ne.symm hff),h.files.fresh f hf]
      exact ⟨rfl,fun file hfile => by cases hfile⟩
  · rw [hnf] at hf
    rw [hfiles,Function.update_of_ne (by omega)]
    exact h.files.fresh f (by omega)
  · rw [pipeHandles,hends,hends,hpending,hnoEnds,hnoEnds,hnoPipe]
    simp
  · rw [endHandles,hends,hclosing,hnoEnds,hnoClose]
    cases w <;> simp
  · rw [pipeHandles,pipeHandles,hends,hends,hpending]
    simp [Ne.symm hq]
  · rw [endHandles,endHandles,hends,hclosing]
    simp [Ne.symm hq]

/-- `create` with both files, which the process holds or is going to drop. -/
theorem Sound.bothFiles (h : Sound s) (m : Moves s t p) (hd : (s.procs p).drops=[])
    (hcount : ∀ f,(t.procs p).fileCount f=(s.procs p).fileCount f+(if s.nextFile=f then 1 else 0)+
      if s.nextFile+1=f then 1 else 0)
    (hpipe : ∀ q,(t.procs p).drops.count (.pipe q)=if s.nextPipe=q then 1 else 0)
    (hclose : ∀ q w,(t.procs p).drops.count (.close q w)=0) (hpaired : Paired (t.procs p).drops)
    (hfiles : t.files=Function.update (Function.update s.files s.nextFile
      (some ⟨s.nextPipe,true,false,1⟩)) (s.nextFile+1) (some ⟨s.nextPipe,false,true,1⟩))
    (hnf : t.nextFile=s.nextFile+2)
    (hpipes : t.pipes=Function.update s.pipes s.nextPipe (some ⟨true,true,3⟩))
    (hnp : t.nextPipe=s.nextPipe+1) (hcl : t.closes=s.closes) : Sound t := by
  obtain ⟨hnoEnds,hnoPipe,hnoClose,hnoFile⟩ := h.unborn
  have hends : ∀ q w,ends t q w=ends s q w+(if s.nextPipe=q ∧ false=w then 1 else 0)+
      if s.nextPipe=q ∧ true=w then 1 else 0 := by
    intro q w
    -- one file after the other
    let x : System := {s with
      files := Function.update s.files s.nextFile (some ⟨s.nextPipe,true,false,1⟩)
      nextFile := s.nextFile+1}
    have hfirst := ends_create (s:=s) (t:=x) rfl rfl q w
    have hsecond := ends_create (s:=x) (t:=t) hnf hfiles q w
    rw [hsecond,hfirst]
    rfl
  have hhandles : ∀ f,fileHandles t f=fileHandles s f+(if s.nextFile=f then 1 else 0)+
      if s.nextFile+1=f then 1 else 0 := by
    intro f
    have hc := m.fileHandles f
    have hf := hcount f
    omega
  have hpending : ∀ q,pending t (.pipe q)=pending s (.pipe q)+if s.nextPipe=q then 1 else 0 := by
    intro q
    have hc := m.pending (.pipe q)
    rwa [hpipe,hd,List.count_nil] at hc
  have hclosing : ∀ q w,pending t (.close q w)=pending s (.close q w) := by
    intro q w
    have hc := m.pending (.close q w)
    rwa [hclose,hd,List.count_nil] at hc
  refine ⟨h.files.create (fun f hf => ⟨?_,?_⟩) (fun f hf => ?_) (fun f hf => ?_),
    h.pipes.create hpipes hnp hcl (by decide) ?_ (fun w => ?_) (fun q hq => ?_) fun q w hq => ?_,
    h.paired_moves m hpaired⟩
  · rw [hfiles,Function.update_of_ne (by omega),Function.update_of_ne hf.ne]
  · rw [hhandles,if_neg (by omega),if_neg (by omega)]
    rfl
  · rw [hfiles,hhandles,hnoFile f hf]
    by_cases hsecond : f=s.nextFile+1
    · rw [hsecond,Function.update_self,if_neg (by omega),if_pos rfl]
      exact ⟨rfl,fun file hfile => by cases hfile; exact Nat.one_pos⟩
    · rw [Function.update_of_ne hsecond,if_neg (Ne.symm hsecond)]
      by_cases hfirst : f=s.nextFile
      · rw [hfirst,Function.update_self,if_pos rfl]
        exact ⟨rfl,fun file hfile => by cases hfile; exact Nat.one_pos⟩
      · rw [Function.update_of_ne hfirst,if_neg (Ne.symm hfirst),h.files.fresh f hf]
        exact ⟨rfl,fun file hfile => by cases hfile⟩
  · rw [hnf] at hf
    rw [hfiles,Function.update_of_ne (by omega),Function.update_of_ne (by omega)]
    exact h.files.fresh f (by omega)
  · rw [pipeHandles,hends,hends,hpending,hnoEnds,hnoEnds,hnoPipe]
    simp
  · rw [endHandles,hends,hclosing,hnoEnds,hnoClose]
    cases w <;> simp
  · rw [pipeHandles,pipeHandles,hends,hends,hpending]
    simp [Ne.symm hq]
  · rw [endHandles,endHandles,hends,hclosing]
    simp [Ne.symm hq]

/-- `sys_pipe`, unless only the pipe itself finds memory. -/
theorem Sound.sysPipe {fdRead fdWrite : ℕ} {allocs : Allocs} {copied : Bool} (h : Sound s)
    (hp : p<nproc) (hd : (s.procs p).drops=[]) (hread : Free (s.procs p) fdRead)
    (hwrite : Free (s.procs p) fdWrite) (hlt : fdRead<fdWrite) (ha : allocs≠.noReadFile) :
    Sound (sysPipe s p fdRead fdWrite allocs copied) := by
  have m : ∀ {x : System} (proc : Process),x.procs=s.procs → Moves s (x.setProc p proc) p :=
    moves_setProc hp
  have hself : ∀ {x : System} (proc : Process),(x.setProc p proc).procs p=proc :=
    fun proc => Function.update_self ..
  cases allocs with
  | noPipe =>
    have hsame : PipeLife.sysPipe s p fdRead fdWrite .noPipe copied=s := by
      have hproc : (⟨(s.procs p).openFiles,[]⟩ : Process)=s.procs p := by rw [← hd]
      show s.setProc p ⟨(s.procs p).openFiles,[]⟩=s
      rw [hproc,System.setProc,Function.update_eq_self]
    rwa [hsame]
  | noReadFile => exact absurd rfl ha
  | noWriteFile => exact h.noWriteFile (m _ rfl) hd (hself _) rfl rfl rfl rfl rfl
  | all =>
    unfold PipeLife.sysPipe
    cases copied with
    | true =>
      refine h.bothFiles (m _ rfl) hd (fun f => ?_) (fun q => ?_) (fun q w => ?_) ?_ rfl rfl rfl rfl
        rfl
      · have hwrite' :
            ((s.procs p).openFiles.set fdRead (some s.nextFile))[fdWrite]?=some none := by
          rwa [List.getElem?_set_ne hlt.ne]
        simp only [create,if_true,hself,Process.fileCount,hd]
        rw [count_set_free hwrite',count_set_free hread]
        simp only [List.count_cons,List.count_nil,reduceCtorEq,beq_iff_eq,if_false,eq_comm (a:=f)]
        omega
      · simp [create,hself,List.count_cons]
      · simp [create,hself]
      · simp [create,hself,Paired]
    | false =>
      refine h.bothFiles (m _ rfl) hd (fun f => ?_) (fun q => ?_) (fun q w => ?_) ?_ rfl rfl rfl rfl
        rfl
      · simp only [create,Bool.false_eq_true,if_false,hself,Process.fileCount,hd,List.cons_append,
          List.nil_append,List.count_cons,List.count_nil,reduceCtorEq,beq_iff_eq,Drop.file.injEq]
        omega
      · simp [create,hself,List.count_cons]
      · simp [create,hself]
      · simp [create,hself,Paired]

/-- A sum that is not zero has a term that is not. -/
theorem exists_of_total {g : Process → ℕ} (h : total g s≠0) : ∃ p<nproc,g (s.procs p)≠0 := by
  unfold total at h
  obtain ⟨p,hp,hne⟩ := Finset.exists_ne_zero_of_sum_ne_zero h
  exact ⟨p,Finset.mem_range.mp hp,hne⟩

theorem exists_of_ends (h : ends s q w≠0) : ∃ f < s.nextFile,endOf q w (s.files f)≠0 := by
  unfold ends at h
  obtain ⟨f,hf,hne⟩ := Finset.exists_ne_zero_of_sum_ne_zero h
  exact ⟨f,Finset.mem_range.mp hf,hne⟩

theorem le_ends (hf : f < s.nextFile) : endOf q w (s.files f) ≤ ends s q w := by
  unfold ends
  exact Finset.single_le_sum (f:=fun f => endOf q w (s.files f)) (fun _ _ => Nat.zero_le _)
    (Finset.mem_range.mpr hf)

/-- An end is held as long as it is counted. -/
theorem Sound.held_iff (h : Sound s) : Held s q w ↔ endHandles s q w≠0 := by
  constructor
  · rintro ⟨p,hp,hclose | ⟨f,file,hf,hq,hw,-⟩⟩
    · have hpos := List.count_pos_iff.mpr hclose
      have hle : (s.procs p).drops.count (.close q w) ≤ pending s (.close q w) :=
        le_total (fun proc => proc.drops.count (.close q w)) hp
      rw [endHandles]
      omega
    · have hle := le_ends (q:=q) (w:=w) (h.files.lt hf)
      rw [hf,endOf,if_pos ⟨hq,hw⟩] at hle
      rw [endHandles]
      omega
  · intro hne
    by_cases hends : ends s q w=0
    · have hpending : pending s (.close q w)≠0 := by
        rw [endHandles] at hne
        omega
      obtain ⟨p,hp,hcount⟩ := exists_of_total hpending
      exact ⟨p,hp,.inl (List.count_pos_iff.mp (Nat.pos_of_ne_zero hcount))⟩
    · obtain ⟨f,-,hend⟩ := exists_of_ends hends
      cases hf : s.files f with
      | none =>
        rw [hf] at hend
        exact absurd rfl hend
      | some file =>
        rw [hf,endOf] at hend
        have hfile : file.pipe=q ∧ file.writable=w := by
          by_contra hno
          rw [if_neg hno] at hend
          exact hend rfl
        have hrefs := h.files.refs f
        have hpos := h.files.held f file hf
        rw [hf] at hrefs
        change fileHandles s f=file.refs at hrefs
        obtain ⟨p,hp,hcount⟩ := exists_of_total (g:=fun proc => proc.fileCount f) (s:=s) (by
          show fileHandles s f≠0
          omega)
        refine ⟨p,hp,.inr ⟨f,file,hf,hfile.1,hfile.2,?_⟩⟩
        by_contra hno
        rw [not_or] at hno
        refine hcount ?_
        show List.count _ _+List.count _ _=0
        rw [List.count_eq_zero.mpr hno.1,List.count_eq_zero.mpr hno.2]

/-- The counts say when an end is marked closed. -/
theorem Sound.endsRight (h : Sound s) : EndsRight s := by
  refine ⟨fun q pipe w hq => ?_,fun q w hq => ?_⟩
  · have honce := h.pipes.once q w (h.pipes.lt hq)
    rw [h.pipes.flags q pipe w hq,h.held_iff]
    omega
  · have honce := h.pipes.once q w hq
    rw [h.held_iff]
    omega

/-- No step panics, and each keeps the counts right. -/
theorem Sound.step {a : Action} (h : Sound s) (ha : ReadFileAllocated s a) :
    (∀ e,step s a≠.fault e) ∧ (step s a=.next t → Sound t) := by
  have hblocked : (∀ e,(Outcome.blocked : Outcome Panic System)≠.fault e) ∧
      ((Outcome.blocked : Outcome Panic System)=.next t → Sound t) :=
    ⟨(fun e he => by cases he),fun ht => by cases ht⟩
  cases a with
  | sysPipe p fdRead fdWrite allocs copied =>
    unfold PipeLife.step
    dsimp only
    split
    · rename_i hc
      obtain ⟨hp,hd,hread,hwrite,hlt⟩ := hc
      refine ⟨(fun e he => by cases he),fun ht => ?_⟩
      cases ht
      exact h.sysPipe hp hd hread hwrite hlt ha
    · exact hblocked
  | dup p old new =>
    unfold PipeLife.step
    dsimp only
    split
    · rename_i hc
      exact h.share hc.1 hc.1 hc.2.2
    · exact hblocked
  | forkFile p child fd =>
    unfold PipeLife.step
    dsimp only
    split
    · rename_i hc
      exact h.share hc.1 hc.2.2.1 hc.2.2.2
    · exact hblocked
  | close p fd =>
    unfold PipeLife.step
    dsimp only
    split
    · rename_i hc
      split
      · rename_i f hget
        refine ⟨(fun e he => by cases he),fun ht => ?_⟩
        cases ht
        exact h.closeFd hc.1 hc.2 hget
      · exact hblocked
    · exact hblocked
  | drop p =>
    unfold PipeLife.step
    dsimp only
    split
    · rename_i hp
      exact h.dropHead hp
    · exact hblocked

end Steps

/-- In every run in which `create` never finds memory for the pipe and none for the file to read
from, nothing panics, the ends are marked closed when they should be, and `create` returns files
only when it has both. -/
theorem pipes_end_right (as : List Action) (hg : Guarded step ReadFileAllocated start as) :
    (∀ e,run step start as≠.fault e) ∧ (∀ t,run step start as=.next t → EndsRight t) ∧
      ∀ s allocs,(create s allocs).2.2.isSome=true ↔ allocs=.all := by
  refine ⟨fun e => ?_,fun t ht => ?_,fun s allocs => ?_⟩
  · exact run_no_fault (fun s a t (h : Sound s) ha ht => (h.step ha).2 ht)
      (fun s a h ha => (h.step (t:=s) ha).1 e) start_sound hg
  · have hsound : Sound t := run_invariant (fun s a t h ha ht => (h.step ha).2 ht) start_sound hg ht
    exact hsound.endsRight
  · cases allocs <;> simp [create]

/-- A pipe is made, its writer is cloned for a child, and all are closed. -/
def wholeLife : List Action :=
  [.sysPipe 0 0 1 .all true,.drop 0,.forkFile 0 1 1,.close 0 1,.drop 0,.close 0 0,.drop 0,.drop 0,
    .drop 0,.close 1 1,.drop 1,.drop 1,.drop 1]

theorem pipes_end_right_wholeLife : ∃ t,run step start wholeLife=.next t ∧ EndsRight t := by
  have hg : Guarded step ReadFileAllocated start wholeLife := by decide +kernel
  have hrun : ∃ t,run step start wholeLife=.next t := ⟨_,rfl⟩
  obtain ⟨t,ht⟩ := hrun
  exact ⟨t,ht,(pipes_end_right wholeLife hg).2.1 t ht⟩

/-- Without memory for the file to read from, its end is marked closed and the other is not. -/
theorem create_panics :
    run step start [.sysPipe 0 0 1 .noReadFile true,.drop 0,.drop 0,.drop 0]=.fault .assertion :=
  Outcome.eq_fault (by decide +kernel)

end Xv6Rust.PipeLife

import Xv6Rust.ProcSlots

/-!
# A fork that fails

`Process::fork` with `ProcManager::alloc_proc`, as far as they change the process table, the pids,
the parents map and the heap. `alloc_proc` takes three pages, a pid and a page table, and returns
early between them.
-/

namespace Xv6Rust.ForkFailure

open Bytes Paging PageTable UserBytes ProcSlots

/-- `size_of::<TrapFrame>()`. -/
def trapFrameSize : ℕ := 288

/-- Write a register of a trap frame. -/
def setReg (m : Mem) (frame off value : ℕ) : Mem :=
  write m frame off (putLE (fun _ => 0) 0 8 value) 8

/-- `ptr::copy_nonoverlapping` of a trap frame. -/
def copyFrame (m : Mem) (src dst : ℕ) : Mem :=
  write m dst 0 (fun i => m.data src (offset i)) trapFrameSize

/-- The first slot that is `UNUSED`. -/
def firstUnused (s : System) : Option ℕ :=
  (List.range ProcTable.nproc).find? fun j => (s.table j).excl.state=.unused

/-- `RawSinglePage::try_new_zeroed().ok()?` and what follows it. -/
def withPage (s : System) (next : System → ℕ → Except Stop (System×Option ℕ)) :
    Except Stop (System×Option ℕ) :=
  match s.mem.heap with
  | [] => .ok (s,none)
  | ppn::heap => next (s.setMem (s.mem.zeroed heap ppn)) ppn

/-- Change the private data of a slot. -/
def setData (s : System) (j : ℕ) (f : ProcData → ProcData) : System :=
  s.setSlot j {s.table j with data := f (s.table j).data}

/-- `alloc_proc` from the page table on. -/
def allocTable (s : System) (j tf up : ℕ) : Except Stop (System×Option ℕ) :=
  let pid := s.pids.alloc.1
  let m := write s.mem up 0 (putLE (fun _ => 0) 0 4 pid) 4
  if (s.table j).data.pagetable.isSome=true then .error .assertion
  else
    match allocProcPagetable m s.trampolinePage tf up pid with
    | .error e => .error (.panic e)
    -- the trap frame goes back, the other two pages and the pid do not
    | .ok (m,none) => .ok ({s with pids := s.pids.alloc.2,mem := m.free tf},none)
    | .ok (m,some pgt) =>
      let p := s.table j
      .ok ({s with pids := s.pids.alloc.2,mem := m}.setSlot j {p with
        excl := {p.excl with state := .allocated,pid := pid,priority := 255}
        data := {p.data with pagetable := some pgt}},some j)

/-- `alloc_proc`: the slot, if there is one. -/
def allocProc (s : System) : Except Stop (System×Option ℕ) :=
  match firstUnused s with
  | none => .ok (s,none)
  | some j =>
    withPage s fun s tf =>
    withPage (setData s j fun d => {d with trapframe := some tf}) fun s up =>
    withPage (setData s j fun d => {d with up := some up}) fun s frame =>
    allocTable (s.setSlot j
      {s.table j with alarm := {(s.table j).alarm with alarmFrame := some frame}}) j tf up

/-- The memory of the parent is not copied: the child is cleaned up. -/
def undo (s : System) (j : ℕ) (pgt : PageTable) (m : Mem) : Except Stop (System×Except Unit ℕ) :=
  let child := s.table j
  if child.killed=true then .error .assertion
  else
    match {child.data with pagetable := some pgt}.cleanup m child.excl.pid with
    | .error e => .error (.panic e)
    | .ok (d,m) =>
      let a := child.alarm.cleanup m
      .ok ((s.setMem a.2).setSlot j ⟨.clean,false,d,a.1⟩,.error ())

/-- What the child gets of its parent, and its task. -/
def spawn (s : System) (i j : ℕ) (pgt : PageTable) (m : Mem) : Except Stop (System×Except Unit ℕ) :=
  let parent := s.table i
  let child := s.table j
  match parent.data.trapframe,child.data.trapframe,parent.alarm.alarmFrame,child.alarm.alarmFrame,
    parent.data.tasks with
  | some ptf,some ctf,some paf,some caf,ptask::_ =>
    let m := setReg (copyFrame (copyFrame m ptf ctf) paf caf) ctf 112 0
    if (s.parents j).isSome=true then .error .assertion
    else
      match ProcessTasks.createTask pgt m s.tids s.kernel s.block with
      | .error e => .error (.task e)
      | .ok r =>
        let task := r.task
        let m := setReg (copyFrame r.mem ptask.page task.page) task.page 112 0
        let m := setReg m task.page 8 (KernelStacks.kstackBottom task.tid+KernelStacks.kernelStackSize)
        .ok ({s with
            mem := m
            kernel := r.kernel
            tids := r.tids
            parents := Function.update s.parents j (some i)
            queue := s.queue++[j]}.setSlot j {child with
          excl := {child.excl with state := .runnable}
          data := {child.data with
            ustackBase := parent.data.ustackBase
            size := parent.data.size
            name := parent.data.name
            openFiles := parent.data.openFiles
            pagetable := some r.pgt
            cwd := parent.data.cwd
            tracemask := parent.data.tracemask
            tasks := child.data.tasks++[task]}},.ok child.excl.pid)
  | _,_,_,_,_ => .error .unwrap

/-- `fork` by the process of a slot. -/
def fork (s : System) (i : ℕ) : Except Stop (System×Except Unit ℕ) :=
  match allocProc s with
  | .error e => .error e
  | .ok (s,none) => .ok (s,.error ())
  | .ok (s,some j) =>
    let s := setData s j fun d => {d with ustackBase := (s.table i).data.ustackBase}
    match (s.table i).data.pagetable,(s.table j).data.pagetable with
    | some ppgt,some cpgt =>
      match uvmCopy ppgt cpgt s.mem (s.table i).data.size with
      | .error e => .error (.panic e)
      | .ok (pgt,m,false) => undo s j pgt m
      | .ok (pgt,m,true) => spawn s i j pgt m
    | _,_ => .error .unwrap

/-- Nothing shows that the process of a slot has called `fork`. -/
structure NoTrace (i : ℕ) (s t : System) : Prop where
  /-- The free pages of the heap. -/
  heap : ∀ ppn,ppn∈t.mem.heap ↔ ppn∈s.mem.heap
  /-- The pids that can be handed out. -/
  pids : ∀ pid,t.pids.Available pid ↔ s.pids.Available pid
  /-- The states of the slots. -/
  states : ∀ j,(t.table j).excl.state=(s.table j).excl.state
  /-- The parents map. -/
  parents : t.parents=s.parents
  /-- The page table and the size of the parent. -/
  space : (t.table i).data.pagetable=(s.table i).data.pagetable ∧
    (t.table i).data.size=(s.table i).data.size
  /-- The memory of the parent. -/
  memory : ∀ pgt,(s.table i).data.pagetable=some pgt → ∀ va,byteAt pgt t.mem va=byteAt pgt s.mem va
  /-- The open files of the parent. -/
  files : (t.table i).data.openFiles=(s.table i).data.openFiles

theorem NoTrace.refl (i : ℕ) (s : System) : NoTrace i s s :=
  ⟨fun _ => Iff.rfl,fun _ => Iff.rfl,fun _ => rfl,rfl,⟨rfl,rfl⟩,fun _ _ _ => rfl,rfl⟩

variable {s t : System} {i j : ℕ}

/-- Where a pid is gone there is a trace. -/
theorem not_noTrace_of_pids (h : t.pids=s.pids.alloc.2) : ¬NoTrace i s t := by
  intro hn
  obtain ⟨hbefore,hafter⟩ := s.pids.alloc_taken
  rw [← h] at hafter
  exact hafter ((hn.pids _).mpr hbefore)

/-- Where all free pages are gone there is a trace. -/
theorem not_noTrace_of_heap (ht : t.mem.heap=[]) (hs : s.mem.heap≠[]) : ¬NoTrace i s t := by
  intro hn
  obtain ⟨ppn,hmem⟩ := List.exists_mem_of_ne_nil _ hs
  have hgone := (hn.heap ppn).mpr hmem
  rw [ht] at hgone
  cases hgone

/-- What is left when no page is found for a pointer of a new process, or after that. -/
inductive Lost (s t : System) : Prop where
  /-- All free pages have been taken. -/
  | pages (h : t.mem.heap=[])
  /-- A pid has been taken. -/
  | pid (h : t.pids=s.pids.alloc.2)

theorem Lost.not_noTrace (h : Lost s t) (hs : s.mem.heap≠[]) : ¬NoTrace i s t := by
  cases h with
  | pages h => exact not_noTrace_of_heap h hs
  | pid h => exact not_noTrace_of_pids h

theorem allocTable_pids {r : Option ℕ} {tf up : ℕ} (h : allocTable s j tf up=.ok (t,r)) :
    t.pids=s.pids.alloc.2 := by
  unfold allocTable at h
  dsimp only at h
  split at h
  · cases h
  split at h
  · cases h
  · cases h
    rfl
  · cases h
    rfl

/-- A page is taken, or none is left. -/
theorem withPage_cases {next : System → ℕ → Except Stop (System×Option ℕ)} {r : Option ℕ}
    (h : withPage s next=.ok (t,r)) :
    (s.mem.heap=[] ∧ t=s ∧ r=none) ∨
      ∃ ppn heap,s.mem.heap=ppn::heap ∧ next (s.setMem (s.mem.zeroed heap ppn)) ppn=.ok (t,r) := by
  unfold withPage at h
  split at h
  · rename_i hs
    cases h
    exact .inl ⟨hs,rfl,rfl⟩
  · rename_i ppn heap hs
    exact .inr ⟨ppn,heap,hs,h⟩

/-- `alloc_proc` leaves everything alone when it finds no slot or no page at all; otherwise a page
or a pid is gone. -/
theorem allocProc_lost {r : Option ℕ} (h : allocProc s=.ok (t,r)) :
    (t=s ∧ r=none ∧ (firstUnused s=none ∨ s.mem.heap=[])) ∨
      (firstUnused s≠none ∧ s.mem.heap≠[] ∧ (r≠none → t.pids=s.pids.alloc.2) ∧ Lost s t) := by
  unfold allocProc at h
  split at h
  · rename_i hj
    cases h
    exact .inl ⟨rfl,rfl,.inl hj⟩
  rename_i j hj
  have hslot : firstUnused s≠none := by
    rw [hj]
    exact Option.some_ne_none j
  obtain ⟨hheap,rfl,rfl⟩ | ⟨tf,heap,hheap,h⟩ := withPage_cases h
  · exact .inl ⟨rfl,rfl,.inr hheap⟩
  have hne : s.mem.heap≠[] := by
    rw [hheap]
    exact List.cons_ne_nil tf heap
  refine .inr ⟨hslot,hne,?_⟩
  obtain ⟨hheap,rfl,rfl⟩ | ⟨up,heap,-,h⟩ := withPage_cases h
  · exact ⟨fun hr => absurd rfl hr,.pages hheap⟩
  obtain ⟨hheap,rfl,rfl⟩ | ⟨frame,heap,-,h⟩ := withPage_cases h
  · exact ⟨fun hr => absurd rfl hr,.pages hheap⟩
  have hpids := allocTable_pids h
  change t.pids=s.pids.alloc.2 at hpids
  exact ⟨fun _ => hpids,.pid hpids⟩

/-- The child that is cleaned up leaves the pids alone. -/
theorem undo_pids {pgt : PageTable} {m : Mem} {r : Except Unit ℕ} (h : undo s j pgt m=.ok (t,r)) :
    t.pids=s.pids := by
  unfold undo at h
  dsimp only at h
  split at h
  · cases h
  split at h
  · cases h
  · cases h
    rfl

/-- With its memory copied `fork` returns no error. -/
theorem spawn_ne_err {pgt : PageTable} {m : Mem} : spawn s i j pgt m≠.ok (t,.error ()) := by
  intro h
  unfold spawn at h
  dsimp only at h
  split at h
  · split at h
    · cases h
    split at h
    · cases h
    · cases h
  · cases h

/-- A `fork` that fails with a slot has taken a pid. -/
theorem fork_err_cases (h : fork s i=.ok (t,.error ())) :
    allocProc s=.ok (t,none) ∨ ∃ u j,allocProc s=.ok (u,some j) ∧ t.pids=u.pids := by
  unfold fork at h
  split at h
  · cases h
  · rename_i u hu
    cases h
    exact .inl hu
  · rename_i u j hu
    refine .inr ⟨u,j,hu,?_⟩
    dsimp only at h
    split at h
    · split at h
      · cases h
      · have hkept := undo_pids h
        exact hkept
      · exact absurd h spawn_ne_err
    · cases h

/-- A failing `fork` leaves no trace exactly when no slot is `UNUSED`, or no page is free when it is
called. -/
theorem fork_leaves_no_trace_iff (s t : System) (i : ℕ) (h : fork s i=.ok (t,.error ())) :
    NoTrace i s t ↔ firstUnused s=none ∨ s.mem.heap=[] := by
  obtain hnone | ⟨u,j,hsome,hpids⟩ := fork_err_cases h
  · obtain ⟨rfl,-,hcond⟩ | ⟨hslot,hheap,-,hlost⟩ := allocProc_lost hnone
    · exact iff_of_true (.refl i t) hcond
    · exact iff_of_false (hlost.not_noTrace hheap) (not_or.mpr ⟨hslot,hheap⟩)
  · obtain ⟨-,hr,-⟩ | ⟨hslot,hheap,htaken,-⟩ := allocProc_lost hsome
    · cases hr
    have hgone := hpids.trans (htaken (Option.some_ne_none j))
    exact iff_of_false (not_noTrace_of_pids hgone) (not_or.mpr ⟨hslot,hheap⟩)

/-- Without a free page `fork` changes nothing. -/
theorem fork_without_page (hj : firstUnused s=some j) (hheap : s.mem.heap=[]) :
    fork s i=.ok (s,.error ()) := by
  have h : allocProc s=.ok (s,none) := by
    unfold allocProc
    rw [hj]
    dsimp only
    unfold withPage
    rw [hheap]
  unfold fork
  rw [h]

/-- The only free page becomes the trap frame of no process. -/
theorem fork_with_one_page {ppn : ℕ} (hj : firstUnused s=some j) (hheap : s.mem.heap=[ppn]) :
    fork s i=.ok (setData (s.setMem (s.mem.zeroed [] ppn)) j fun d => {d with trapframe := some ppn},
      .error ()) := by
  have h : allocProc s=.ok (setData (s.setMem (s.mem.zeroed [] ppn)) j
      fun d => {d with trapframe := some ppn},none) := by
    unfold allocProc
    rw [hj]
    dsimp only
    unfold withPage
    rw [hheap]
    rfl
  unfold fork
  rw [h]

/-- A process in the first slot, and these free pages. -/
def onlyParent (heap : List ℕ) : System :=
  ⟨⟨heap,fun _ _ => 0⟩,0,⟨TaskStacks.noStacks,0⟩,
    fun j => if j=0 then {Process.new with excl := {Excl.clean with state := .running}} else .new,
    fun _ => none,⟨⟨1,[]⟩,List.nodup_nil,fun _ h => absurd h List.not_mem_nil⟩,⟨1,[]⟩,[],9⟩

theorem firstUnused_onlyParent (heap : List ℕ) : firstUnused (onlyParent heap)=some 1 := by
  refine List.find?_range_eq_some.mpr ⟨rfl,List.mem_range.mpr (by decide),fun j hj => ?_⟩
  rw [Nat.lt_one_iff.mp hj]
  rfl

theorem fork_leaves_no_trace_iff_onlyParent :
    fork (onlyParent []) 0=.ok (onlyParent [],.error ()) ∧
      NoTrace 0 (onlyParent []) (onlyParent []) := by
  have h := fork_without_page (i:=0) (firstUnused_onlyParent []) rfl
  exact ⟨h,(fork_leaves_no_trace_iff _ _ _ h).mpr (.inr rfl)⟩

/-- There is one free page, and it is lost. -/
theorem only_page_lost : ∃ s t i,fork s i=.ok (t,.error ()) ∧ ¬NoTrace i s t :=
  ⟨_,_,0,fork_with_one_page (firstUnused_onlyParent [7]) rfl,
    not_noTrace_of_heap rfl (List.cons_ne_nil 7 [])⟩

end Xv6Rust.ForkFailure

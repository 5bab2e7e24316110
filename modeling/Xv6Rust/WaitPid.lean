import Xv6Rust.PidUnique
import Xv6Rust.ProcSlots

/-!
# Waiting for one child

`ProcManager::waiting` and `ProcManager::waiting_pid` of `process/mod.rs`. Both hold the lock of the
parents map, and give it up only to sleep; a round is what they do from one time they have it to the
next. `waiting_pid` looks for the pid once, before its first round.
-/

namespace Xv6Rust.WaitPid

open Bytes Paging PageTable CopyUser Runs ProcSlots
open ProcTable (nproc)

/-- What a round ends with. -/
inductive Round where
  /-- The caller sleeps. -/
  | sleep
  /-- The call returns. -/
  | done (t : System) (r : Except Unit ℕ)

/-- The bytes of an exit status. -/
def statusBytes (status : ℤ) : Buffer := putLE (fun _ => 0) 0 4 (status%2^32).toNat

/-- `addr != 0 && pdata.copy_out(..).is_err()`: memory, and whether the copy fails. -/
def copyStatus (s : System) (pi : ℕ) (status : ℤ) (addr : ℕ) : Except Stop (Mem×Bool) :=
  if addr=0 then .ok (s.mem,false)
  else
    match (s.table pi).data.pagetable with
    | none => .error .unwrap
    | some pgt =>
      match copyOut pgt s.mem (statusBytes status) addr 4 with
      | ((_,m),.ok) => .ok (m,false)
      | ((_,m),.err) => .ok (m,true)
      | (_,.panic why) => .error (.copy why)

/-- The slot holds a child of the caller. -/
def IsChild (s : System) (pi j : ℕ) : Prop := s.parents j=some pi

instance (s : System) (pi j : ℕ) : Decidable (IsChild s pi j) := inferInstanceAs (Decidable (_=_))

/-- The slot holds a zombie. -/
def IsZombie (s : System) (j : ℕ) : Prop := (s.table j).excl.state=.zombie

instance (s : System) (j : ℕ) : Decidable (IsZombie s j) := inferInstanceAs (Decidable (_=_))

/-- `waiting` at a child that is a zombie. -/
def reap (s : System) (pi j addr : ℕ) : Except Stop Round :=
  let child := s.table j
  match copyStatus s pi child.excl.exitStatus addr with
  | .error e => .error e
  | .ok (m,true) => .ok (.done (s.setMem m) (.error ()))
  | .ok (m,false) =>
    match child.data.cleanup m child.excl.pid with
    | .error e => .error (.panic e)
    | .ok (d,m) =>
      let a := child.alarm.cleanup m
      .ok (.done ({s with mem := a.2,parents := Function.update s.parents j none}.setSlot j
        ⟨.clean,false,d,a.1⟩) (.ok child.excl.pid))

/-- A round of `waiting`. -/
def waiting (s : System) (pi addr : ℕ) : Except Stop Round :=
  match (List.range nproc).find? fun j => IsChild s pi j ∧ IsZombie s j with
  | some j => reap s pi j addr
  | none =>
    if (∀ j∈List.range nproc,¬IsChild s pi j) ∨ (s.table pi).killed=true then .ok (.done s (.error ()))
    else .ok .sleep

/-- The search of `waiting_pid`. -/
def childIndex (s : System) (pid : ℕ) : ℕ :=
  ((List.range nproc).find? fun j => (s.table j).excl.pid=pid).getD 0

/-- `waiting_pid` up to its loop: the slot of the child. -/
def findChild (s : System) (pi pid : ℕ) : Option ℕ :=
  if childIndex s pid≥nproc-1 then none
  else if ¬IsChild s pi (childIndex s pid) then none
  else some (childIndex s pid)

/-- A round of `waiting_pid`. -/
def pidRound (s : System) (pi index pid addr : ℕ) : Except Stop Round :=
  let child := s.table index
  if ¬IsZombie s index then .ok .sleep
  else
    match copyStatus s pi child.excl.exitStatus addr with
    | .error e => .error e
    | .ok (m,true) => .ok (.done (s.setMem m) (.error ()))
    | .ok (m,false) =>
      if (s.table pi).killed=true then .ok (.done (s.setMem m) (.error ()))
      else
        match child.data.cleanup m pid with
        | .error e => .error (.panic e)
        | .ok (d,m) =>
          .ok (.done ({s with mem := m,parents := Function.update s.parents index none}.setSlot index
            ⟨.clean,false,d,child.alarm⟩) (.ok pid))

/-- `waiting_pid` that is called in one state, in a round that it makes in another one, which is the
same for the first round. -/
def waitingPid (s s' : System) (pi pid addr : ℕ) : Except Stop Round :=
  match findChild s pi pid with
  | none => .ok (.done s (.error ()))
  | some index => pidRound s' pi index pid addr

/-- The table, the parents map and the killed flags are those of a run of the process subsystem. -/
def Reachable (s : System) : Prop :=
  ∃ as u,run ProcTable.step ProcTable.boot as=.next u ∧ s.parents=u.parents ∧
    ∀ j,(s.table j).excl.toProcExcl=u.table j ∧ (s.table j).killed=u.killed j

/-- The child has the pid when `waiting_pid` is called, and is a zombie in the round. -/
structure Waits (s s' : System) (pi j pid : ℕ) : Prop where
  /-- It is in the table. -/
  slot : j<nproc
  /-- It is a child. -/
  child : IsChild s pi j
  /-- It has the pid. -/
  named : (s.table j).excl.pid=pid
  /-- It still is a child. -/
  still : IsChild s' pi j
  /-- It still has the pid. -/
  stillNamed : (s'.table j).excl.pid=pid
  /-- It has exited. -/
  zombie : IsZombie s' j

/-- `waiting_pid` does what `waiting` does with the child it names, and nothing when it names none. -/
structure AsWaiting (s s' : System) (pi pid addr : ℕ) : Prop where
  /-- Where `waiting` reaps the child. -/
  reaps : ∀ j t,Waits s s' pi j pid → reap s' pi j addr=.ok (.done t (.ok pid)) →
    waitingPid s s' pi pid addr=.ok (.done t (.ok pid))
  /-- Where no child has the pid. -/
  refuses : (∀ j<nproc,IsChild s pi j → (s.table j).excl.pid≠pid) →
    waitingPid s s' pi pid addr=.ok (.done s (.error ()))

section Init

open ProcTable (step boot effect enabled panics)

variable {u : ProcTable.System} {a : ProcTable.Action}

/-- The first slot is that of init from the first step on, and nobody is its parent. -/
structure InitFirst (u : ProcTable.System) : Prop where
  /-- Init has no parent. -/
  parent : u.parents 0=none
  /-- It is not forked. -/
  fork : u.forks 0=.done
  /-- It does not exit. -/
  zombie : (u.table 0).state≠.zombie
  /-- Before it is there, nothing else is. -/
  begun : (u.table 0).state=.unused →
    u.queue=[] ∧ (∀ c,u.cpus c=.idle) ∧ ∀ i,(u.table i).state=.unused

theorem boot_initFirst : InitFirst boot :=
  ⟨rfl,rfl,(by decide),fun _ => ⟨rfl,fun _ => rfl,fun _ => rfl⟩⟩

/-- Whoever acts, init is there. -/
theorem InitFirst.there (h : InitFirst u) (he : enabled u a) (ha : a≠.userInit) :
    (u.table 0).state≠.unused := by
  intro h0
  obtain ⟨hq,hc,hu⟩ := h.begun h0
  cases a with
  | userInit => exact ha rfl
  | _ => simp [enabled,hq,hc,hu] at he

/-- A slot that is changed to a state that is neither `UNUSED` nor `ZOMBIE`, or is not the first. -/
theorem setEntry_first (h0 : (u.table 0).state≠.unused) (hz : (u.table 0).state≠.zombie) {i : ℕ}
    {e : ProcTable.ProcExcl} (h : i=0 → e.state≠.unused ∧ e.state≠.zombie) :
    (Function.update u.table i e 0).state≠.unused ∧ (Function.update u.table i e 0).state≠.zombie := by
  by_cases hi : i=0
  · rw [hi,Function.update_self]
    exact h hi
  · rw [Function.update_of_ne (Ne.symm hi)]
    exact ⟨h0,hz⟩

theorem InitFirst.step {v : ProcTable.System} (h : InitFirst u) (hs : step u a=.next v) :
    InitFirst v := by
  obtain ⟨he,hp,rfl⟩ := ProcTable.step_eq_next hs
  have hthere := h.there he
  have hclosed : ∀ w : ProcTable.System,w.parents 0=none → w.forks 0=.done →
      ((w.table 0).state≠.unused ∧ (w.table 0).state≠.zombie) → InitFirst w :=
    fun w hpar hfork hst => ⟨hpar,hfork,hst.2,fun h0 => absurd h0 hst.1⟩
  have hkeep : ∀ i,u.forks i≠.done → i≠0 := fun i hi e => hi (e ▸ h.fork)
  have hzero := h.zombie
  cases a with
  | userInit =>
    refine hclosed _ h.parent h.fork ?_
    simp [effect,ProcTable.System.setEntry]
  | fetch c i => exact hclosed _ h.parent h.fork ⟨hthere (by simp),hzero⟩
  | dispatch c i =>
    exact hclosed _ h.parent h.fork (setEntry_first (hthere (by simp)) hzero fun _ => ⟨by simp,by simp⟩)
  | yielding c i =>
    exact hclosed _ h.parent h.fork (setEntry_first (hthere (by simp)) hzero fun _ => ⟨by simp,by simp⟩)
  | sleep c i ch =>
    exact hclosed _ h.parent h.fork (setEntry_first (hthere (by simp)) hzero fun _ => ⟨by simp,by simp⟩)
  | exiting c i st =>
    have hi : i≠0 := by
      intro e
      rw [ProcTable.panics,if_pos e] at hp
      cases hp
    refine hclosed _ ?_ h.fork (setEntry_first (hthere (by simp)) hzero fun e => absurd e hi)
    show (if u.parents 0=some i then some 0 else u.parents 0)=none
    rw [h.parent,if_neg (by simp)]
  | switched c i => exact hclosed _ h.parent h.fork ⟨hthere (by simp),hzero⟩
  | forkAlloc c p i =>
    have hi : i≠0 := fun e => hthere (by simp) (e ▸ he.2.2.1)
    refine hclosed _ h.parent ?_ (setEntry_first (hthere (by simp)) hzero fun _ => ⟨by simp,by simp⟩)
    exact (Function.update_of_ne (Ne.symm hi) ..).trans h.fork
  | forkNoMemory c p => exact hclosed _ h.parent h.fork ⟨hthere (by simp),hzero⟩
  | forkUndo c p i =>
    have hi : i≠0 := hkeep i (by rw [he.2.1]; simp)
    refine hclosed _ h.parent ?_ (setEntry_first (hthere (by simp)) hzero fun e => absurd e hi)
    exact (Function.update_of_ne (Ne.symm hi) ..).trans h.fork
  | setParent c p i =>
    have hi : i≠0 := hkeep i (by rw [he.2]; simp)
    refine hclosed _ ?_ ?_ ⟨hthere (by simp),hzero⟩
    · exact (Function.update_of_ne (Ne.symm hi) ..).trans h.parent
    · exact (Function.update_of_ne (Ne.symm hi) ..).trans h.fork
  | forkReady c p i =>
    have hi : i≠0 := hkeep i (by rw [he.2.1]; simp)
    refine hclosed _ h.parent ?_ (setEntry_first (hthere (by simp)) hzero fun _ => ⟨by simp,by simp⟩)
    exact (Function.update_of_ne (Ne.symm hi) ..).trans h.fork
  | forkAdd c p i =>
    have hi : i≠0 := hkeep i (by rw [he.2]; simp)
    refine hclosed _ h.parent ?_ ⟨hthere (by simp),hzero⟩
    exact (Function.update_of_ne (Ne.symm hi) ..).trans h.fork
  | wakeup i ch =>
    exact hclosed _ h.parent h.fork (setEntry_first (hthere (by simp)) hzero fun _ => ⟨by simp,by simp⟩)
  | kill c i pid =>
    by_cases hsleep : (u.table i).state=.sleeping
    · refine hclosed _ ?_ ?_ ?_
      · simp only [effect,if_pos hsleep]
        exact h.parent
      · simp only [effect,if_pos hsleep]
        exact h.fork
      · simp only [effect,if_pos hsleep]
        exact setEntry_first (hthere (by simp)) hzero fun _ => ⟨by simp,by simp⟩
    · refine hclosed _ ?_ ?_ ?_
      · simp only [effect,if_neg hsleep]
        exact h.parent
      · simp only [effect,if_neg hsleep]
        exact h.fork
      · simp only [effect,if_neg hsleep]
        exact ⟨hthere (by simp),hzero⟩
  | waiting c p i =>
    have hi : i≠0 := by
      intro e
      rw [e] at he
      exact hzero he.2.2.2
    refine hclosed _ ?_ h.fork (setEntry_first (hthere (by simp)) hzero fun e => absurd e hi)
    exact (Function.update_of_ne (Ne.symm hi) ..).trans h.parent

theorem run_initFirst {as : List ProcTable.Action} (h : run step boot as=.next u) : InitFirst u :=
  run_invariant (fun _ _ _ hs _ hstep => hs.step hstep) boot_initFirst
    (guarded_of_forall (fun _ _ => trivial) _ _) h

end Init

section Reaping

variable {s s' t : System} {pi j pid addr : ℕ}

/-- The slot is the first one with the pid. -/
def FirstNamed (s : System) (j pid : ℕ) : Prop :=
  (s.table j).excl.pid=pid ∧ ∀ k<j,(s.table k).excl.pid≠pid

/-- The search finds the first slot with the pid. -/
theorem childIndex_eq (h : FirstNamed s j pid) (hj : j<nproc) : childIndex s pid=j := by
  have hfind : (List.range nproc).find? (fun j => (s.table j).excl.pid=pid)=some j := by
    refine List.find?_range_eq_some.mpr ⟨decide_eq_true h.1,List.mem_range.mpr hj,fun k hk => ?_⟩
    rw [decide_eq_false (h.2 k hk)]
    rfl
  unfold childIndex
  exact congrArg (fun r => r.getD 0) hfind

/-- The slot that is found is the first one with the pid, or there is none and it is slot 0. -/
theorem childIndex_cases (s : System) (pid : ℕ) :
    FirstNamed s (childIndex s pid) pid ∨
      childIndex s pid=0 ∧ ∀ k<nproc,(s.table k).excl.pid≠pid := by
  unfold childIndex
  cases hfind : (List.range nproc).find? (fun j => (s.table j).excl.pid=pid) with
  | none =>
    refine .inr ⟨rfl,fun k hk he => ?_⟩
    have hk' := List.find?_eq_none.mp hfind k (List.mem_range.mpr hk)
    exact hk' (decide_eq_true he)
  | some j =>
    obtain ⟨hj,-,hbefore⟩ := List.find?_range_eq_some.mp hfind
    refine .inl ⟨of_decide_eq_true hj,fun k hk he => ?_⟩
    have hk' := hbefore k hk
    rw [decide_eq_true he] at hk'
    cases hk'

/-- What is found is the child of the caller with the pid. -/
theorem findChild_eq_some {index : ℕ} (h : findChild s pi pid=some index) :
    index=childIndex s pid ∧ index<nproc-1 ∧ IsChild s pi index := by
  unfold findChild at h
  split at h
  · cases h
  split at h
  · cases h
  rename_i hlast hchild
  have hindex := Option.some.inj h
  subst hindex
  exact ⟨rfl,not_le.mp hlast,not_not.mp hchild⟩

/-- What `waiting` leaves of a child that it reaps. -/
theorem reap_done (h : reap s pi j addr=.ok (.done t (.ok pid))) :
    ∃ m d m',copyStatus s pi (s.table j).excl.exitStatus addr=.ok (m,false) ∧
      (s.table j).excl.pid=pid ∧ (s.table j).data.cleanup m pid=.ok (d,m') ∧
      t={s with mem := ((s.table j).alarm.cleanup m').2,parents := Function.update s.parents j none}.setSlot
        j ⟨.clean,false,d,.new⟩ := by
  unfold reap at h
  dsimp only at h
  split at h
  · cases h
  · cases h
  · rename_i m hm
    split at h
    · cases h
    · rename_i d m' hd
      cases h
      exact ⟨m,d,m',hm,rfl,hd,rfl⟩

/-- What `waiting_pid` leaves of a child that it reaps. -/
theorem pidRound_done {index : ℕ} (h : pidRound s pi index pid addr=.ok (.done t (.ok pid))) :
    ∃ m d m',copyStatus s pi (s.table index).excl.exitStatus addr=.ok (m,false) ∧
      (s.table index).data.cleanup m pid=.ok (d,m') ∧
      t={s with mem := m',parents := Function.update s.parents index none}.setSlot
        index ⟨.clean,false,d,(s.table index).alarm⟩ := by
  unfold pidRound at h
  dsimp only at h
  split at h
  · cases h
  split at h
  · cases h
  · cases h
  · rename_i m hm
    split at h
    · cases h
    split at h
    · cases h
    · rename_i d m' hd
      cases h
      exact ⟨m,d,m',hm,hd,rfl⟩

/-- The child that `waiting_pid` finds, with an alarm that was never set, is reaped as by
`waiting`. -/
theorem pidRound_eq_reap (hz : IsZombie s j) (hk : (s.table pi).killed=false)
    (ha : (s.table j).alarm=.new) (h : reap s pi j addr=.ok (.done t (.ok pid))) :
    pidRound s pi j pid addr=.ok (.done t (.ok pid)) := by
  obtain ⟨m,d,m',hm,hpid,hd,rfl⟩ := reap_done h
  unfold pidRound
  dsimp only
  rw [if_neg (not_not.mpr hz),hm]
  dsimp only
  rw [if_neg (by rw [hk]; decide),hd,ha]
  rfl

/-- Where both reap the child to the same effect, `waiting_pid` has found it, and its alarm was never
set. -/
theorem waitingPid_eq_reap (hw : Waits s s' pi j pid) (h : reap s' pi j addr=.ok (.done t (.ok pid)))
    (h' : waitingPid s s' pi pid addr=.ok (.done t (.ok pid))) :
    FirstNamed s j pid ∧ j<nproc-1 ∧ (s'.table j).alarm=.new := by
  unfold waitingPid at h'
  split at h'
  · cases h'
  rename_i index hfind
  obtain ⟨hindex,hlast,-⟩ := findChild_eq_some hfind
  obtain ⟨m,d,m',-,-,-,ht⟩ := reap_done h
  obtain ⟨n,e,n',-,-,ht'⟩ := pidRound_done h'
  rw [ht] at ht'
  have hsame : index=j := by
    by_contra hne
    have hparent : Function.update s'.parents j none j=Function.update s'.parents index none j :=
      congrFun (congrArg System.parents ht') j
    rw [Function.update_self,Function.update_of_ne (Ne.symm hne),hw.still] at hparent
    cases hparent
  rw [hsame] at hindex hlast ht'
  have hslot : Function.update s'.table j ⟨.clean,false,d,.new⟩ j=
      Function.update s'.table j ⟨.clean,false,e,(s'.table j).alarm⟩ j :=
    congrFun (congrArg System.table ht') j
  rw [Function.update_self,Function.update_self] at hslot
  refine ⟨?_,hlast,(congrArg Process.alarm hslot).symm⟩
  obtain hfirst | ⟨-,hnone⟩ := childIndex_cases s pid
  · rwa [hindex]
  · exact absurd hw.named (hnone j hw.slot)

/-- In a reachable state the first slot is no child. -/
theorem Reachable.not_child (h : Reachable s) : ¬IsChild s pi 0 := by
  obtain ⟨as,u,hrun,hpar,-⟩ := h
  intro hchild
  rw [IsChild,hpar,(run_initFirst hrun).parent] at hchild
  cases hchild

/-- A pid of no child is refused. -/
theorem waitingPid_refuses (h : Reachable s)
    (hno : ∀ j<nproc,IsChild s pi j → (s.table j).excl.pid≠pid) :
    waitingPid s s' pi pid addr=.ok (.done s (.error ())) := by
  have hfind : findChild s pi pid=none := by
    cases hf : findChild s pi pid with
    | none => rfl
    | some index =>
      obtain ⟨hindex,hlast,hchild⟩ := findChild_eq_some hf
      obtain hfirst | ⟨hzero,-⟩ := childIndex_cases s pid
      · rw [← hindex] at hfirst
        exact absurd hfirst.1 (hno index (hlast.trans_le (Nat.sub_le ..)) hchild)
      · rw [hindex,hzero] at hchild
        exact absurd hchild h.not_child
  unfold waitingPid
  simp only [hfind]

end Reaping

/-- A caller that is not killed gets from `waiting_pid` what `waiting` does with the child exactly
when every child of that pid that `waiting` would reap is in the first slot with the pid, is not in
the last slot of the table, and has an alarm as a new process; a pid of no child is always refused. -/
theorem waiting_pid_as_waiting_iff (s s' : System) (pi pid addr : ℕ) (hs : Reachable s)
    (hk : (s'.table pi).killed=false) :
    AsWaiting s s' pi pid addr ↔
      ∀ j t,Waits s s' pi j pid → reap s' pi j addr=.ok (.done t (.ok pid)) →
        FirstNamed s j pid ∧ j<nproc-1 ∧ (s'.table j).alarm=.new := by
  constructor
  · intro h j t hw hr
    exact waitingPid_eq_reap hw hr (h.reaps j t hw hr)
  · intro h
    refine ⟨fun j t hw hr => ?_,waitingPid_refuses hs⟩
    obtain ⟨hfirst,hlast,halarm⟩ := h j t hw hr
    have hindex := childIndex_eq hfirst hw.slot
    have hfind : findChild s pi pid=some j := by
      unfold findChild
      simp only [hindex,if_neg (not_le.mpr hlast),if_neg (not_not.mpr hw.child)]
    unfold waitingPid
    simp only [hfind]
    exact pidRound_eq_reap hw.zombie hk halarm hr

/-- The process subsystem after init has forked a child that has exited. -/
def afterExit : ProcTable.System :=
  match run ProcTable.step ProcTable.boot PidUnique.exitActions with
  | .next u => u
  | _ => ProcTable.boot

/-- That child with its pages, as `alloc_proc` gives them. -/
def exitedChild : System :=
  let r := match allocProcPagetable ⟨[10,11,12,13,14,15,16],fun _ _ => 0⟩ 9 20 21 1 with
    | .ok (m,some pgt) => (m,some pgt)
    | _ => (⟨[],fun _ _ => 0⟩,none)
  let child : ProcData :=
    ⟨0,0,fun _ => 0,fun _ => none,some 20,some 21,r.2,none,0,[]⟩
  ⟨r.1,0,⟨TaskStacks.noStacks,0⟩,
    fun j => ⟨⟨afterExit.table j,255⟩,afterExit.killed j,if j=1 then child else .new,
      if j=1 then {ProcAlarm.new with alarmFrame := some 22} else .new⟩,
    afterExit.parents,⟨⟨2,[1]⟩,List.nodup_singleton 1,by decide⟩,⟨2,[]⟩,[],9⟩

theorem exitedChild_reachable : Reachable exitedChild :=
  ⟨PidUnique.exitActions,afterExit,rfl,rfl,fun _ => ⟨rfl,rfl⟩⟩

/-- The round returns a pid. -/
def returned (pid : ℕ) : Except Stop Round → Bool
  | .ok (.done _ (.ok p)) => p==pid
  | _ => false

theorem exists_of_returned {r : Except Stop Round} {pid : ℕ} (h : returned pid r=true) :
    ∃ t,r=.ok (.done t (.ok pid)) := by
  unfold returned at h
  split at h
  · rename_i t p
    exact ⟨t,by rw [beq_iff_eq.mp h]⟩
  · cases h

theorem exitedChild_waits : Waits exitedChild exitedChild 0 1 1 := by
  constructor <;> decide +kernel

theorem waiting_pid_as_waiting_iff_exitedChild : AsWaiting exitedChild exitedChild 0 7 0 := by
  have hno : ∀ j<nproc,(exitedChild.table j).excl.pid≠7 := by decide +kernel
  refine (waiting_pid_as_waiting_iff exitedChild exitedChild 0 7 0 exitedChild_reachable rfl).mpr ?_
  intro j t hw
  exact absurd hw.named (hno j hw.slot)

/-- The page of the alarm frame is lost. -/
theorem alarm_frame_lost : ∃ s pi pid,Reachable s ∧ (s.table pi).killed=false ∧
    ¬AsWaiting s s pi pid 0 := by
  refine ⟨exitedChild,0,1,exitedChild_reachable,rfl,fun h => ?_⟩
  obtain ⟨t,ht⟩ : ∃ t,reap exitedChild 0 1 0=.ok (.done t (.ok 1)) :=
    exists_of_returned (by decide +kernel)
  obtain ⟨-,-,halarm⟩ := waitingPid_eq_reap exitedChild_waits ht (h.reaps 1 t exitedChild_waits ht)
  exact absurd (congrArg ProcAlarm.alarmFrame halarm) (by decide)

end Xv6Rust.WaitPid

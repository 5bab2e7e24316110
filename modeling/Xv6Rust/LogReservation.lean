import Xv6Rust.LogMemory

/-!
# Reservation of log space by concurrent operations

Any number of processes open, use and end file system operations in any order;
every locked section of the log is one step. An operation logs at most
`MAXOPBLOCKS` distinct blocks. `begin_op` admits against the `LOGSIZE-1` slots
of the header, `write` refuses the last of them. The two agree except when an
operation is admitted exactly at the limit beside one that has logged nothing,
and then the panic of `write` is reachable.
-/

namespace Xv6Rust.LogReservation

open Runs LogMemory

/-- An operation between its `begin_op` and its `end_op`. -/
structure Operation where
  /-- The process running it. -/
  proc : ℕ
  /-- The distinct blocks it has passed to `LOG.write`. -/
  logged : List UInt32
  deriving DecidableEq

/-- The log together with the operations that use it. -/
structure System where
  /-- The shared log. -/
  log : Log
  /-- The open operations. -/
  active : List Operation
  /-- The process inside `commit`, and whether `commit` has returned. -/
  committer : Option (ℕ×Bool)
  deriving DecidableEq

/-- The locked sections of the log, by the process that runs them. -/
inductive Action where
  /-- One pass of `begin_op`. -/
  | beginOp (proc : ℕ)
  /-- `LOG.write` of one buffer. -/
  | write (proc : ℕ) (blockno : UInt32)
  /-- First section of `end_op`. -/
  | endOp (proc : ℕ)
  /-- `commit` without the lock, protected by the committing flag. -/
  | commit (proc : ℕ)
  /-- Last section of `end_op`. -/
  | endCommit (proc : ℕ)
  deriving DecidableEq

/-- Take the operation of a process out of the open ones. -/
def extract (proc : ℕ) : List Operation → Option (Operation×List Operation)
  | [] => none
  | op::ops =>
    if op.proc=proc then some (op,ops)
    else (extract proc ops).map fun found => (found.1,op::found.2)

/-- One locked section. A process that is not in the right place, that would
sleep, or whose operation has used up its blocks is blocked. -/
def step (s : System) : Action → Outcome LogPanic System
  | .beginOp proc =>
    if (extract proc s.active).isSome=true ∨ s.committer=some (proc,false) ∨
        s.committer=some (proc,true) then .blocked
    else
      match beginOp s.log with
      | none => .blocked
      | some log => .next {s with log := log,active := ⟨proc,[]⟩::s.active}
  | .write proc blockno =>
    match extract proc s.active with
    | none => .blocked
    | some (op,rest) =>
      if blockno∉op.logged ∧ op.logged.length≥maxOpBlocks then .blocked
      else
        match write s.log blockno with
        | .error e => .fault e
        | .ok (log,_) =>
          .next {s with log := log,active := ⟨op.proc,op.logged.insert blockno⟩::rest}
  | .endOp proc =>
    match extract proc s.active with
    | none => .blocked
    | some (_,rest) =>
      match endOp s.log with
      | .error e => .fault e
      | .ok (log,true) => .next ⟨log,rest,some (proc,false)⟩
      | .ok (log,false) => .next {s with log := log,active := rest}
  | .commit proc =>
    if s.committer=some (proc,false) then
      match commit s.log with
      | .error e => .fault e
      | .ok log => .next {s with log := log,committer := some (proc,true)}
    else .blocked
  | .endCommit proc =>
    if s.committer=some (proc,true) then
      .next {s with log := endCommit s.log,committer := none}
    else .blocked

/-- The log after `Log::init`: the header is empty, its old block numbers may
remain. -/
def boot (start dev : ℕ) (stale : Vector UInt32 (logSize-1)) : System :=
  ⟨⟨start,logSize,dev,0,false,⟨0,stale⟩⟩,[],none⟩

/-- Blocks the open operations may still log. -/
def remaining (ops : List Operation) : ℕ :=
  (ops.map fun op => maxOpBlocks-op.logged.length).sum

/-- An operation is being admitted exactly at the limit while another open one
has not logged anything yet. -/
def AdmitsAtLimit (s : System) : Action → Prop
  | .beginOp _ => 1+s.log.lh.len+(s.log.outstanding+1)*maxOpBlocks=logSize ∧
      ∃ op∈s.active,op.logged=[]
  | _ => False

instance (s : System) (a : Action) : Decidable (AdmitsAtLimit s a) := by
  cases a <;> unfold AdmitsAtLimit <;> infer_instance

/-- Taking an operation out only reorders the open ones. -/
theorem extract_perm {proc : ℕ} {ops rest : List Operation} {op : Operation}
    (h : extract proc ops=some (op,rest)) : ops.Perm (op::rest) := by
  induction ops generalizing rest with
  | nil => cases h
  | cons head tail ih =>
    rw [extract] at h
    split at h
    · cases h
      exact List.Perm.refl _
    · obtain ⟨found,hf,he⟩ := Option.map_eq_some_iff.mp h
      cases he
      exact ((ih hf).cons head).trans (List.Perm.swap _ _ _)

theorem remaining_cons (op : Operation) (ops : List Operation) :
    remaining (op::ops)=maxOpBlocks-op.logged.length+remaining ops := by
  simp only [remaining,List.map_cons,List.sum_cons]

theorem remaining_perm {ops ops' : List Operation} (h : ops.Perm ops') :
    remaining ops=remaining ops' := (h.map _).sum_eq

/-- The reservation invariant: what is recorded plus what the open operations
may still record fits the slots that `write` uses. -/
structure Inv (s : System) : Prop where
  /-- The log area has its nominal size. -/
  size : s.log.size=logSize
  /-- Every open operation is counted. -/
  outstanding : s.log.outstanding=s.active.length
  /-- Operations stay within their budget and their blocks are recorded. -/
  logged : ∀ op∈s.active,op.logged.length ≤ maxOpBlocks ∧ op.logged⊆s.log.lh.entries
  /-- The reservation. -/
  reserve : s.log.lh.len+remaining s.active≤logSize-2
  /-- The flag is set exactly while some process commits. -/
  committing : s.log.committing=s.committer.isSome
  /-- No operation is open during a commit. -/
  quiet : s.log.committing=true → s.active=[]
  /-- An idle log is empty. -/
  idle : s.active=[] → s.log.committing=false → s.log.lh.len=0
  /-- A finished commit has emptied the header. -/
  emptied : ∀ proc,s.committer=some (proc,true) → s.log.lh.len=0

theorem boot_inv (start dev : ℕ) (stale : Vector UInt32 (logSize-1)) :
    Inv (boot start dev stale) where
  size := rfl
  outstanding := rfl
  logged := by intro op h; cases h
  reserve := Nat.zero_le _
  committing := rfl
  quiet := fun _ => rfl
  idle := fun _ _ => rfl
  emptied := by intro proc h; cases h

/-- Admission away from the limit keeps the reservation: beside another open
operation at most nine blocks are recorded, and eight when it has logged none. -/
theorem beginOp_reserve {s : System} {proc : ℕ} (hs : Inv s)
    (hlimit : ¬AdmitsAtLimit s (.beginOp proc)) (hc : s.log.committing=false)
    (hroom : 1+s.log.lh.len+(s.log.outstanding+1)*maxOpBlocks≤logSize) :
    s.log.lh.len+remaining (⟨proc,[]⟩::s.active)≤logSize-2 := by
  have hout := hs.outstanding
  rw [remaining_cons]
  cases hact : s.active with
  | nil =>
    have he := hs.idle hact hc
    simp only [remaining,List.map_nil,List.sum_nil,List.length_nil,maxOpBlocks,logSize]
    omega
  | cons op ops =>
    cases ops with
    | nil =>
      rw [hact] at hout
      have hop : op.logged=[] → 1+s.log.lh.len+(s.log.outstanding+1)*maxOpBlocks≠logSize := by
        intro hnil heq
        exact hlimit ⟨heq,op,by rw [hact]; exact List.mem_singleton.mpr rfl,hnil⟩
      have hlen : op.logged=[] ∨ 0<op.logged.length := by
        cases op.logged with
        | nil => exact .inl rfl
        | cons b bs => exact .inr (Nat.succ_pos _)
      simp only [remaining,List.map_cons,List.map_nil,List.sum_cons,List.sum_nil,
        List.length_nil,List.length_cons,maxOpBlocks,logSize] at hout hop hroom ⊢
      rcases hlen with hnil|hpos
      · have hne := hop hnil
        omega
      · omega
    | cons op' ops =>
      rw [hact] at hout
      simp only [List.length_cons,maxOpBlocks,logSize] at hout hroom
      omega

theorem step_beginOp {s t : System} {proc : ℕ} (hs : Inv s)
    (hlimit : ¬AdmitsAtLimit s (.beginOp proc)) (h : step s (.beginOp proc)=.next t) : Inv t := by
  simp only [step] at h
  split at h
  · cases h
  split at h
  · cases h
  · rename_i log hb
    obtain ⟨hc,hroom,rfl⟩ := beginOp_eq_some hb
    cases h
    have hout := hs.outstanding
    refine ⟨hs.size,?_,?_,beginOp_reserve hs hlimit hc hroom,hs.committing,?_,?_,hs.emptied⟩
    · simp only [List.length_cons]
      omega
    · intro op hop
      rcases List.mem_cons.mp hop with rfl|hop
      · exact ⟨Nat.zero_le _,List.nil_subset _⟩
      · exact hs.logged op hop
    · intro hc'
      exact absurd hc' (by rw [hc]; exact Bool.false_ne_true)
    · intro hnil
      cases hnil

/-- What the invariant says about the log of an open operation: no commit is
running and the header has room for every block it may still log. -/
theorem active_room {s : System} {proc : ℕ} {op : Operation} {rest : List Operation}
    (hs : Inv s) (he : extract proc s.active=some (op,rest)) :
    0 < s.log.outstanding ∧ s.log.committing=false ∧
      op.logged.length ≤ maxOpBlocks ∧ op.logged⊆s.log.lh.entries ∧
      s.log.lh.len+(maxOpBlocks-op.logged.length)+remaining rest≤logSize-2 := by
  have hp := extract_perm he
  have hm : op∈s.active := hp.mem_iff.mpr List.mem_cons_self
  have hlen := hp.length_eq
  have hr := hs.reserve
  rw [remaining_perm hp,remaining_cons] at hr
  have hout := hs.outstanding
  rw [List.length_cons] at hlen
  refine ⟨by omega,?_,(hs.logged op hm).1,(hs.logged op hm).2,by omega⟩
  cases hc : s.log.committing with
  | false => rfl
  | true =>
    have hn := hs.quiet hc
    rw [hn] at hlen
    cases hlen

/-- A write within the budget of an open operation does not panic. -/
theorem step_write_safe {s : System} {proc : ℕ} {blockno : UInt32} (hs : Inv s) (e : LogPanic) :
    step s (.write proc blockno)≠.fault e := by
  intro h
  simp only [step] at h
  split at h
  · cases h
  rename_i op rest he
  obtain ⟨hout,-,-,hsub,hroom⟩ := active_room hs he
  split at h
  · cases h
  rename_i hbudget
  have hw : ∃ log' pinned,write s.log blockno=.ok (log',pinned) := by
    apply write_ok_of_room hs.size hout
    · simp only [logSize,maxOpBlocks] at hroom ⊢
      omega
    · by_cases hm : blockno∈s.log.lh.entries
      · exact .inl hm
      · have hn : blockno∉op.logged := fun hin => hm (hsub hin)
        have hlt : op.logged.length < maxOpBlocks := by
          by_contra hge
          exact hbudget ⟨hn,by omega⟩
        right
        simp only [logSize,maxOpBlocks] at hroom hlt ⊢
        omega
  obtain ⟨log',pinned,hw⟩ := hw
  rw [hw] at h
  cases h

theorem step_write {s t : System} {proc : ℕ} {blockno : UInt32} (hs : Inv s)
    (h : step s (.write proc blockno)=.next t) : Inv t := by
  simp only [step] at h
  split at h
  · cases h
  rename_i op rest he
  obtain ⟨hout,hc,hlen,hsub,hroom⟩ := active_room hs he
  have hp := extract_perm he
  split at h
  · cases h
  rename_i hbudget
  split at h
  · cases h
  rename_i log pinned hw
  cases h
  have hplen := hp.length_eq
  have hcount := hs.outstanding
  rw [List.length_cons] at hplen
  have hins : (op.logged.insert blockno).length ≤ maxOpBlocks := by
    by_cases hm : blockno∈op.logged
    · rw [List.insert_of_mem hm]
      exact hlen
    · have hlt : op.logged.length < maxOpBlocks := by
        by_contra hge
        exact hbudget ⟨hm,by omega⟩
      rw [List.insert_of_not_mem hm,List.length_cons]
      omega
  have hmem : ∀ op',op'∈rest → op'∈s.active := fun op' h' =>
    hp.mem_iff.mpr (List.mem_cons_of_mem _ h')
  -- Absorption changes only the operation's own list; a new block moves one
  -- unit from the operation's budget to the header.
  rcases write_eq_ok hw with ⟨hin,rfl,-⟩|⟨hnew,hslot,-,rfl,-⟩
  · refine ⟨hs.size,?_,?_,?_,hs.committing,?_,?_,hs.emptied⟩
    · simp only [List.length_cons]
      omega
    · intro op' h'
      rcases List.mem_cons.mp h' with rfl|h'
      · exact ⟨hins,fun b hb => (List.mem_insert_iff.mp hb).elim (· ▸ hin) (hsub ·)⟩
      · exact hs.logged op' (hmem op' h')
    · have hle : op.logged.length≤(op.logged.insert blockno).length :=
        List.length_le_length_insert
      rw [remaining_cons]
      dsimp only
      omega
    · intro hc'
      exact absurd hc' (by rw [hc]; exact Bool.false_ne_true)
    · intro hnil
      cases hnil
  · have hroom : s.log.lh.len<logSize-1 := by omega
    have hpush := push_entries blockno hroom
    have hn : blockno∉op.logged := fun hb => hnew (hsub hb)
    refine ⟨hs.size,?_,?_,?_,hs.committing,?_,?_,?_⟩
    · simp only [List.length_cons]
      omega
    · dsimp only
      rw [hpush]
      intro op' h'
      rcases List.mem_cons.mp h' with rfl|h'
      · refine ⟨hins,fun b hb => ?_⟩
        rcases List.mem_insert_iff.mp hb with rfl|hb
        · exact List.mem_append_right _ List.mem_cons_self
        · exact List.mem_append_left _ (hsub hb)
      · obtain ⟨hl,hsub'⟩ := hs.logged op' (hmem op' h')
        exact ⟨hl,fun b hb => List.mem_append_left _ (hsub' hb)⟩
    · rw [List.insert_of_not_mem hn,List.length_cons] at hins
      rw [remaining_cons]
      simp only [LogHeader.push,List.insert_of_not_mem hn,List.length_cons]
      omega
    · intro hc'
      exact absurd hc' (by rw [hc]; exact Bool.false_ne_true)
    · intro hnil
      cases hnil
    · intro p hcm
      have hcs := hs.committing
      rw [hc] at hcs
      dsimp only at hcm
      rw [hcm] at hcs
      cases hcs

/-- Ending an open operation does not panic and keeps the reservation. -/
theorem step_endOp {s : System} {proc : ℕ} (hs : Inv s) :
    (∀ e,step s (.endOp proc)≠.fault e) ∧ ∀ t,step s (.endOp proc)=.next t → Inv t := by
  simp only [step]
  cases he : extract proc s.active with
  | none => exact ⟨nofun,nofun⟩
  | some found =>
    obtain ⟨op,rest⟩ := found
    obtain ⟨hout,hc,-,-,hroom⟩ := active_room hs he
    have hp := extract_perm he
    have hplen := hp.length_eq
    have hcount := hs.outstanding
    rw [List.length_cons] at hplen
    have hmem : ∀ op',op'∈rest → op'∈s.active := fun op' h' =>
      hp.mem_iff.mpr (List.mem_cons_of_mem _ h')
    have hcs : s.committer.isSome=false := by rw [← hs.committing,hc]
    dsimp only
    rw [endOp_eq hout hc]
    by_cases h1 : s.log.outstanding=1
    · rw [if_pos h1]
      refine ⟨nofun,fun t h => ?_⟩
      cases h
      have hnil : rest=[] := List.length_eq_zero_iff.mp (by omega)
      subst hnil
      exact ⟨hs.size,rfl,nofun,by dsimp only; omega,rfl,fun _ => rfl,nofun,nofun⟩
    · rw [if_neg h1]
      refine ⟨nofun,fun t h => ?_⟩
      cases h
      refine ⟨hs.size,by dsimp only; omega,fun op' h' => hs.logged op' (hmem op' h'),
        by dsimp only; omega,hs.committing,?_,?_,hs.emptied⟩
      · intro hc'
        exact absurd hc' (by dsimp only; rw [hc]; exact Bool.false_ne_true)
      · intro hnil
        dsimp only at hnil
        rw [hnil] at hplen
        exact absurd hplen (by rw [List.length_nil]; omega)

theorem step_commit {s : System} {proc : ℕ} (hs : Inv s) :
    (∀ e,step s (.commit proc)≠.fault e) ∧ ∀ t,step s (.commit proc)=.next t → Inv t := by
  simp only [step]
  by_cases hm : s.committer=some (proc,false)
  · have hc : s.log.committing=true := by rw [hs.committing,hm]; rfl
    have hact := hs.quiet hc
    have hr := hs.reserve
    rw [if_pos hm,commit,if_neg (by rw [hc]; exact Bool.noConfusion)]
    by_cases hl : s.log.lh.len>0
    · rw [if_pos hl]
      refine ⟨nofun,fun t h => ?_⟩
      cases h
      refine ⟨hs.size,hs.outstanding,?_,by dsimp only; omega,hc,hs.quiet,?_,fun _ _ => rfl⟩
      · intro op h'
        dsimp only at h'
        rw [hact] at h'
        cases h'
      · intro _ h'
        exact absurd h' (by dsimp only; rw [hc]; exact Bool.noConfusion)
    · rw [if_neg hl]
      refine ⟨nofun,fun t h => ?_⟩
      cases h
      exact ⟨hs.size,hs.outstanding,hs.logged,hs.reserve,hc,hs.quiet,hs.idle,
        fun _ _ => by dsimp only; omega⟩
  · rw [if_neg hm]
    exact ⟨nofun,nofun⟩

theorem step_endCommit {s t : System} {proc : ℕ} (hs : Inv s)
    (h : step s (.endCommit proc)=.next t) : Inv t := by
  simp only [step] at h
  split at h
  · rename_i hm
    cases h
    exact ⟨hs.size,hs.outstanding,hs.logged,hs.reserve,rfl,nofun,
      fun _ _ => hs.emptied proc hm,nofun⟩
  · cases h

/-- Every step away from the limit keeps the reservation invariant. -/
theorem step_inv (s : System) (a : Action) (t : System) (hs : Inv s)
    (ha : ¬AdmitsAtLimit s a) (h : step s a=.next t) : Inv t := by
  cases a with
  | beginOp proc => exact step_beginOp hs ha h
  | write proc blockno => exact step_write hs h
  | endOp proc => exact (step_endOp hs).2 t h
  | commit proc => exact (step_commit hs).2 t h
  | endCommit proc => exact step_endCommit hs h

/-- No step from an invariant state panics, not even one at the limit. -/
theorem step_safe (e : LogPanic) (s : System) (a : Action) (hs : Inv s) :
    step s a≠.fault e := by
  cases a with
  | beginOp proc =>
    simp only [step]
    split
    · exact nofun
    · split <;> exact nofun
  | write proc blockno => exact step_write_safe hs e
  | endOp proc => exact (step_endOp hs).1 e
  | commit proc => exact (step_commit hs).1 e
  | endCommit proc =>
    simp only [step]
    split <;> exact nofun

/-- In every interleaving of any number of processes in which no operation is
admitted at the limit beside one that has logged nothing, no panic of the log
is reachable and the header never exceeds its slots. -/
theorem reservation_sound_below_limit (start dev : ℕ) (stale : Vector UInt32 (logSize-1))
    (actions : List Action)
    (hg : Guarded step (fun s a => ¬AdmitsAtLimit s a) (boot start dev stale) actions) :
    (∀ e,run step (boot start dev stale) actions≠.fault e) ∧
      ∀ t,run step (boot start dev stale) actions=.next t → t.log.lh.len≤logSize-1 := by
  have h0 := boot_inv start dev stale
  constructor
  · intro e
    exact run_no_fault step_inv (fun s a hs _ => step_safe e s a hs) h0 hg
  · intro t ht
    have hr := (run_invariant step_inv h0 hg ht).reserve
    omega

/-- The guard admits runs in which operations overlap, end without a commit and
are followed by a commit and a new group. -/
theorem reservation_sound_overlapping :
    let actions := [Action.beginOp 0,.write 0 40,.beginOp 1,.write 1 41,.write 1 40,.endOp 0,
      .beginOp 2,.endOp 1,.endOp 2,.commit 2,.endCommit 2,.beginOp 0]
    (∀ e,run step (boot 2 1 (Vector.replicate _ 0)) actions≠.fault e) ∧
      ∀ t,run step (boot 2 1 (Vector.replicate _ 0)) actions=.next t → t.log.lh.len≤logSize-1 :=
  reservation_sound_below_limit 2 1 _ _ (by decide +kernel)

/-- A process logging `count` fresh blocks one by one. -/
def writes (proc first count : ℕ) : List Action :=
  (List.range count).map fun i => .write proc (UInt32.ofNat (first+i))

/-- The panic is reachable although each operation logs at most `MAXOPBLOCKS`
distinct blocks: process 0 opens an operation and logs nothing, process 1 logs
nine blocks and ends, process 2 is admitted at the limit, and the two open
operations use their full budgets. -/
theorem reservation_panics_at_limit :
    run step (boot 2 1 (Vector.replicate _ 0))
      ([.beginOp 0,.beginOp 1]++writes 1 100 9++[.endOp 1,.beginOp 2]++
        writes 0 200 10++writes 2 300 10)=.fault .noSpaceThis := by
  decide +kernel

end Xv6Rust.LogReservation

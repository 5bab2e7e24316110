import Xv6Rust.ParentTree

/-!
# No child is lost

What `exiting` has recorded for an entry is what calls of `waiting` have returned of it,
one after the other, and at the end the zombie that nobody has waited for yet. A parent
that sleeps in `waiting` has no zombie among its children: it looked at all of them
with the parents map locked, and `exiting` wakes it up, with the map locked, before it
leaves a zombie.
-/

namespace Xv6Rust.ChildLedger

open Runs ExitWait ParentTree
open ProcTable (nproc ProcState ProcExcl Panic)

/-- A step, with what it has found. -/
inductive Move (s : System) : System → Prop where
  /-- `exiting` is called. -/
  | exit (p : ℕ) (status : ℤ) (hp : s.state p=.running) (hpc : s.pc p=.user) :
    Move s (s.setPc p (.exitLock (s.table p).pid status))
  /-- `waiting` is called. -/
  | wait (p : ℕ) (hp : s.state p=.running) (hpc : s.pc p=.user) : Move s (s.setPc p .waitLock)
  /-- `fork` is called. -/
  | alloc (p j pid : ℕ) (hp : s.state p=.running) (hpc : s.pc p=.user) (hj : s.state j=.unused) :
    Move s ((s.alloc p j pid).setPc p (.forkCopy j))
  /-- `set_parent`. -/
  | setParent (p j : ℕ) (hpc : s.pc p=.forkCopy j) (hl : s.parentsLock=none) :
    Move s ((s.setParent j p).setPc p (.forkReady j))
  /-- The copy fails. -/
  | undo (p j : ℕ) (hpc : s.pc p=.forkCopy j) : Move s ((s.setEntry j .clean).setPc p .user)
  /-- The child can run. -/
  | ready (p j : ℕ) (hpc : s.pc p=.forkReady j) :
    Move s ((s.setState j .runnable).setPc p (.forkAdd j))
  /-- It is in the queue. -/
  | add (p j : ℕ) (hpc : s.pc p=.forkAdd j) : Move s ((s.enqueue j).setPc p .user)
  /-- `exiting` locks the parents map. -/
  | reparent (p pid : ℕ) (status : ℤ) (hpc : s.pc p=.exitLock pid status)
    (hl : s.parentsLock=none) :
    Move s (((s.reparent p).lockParents p).setPc p
      (.wakeInit pid status (if s.hasChild p=true then 0 else nproc)))
  /-- `exiting` wakes init up. -/
  | wakeInit (p pid : ℕ) (status : ℤ) (k : ℕ) (hpc : s.pc p=.wakeInit pid status k)
    (hk : k < nproc) : Move s ((s.wakeup k (channelOf 0)).setPc p (.wakeInit pid status (k+1)))
  /-- It goes on with its parent. -/
  | toParent (p pid : ℕ) (status : ℤ) (k parent : ℕ) (hpc : s.pc p=.wakeInit pid status k)
    (hk : nproc ≤ k) (hpar : s.parents p=some parent) :
    Move s (s.setPc p (.wakeParent pid status parent 0))
  /-- It wakes its parent up. -/
  | wakeParent (p pid : ℕ) (status : ℤ) (parent k : ℕ)
    (hpc : s.pc p=.wakeParent pid status parent k) (hk : k < nproc) :
    Move s ((s.wakeup k (channelOf parent)).setPc p (.wakeParent pid status parent (k+1)))
  /-- It becomes a zombie. -/
  | die (p pid : ℕ) (status : ℤ) (parent k : ℕ) (hpc : s.pc p=.wakeParent pid status parent k)
    (hk : nproc ≤ k) : Move s ((s.die p pid status).setPc p .exitUnlock)
  /-- It gives the parents map back. -/
  | unlock (p : ℕ) (hpc : s.pc p=.exitUnlock) : Move s (s.unlockParents.setPc p .exited)
  /-- `waiting` locks the parents map. -/
  | look (p : ℕ) (hp : s.state p=.running) (hpc : s.pc p=.waitLock ∨ s.pc p=.waitAgain)
    (hl : s.parentsLock=none) : Move s ((s.lockParents p).setPc p (.scan 0 false))
  /-- It goes on to the next entry. -/
  | next (p k : ℕ) (b b' : Bool) (hpc : s.pc p=.scan k b)
    (hk : s.parents k=some p → s.state k≠.zombie) : Move s (s.setPc p (.scan (k+1) b'))
  /-- It returns an error. -/
  | leave (p k : ℕ) (b : Bool) (hpc : s.pc p=.scan k b) : Move s (s.unlockParents.setPc p .user)
  /-- It returns a child. -/
  | reap (p k : ℕ) (b : Bool) (hpc : s.pc p=.scan k b) (hk : s.parents k=some p)
    (hz : s.state k=.zombie) : Move s ((s.reap p k).unlockParents.setPc p .user)
  /-- It goes to sleep. -/
  | rest (p k : ℕ) (b : Bool) (hpc : s.pc p=.scan k b) (hk : nproc ≤ k) :
    Move s ((s.sleep p (channelOf p)).unlockParents.setPc p .waitAgain)
  /-- A process sleeps elsewhere. -/
  | sleepOn (p channel : ℕ) (hp : s.state p=.running) (hpc : s.pc p=.user) :
    Move s (s.sleep p channel)
  /-- It is woken up. -/
  | wakeOn (p channel : ℕ) (hc : nproc < channel) : Move s (s.wakeup p channel)
  /-- A process gives up the CPU. -/
  | yielding (p : ℕ) (hp : s.state p=.running) (hl : s.parentsLock≠some p) : Move s (s.yielding p)
  /-- The scheduler has switched away. -/
  | switched (p : ℕ) : Move s {s with held := Function.update s.held p false}
  /-- A process runs. -/
  | dispatch (p : ℕ) (hp : p∈s.queue) :
    Move s {s.setEntry p {s.table p with state := .running,channel := 0} with
      queue := s.queue.erase p}

section Inversion

variable {s t : System} {p : ℕ}

/-- A section of a process is one of the steps. -/
theorem move_of_go {copied killed : Bool} (hp : s.state p=.running ∨ s.pc p=.exitUnlock)
    (h : go s p copied killed=.next t) :
    Move s t := by
  have hrun : s.pc p≠.exitUnlock → s.state p=.running := fun hne => hp.resolve_right hne
  cases hpc : s.pc p with
  | user =>
    simp only [go,hpc] at h
    cases h
  | forkCopy j =>
    simp only [go,hpc] at h
    split at h
    · split at h
      · cases h
      · rename_i hl
        split at h
        · cases h
        · cases h
          exact .setParent p j hpc (not_not.mp hl)
    · split at h
      · cases h
      · cases h
        exact .undo p j hpc
  | forkReady j =>
    simp only [go,hpc] at h
    split at h
    · cases h
    · cases h
      exact .ready p j hpc
  | forkAdd j =>
    simp only [go,hpc] at h
    cases h
    exact .add p j hpc
  | exitLock pid status =>
    simp only [go,hpc] at h
    split at h
    · cases h
    · rename_i hl
      cases h
      exact .reparent p pid status hpc (not_not.mp hl)
  | wakeInit pid status k =>
    simp only [go,hpc] at h
    split at h
    · rename_i hk
      split at h
      · cases h
      · cases h
        exact .wakeInit p pid status k hpc hk
    · rename_i hk
      split at h
      · cases h
      · rename_i hpar
        cases h
        exact .toParent p pid status k _ hpc (not_lt.mp hk) hpar
  | wakeParent pid status parent k =>
    simp only [go,hpc] at h
    split at h
    · rename_i hk
      split at h
      · cases h
      · cases h
        exact .wakeParent p pid status parent k hpc hk
    · rename_i hk
      split at h
      · cases h
      · cases h
        exact .die p pid status parent k hpc (not_lt.mp hk)
  | exitUnlock =>
    simp only [go,hpc] at h
    cases h
    exact .unlock p hpc
  | exited =>
    simp only [go,hpc] at h
    cases h
  | waitLock =>
    have hr := hrun (hpc ▸ Pc.noConfusion)
    simp only [go,hpc] at h
    split at h
    · cases h
    · rename_i hl
      cases h
      exact .look p hr (.inl hpc) (not_not.mp hl)
  | waitAgain =>
    have hr := hrun (hpc ▸ Pc.noConfusion)
    simp only [go,hpc] at h
    split at h
    · cases h
    · rename_i hl
      cases h
      exact .look p hr (.inr hpc) (not_not.mp hl)
  | scan k b =>
    simp only [go,hpc] at h
    split at h
    · split at h
      · rename_i hk
        cases h
        exact .next p k b b hpc fun e => absurd e hk
      · rename_i hk
        split at h
        · cases h
        · split at h
          · rename_i hz
            cases h
            exact .next p k b true hpc fun _ => hz
          · rename_i hz
            split at h
            · cases h
              exact .leave p k b hpc
            · cases h
              exact .reap p k b hpc (not_not.mp hk) (not_not.mp hz)
    · rename_i hk
      split at h
      · cases h
        exact .leave p k b hpc
      · split at h
        · cases h
        · cases h
          exact .rest p k b hpc (not_lt.mp hk)

/-- Every step is one of them. -/
theorem move_of_step {a : Label} (h : step s a=.next t) : Move s t := by
  cases a with
  | fork p j pid =>
    rw [step] at h
    split at h
    · rename_i hc
      cases h
      exact .alloc p j pid hc.1 hc.2.1 hc.2.2.2.1
    · cases h
  | exit p status =>
    rw [step] at h
    split at h
    · rename_i hc
      split at h
      · cases h
      · cases h
        exact .exit p status hc.1 hc.2
    · cases h
  | wait p =>
    rw [step] at h
    split at h
    · rename_i hc
      cases h
      exact .wait p hc.1 hc.2
    · cases h
  | go p copied killed =>
    rw [step] at h
    split at h
    · rename_i hc
      exact move_of_go hc h
    · cases h
  | sleepOn p channel =>
    rw [step] at h
    split at h
    · rename_i hc
      cases h
      exact .sleepOn p channel hc.1 hc.2.1
    · cases h
  | wakeOn p channel =>
    rw [step] at h
    split at h
    · rename_i hc
      cases h
      exact .wakeOn p channel hc.1
    · cases h
  | yielding p =>
    rw [step] at h
    split at h
    · rename_i hc
      cases h
      exact .yielding p hc.1 hc.2
    · cases h
  | switched p =>
    rw [step] at h
    split at h
    · cases h
      exact .switched p
    · cases h
  | dispatch p =>
    rw [step] at h
    split at h
    · rename_i hc
      cases h
      exact .dispatch p hc.1
    · cases h

end Inversion

/-- The pid that `exiting` has read. -/
def exitPid : Pc → Option ℕ
  | .exitLock pid _ => some pid
  | .wakeInit pid _ _ => some pid
  | .wakeParent pid _ _ _ => some pid
  | _ => none

/-- The process sleeps inside `waiting`. -/
def Asleep (s : System) (p : ℕ) : Prop := s.state p=.sleeping ∧ s.pc p=.waitAgain

/-- What `exiting` has read is the pid of its entry. -/
def Pids (pc : ℕ → Pc) (table : ℕ → ProcExcl) : Prop :=
  ∀ p n,exitPid (pc p)=some n → (table p).pid=n

/-- The exits of an entry, as the returns and the entry itself tell them. -/
def told (entry : ProcExcl) (returns : List Return) : List (ℕ×ℤ) :=
  returns.map Return.exit++
    if entry.state=.zombie then [(entry.pid,entry.exitStatus)] else []

/-- The process that a child has to be returned to. -/
def guardian (orphan : Bool) (author : ℕ) : ℕ := if orphan=true then 0 else author

/-- What is recorded of exits, returns and parents is right. -/
structure Kept (s : System) : Prop where
  /-- Exits are told. -/
  ledger : ∀ i,s.exits i=told (s.table i) (s.returns i)
  /-- `exiting` has its own pid. -/
  pids : Pids s.pc s.table
  /-- A child is returned to its author, or to init after the author. -/
  waiters : ∀ i,∀ r∈s.returns i,r.waiter=guardian r.orphan r.author
  /-- So it is in the parents map. -/
  guardians : ∀ j p,s.parents j=some p → p=guardian (s.orphan j) (s.author j)
  /-- The author of a child that `fork` copies memory to. -/
  authors : ∀ p j,s.pc p=.forkCopy j → s.author j=p ∧ s.orphan j=false

section Ledgers

variable {s t : System} {i j k p q : ℕ}

@[simp] theorem setPc_pc (c : Pc) : (s.setPc p c).pc=Function.update s.pc p c := rfl

@[simp] theorem wakeup_exits (channel : ℕ) : (s.wakeup k channel).exits=s.exits := by
  rw [System.wakeup]
  split <;> rfl

@[simp] theorem wakeup_returns (channel : ℕ) : (s.wakeup k channel).returns=s.returns := by
  rw [System.wakeup]
  split <;> rfl

@[simp] theorem wakeup_author (channel : ℕ) : (s.wakeup k channel).author=s.author := by
  rw [System.wakeup]
  split <;> rfl

@[simp] theorem wakeup_orphan (channel : ℕ) : (s.wakeup k channel).orphan=s.orphan := by
  rw [System.wakeup]
  split <;> rfl

/-- `wakeup` changes an entry only if it sleeps on the channel, and then it can run. -/
theorem wakeup_table (k channel i : ℕ) :
    (s.wakeup k channel).table i=s.table i ∨
      i=k ∧ s.state k=.sleeping ∧ (s.table k).channel=channel ∧
        (s.wakeup k channel).table i={s.table k with state := .runnable} := by
  rw [System.wakeup]
  split
  · rename_i hk
    by_cases e : i=k
    · refine .inr ⟨e,hk.1,hk.2,?_⟩
      rw [e]
      exact Function.update_self ..
    · exact .inl (Function.update_of_ne e ..)
  · exact .inl rfl

/-- What is told of an entry that neither is nor becomes a zombie. -/
theorem told_eq {entry entry' : ProcExcl} (h : entry.state≠.zombie) (h' : entry'.state≠.zombie)
    (returns : List Return) : told entry returns=told entry' returns := by
  rw [told,told,if_neg h,if_neg h']

/-- Entries of which the same is told. -/
theorem told_update {entry : ProcExcl} (h : (s.table k).state≠.zombie) (h' : entry.state≠.zombie)
    (i : ℕ) : told (Function.update s.table k entry i) (s.returns i)=
      told (s.table i) (s.returns i) := by
  by_cases e : i=k
  · rw [e,Function.update_self]
    exact told_eq h' h _
  · rw [Function.update_of_ne e]

/-- The same after `wakeup`. -/
theorem told_wakeup (k channel i : ℕ) :
    told ((s.wakeup k channel).table i) (s.returns i)=told (s.table i) (s.returns i) := by
  obtain e | ⟨rfl,hst,-,e⟩ := wakeup_table (s:=s) k channel i
  · rw [e]
  · rw [e]
    refine told_eq (by simp) ?_ _
    rw [← System.state,hst]
    decide

/-- A process runs at a place of `exiting` or `waiting` at which it must. -/
theorem running_of_fits (hs : Shape s) {c : Pc} (hpc : s.pc p=c)
    (hc : ∀ v,Fits c v → v=.running) : s.state p=.running :=
  hc _ (hpc ▸ hs.places.fits p)

/-- Exits are told after every step. -/
theorem Kept.ledger_move (h : Kept s) (hs : Shape s) (hm : Move s t) :
    ∀ i,t.exits i=told (t.table i) (t.returns i) := by
  intro i
  have hi := h.ledger i
  cases hm with
  | alloc p j pid hp hpc hj =>
    exact hi.trans (told_update (by rw [← System.state,hj]; decide) (by simp) i).symm
  | undo p j hpc =>
    have hj := (hs.forks.copying p j hpc).1
    exact hi.trans (told_update (by rw [← System.state,hj]; decide) (by decide) i).symm
  | ready p j hpc =>
    have hj := (hs.forks.readying p j hpc).1
    exact hi.trans (told_update (by rw [← System.state,hj]; decide) (by simp) i).symm
  | wakeInit p pid status k hpc hk =>
    have e := told_wakeup (s:=s) k (channelOf 0) i
    show (s.wakeup k (channelOf 0)).exits i=told ((s.wakeup k (channelOf 0)).table i)
      ((s.wakeup k (channelOf 0)).returns i)
    rw [wakeup_exits,wakeup_returns,e,hi]
  | wakeParent p pid status parent k hpc hk =>
    have e := told_wakeup (s:=s) k (channelOf parent) i
    show (s.wakeup k (channelOf parent)).exits i=told ((s.wakeup k (channelOf parent)).table i)
      ((s.wakeup k (channelOf parent)).returns i)
    rw [wakeup_exits,wakeup_returns,e,hi]
  | die p pid status parent k hpc hk =>
    have hp := running_of_fits hs hpc fun _ => id
    have hpid := h.pids p pid (by rw [hpc]; rfl)
    show Function.update s.exits p (s.exits p++[(pid,status)]) i=
      told (Function.update s.table p {s.table p with state := .zombie,exitStatus := status} i)
        (s.returns i)
    by_cases e : i=p
    · rw [e] at hi ⊢
      rw [told,if_neg (by rw [← System.state,hp]; decide),List.append_nil] at hi
      rw [Function.update_self,Function.update_self,hi,told,if_pos rfl,← hpid]
    · rw [Function.update_of_ne e,Function.update_of_ne e,hi]
  | reap p k b hpc hk hz =>
    show s.exits i=told (Function.update s.table k .clean i) (Function.update s.returns k
      (s.returns k++[⟨p,s.author k,s.orphan k,(s.table k).pid,(s.table k).exitStatus⟩]) i)
    by_cases e : i=k
    · rw [e] at hi ⊢
      rw [System.state] at hz
      rw [told,if_pos hz] at hi
      rw [Function.update_self,Function.update_self,hi,told,if_neg (by decide),List.append_nil,
        List.map_append]
      rfl
    · rw [Function.update_of_ne e,Function.update_of_ne e,hi]
  | rest p k b hpc hk =>
    have hp := running_of_fits hs hpc fun _ => id
    exact hi.trans (told_update (by rw [← System.state,hp]; decide) (by simp) i).symm
  | sleepOn p channel hp hpc =>
    exact hi.trans (told_update (by rw [← System.state,hp]; decide) (by simp) i).symm
  | wakeOn p channel hc =>
    rw [wakeup_exits,wakeup_returns,told_wakeup,hi]
  | yielding p hp hl =>
    exact hi.trans (told_update (by rw [← System.state,hp]; decide) (by simp) i).symm
  | dispatch p hp =>
    have hp := hs.queued.ready p hp
    exact hi.trans (told_update (by rw [← System.state,hp]; decide) (by simp) i).symm
  | _ => exact hi

/-- A process moves on. -/
theorem Pids.setPc {pc : ℕ → Pc} {table : ℕ → ProcExcl} {c : Pc} (h : Pids pc table)
    (hc : ∀ n,exitPid c=some n → (table p).pid=n) : Pids (Function.update pc p c) table := by
  intro q n hq
  by_cases e : q=p
  · rw [e,Function.update_self] at hq
    rw [e]
    exact hc n hq
  · rw [Function.update_of_ne e] at hq
    exact h q n hq

/-- An entry changes, and keeps its pid or is not exiting. -/
theorem Pids.update {pc : ℕ → Pc} {table : ℕ → ProcExcl} {entry : ProcExcl} (h : Pids pc table)
    (hk : entry.pid=(table k).pid ∨ exitPid (pc k)=none) :
    Pids pc (Function.update table k entry) := by
  intro q n hq
  by_cases e : q=k
  · rw [e] at hq ⊢
    rw [Function.update_self]
    refine hk.elim (fun hpid => hpid.trans (h k n hq)) fun hnone => ?_
    rw [hnone] at hq
    cases hq
  · rw [Function.update_of_ne e]
    exact h q n hq

/-- `wakeup` changes no pid. -/
theorem Pids.wakeup (h : Pids s.pc s.table) (k channel : ℕ) :
    Pids s.pc (s.wakeup k channel).table := by
  intro q n hq
  obtain e | ⟨rfl,-,-,e⟩ := wakeup_table (s:=s) k channel q
  · rw [e]
    exact h q n hq
  · rw [e]
    exact h q n hq

/-- `exiting` keeps the pid that it has read. -/
theorem Kept.pids_move (h : Kept s) (hs : Shape s) (hm : Move s t) : Pids t.pc t.table := by
  have hold := h.pids
  have same : ∀ {p n c},s.pc p=c → exitPid c=some n → (s.table p).pid=n :=
    fun hpc hn => hold _ _ (hpc ▸ hn)
  cases hm with
  | exit p status hp hpc => exact hold.setPc fun n hn => Option.some.inj hn
  | wait p hp hpc => exact hold.setPc nofun
  | alloc p j pid hp hpc hj =>
    have hfit := hs.places.fits j
    have huser := user_of_fits hfit (.inl hj)
    exact (hold.update (.inr (by rw [huser]; rfl))).setPc nofun
  | setParent p j hpc hl => exact hold.setPc nofun
  | undo p j hpc =>
    have hj := (hs.forks.copying p j hpc).1
    have huser := user_of_fits (hs.places.fits j) (.inr hj)
    exact (hold.update (.inr (by rw [huser]; rfl))).setPc nofun
  | ready p j hpc =>
    have hnew : Pids s.pc (s.setState j .runnable).table := hold.update (.inl rfl)
    exact hnew.setPc nofun
  | add p j hpc => exact hold.setPc nofun
  | reparent p pid status hpc hl =>
    exact hold.setPc fun n hn => same hpc hn
  | wakeInit p pid status k hpc hk =>
    rw [setPc_pc,wakeup_pc]
    refine (hold.wakeup k _).setPc fun n hn => ?_
    exact hold.wakeup k _ p n (hpc ▸ hn)
  | toParent p pid status k parent hpc hk hpar => exact hold.setPc fun n hn => same hpc hn
  | wakeParent p pid status parent k hpc hk =>
    rw [setPc_pc,wakeup_pc]
    refine (hold.wakeup k _).setPc fun n hn => ?_
    exact hold.wakeup k _ p n (hpc ▸ hn)
  | die p pid status parent k hpc hk =>
    have hnew : Pids s.pc (s.die p pid status).table := hold.update (.inl rfl)
    exact hnew.setPc nofun
  | unlock p hpc => exact hold.setPc nofun
  | look p hp hpc hl => exact hold.setPc nofun
  | next p k b b' hpc hk => exact hold.setPc nofun
  | leave p k b hpc => exact hold.setPc nofun
  | reap p k b hpc hk hz =>
    have huser : Pids (Function.update s.pc k .user) s.table := hold.setPc nofun
    have hnew : Pids (s.reap p k).pc (s.reap p k).table :=
      huser.update (.inr (by rw [Function.update_self]; rfl))
    exact hnew.setPc nofun
  | rest p k b hpc hk =>
    have hnew : Pids s.pc (s.sleep p (channelOf p)).table := hold.update (.inl rfl)
    exact hnew.setPc nofun
  | sleepOn p channel hp hpc => exact hold.update (.inl rfl)
  | wakeOn p channel hc =>
    rw [wakeup_pc]
    exact hold.wakeup p channel
  | yielding p hp hl => exact hold.update (.inl rfl)
  | switched p => exact hold
  | dispatch p hp => exact hold.update (.inl rfl)

/-- Returns go to the guardian. -/
theorem Kept.waiters_move (h : Kept s) (hm : Move s t) :
    ∀ i,∀ r∈t.returns i,r.waiter=guardian r.orphan r.author := by
  intro i r hr
  cases hm with
  | wakeInit p pid status k hpc hk =>
    rw [System.setPc,wakeup_returns] at hr
    exact h.waiters i r hr
  | wakeParent p pid status parent k hpc hk =>
    rw [System.setPc,wakeup_returns] at hr
    exact h.waiters i r hr
  | wakeOn p channel hc =>
    rw [wakeup_returns] at hr
    exact h.waiters i r hr
  | reap p k b hpc hk hz =>
    change r∈Function.update s.returns k (s.returns k++
      [⟨p,s.author k,s.orphan k,(s.table k).pid,(s.table k).exitStatus⟩]) i at hr
    by_cases e : i=k
    · rw [e,Function.update_self,List.mem_append,List.mem_singleton] at hr
      obtain hr | rfl := hr
      · exact h.waiters k r hr
      · exact h.guardians k p hk
    · rw [Function.update_of_ne e] at hr
      exact h.waiters i r hr
  | _ => exact h.waiters i r hr

/-- A process that is not in `fork` is the author of nothing that is copied. -/
theorem authors_setPc {pc : ℕ → Pc} {author : ℕ → ℕ} {orphan : ℕ → Bool} {c : Pc}
    (h : ∀ p j,pc p=.forkCopy j → author j=p ∧ orphan j=false) (hc : ∀ j,c≠.forkCopy j) :
    ∀ q j,Function.update pc p c q=.forkCopy j → author j=q ∧ orphan j=false :=
  fun q j hq => h q j (update_eq_of_ne hq (hc j)).2

/-- The parents map and the authors stay as they are, and so do their guardians. -/
theorem Kept.family_move (h : Kept s) (hs : Shape s) (hm : Move s t) :
    (∀ j p,t.parents j=some p → p=guardian (t.orphan j) (t.author j)) ∧
      ∀ p j,t.pc p=.forkCopy j → t.author j=p ∧ t.orphan j=false := by
  have hg := h.guardians
  have ha := h.authors
  cases hm with
  | alloc p j pid hp hpc hj =>
    refine ⟨fun i q hi => ?_,fun q i hq => ?_⟩
    · have e : i≠j := by
        rintro rfl
        exact (hs.tree.parented i q hi).1 hj
      show q=guardian (Function.update s.orphan j false i) (Function.update s.author j p i)
      rw [Function.update_of_ne e,Function.update_of_ne e]
      exact hg i q hi
    · change Function.update s.pc p (.forkCopy j) q=.forkCopy i at hq
      show Function.update s.author j p i=q ∧ Function.update s.orphan j false i=false
      by_cases e : q=p
      · rw [e,Function.update_self] at hq
        cases hq
        rw [Function.update_self,Function.update_self]
        exact ⟨e.symm,rfl⟩
      · rw [Function.update_of_ne e] at hq
        have hij : i≠j := by
          rintro rfl
          have halloc := (hs.forks.copying q i hq).1
          rw [hj] at halloc
          cases halloc
        rw [Function.update_of_ne hij,Function.update_of_ne hij]
        exact ha q i hq
  | setParent p j hpc hl =>
    refine ⟨fun i q hi => ?_,authors_setPc ha nofun⟩
    change Function.update s.parents j (some p) i=some q at hi
    by_cases e : i=j
    · rw [e,Function.update_self] at hi
      cases hi
      obtain ⟨hauthor,horphan⟩ := ha p j hpc
      show p=guardian (s.orphan i) (s.author i)
      rw [e,hauthor,horphan]
      rfl
    · rw [Function.update_of_ne e] at hi
      exact hg i q hi
  | reparent p pid status hpc hl =>
    refine ⟨fun i q hi => ?_,fun q i hq => ?_⟩
    · change (if s.parents i=some p then some 0 else s.parents i)=some q at hi
      show q=guardian (if s.parents i=some p then true else s.orphan i) (s.author i)
      split at hi
      · rename_i hip
        cases hi
        rw [if_pos hip]
        rfl
      · rename_i hip
        rw [if_neg hip]
        exact hg i q hi
    · have hq := (update_eq_of_ne hq nofun).2
      show s.author i=q ∧ (if s.parents i=some p then true else s.orphan i)=false
      rw [(hs.forks.copying q i hq).2.1,if_neg nofun]
      exact ha q i hq
  | wakeInit p pid status k hpc hk =>
    simp only [System.setPc,wakeup_parents,wakeup_orphan,wakeup_author,wakeup_pc]
    exact ⟨hg,authors_setPc ha nofun⟩
  | wakeParent p pid status parent k hpc hk =>
    simp only [System.setPc,wakeup_parents,wakeup_orphan,wakeup_author,wakeup_pc]
    exact ⟨hg,authors_setPc ha nofun⟩
  | wakeOn p channel hc =>
    rw [wakeup_parents,wakeup_orphan,wakeup_author,wakeup_pc]
    exact ⟨hg,ha⟩
  | reap p k b hpc hk hz =>
    refine ⟨fun i q hi => ?_,authors_setPc (authors_setPc ha nofun) nofun⟩
    change Function.update s.parents k none i=some q at hi
    by_cases e : i=k
    · rw [e,Function.update_self] at hi
      cases hi
    · rw [Function.update_of_ne e] at hi
      exact hg i q hi
  | sleepOn p channel hp hpc => exact ⟨hg,ha⟩
  | yielding p hp hl => exact ⟨hg,ha⟩
  | switched p => exact ⟨hg,ha⟩
  | dispatch p hp => exact ⟨hg,ha⟩
  | _ => exact ⟨hg,authors_setPc ha nofun⟩

end Ledgers

section Sleepers

variable {s t : System} {i j k p q : ℕ}

/-- Whoever sleeps in `waiting` was not moved there. -/
theorem asleep_of_setPc {c : Pc} (h : Asleep (s.setPc p c) q) (hc : c≠.waitAgain) : Asleep s q :=
  ⟨h.1,(update_eq_of_ne h.2 hc).2⟩

/-- An entry that sleeps is none that was made to do something else. -/
theorem sleeping_update {entry : ProcExcl} (h : (Function.update s.table k entry q).state=.sleeping)
    (hentry : entry.state≠.sleeping) : q≠k ∧ (s.table q).state=.sleeping := by
  by_cases e : q=k
  · rw [e,Function.update_self] at h
    exact absurd h hentry
  · rw [Function.update_of_ne e] at h
    exact ⟨e,h⟩

/-- The same for `waiting`. -/
theorem asleep_update {entry : ProcExcl} (h : Asleep (s.setEntry k entry) q)
    (hentry : entry.state≠.sleeping) : Asleep s q ∧ (s.setEntry k entry).table q=s.table q := by
  obtain ⟨hne,hst⟩ := sleeping_update h.1 hentry
  exact ⟨⟨hst,h.2⟩,Function.update_of_ne hne ..⟩

/-- `wakeup` puts nobody to sleep. -/
theorem asleep_wakeup {channel : ℕ} (h : Asleep (s.wakeup k channel) q) :
    Asleep s q ∧ (s.wakeup k channel).table q=s.table q := by
  obtain ⟨hst,hpc⟩ := h
  rw [wakeup_pc] at hpc
  obtain e | ⟨-,-,-,e⟩ := wakeup_table (s:=s) k channel q
  · rw [System.state,e] at hst
    exact ⟨⟨hst,hpc⟩,e⟩
  · rw [System.state,e] at hst
    cases hst

/-- Whoever sleeps on the channel does not after `wakeup`. -/
theorem not_asleep_wakeup {channel : ℕ} (hc : Asleep s k → (s.table k).channel=channel) :
    ¬Asleep (s.wakeup k channel) k := by
  intro h
  have hk := (asleep_wakeup h).1
  have hst := h.1
  rw [System.wakeup,if_pos ⟨hk.1,hc hk⟩] at hst
  have e : ((s.setState k .runnable).enqueue k).state=Function.update s.state k .runnable :=
    state_setState _
  rw [e,Function.update_self] at hst
  cases hst

/-- A process falls asleep in `waiting` only after it has looked at all entries. -/
theorem Move.asleep (hm : Move s t) (h : Asleep t q) :
    (Asleep s q ∧ t.table q=s.table q) ∨
      (∃ k b,s.pc q=.scan k b ∧ nproc ≤ k) ∧ (t.table q).channel=channelOf q ∧
        t.parents=s.parents ∧ t.state=Function.update s.state q .sleeping := by
  cases hm with
  | exit p status hp hpc => exact .inl ⟨asleep_of_setPc h nofun,rfl⟩
  | wait p hp hpc => exact .inl ⟨asleep_of_setPc h nofun,rfl⟩
  | alloc p j pid hp hpc hj =>
    have h : Asleep (s.setEntry j {s.table j with state := .allocated,pid := pid}) q :=
      asleep_of_setPc h nofun
    exact .inl (asleep_update h (by simp))
  | setParent p j hpc hl => exact .inl ⟨asleep_of_setPc (s:=s) h nofun,rfl⟩
  | undo p j hpc => exact .inl (asleep_update (asleep_of_setPc h nofun) (by decide))
  | ready p j hpc => exact .inl (asleep_update (asleep_of_setPc h nofun) (by simp))
  | add p j hpc => exact .inl ⟨asleep_of_setPc (s:=s) h nofun,rfl⟩
  | reparent p pid status hpc hl => exact .inl ⟨asleep_of_setPc (s:=s) h nofun,rfl⟩
  | wakeInit p pid status k hpc hk => exact .inl (asleep_wakeup (asleep_of_setPc h nofun))
  | toParent p pid status k parent hpc hk hpar => exact .inl ⟨asleep_of_setPc h nofun,rfl⟩
  | wakeParent p pid status parent k hpc hk =>
    exact .inl (asleep_wakeup (asleep_of_setPc h nofun))
  | die p pid status parent k hpc hk =>
    have h : Asleep (s.setEntry p {s.table p with state := .zombie,exitStatus := status}) q :=
      asleep_of_setPc h nofun
    exact .inl (asleep_update h (by simp))
  | unlock p hpc => exact .inl ⟨asleep_of_setPc (s:=s) h nofun,rfl⟩
  | look p hp hpc hl => exact .inl ⟨asleep_of_setPc (s:=s) h nofun,rfl⟩
  | next p k b b' hpc hk => exact .inl ⟨asleep_of_setPc h nofun,rfl⟩
  | leave p k b hpc => exact .inl ⟨asleep_of_setPc (s:=s) h nofun,rfl⟩
  | reap p k b hpc hk hz =>
    have h : Asleep ((s.setEntry k .clean).setPc k .user) q := asleep_of_setPc h nofun
    exact .inl (asleep_update (asleep_of_setPc h nofun) (by decide))
  | rest p k b hpc hk =>
    have hst : ((s.sleep p (channelOf p)).unlockParents.setPc p .waitAgain).state=
        Function.update s.state p .sleeping := state_setEntry _
    by_cases e : q=p
    · rw [e]
      refine .inr ⟨⟨k,b,hpc,hk⟩,?_,rfl,hst⟩
      show (Function.update s.table p {s.table p with state := .sleeping,channel := channelOf p}
        p).channel=channelOf p
      rw [Function.update_self]
    · have hpcq := h.2
      have hstq := h.1
      rw [hst,Function.update_of_ne e] at hstq
      change Function.update s.pc p .waitAgain q=.waitAgain at hpcq
      rw [Function.update_of_ne e] at hpcq
      exact .inl ⟨⟨hstq,hpcq⟩,Function.update_of_ne e ..⟩
  | sleepOn p channel hp hpc =>
    have e : q≠p := by
      rintro rfl
      have hpcq : s.pc q=.waitAgain := h.2
      rw [hpc] at hpcq
      cases hpcq
    have hst : (s.sleep p channel).state=Function.update s.state p .sleeping := state_setEntry _
    have hstq := h.1
    rw [hst,Function.update_of_ne e] at hstq
    exact .inl ⟨⟨hstq,h.2⟩,Function.update_of_ne e ..⟩
  | wakeOn p channel hc => exact .inl (asleep_wakeup h)
  | yielding p hp hl =>
    have h : Asleep (s.setState p .runnable) q := h
    exact .inl (asleep_update h (by simp))
  | switched p => exact .inl ⟨h,rfl⟩
  | dispatch p hp =>
    have h : Asleep (s.setEntry p {s.table p with state := .running,channel := 0}) q := h
    exact .inl (asleep_update h (by simp))

/-- An entry that is a zombie is none that was made something else. -/
theorem zombie_update {entry : ProcExcl} (h : (s.setEntry k entry).state j=.zombie)
    (hentry : entry.state≠.zombie) : s.state j=.zombie := by
  rw [state_setEntry] at h
  by_cases e : j=k
  · rw [e,Function.update_self] at h
    exact absurd h hentry
  · rw [Function.update_of_ne e] at h
    exact h

/-- `wakeup` makes no zombie. -/
theorem zombie_wakeup {channel : ℕ} (h : (s.wakeup k channel).state j=.zombie) :
    s.state j=.zombie := by
  obtain e | ⟨-,-,-,e⟩ := wakeup_table (s:=s) k channel j
  · rw [System.state,e] at h
    exact h
  · rw [System.state,e] at h
    cases h

/-- A process becomes a zombie only after `exiting` has woken up its parent. -/
theorem Move.zombie (hm : Move s t) (h : t.state j=.zombie) :
    s.state j=.zombie ∨ ∃ pid status parent k,s.pc j=.wakeParent pid status parent k ∧ nproc ≤ k
      ∧ t.parents=s.parents := by
  cases hm with
  | alloc p i pid hp hpc hi =>
    have h : (s.setEntry i {s.table i with state := .allocated,pid := pid}).state j=.zombie := h
    exact .inl (zombie_update h (by simp))
  | undo p i hpc => exact .inl (zombie_update (s:=s) h (by decide))
  | ready p i hpc =>
    have h : (s.setState i .runnable).state j=.zombie := h
    exact .inl (zombie_update h (by simp))
  | wakeInit p pid status k hpc hk => exact .inl (zombie_wakeup h)
  | wakeParent p pid status parent k hpc hk => exact .inl (zombie_wakeup h)
  | die p pid status parent k hpc hk =>
    by_cases e : j=p
    · rw [e]
      exact .inr ⟨pid,status,parent,k,hpc,hk,rfl⟩
    · have hst : ((s.die p pid status).setPc p .exitUnlock).state=
          Function.update s.state p .zombie := state_setEntry _
      rw [hst,Function.update_of_ne e] at h
      exact .inl h
  | reap p k b hpc hk hz => exact .inl (zombie_update (s:=s) h (by decide))
  | rest p k b hpc hk =>
    have h : (s.setEntry p {s.table p with state := .sleeping,channel := channelOf p}).state j=
      .zombie := h
    exact .inl (zombie_update h (by simp))
  | sleepOn p channel hp hpc =>
    have h : (s.setEntry p {s.table p with state := .sleeping,channel := channel}).state j=
      .zombie := h
    exact .inl (zombie_update h (by simp))
  | wakeOn p channel hc => exact .inl (zombie_wakeup h)
  | yielding p hp hl =>
    have h : (s.setState p .runnable).state j=.zombie := h
    exact .inl (zombie_update h (by simp))
  | dispatch p hp =>
    have h : (s.setEntry p {s.table p with state := .running,channel := 0}).state j=.zombie := h
    exact .inl (zombie_update h (by simp))
  | _ => exact .inl h

/-- A child of a process was its child, or is new, or was handed to init just now. -/
theorem Move.parents (hs : Shape s) (hm : Move s t) (h : t.parents j=some q) :
    s.parents j=some q ∨ s.parentsLock=none ∧ (s.state j=.allocated ∨
      q=0 ∧ ∃ e pid status,t.pc e=.wakeInit pid status 0) := by
  cases hm with
  | setParent p i hpc hl =>
    change Function.update s.parents i (some p) j=some q at h
    by_cases e : j=i
    · rw [e]
      exact .inr ⟨hl,.inl (hs.forks.copying p i hpc).1⟩
    · rw [Function.update_of_ne e] at h
      exact .inl h
  | reparent p pid status hpc hl =>
    change (if s.parents j=some p then some 0 else s.parents j)=some q at h
    split at h
    · rename_i hjp
      cases h
      have hj : j < nproc := by
        by_contra hn
        exact (hs.tree.parented j p hjp).1 (hs.table.bound j (not_lt.mp hn))
      have hchild : s.hasChild p=true :=
        List.any_eq_true.mpr ⟨j,List.mem_range.mpr hj,beq_iff_eq.mpr hjp⟩
      refine .inr ⟨hl,.inr ⟨rfl,p,pid,status,?_⟩⟩
      rw [if_pos hchild]
      exact Function.update_self ..
    · exact .inl h
  | wakeInit p pid status k hpc hk =>
    rw [System.setPc,wakeup_parents] at h
    exact .inl h
  | wakeParent p pid status parent k hpc hk =>
    rw [System.setPc,wakeup_parents] at h
    exact .inl h
  | reap p k b hpc hk hz =>
    change Function.update s.parents k none j=some q at h
    by_cases e : j=k
    · rw [e,Function.update_self] at h
      cases h
    · rw [Function.update_of_ne e] at h
      exact .inl h
  | wakeOn p channel hc =>
    rw [wakeup_parents] at h
    exact .inl h
  | _ => exact .inl h

/-- While the parents map is locked, a child keeps its parent until it is returned. -/
theorem Move.parents_kept (hm : Move s t) (hl : s.parentsLock≠none) (hj : s.state j≠.zombie) :
    t.parents j=s.parents j := by
  cases hm with
  | setParent p i hpc hl' => exact absurd hl' hl
  | reparent p pid status hpc hl' => exact absurd hl' hl
  | wakeInit p pid status k hpc hk => rw [System.setPc,wakeup_parents]
  | wakeParent p pid status parent k hpc hk => rw [System.setPc,wakeup_parents]
  | wakeOn p channel hc => rw [wakeup_parents]
  | reap p k b hpc hk hz =>
    refine Function.update_of_ne ?_ ..
    rintro rfl
    exact hj hz
  | _ => rfl

/-- `waiting` looks at an entry after all that are before it. -/
theorem Move.scan {b : Bool} (hm : Move s t) (h : t.pc p=.scan k b) :
    s.pc p=.scan k b ∨ k=0 ∨ ∃ i b',k=i+1 ∧ s.pc p=.scan i b' ∧
      (s.parents i=some p → s.state i≠.zombie) := by
  cases hm with
  | look q hq hpc hl =>
    by_cases e : p=q
    · rw [e] at h
      change Function.update s.pc q (.scan 0 false) q=.scan k b at h
      rw [Function.update_self] at h
      cases h
      exact .inr (.inl rfl)
    · exact .inl ((Function.update_of_ne e ..).symm.trans h)
  | next q i b' b'' hpc hk =>
    by_cases e : p=q
    · rw [e] at h ⊢
      change Function.update s.pc q (.scan (i+1) b'') q=.scan k b at h
      rw [Function.update_self] at h
      cases h
      exact .inr (.inr ⟨i,b',rfl,hpc,hk⟩)
    · exact .inl ((Function.update_of_ne e ..).symm.trans h)
  | wakeInit q pid status i hpc hk => exact .inl (wakeup_pc (s:=s) i _ ▸ (update_eq_of_ne h nofun).2)
  | wakeParent q pid status parent i hpc hk =>
    exact .inl (wakeup_pc (s:=s) i _ ▸ (update_eq_of_ne h nofun).2)
  | reap q i b' hpc hk hz => exact .inl (update_eq_of_ne (update_eq_of_ne h nofun).2 nofun).2
  | wakeOn q channel hc => exact .inl (wakeup_pc (s:=s) q channel ▸ h)
  | sleepOn q channel hq hpc => exact .inl h
  | yielding q hq hl => exact .inl h
  | switched q => exact .inl h
  | dispatch q hq => exact .inl h
  | _ => exact .inl (update_eq_of_ne h nofun).2

/-- `exiting` wakes its parent up after init, one entry after the other. -/
theorem Move.wakesParent {pid parent : ℕ} {status : ℤ} (hm : Move s t)
    (h : t.pc p=.wakeParent pid status parent k) :
    s.pc p=.wakeParent pid status parent k ∨
      (k=0 ∧ s.parents p=some parent ∧ ∃ i,s.pc p=.wakeInit pid status i) ∨
      ∃ i,k=i+1 ∧ s.pc p=.wakeParent pid status parent i ∧
        t.table=(s.wakeup i (channelOf parent)).table := by
  cases hm with
  | toParent q pid' status' i parent' hpc hk hpar =>
    by_cases e : p=q
    · rw [e] at h ⊢
      change Function.update s.pc q (.wakeParent pid' status' parent' 0) q=_ at h
      rw [Function.update_self] at h
      cases h
      exact .inr (.inl ⟨rfl,hpar,i,hpc⟩)
    · exact .inl ((Function.update_of_ne e ..).symm.trans h)
  | wakeParent q pid' status' parent' i hpc hk =>
    change Function.update (s.wakeup i (channelOf parent')).pc q
      (.wakeParent pid' status' parent' (i+1)) p=_ at h
    rw [wakeup_pc] at h
    by_cases e : p=q
    · rw [e] at h ⊢
      rw [Function.update_self] at h
      cases h
      exact .inr (.inr ⟨i,rfl,hpc,rfl⟩)
    · exact .inl ((Function.update_of_ne e ..).symm.trans h)
  | wakeInit q pid status i hpc hk => exact .inl (wakeup_pc (s:=s) i _ ▸ (update_eq_of_ne h nofun).2)
  | reap q i b' hpc hk hz => exact .inl (update_eq_of_ne (update_eq_of_ne h nofun).2 nofun).2
  | wakeOn q channel hc => exact .inl (wakeup_pc (s:=s) q channel ▸ h)
  | sleepOn q channel hq hpc => exact .inl h
  | yielding q hq hl => exact .inl h
  | switched q => exact .inl h
  | dispatch q hq => exact .inl h
  | _ => exact .inl (update_eq_of_ne h nofun).2

/-- `exiting` wakes init up before it goes on. -/
theorem Move.wakesInit {pid : ℕ} {status : ℤ} (hm : Move s t) (hs : Shape s)
    (h : s.pc p=.wakeInit pid status 0)
    (hc : Asleep s 0 → (s.table 0).channel=channelOf 0) :
    t.pc p=.wakeInit pid status 0 ∨ ¬Asleep t 0 := by
  have hrun := running_of_fits hs h fun _ => id
  have other : ∀ {q : ℕ} {c d : Pc},s.pc q=d → d≠.wakeInit pid status 0 →
      Function.update s.pc q c p=.wakeInit pid status 0 := by
    intro q c d hq hd
    have e : p≠q := by
      rintro rfl
      exact hd (hq.symm.trans h)
    rw [Function.update_of_ne e]
    exact h
  cases hm with
  | wakeInit q pid' status' i hpc hk =>
    by_cases e : p=q
    · rw [← e,h] at hpc
      cases hpc
      exact .inr fun ha => not_asleep_wakeup hc (asleep_of_setPc ha Pc.noConfusion)
    · exact .inl ((Function.update_of_ne e ..).trans ((congrFun (wakeup_pc i _) p).trans h))
  | toParent q pid' status' i parent hpc hk hpar =>
    refine .inl (other hpc ?_)
    rintro ⟨⟩
    rw [nproc] at hk
    omega
  | wakeParent q pid' status' parent i hpc hk =>
    have e : p≠q := by
      rintro rfl
      rw [h] at hpc
      cases hpc
    exact .inl ((Function.update_of_ne e ..).trans ((congrFun (wakeup_pc i _) p).trans h))
  | reap q i b hpc hk hz =>
    have e : p≠i := by
      rintro rfl
      rw [hz] at hrun
      cases hrun
    have e' : p≠q := by
      rintro rfl
      rw [h] at hpc
      cases hpc
    exact .inl ((Function.update_of_ne e' ..).trans ((Function.update_of_ne e ..).trans h))
  | wakeOn q channel hc => exact .inl ((congrFun (wakeup_pc q channel) p).trans h)
  | sleepOn q channel hq hpc => exact .inl h
  | yielding q hq hl => exact .inl h
  | switched q => exact .inl h
  | dispatch q hq => exact .inl h
  | exit q status' hp hpc => exact .inl (other hpc Pc.noConfusion)
  | wait q hp hpc => exact .inl (other hpc Pc.noConfusion)
  | alloc q j pid' hp hpc hj => exact .inl (other hpc Pc.noConfusion)
  | look q hq hpc hl => exact .inl (hpc.elim (fun e => other e Pc.noConfusion)
      fun e => other e Pc.noConfusion)
  | setParent q j hpc hl => exact .inl (other hpc Pc.noConfusion)
  | undo q j hpc => exact .inl (other hpc Pc.noConfusion)
  | ready q j hpc => exact .inl (other hpc Pc.noConfusion)
  | add q j hpc => exact .inl (other hpc Pc.noConfusion)
  | reparent q pid' status' hpc hl => exact .inl (other hpc Pc.noConfusion)
  | die q pid' status' parent i hpc hk => exact .inl (other hpc Pc.noConfusion)
  | unlock q hpc => exact .inl (other hpc Pc.noConfusion)
  | next q i b b' hpc hk => exact .inl (other hpc Pc.noConfusion)
  | leave q i b hpc => exact .inl (other hpc Pc.noConfusion)
  | rest q i b hpc hk => exact .inl (other hpc Pc.noConfusion)

end Sleepers

/-- Nobody sleeps in `waiting` that could return a child. -/
structure Woken (s : System) : Prop where
  /-- `wakeup` finds whoever sleeps in `waiting`. -/
  channel : ∀ p,Asleep s p → (s.table p).channel=channelOf p
  /-- `waiting` has passed no zombie. -/
  scanned : ∀ p k b,s.pc p=.scan k b → ∀ j<k,s.parents j=some p → s.state j≠.zombie
  /-- `exiting` has read its parent. -/
  parent : ∀ p pid status parent k,s.pc p=.wakeParent pid status parent k →
    s.parents p=some parent
  /-- The parent is woken up. -/
  awake : ∀ p pid status parent k,s.pc p=.wakeParent pid status parent k → parent < k →
    ¬Asleep s parent
  /-- A parent of a zombie is awake, but for init when `exiting` is about to wake it up. -/
  quiet : ∀ p j,Asleep s p → s.parents j=some p → s.state j=.zombie →
    p=0 ∧ ∃ e pid status,s.pc e=.wakeInit pid status 0

section Wakeups

variable {s t : System}

/-- One process holds the parents map. -/
theorem holder_unique (hs : Shape s) {p q : ℕ} (hp : Holds (s.pc p)) (hq : Holds (s.pc q)) : p=q :=
  Option.some.inj (((hs.lock p).mpr hp).symm.trans ((hs.lock q).mpr hq))

/-- It is locked. -/
theorem map_locked (hs : Shape s) {p : ℕ} (hp : Holds (s.pc p)) : s.parentsLock≠none := by
  rw [(hs.lock p).mpr hp]
  nofun

/-- While the parents map is locked, a child that is a zombie was a child and a zombie, or the
holder has just become one. -/
theorem Move.child (hs : Shape s) (hm : Move s t) {p j : ℕ} (hl : s.parentsLock≠none)
    (hpar : t.parents j=some p) (hz : t.state j=.zombie) :
    s.parents j=some p ∧ (s.state j=.zombie ∨
      ∃ pid status parent k,s.pc j=.wakeParent pid status parent k ∧ nproc ≤ k) := by
  refine ⟨(hm.parents hs hpar).resolve_right fun h => hl h.1,?_⟩
  obtain h | ⟨pid,status,parent,k,hpc,hk,-⟩ := hm.zombie hz
  · exact .inl h
  · exact .inr ⟨pid,status,parent,k,hpc,hk⟩

theorem Woken.channel_move (h : Woken s) (hm : Move s t) :
    ∀ p,Asleep t p → (t.table p).channel=channelOf p := by
  intro p hp
  obtain ⟨hold,e⟩ | ⟨-,hnew,-⟩ := hm.asleep hp
  · rw [e]
    exact h.channel p hold
  · exact hnew

theorem Woken.scanned_move (h : Woken s) (hs : Shape s) (hm : Move s t) :
    ∀ p k b,t.pc p=.scan k b → ∀ j<k,t.parents j=some p → t.state j≠.zombie := by
  intro p k b hpc j hj hpar hz
  -- the zombie was one before, since only the holder of the map can have become one
  have old : ∀ {i b'},s.pc p=.scan i b' → s.parents j=some p ∧ s.state j=.zombie := by
    intro i b' hscan
    have hp : Holds (s.pc p) := by
      rw [hscan]
      trivial
    obtain ⟨hpar',hz' | ⟨pid,status,parent,n,hpcj,-⟩⟩ := hm.child hs (map_locked hs hp) hpar hz
    · exact ⟨hpar',hz'⟩
    · have e := holder_unique hs hp (q:=j) (by rw [hpcj]; trivial)
      rw [e,hpcj] at hscan
      cases hscan
  obtain hscan | rfl | ⟨i,b',rfl,hscan,hi⟩ := hm.scan hpc
  · exact h.scanned p k b hscan j hj (old hscan).1 (old hscan).2
  · omega
  · obtain hji | rfl := Nat.lt_succ_iff_lt_or_eq.mp hj
    · exact h.scanned p i b' hscan j hji (old hscan).1 (old hscan).2
    · exact hi (old hscan).1 (old hscan).2

theorem Woken.parent_move (h : Woken s) (hs : Shape s) (hm : Move s t) :
    ∀ p pid status parent k,t.pc p=.wakeParent pid status parent k → t.parents p=some parent := by
  intro p pid status parent k hpc
  have keep : Holds (s.pc p) → Fits (s.pc p) (s.state p) → (∀ v,Fits (s.pc p) v → v=.running) →
      t.parents p=s.parents p := by
    intro hp hfit hv
    refine hm.parents_kept (map_locked hs hp) ?_
    rw [hv _ hfit]
    decide
  have hfit := hs.places.fits p
  obtain hold | ⟨-,hpar,i,hold⟩ | ⟨i,-,hold,-⟩ := hm.wakesParent hpc
  · rw [keep (by rw [hold]; trivial) hfit (by rw [hold]; exact fun _ => id)]
    exact h.parent p pid status parent k hold
  · rw [keep (by rw [hold]; trivial) hfit (by rw [hold]; exact fun _ => id)]
    exact hpar
  · rw [keep (by rw [hold]; trivial) hfit (by rw [hold]; exact fun _ => id)]
    exact h.parent p pid status parent i hold

theorem Woken.awake_move (h : Woken s) (hs : Shape s) (hm : Move s t) :
    ∀ p pid status parent k,t.pc p=.wakeParent pid status parent k → parent < k →
      ¬Asleep t parent := by
  intro p pid status parent k hpc hk ha
  -- nobody falls asleep while `exiting` holds the map
  have old : Holds (s.pc p) → (∀ i b,s.pc p≠.scan i b) →
      Asleep s parent ∧ t.table parent=s.table parent := by
    intro hp hno
    refine (hm.asleep ha).resolve_right ?_
    rintro ⟨⟨i,b,hscan,-⟩,-⟩
    have e := holder_unique hs hp (q:=parent) (by rw [hscan]; trivial)
    rw [← e] at hscan
    exact hno i b hscan
  obtain hold | ⟨rfl,-⟩ | ⟨i,rfl,hold,htable⟩ := hm.wakesParent hpc
  · exact h.awake p pid status parent k hold hk
      (old (by rw [hold]; trivial) (by rw [hold]; nofun)).1
  · omega
  · obtain ⟨ha',e⟩ := old (by rw [hold]; trivial) (by rw [hold]; nofun)
    obtain hlt | rfl := Nat.lt_succ_iff_lt_or_eq.mp hk
    · exact h.awake p pid status parent i hold hlt ha'
    · refine not_asleep_wakeup (h.channel parent) (s:=s) ⟨?_,?_⟩
      · rw [System.state,← htable,e]
        exact ha'.1
      · rw [wakeup_pc]
        exact ha'.2

theorem Woken.quiet_move (h : Woken s) (hs : Shape s) (hm : Move s t) :
    ∀ p j,Asleep t p → t.parents j=some p → t.state j=.zombie →
      p=0 ∧ ∃ e pid status,t.pc e=.wakeInit pid status 0 := by
  intro p j ha hpar hz
  obtain ⟨hold,-⟩ | ⟨⟨k,b,hscan,hk⟩,-,hparents,hstate⟩ := hm.asleep ha
  · obtain hpar' | ⟨-,halloc | ⟨h0,hinit⟩⟩ := hm.parents hs hpar
    · obtain hz' | ⟨pid,status,parent,k,hpc,hk,-⟩ := hm.zombie hz
      · obtain ⟨rfl,e,pid,status,hpc⟩ := h.quiet p j hold hpar' hz'
        exact ⟨rfl,e,pid,status,(hm.wakesInit hs hpc (h.channel 0)).resolve_right (not_not.mpr ha)⟩
      · have e : parent=p := Option.some.inj ((h.parent j pid status parent k hpc).symm.trans hpar')
        have hp : p < nproc := by
          by_contra hn
          have hst := hold.1
          rw [hs.table.bound p (not_lt.mp hn)] at hst
          cases hst
        rw [← e] at hold hp
        exact absurd hold (h.awake j pid status parent k hpc (hp.trans_le hk))
    · exfalso
      obtain hz' | ⟨pid,status,parent,k,hpc,-⟩ := hm.zombie hz
      · rw [halloc] at hz'
        cases hz'
      · rw [running_of_fits hs hpc fun _ => id] at halloc
        cases halloc
    · exact ⟨h0,hinit⟩
  · rw [hparents] at hpar
    rw [hstate] at hz
    have e : j≠p := by
      rintro rfl
      rw [Function.update_self] at hz
      cases hz
    rw [Function.update_of_ne e] at hz
    have hj : j < nproc := by
      by_contra hn
      rw [hs.table.bound j (not_lt.mp hn)] at hz
      cases hz
    exact absurd hz (h.scanned p k b hscan j (hj.trans_le hk) hpar)

end Wakeups

section Runs

variable {s t : System}

/-- A parent returns a child to whoever called `waiting`. -/
def Returned (s t : System) (i : ℕ) : Prop :=
  ∃ p k b,s.pc p=.scan k b ∧ t.pc p=.user ∧ s.parents i=some p ∧
    t.returns i=s.returns i++
      [⟨p,s.author i,s.orphan i,(s.table i).pid,(s.table i).exitStatus⟩]

/-- A step returns a zombie, or leaves it alone. -/
theorem Move.intact (hs : Shape s) (hm : Move s t) (i : ℕ) :
    (t.returns i=s.returns i ∧ (s.state i=.zombie → t.table i=s.table i)) ∨
      s.state i=.zombie ∧ Returned s t i := by
  have update : ∀ {k v entry},s.state k=v → v≠.zombie → s.state i=.zombie →
      Function.update s.table k entry i=s.table i := by
    intro k v entry hk hv hi
    refine Function.update_of_ne ?_ ..
    rintro rfl
    exact hv (hk.symm.trans hi)
  have wake : ∀ {k channel},s.state i=.zombie → (s.wakeup k channel).table i=s.table i := by
    intro k channel hi
    refine (wakeup_table k channel i).resolve_right ?_
    rintro ⟨rfl,hk,-⟩
    rw [hi] at hk
    cases hk
  cases hm with
  | alloc p j pid hp hpc hj => exact .inl ⟨rfl,update hj nofun⟩
  | undo p j hpc => exact .inl ⟨rfl,update (hs.forks.copying p j hpc).1 nofun⟩
  | ready p j hpc => exact .inl ⟨rfl,update (hs.forks.readying p j hpc).1 nofun⟩
  | wakeInit p pid status k hpc hk => exact .inl ⟨congrFun (wakeup_returns _) i,wake⟩
  | wakeParent p pid status parent k hpc hk => exact .inl ⟨congrFun (wakeup_returns _) i,wake⟩
  | die p pid status parent k hpc hk =>
    exact .inl ⟨rfl,update (running_of_fits hs hpc fun _ => id) nofun⟩
  | reap p k b hpc hk hz =>
    by_cases e : i=k
    · rw [e]
      exact .inr ⟨hz,p,k,b,hpc,Function.update_self ..,hk,Function.update_self ..⟩
    · exact .inl ⟨Function.update_of_ne e ..,fun _ => Function.update_of_ne e ..⟩
  | rest p k b hpc hk => exact .inl ⟨rfl,update (running_of_fits hs hpc fun _ => id) nofun⟩
  | sleepOn p channel hp hpc => exact .inl ⟨rfl,update hp nofun⟩
  | wakeOn p channel hc => exact .inl ⟨congrFun (wakeup_returns _) i,wake⟩
  | yielding p hp hl => exact .inl ⟨rfl,update hp nofun⟩
  | dispatch p hp => exact .inl ⟨rfl,update (hs.queued.ready p hp) nofun⟩
  | _ => exact .inl ⟨rfl,fun _ => rfl⟩

theorem start_kept (pid : ℕ) : Kept (start pid) := by
  refine ⟨fun i => ?_,fun p n h => ?_,fun i r h => ?_,fun j p h => ?_,fun p j h => ?_⟩
  · rw [told,start]
    dsimp only
    split
    · rw [if_neg ProcState.noConfusion]
      rfl
    · rw [if_neg (by decide)]
      rfl
  · cases h
  · cases h
  · cases h
  · cases h

theorem start_woken (pid : ℕ) : Woken (start pid) := by
  refine ⟨fun p h => ?_,nofun,nofun,nofun,fun p j h => ?_⟩
  · exact nomatch h.2
  · exact nomatch h.2

/-- Every state that is reached is in shape, its record is right, and parents are awake. -/
theorem run_kept {pid : ℕ} {as : List Label} (h : run step (start pid) as=.next s) :
    Shape s ∧ Kept s ∧ Woken s := by
  have hstep : ∀ s a t,Shape s ∧ Kept s ∧ Woken s → True → step s a=.next t →
      Shape t ∧ Kept t ∧ Woken t := by
    intro s a t ⟨hs,hk,hw⟩ _ ha
    have hm := move_of_step ha
    obtain ⟨hg,hauthors⟩ := hk.family_move hs hm
    exact ⟨(step_shape hs).2.2 t ha,
      ⟨hk.ledger_move hs hm,hk.pids_move hs hm,hk.waiters_move hm,hg,hauthors⟩,
      ⟨hw.channel_move hm,hw.scanned_move hs hm,hw.parent_move hs hm,hw.awake_move hs hm,
        hw.quiet_move hs hm⟩⟩
  exact run_invariant hstep ⟨start_shape pid,start_kept pid,start_woken pid⟩
    (guarded_of_forall (fun _ _ => trivial) _ _) h

/-- What `exiting` recorded for an entry is what `waiting` has returned of it, once and in order,
and what the zombie holds that it may be; the calls that returned it were those of its author, or
of init after the author had exited; no step changes a zombie, but for the call of `waiting` of
its parent that returns it; and a process that sleeps in `waiting` while a child is a zombie is
about to be woken up by the process that holds the parents map. -/
theorem children_returned_once (pid : ℕ) (as : List Label) (s : System)
    (h : run step (start pid) as=.next s) :
    (∀ i,s.exits i=(s.returns i).map Return.exit++
      if s.state i=.zombie then [((s.table i).pid,(s.table i).exitStatus)] else []) ∧
    (∀ i,∀ r∈s.returns i,r.waiter=if r.orphan=true then 0 else r.author) ∧
    (∀ a t i,step s a=.next t →
      (t.returns i=s.returns i ∧ (s.state i=.zombie → t.table i=s.table i)) ∨
        s.state i=.zombie ∧ Returned s t i) ∧
    ∀ p j,s.state p=.sleeping → s.pc p=.waitAgain → s.parents j=some p → s.state j=.zombie →
      ∃ e,Exiting (s.pc e) ∧ s.parentsLock=some e := by
  obtain ⟨hs,hk,hw⟩ := run_kept h
  refine ⟨hk.ledger,hk.waiters,fun a t i ha => (move_of_step ha).intact hs i,
    fun p j hsleep hwait hpar hz => ?_⟩
  obtain ⟨-,e,pid',status,hpc⟩ := hw.quiet p j ⟨hsleep,hwait⟩ hpar hz
  refine ⟨e,?_,(hs.lock e).mpr ?_⟩
  · rw [hpc]
    trivial
  · rw [hpc]
    trivial

/-- A child exits with a status, and init waits for it. -/
def exitThenWait : List Label :=
  [.dispatch 0,.fork 0 1 2,.go 0 true false,.go 0 true false,.go 0 true false,.dispatch 1,
    .exit 1 7]++List.replicate (nproc+4) (.go 1 true false)++
    [.switched 1,.wait 0,.go 0 true false,.go 0 true false,.go 0 true false]

theorem children_returned_once_exitThenWait :
    ∃ s,run step (start 1) exitThenWait=.next s ∧ s.returns 1=[⟨0,0,false,2,7⟩] ∧
      s.exits 1=[(2,7)] := by
  obtain ⟨s,hs,htest⟩ := Outcome.exists_of_test (o:=run step (start 1) exitThenWait)
    (p:=fun s => s.returns 1==[⟨0,0,false,2,7⟩] && s.state 1==.unused) (by decide +kernel)
  rw [Bool.and_eq_true,beq_iff_eq,beq_iff_eq] at htest
  obtain ⟨hret,hst⟩ := htest
  refine ⟨s,hs,hret,?_⟩
  rw [(children_returned_once 1 exitThenWait s hs).1 1,hret,hst]
  rfl

end Runs

end Xv6Rust.ChildLedger

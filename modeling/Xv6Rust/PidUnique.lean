import Xv6Rust.ReadyQueue

/-!
# Uniqueness of process ids

`exiting` gives a pid back to the allocator while the zombie keeps carrying it
until a `waiting` parent cleans the entry. An `alloc_proc` between the two may
take that pid again. As long as none does, the pids of the entries in use are
distinct: the pids in circulation are those below the allocator's counter, and
an entry that has not exited never shares its pid with the recycled ones.
-/

namespace Xv6Rust.PidUnique

open Runs ProcTable ReadyQueue

/-- The entry is in use. -/
def Live (s : System) (i : ℕ) : Prop := (s.table i).state≠.unused

/-- No two entries in use carry the same pid. -/
def Unique (s : System) : Prop :=
  ∀ i j,Live s i → Live s j → (s.table i).pid=(s.table j).pid → i=j

/-- What ties the pids of the table to the allocator. -/
structure Inv (s : System) : Prop where
  /-- Entries in use are entries of the table. -/
  bound : ∀ i,Live s i → i<nproc
  /-- Pids in use have been handed out. -/
  pidLt : ∀ i,Live s i → (s.table i).pid < s.pids.current
  /-- Recycled pids have been handed out. -/
  recycledLt : ∀ p∈s.pids.recycled,p < s.pids.current
  /-- No pid is recycled twice. -/
  recycledNodup : s.pids.recycled.Nodup
  /-- Entries that have not exited keep their pid out of the recycled ones. -/
  apart : ∀ i,Live s i → (s.table i).state≠.zombie → (s.table i).pid∉s.pids.recycled
  /-- No two entries in use carry the same pid. -/
  unique : Unique s

theorem boot_inv : Inv boot := by
  constructor <;> simp [boot,Live,Unique,ProcExcl.clean]

/-- Changing the state of an entry in use, or emptying it, keeps the pids as they are. -/
theorem Inv.setEntry {s : System} (hs : Inv s) {i : ℕ} (hi : Live s i) {e : ProcExcl}
    (he : e.state=.unused ∨ e.pid=(s.table i).pid ∧ (s.table i).state≠.zombie) :
    Inv (s.setEntry i e) := by
  obtain ⟨hb,hlt,hrlt,hnd,hap,hu⟩ := hs
  unfold Live at *
  unfold Unique Live at hu
  constructor <;> dsimp only [System.setEntry,Live,Unique] <;> grind [Function.update_apply]

/-- `alloc_proc` takes a recycled pid that a zombie still carries. -/
def ReusesZombiePid (s : System) : Action → Prop
  | .forkAlloc _ _ _ => ∃ pid∈s.pids.recycled.head?,∃ i<nproc,
      (s.table i).state=.zombie ∧ (s.table i).pid=pid
  | _ => False

instance (s : System) : ∀ a,Decidable (ReusesZombiePid s a)
  | .forkAlloc _ _ _ => inferInstanceAs (Decidable (∃ pid∈s.pids.recycled.head?,∃ i<nproc,
      (s.table i).state=.zombie ∧ (s.table i).pid=pid))
  | .userInit | .fetch _ _ | .dispatch _ _ | .yielding _ _ | .sleep _ _ _ | .exiting _ _ _
  | .switched _ _ | .forkNoMemory _ _ | .forkUndo _ _ _ | .setParent _ _ _ | .forkReady _ _ _
  | .forkAdd _ _ _ | .wakeup _ _ | .kill _ _ _ | .waiting _ _ _ =>
    inferInstanceAs (Decidable False)

/-- The pid that `pid_alloc` returns leaves the pool and is carried by no entry, unless it was
recycled and a zombie still carries it. -/
theorem Inv.pidAlloc {s : System} (hs : Inv s)
    (hz : ∀ pid∈s.pids.recycled.head?,∀ i<nproc,(s.table i).state=.zombie → (s.table i).pid≠pid) :
    (∀ i,Live s i → (s.table i).pid≠s.pids.pidAlloc.1) ∧
      s.pids.pidAlloc.1 < s.pids.pidAlloc.2.current ∧
      s.pids.pidAlloc.1∉s.pids.pidAlloc.2.recycled := by
  unfold RecycleAllocator.pidAlloc
  cases hr : s.pids.recycled with
  | nil => exact ⟨fun i hi => Nat.ne_of_lt (hs.pidLt i hi),Nat.lt_succ_self _,by simp⟩
  | cons pid rest =>
    have hmem : pid∈s.pids.recycled := by rw [hr]; exact List.mem_cons_self
    refine ⟨fun i hi heq => ?_,hs.recycledLt pid hmem,?_⟩
    · by_cases hzi : (s.table i).state=.zombie
      · exact hz pid (by rw [hr]; rfl) i (hs.bound i hi) hzi heq
      · exact hs.apart i hi hzi (heq ▸ hmem)
    · exact (List.nodup_cons.mp (hr ▸ hs.recycledNodup)).1

/-- Whatever `pid_alloc` returns, the pids still in the pool keep their bounds. -/
theorem Inv.pidAlloc_pool {s : System} (hs : Inv s) :
    s.pids.current ≤ s.pids.pidAlloc.2.current ∧ s.pids.pidAlloc.2.recycled.Nodup ∧
      (∀ p∈s.pids.pidAlloc.2.recycled,p∈s.pids.recycled) := by
  unfold RecycleAllocator.pidAlloc
  cases hr : s.pids.recycled with
  | nil => simp
  | cons pid rest =>
    refine ⟨Nat.le_refl _,(List.nodup_cons.mp (hr ▸ hs.recycledNodup)).2,fun p hp => ?_⟩
    exact List.mem_cons_of_mem _ hp

/-- `alloc_proc` on a free entry with a pid that no entry carries. -/
theorem Inv.allocProc {s : System} (hs : Inv s) {i : ℕ} (hi : i<nproc)
    (hz : ∀ pid∈s.pids.recycled.head?,∀ i<nproc,(s.table i).state=.zombie → (s.table i).pid≠pid) :
    Inv (s.allocProc i) := by
  obtain ⟨hnew,hlt',hnot⟩ := hs.pidAlloc hz
  obtain ⟨hcur,hnd',hsub⟩ := hs.pidAlloc_pool
  obtain ⟨hb,hlt,hrlt,hnd,hap,hu⟩ := hs
  unfold Live at *
  unfold Unique Live at hu
  constructor <;> dsimp only [System.allocProc,System.setEntry,Live,Unique] <;>
    grind [Function.update_apply]

/-- An `exiting` that passes the assertions of `pid_dealloc` returns a pid that is in use. -/
theorem not_recycled_of_exiting {s : System} {c i : ℕ} {status : ℤ}
    (h : panics s (.exiting c i status)=none) : (s.table i).pid∉s.pids.recycled := by
  intro hmem
  simp only [panics,hmem,if_true] at h
  split at h
  · cases h
  · split at h
    · cases h
    · split at h <;> cases h

/-- `exiting` turns a running entry into a zombie and recycles its pid. -/
theorem Inv.exiting {s : System} (hs : Inv s) {c i : ℕ} {status : ℤ}
    (hrun : (s.table i).state=.running) (hnot : (s.table i).pid∉s.pids.recycled) : Inv (effect s (.exiting c i status)) := by
  obtain ⟨hb,hlt,hrlt,hnd,hap,hu⟩ := hs
  unfold Live at *
  unfold Unique Live at hu
  constructor <;>
    dsimp only [effect,System.sched,System.setEntry,Live,Unique,RecycleAllocator.pidDealloc] <;>
    grind [Function.update_apply]

/-- Every section that reuses no zombie's pid keeps the pids distinct. -/
theorem effect_inv {s : System} {a : Action} (hp : Placed s) (hs : Inv s)
    (ha : ¬ReusesZombiePid s a) (he : enabled s a) (hpanic : panics s a=none) :
    Inv (effect s a) := by
  cases a with
  | userInit =>
    obtain ⟨hcur,hu,-⟩ := he
    have hz : ∀ pid∈s.pids.recycled.head?,∀ i<nproc,(s.table i).state=.zombie →
        (s.table i).pid≠pid := by
      intro pid hpid
      have hlt := hs.recycledLt pid (List.mem_of_mem_head? hpid)
      omega
    have h := hs.allocProc (i:=0) (by decide) hz
    have hst : ((s.allocProc 0).table 0).state=.allocated := by
      simp [System.allocProc,System.setEntry]
    have h' := h.setEntry (i:=0) (e:={(s.allocProc 0).table 0 with state := .runnable})
      (by rw [Live,hst]; decide) (.inr ⟨rfl,by rw [hst]; decide⟩)
    exact {h' with}
  | fetch c i => exact {hs with}
  | dispatch c i =>
    have hst := (hp.fetched c i he.1).1
    have h := hs.setEntry (i:=i) (e:={s.table i with state := .running,channel := 0})
      (by rw [Live,hst]; decide) (.inr ⟨rfl,by rw [hst]; decide⟩)
    exact {h with}
  | yielding c i =>
    have hst := hp.running c i he.1
    have h := hs.setEntry (i:=i) (e:={s.table i with state := .runnable})
      (by rw [Live,hst]; decide) (.inr ⟨rfl,by rw [hst]; decide⟩)
    exact {h with}
  | sleep c i channel =>
    have hst := hp.running c i he.1
    have h := hs.setEntry (i:=i) (e:={s.table i with state := .sleeping,channel := channel})
      (by rw [Live,hst]; decide) (.inr ⟨rfl,by rw [hst]; decide⟩)
    exact {h with}
  | exiting c i status =>
    exact hs.exiting (hp.running c i he.1) (not_recycled_of_exiting hpanic)
  | switched c i => exact {hs with}
  | forkAlloc c p i =>
    have hz : ∀ pid∈s.pids.recycled.head?,∀ j<nproc,(s.table j).state=.zombie →
        (s.table j).pid≠pid :=
      fun pid hpid j hj hzj heq => ha ⟨pid,hpid,j,hj,hzj,heq⟩
    have h := hs.allocProc he.2.1 hz
    exact {h with}
  | forkNoMemory c p =>
    obtain ⟨hcur,hnd',hsub⟩ := hs.pidAlloc_pool
    exact ⟨hs.bound,fun i hi => Nat.lt_of_lt_of_le (hs.pidLt i hi) hcur,
      fun q hq => Nat.lt_of_lt_of_le (hs.recycledLt q (hsub q hq)) hcur,hnd',
      fun i hi hz hq => hs.apart i hi hz (hsub _ hq),hs.unique⟩
  | forkUndo c p i =>
    have hst := hp.copying i p he.2.1
    have h := hs.setEntry (i:=i) (e:=.clean) (by rw [Live,hst]; decide) (.inl rfl)
    exact {h with}
  | setParent c p i => exact {hs with}
  | forkReady c p i =>
    have hst := hp.parented i p he.2.1
    have h := hs.setEntry (i:=i) (e:={s.table i with state := .runnable})
      (by rw [Live,hst]; decide) (.inr ⟨rfl,by rw [hst]; decide⟩)
    exact {h with}
  | forkAdd c p i => exact {hs with}
  | wakeup i channel =>
    have hst := he.2.1
    have h := hs.setEntry (i:=i) (e:={s.table i with state := .runnable})
      (by rw [Live,hst]; decide) (.inr ⟨rfl,by rw [hst]; decide⟩)
    exact {h with}
  | kill c i pid =>
    dsimp only [effect]
    split
    · rename_i hst
      have h := hs.setEntry (i:=i) (e:={s.table i with state := .runnable})
        (by rw [Live,hst]; decide) (.inr ⟨rfl,by rw [hst]; decide⟩)
      exact {h with}
    · exact {hs with}
  | waiting c p i =>
    have hst := he.2.2.2
    have h := hs.setEntry (i:=i) (e:=.clean) (by rw [Live,hst]; decide) (.inl rfl)
    exact {h with}

/-- In every run in which `alloc_proc` never takes a recycled pid that an unreaped zombie still
carries, no two entries in use carry the same pid. -/
theorem pids_unique_without_reuse (actions : List Action) (t : System)
    (hg : Guarded step (fun s a => ¬ReusesZombiePid s a) boot actions)
    (hr : run step boot actions=.next t) : Unique t := by
  have hstep : ∀ s a u,Placed s ∧ Inv s → ¬ReusesZombiePid s a → step s a=.next u →
      Placed u ∧ Inv u := by
    intro s a u hs ha h
    obtain ⟨he,hpanic,rfl⟩ := step_eq_next h
    exact ⟨effect_placed hs.1 he,effect_inv hs.1 hs.2 ha he hpanic⟩
  exact (run_invariant hstep ⟨boot_placed,boot_inv⟩ hg hr).2.unique

/-- `fork` by the process on a CPU, up to its child being queued. -/
def forkActions (cpu parent slot : ℕ) : List Action :=
  [.forkAlloc cpu parent slot,.setParent cpu parent slot,.forkReady cpu parent slot,
    .forkAdd cpu parent slot]

/-- Init forks a child, which runs and exits on a second CPU. -/
def exitActions : List Action :=
  [.userInit,.fetch 0 0,.dispatch 0 0]++forkActions 0 0 1++
    [.fetch 1 1,.dispatch 1 1,.exiting 1 1 0,.switched 1 1]

/-- A child that is reaped before the next `fork` may pass on its pid. -/
theorem pids_unique_after_reaping :
    ∃ t,run step boot (exitActions++.waiting 0 0 1::forkActions 0 0 1)=.next t ∧
      (t.table 1).pid=1 ∧ Unique t :=
  ⟨_,rfl,rfl,pids_unique_without_reuse (exitActions++.waiting 0 0 1::forkActions 0 0 1) _
    (by decide +kernel) rfl⟩

/-- A `fork` between exit and reaping gives the zombie's pid to a second entry. -/
theorem pid_shared_with_zombie :
    ∃ t,run step boot (exitActions++forkActions 0 0 2)=.next t ∧
      (t.table 1).state=.zombie ∧ (t.table 2).state=.runnable ∧ ¬Unique t := by
  refine ⟨_,rfl,rfl,rfl,fun h => ?_⟩
  have h12 := h 1 2 nofun nofun rfl
  omega

end Xv6Rust.PidUnique

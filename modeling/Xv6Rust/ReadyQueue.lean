import Xv6Rust.ProcTable

/-!
# The ready queue and the process states

Every section keeps the queue free of repetitions and made of `RUNNABLE`
entries, keeps each running process on one CPU, and gives a process in the
middle of `sched` its lock. These facts need no assumption on the run. That
every `RUNNABLE` entry is queued, fetched by a scheduler or about to be queued
by its `fork` needs one: `kill` makes a sleeping entry `RUNNABLE` and does not
queue it.
-/

namespace Xv6Rust.ReadyQueue

open Runs ProcTable

/-- Where the sections leave the entries, the CPUs and the queue. -/
structure Placed (s : System) : Prop where
  /-- No entry is queued twice. -/
  nodup : s.queue.Nodup
  /-- Queued entries are `RUNNABLE`. -/
  queued : ∀ i∈s.queue,(s.table i).state=.runnable
  /-- A fetched entry is `RUNNABLE` and has left the queue. -/
  fetched : ∀ c i,s.cpus c=.fetched i → (s.table i).state=.runnable ∧ i∉s.queue
  /-- An entry is fetched by one CPU. -/
  fetchedOnce : ∀ c d i,s.cpus c=.fetched i → s.cpus d=.fetched i → c=d
  /-- A forked entry about to be queued is `RUNNABLE` and nowhere else. -/
  adding : ∀ i p,s.forks i=.adding p →
    (s.table i).state=.runnable ∧ i∉s.queue ∧ ∀ c,s.cpus c≠.fetched i
  /-- The process a CPU runs is `RUNNING`. -/
  running : ∀ c i,s.cpus c=.running i → (s.table i).state=.running
  /-- A process runs on one CPU. -/
  runningOnce : ∀ c d i,s.cpus c=.running i → s.cpus d=.running i → c=d
  /-- A lock held between two sections belongs to a process in `sched`. -/
  switching : ∀ c i,s.cpus c=.switching i ↔ s.lock i=some c
  /-- A process in `sched` has left the state `RUNNING`. -/
  switchingState : ∀ c i,s.cpus c=.switching i → (s.table i).state≠.running
  /-- A child under construction is `ALLOCATED`. -/
  copying : ∀ i p,s.forks i=.copying p → (s.table i).state=.allocated
  /-- A child whose parent is recorded is `ALLOCATED`. -/
  parented : ∀ i p,s.forks i=.parented p → (s.table i).state=.allocated

/-- Every `RUNNABLE` entry is queued, fetched or about to be queued. -/
def Accounted (s : System) : Prop :=
  ∀ i,(s.table i).state=.runnable → i∈s.queue ∨ (∃ c,s.cpus c=.fetched i) ∨ ∃ p,s.forks i=.adding p

theorem boot_placed : Placed boot := by
  constructor <;> simp [boot,ProcExcl.clean]

/-- An entry that is neither `RUNNABLE` nor `RUNNING` is not queued, not fetched, not run and
not about to be queued. -/
theorem Placed.nowhere {s : System} (hs : Placed s) {i : ℕ} (h : (s.table i).state≠.runnable)
    (h' : (s.table i).state≠.running) :
    i∉s.queue ∧ (∀ c,s.cpus c≠.fetched i) ∧ (∀ c,s.cpus c≠.running i) ∧
      ∀ p,s.forks i≠.adding p :=
  ⟨fun hq => h (hs.queued i hq),fun c hc => h (hs.fetched c i hc).1,
    fun c hc => h' (hs.running c i hc),fun p hp => h (hs.adding i p hp).1⟩

/-- An unlocked entry is not in `sched`. -/
theorem Placed.not_switching {s : System} (hs : Placed s) {i : ℕ} (hl : s.lock i=none) (c : ℕ) :
    s.cpus c≠.switching i := by
  intro hc
  rw [hs.switching,hl] at hc
  cases hc

/-- Giving an entry that is nowhere and unlocked a new state other than `RUNNING`, together with
the stage of its `fork`. -/
theorem Placed.setEntry {s : System} (hs : Placed s) {i : ℕ} (e : ProcExcl) (stage : ForkStage)
    (hrun : (s.table i).state≠.runnable) (hrun' : (s.table i).state≠.running)
    (hl : s.lock i=none) (he : e.state≠.running)
    (hcopy : ∀ p,stage=.copying p ∨ stage=.parented p → e.state=.allocated)
    (hadd : ∀ p,stage=.adding p → e.state=.runnable) :
    Placed {s.setEntry i e with forks := Function.update s.forks i stage} := by
  obtain ⟨hq,hf,hr,ha⟩ := hs.nowhere hrun hrun'
  have hsw := hs.not_switching hl
  obtain ⟨h1,h2,h3,h4,h5,h6,h7,h8,h9,h10,h11⟩ := hs
  constructor <;> dsimp only [System.setEntry] <;> grind [Function.update_apply]

/-- The same for an entry without a `fork` in progress, which stays so. -/
theorem Placed.setEntry_done {s : System} (hs : Placed s) {i : ℕ} (e : ProcExcl)
    (hrun : (s.table i).state≠.runnable) (hrun' : (s.table i).state≠.running)
    (halloc : (s.table i).state≠.allocated) (hl : s.lock i=none) (he : e.state≠.running) :
    Placed (s.setEntry i e) ∧ ∀ p,s.forks i≠.adding p := by
  have ha := (hs.nowhere hrun hrun').2.2.2
  refine ⟨?_,ha⟩
  have h := hs.setEntry e (s.forks i) hrun hrun' hl he
    (fun p hp => absurd (hp.elim (hs.copying i p) (hs.parented i p)) halloc)
    (fun p hp => absurd hp (ha p))
  rwa [Function.update_eq_self] at h

/-- Queueing a `RUNNABLE` entry that is not queued and not fetched. -/
theorem Placed.enqueue {s : System} (hs : Placed s) {i : ℕ}
    (hrun : (s.table i).state=.runnable) (hq : i∉s.queue) (hf : ∀ c,s.cpus c≠.fetched i)
    (hadd : ∀ p,s.forks i≠.adding p) : Placed {s with queue := s.queue++[i]} := by
  obtain ⟨h1,h2,h3,h4,h5,h6,h7,h8,h9,h10,h11⟩ := hs
  constructor <;> dsimp only <;> grind [List.nodup_append]

/-- The running process of a CPU calls `sched` with a new state. -/
theorem Placed.sched {s : System} (hs : Placed s) {c i : ℕ} (e : ProcExcl)
    (hc : s.cpus c=.running i) (hl : s.lock i=none) (he : e.state≠.running) :
    Placed (s.sched c i e) ∧ i∉(s.sched c i e).queue ∧ (∀ d,(s.sched c i e).cpus d≠.fetched i) ∧
      ∀ p,(s.sched c i e).forks i≠.adding p := by
  have hrun := hs.running c i hc
  have hsw := hs.not_switching hl
  have hq : i∉s.queue := fun h => by
    have := hs.queued i h
    rw [hrun] at this
    cases this
  have hf : ∀ d,s.cpus d≠.fetched i := fun d h => by
    have := (hs.fetched d i h).1
    rw [hrun] at this
    cases this
  have ha : ∀ p,s.forks i≠.adding p := fun p h => by
    have := (hs.adding i p h).1
    rw [hrun] at this
    cases this
  obtain ⟨h1,h2,h3,h4,h5,h6,h7,h8,h9,h10,h11⟩ := hs
  refine ⟨?_,hq,?_,ha⟩
  · constructor <;> dsimp only [System.sched,System.setEntry] <;> grind [Function.update_apply]
  · dsimp only [System.sched,System.setEntry]
    grind [Function.update_apply]

/-- The scheduler takes the head of the queue. -/
theorem fetch_placed {s : System} {c i : ℕ} (hs : Placed s) (he : enabled s (.fetch c i)) :
    Placed (effect s (.fetch c i)) := by
  obtain ⟨hc,hh⟩ := he
  obtain ⟨rest,hrest⟩ := List.head?_eq_some_iff.mp hh
  have htail : s.queue.tail=rest := by rw [hrest,List.tail_cons]
  have hmem : ∀ j,j∈s.queue ↔ j=i ∨ j∈rest := fun j => by rw [hrest,List.mem_cons]
  obtain ⟨hi,hr⟩ := List.nodup_cons.mp (hrest ▸ hs.nodup)
  obtain ⟨-,h2,h3,h4,h5,h6,h7,h8,h9,h10,h11⟩ := hs
  constructor <;> dsimp only [effect] <;> grind [Function.update_apply]

/-- The scheduler switches to the process it fetched. -/
theorem dispatch_placed {s : System} {c i : ℕ} (hs : Placed s) (he : enabled s (.dispatch c i)) :
    Placed (effect s (.dispatch c i)) := by
  obtain ⟨hc,hl⟩ := he
  have hsw := hs.not_switching hl
  obtain ⟨hrun,hq⟩ := hs.fetched c i hc
  obtain ⟨h1,h2,h3,h4,h5,h6,h7,h8,h9,h10,h11⟩ := hs
  constructor <;> dsimp only [effect,System.setEntry] <;> grind [Function.update_apply]

/-- The scheduler drops the lock of the process that left. -/
theorem switched_placed {s : System} {c i : ℕ} (hs : Placed s) (he : enabled s (.switched c i)) :
    Placed (effect s (.switched c i)) := by
  have hc : s.cpus c=.switching i := he
  have hl := (hs.switching c i).mp hc
  obtain ⟨h1,h2,h3,h4,h5,h6,h7,h8,h9,h10,h11⟩ := hs
  constructor <;> dsimp only [effect] <;> grind [Function.update_apply]

/-- Every section keeps the entries in their places. -/
theorem effect_placed {s : System} {a : Action} (hs : Placed s) (he : enabled s a) :
    Placed (effect s a) := by
  cases a with
  | userInit =>
    obtain ⟨-,hu,hl⟩ := he
    have hrun : (s.table 0).state≠.runnable := by rw [hu]; exact nofun
    have hrun' : (s.table 0).state≠.running := by rw [hu]; exact nofun
    obtain ⟨hq,hf,-,-⟩ := hs.nowhere hrun hrun'
    obtain ⟨h,ha⟩ := hs.setEntry_done {s.table 0 with state := .runnable,pid := s.pids.pidAlloc.1}
      hrun hrun' (by rw [hu]; exact nofun) hl nofun
    have hadd := h.enqueue (by simp [System.setEntry]) hq hf ha
    have heq : effect s .userInit={s.setEntry 0 {s.table 0 with
        state := .runnable,pid := s.pids.pidAlloc.1} with
          queue := s.queue++[0],pids := s.pids.pidAlloc.2} := by
      simp [effect,System.allocProc,System.setEntry]
    rw [heq]
    exact {hadd with}
  | fetch c i => exact fetch_placed hs he
  | dispatch c i => exact dispatch_placed hs he
  | yielding c i =>
    obtain ⟨h,hq,hf,ha⟩ := hs.sched {s.table i with state := .runnable} he.1 he.2 nofun
    exact h.enqueue (by simp [System.sched,System.setEntry]) hq hf ha
  | sleep c i channel =>
    exact (hs.sched {s.table i with state := .sleeping,channel := channel} he.1 he.2 nofun).1
  | exiting c i status =>
    obtain ⟨h,-⟩ := hs.sched {s.table i with state := .zombie,exitStatus := status} he.1 he.2 nofun
    exact {h with}
  | switched c i => exact switched_placed hs he
  | forkAlloc c p i =>
    obtain ⟨-,-,hu,hl⟩ := he
    have h := hs.setEntry {s.table i with state := .allocated,pid := s.pids.pidAlloc.1}
      (.copying p) (by rw [hu]; exact nofun) (by rw [hu]; exact nofun) hl nofun (fun _ _ => rfl)
      nofun
    exact {h with}
  | forkNoMemory c p => exact {hs with}
  | forkUndo c p i =>
    obtain ⟨-,hst,hl⟩ := he
    have hu := hs.copying i p hst
    have h := hs.setEntry .clean .done (by rw [hu]; exact nofun) (by rw [hu]; exact nofun) hl nofun
      nofun nofun
    exact {h with}
  | setParent c p i =>
    have hu := hs.copying i p he.2
    obtain ⟨h1,h2,h3,h4,h5,h6,h7,h8,h9,h10,h11⟩ := hs
    constructor <;> dsimp only [effect] <;> grind [Function.update_apply]
  | forkReady c p i =>
    obtain ⟨-,hst,hl⟩ := he
    have hu := hs.parented i p hst
    exact hs.setEntry _ (.adding p) (by rw [hu]; exact nofun) (by rw [hu]; exact nofun) hl nofun
      nofun (fun _ _ => rfl)
  | forkAdd c p i =>
    obtain ⟨hrun,hq,hf⟩ := hs.adding i p he.2
    obtain ⟨h1,h2,h3,h4,h5,h6,h7,h8,h9,h10,h11⟩ := hs
    constructor <;> dsimp only [effect] <;> grind [Function.update_apply,List.nodup_append]
  | wakeup i channel =>
    obtain ⟨hl,hu,-⟩ := he
    have hrun : (s.table i).state≠.runnable := by rw [hu]; exact nofun
    have hrun' : (s.table i).state≠.running := by rw [hu]; exact nofun
    obtain ⟨hq,hf,-,-⟩ := hs.nowhere hrun hrun'
    obtain ⟨h,ha⟩ := hs.setEntry_done {s.table i with state := .runnable} hrun hrun'
      (by rw [hu]; exact nofun) hl nofun
    exact h.enqueue (by simp [System.setEntry]) hq hf ha
  | kill c i pid =>
    obtain ⟨-,-,hl,-⟩ := he
    dsimp only [effect]
    split
    · rename_i hu
      obtain ⟨h,-⟩ := hs.setEntry_done {s.table i with state := .runnable} (by rw [hu]; exact nofun)
        (by rw [hu]; exact nofun) (by rw [hu]; exact nofun) hl nofun
      exact {h with}
    · exact {hs with}
  | waiting c p i =>
    obtain ⟨-,-,hl,hu⟩ := he
    obtain ⟨h,-⟩ := hs.setEntry_done .clean (by rw [hu]; exact nofun)
      (by rw [hu]; exact nofun) (by rw [hu]; exact nofun) hl nofun
    exact {h with}

/-- `kill` hits a sleeping entry. -/
def KillsSleeping (s : System) : Action → Prop
  | .kill _ slot _ => (s.table slot).state=.sleeping
  | _ => False

instance (s : System) : ∀ a,Decidable (KillsSleeping s a)
  | .kill _ slot _ => inferInstanceAs (Decidable ((s.table slot).state=.sleeping))
  | .userInit | .fetch _ _ | .dispatch _ _ | .yielding _ _ | .sleep _ _ _ | .exiting _ _ _
  | .switched _ _ | .forkAlloc _ _ _ | .forkNoMemory _ _ | .forkUndo _ _ _ | .setParent _ _ _
  | .forkReady _ _ _ | .forkAdd _ _ _ | .wakeup _ _ | .waiting _ _ _ =>
    inferInstanceAs (Decidable False)

/-- The step from `s` to `t` leaves the entry where it was. -/
@[mk_iff] structure Kept (s t : System) (i : ℕ) : Prop where
  /-- It was `RUNNABLE` before. -/
  state : (s.table i).state=.runnable
  /-- It stays queued. -/
  queue : i∈s.queue → i∈t.queue
  /-- It stays fetched. -/
  cpus : ∀ c,s.cpus c=.fetched i → t.cpus c=.fetched i
  /-- It stays about to be queued. -/
  forks : ∀ p,s.forks i=.adding p → t.forks i=.adding p

/-- Entries that are queued or left where they were stay accounted for. -/
theorem Accounted.of_kept {s t : System} (hs : Accounted s)
    (h : ∀ i,(t.table i).state=.runnable → i∈t.queue ∨ Kept s t i) : Accounted t := by
  intro i hi
  rcases h i hi with hq|hk
  · exact .inl hq
  · rcases hs i hk.state with hq|⟨c,hc⟩|⟨p,hp⟩
    · exact .inl (hk.queue hq)
    · exact .inr (.inl ⟨c,hk.cpus c hc⟩)
    · exact .inr (.inr ⟨p,hk.forks p hp⟩)

/-- A fetched entry stays accounted for. -/
theorem fetch_accounted {s : System} {c i : ℕ} (hs : Accounted s) (he : enabled s (.fetch c i)) :
    Accounted (effect s (.fetch c i)) := by
  obtain ⟨hc,hh⟩ := he
  obtain ⟨rest,hrest⟩ := List.head?_eq_some_iff.mp hh
  intro j hj
  dsimp only [effect] at hj ⊢
  rcases hs j hj with hq|⟨d,hd⟩|hp
  · rw [hrest] at hq ⊢
    rcases List.mem_cons.mp hq with rfl|hq
    · exact .inr (.inl ⟨c,Function.update_self ..⟩)
    · exact .inl hq
  · have hdc : d≠c := by
      rintro rfl
      rw [hc] at hd
      cases hd
    exact .inr (.inl ⟨d,by rw [Function.update_of_ne hdc]; exact hd⟩)
  · exact .inr (.inr hp)

/-- A child made `RUNNABLE` is about to be queued. -/
theorem forkReady_accounted {s : System} {c p i : ℕ} (hs : Accounted s) :
    Accounted (effect s (.forkReady c p i)) := by
  intro j hj
  dsimp only [effect,System.setEntry] at hj ⊢
  by_cases hji : j=i
  · rw [hji]
    exact .inr (.inr ⟨p,Function.update_self ..⟩)
  · rw [Function.update_of_ne hji] at hj ⊢
    exact hs j hj

/-- A section other than a `kill` of a sleeping entry accounts for what it makes `RUNNABLE`. -/
theorem effect_accounted {s : System} {a : Action} (hp : Placed s) (hs : Accounted s)
    (hk : ¬KillsSleeping s a) (he : enabled s a) : Accounted (effect s a) := by
  cases a with
  | fetch c i => exact fetch_accounted hs he
  | forkReady c p i => exact forkReady_accounted hs
  | kill c i pid =>
    have hk : ¬(s.table i).state=.sleeping := hk
    dsimp only [effect]
    rw [if_neg hk]
    exact hs
  | forkNoMemory c p => exact hs
  | switched c i =>
    refine hs.of_kept fun j hj => .inr ⟨hj,id,fun d hd => ?_,fun _ => id⟩
    have hc : s.cpus c=.switching i := he
    have hdc : d≠c := by
      rintro rfl
      rw [hc] at hd
      cases hd
    exact (Function.update_of_ne hdc ..).trans hd
  | _ =>
    refine hs.of_kept fun j hj => ?_
    dsimp only [enabled] at he
    dsimp only [effect,System.sched,System.setEntry,System.allocProc,ProcExcl.clean] at hj ⊢
    rw [kept_iff]
    obtain ⟨h1,h2,h3,h4,h5,h6,h7,h8,h9,h10,h11⟩ := hp
    grind [Function.update_apply]

/-- No scheduler is between fetching a process and running it, and no `fork` is between making its
child `RUNNABLE` and queueing it. -/
def Settled (s : System) : Prop :=
  (∀ c i,s.cpus c≠.fetched i) ∧ ∀ i p,s.forks i≠.adding p

/-- The queue holds the `RUNNABLE` processes, each once, and no process is the current process of
two CPUs. -/
def Agree (s : System) : Prop :=
  (∀ i,(s.table i).state=.runnable ↔ i∈s.queue) ∧ (∀ i∈s.queue,s.queue.count i=1) ∧
    ∀ c d i,(s.cpus c).process=some i → (s.cpus d).process=some i → c=d

/-- In a settled state no process is the current process of two CPUs. -/
theorem Placed.current_unique {s : System} (hs : Placed s) (hf : ∀ c i,s.cpus c≠.fetched i)
    {c d i : ℕ} (hc : (s.cpus c).process=some i) (hd : (s.cpus d).process=some i) : c=d := by
  cases hpc : s.cpus c with
  | idle => rw [hpc] at hc; cases hc
  | fetched j => exact absurd hpc (hf c j)
  | running j =>
    rw [hpc] at hc
    cases hc
    cases hpd : s.cpus d with
    | idle => rw [hpd] at hd; cases hd
    | fetched j => exact absurd hpd (hf d j)
    | running j => rw [hpd] at hd; cases hd; exact hs.runningOnce c d i hpc hpd
    | switching j =>
      rw [hpd] at hd
      cases hd
      exact absurd (hs.running c i hpc) (hs.switchingState d i hpd)
  | switching j =>
    rw [hpc] at hc
    cases hc
    cases hpd : s.cpus d with
    | idle => rw [hpd] at hd; cases hd
    | fetched j => exact absurd hpd (hf d j)
    | running j =>
      rw [hpd] at hd
      cases hd
      exact absurd (hs.running d i hpd) (hs.switchingState c i hpc)
    | switching j =>
      rw [hpd] at hd
      cases hd
      have h := (hs.switching c i).mp hpc
      rw [(hs.switching d i).mp hpd] at h
      exact (Option.some.inj h).symm

/-- In a settled state with every `RUNNABLE` entry accounted for, queue and states agree. -/
theorem agree_of_settled {s : System} (hs : Placed s) (ha : Accounted s) (hst : Settled s) :
    Agree s := by
  refine ⟨fun i => ⟨fun hi => ?_,hs.queued i⟩,fun i hi => ?_,
    fun c d i hc hd => hs.current_unique hst.1 hc hd⟩
  · rcases ha i hi with hq|⟨c,hc⟩|⟨p,hp⟩
    · exact hq
    · exact absurd hc (hst.1 c i)
    · exact absurd hp (hst.2 i p)
  · exact List.count_eq_one_of_mem hs.nodup hi

/-- In every run, on any number of CPUs, in which no `kill` hits a sleeping process, the ready
queue and the process states agree in every settled state. -/
theorem queue_agrees_off_kill (actions : List Action) (t : System)
    (hg : Guarded step (fun s a => ¬KillsSleeping s a) boot actions)
    (hr : run step boot actions=.next t) (hst : Settled t) : Agree t := by
  have hstep : ∀ s a u,Placed s ∧ Accounted s → ¬KillsSleeping s a → step s a=.next u →
      Placed u ∧ Accounted u := by
    intro s a u hs hk h
    obtain ⟨he,-,rfl⟩ := step_eq_next h
    exact ⟨effect_placed hs.1 he,effect_accounted hs.1 hs.2 hk he⟩
  have hboot : Accounted boot := fun i hi => nomatch hi
  have hinv := run_invariant hstep ⟨boot_placed,hboot⟩ hg hr
  exact agree_of_settled hinv.1 hinv.2 hst

/-- Two CPUs fork, yield, sleep, wake and kill a running process. -/
def busyRun : List Action :=
  [.userInit,.fetch 0 0,.dispatch 0 0,.forkAlloc 0 0 1,.setParent 0 0 1,.forkReady 0 0 1,
    .forkAdd 0 0 1,.fetch 1 1,.dispatch 1 1,.kill 1 0 0,.yielding 0 0,.sleep 1 1 7,.switched 1 1,
    .switched 0 0,.wakeup 1 7]

/-- After that run both processes are queued, once each. -/
theorem queue_agrees_busyRun :
    ∃ t,run step boot busyRun=.next t ∧ Settled t ∧ Agree t ∧ t.queue=[0,1] := by
  have hst : ∀ t,run step boot busyRun=.next t → Settled t := by
    rintro t ⟨⟩
    refine ⟨fun c i h => ?_,fun i p h => ?_⟩
    · match c with
      | 0 => cases h
      | 1 => cases h
      | c+2 => cases h
    · match i with
      | 0 => cases h
      | 1 => cases h
      | i+2 => cases h
  exact ⟨_,rfl,hst _ rfl,queue_agrees_off_kill busyRun _ (by decide +kernel) rfl (hst _ rfl),rfl⟩

/-- A parent kills its sleeping child. -/
def killRun : List Action :=
  [.userInit,.fetch 0 0,.dispatch 0 0,.forkAlloc 0 0 1,.setParent 0 0 1,.forkReady 0 0 1,
    .forkAdd 0 0 1,.fetch 1 1,.dispatch 1 1,.sleep 1 1 7,.switched 1 1,.kill 0 1 1]

/-- The killed child is `RUNNABLE` and in no queue. -/
theorem kill_strands_sleeping :
    ∃ t,run step boot killRun=.next t ∧ Settled t ∧ (t.table 1).state=.runnable ∧ t.queue=[] ∧
      ¬Agree t := by
  have hst : ∀ t,run step boot killRun=.next t → Settled t := by
    rintro t ⟨⟩
    refine ⟨fun c i h => ?_,fun i p h => ?_⟩
    · match c with
      | 0 => cases h
      | 1 => cases h
      | c+2 => cases h
    · match i with
      | 0 => cases h
      | 1 => cases h
      | i+2 => cases h
  refine ⟨_,rfl,hst _ rfl,rfl,rfl,fun h => ?_⟩
  exact absurd ((h.1 1).mp rfl) List.not_mem_nil

end Xv6Rust.ReadyQueue

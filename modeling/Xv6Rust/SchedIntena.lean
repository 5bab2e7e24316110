import Xv6Rust.Runs

/-!
# Interrupt state across `sched`

The interrupt bookkeeping of `process/cpu.rs`: every CPU counts its `push_off`
nesting and remembers whether interrupts were on below it. A process that calls
`sched` keeps a frame with the CPU it called from and the value it read there;
when a scheduler resumes it, possibly on another CPU, the frame is written back
to the CPU of the call. A run names the steps of all CPUs in their order.
Kernel code that holds no lock may turn interrupts on and off, as trap entry
and exit do.
-/

namespace Xv6Rust.SchedIntena

open Runs

/-- What a CPU executes. -/
inductive Phase where
  /-- The scheduler loop, without a lock. -/
  | scheduling
  /-- The scheduler holds the lock of a process it is about to switch to. -/
  | dispatching (proc : ℕ)
  /-- The process in the kernel or in user mode. -/
  | process (proc : ℕ)
  /-- Back in the scheduler, which still holds the lock the process took. -/
  | releasing (proc : ℕ)
  deriving DecidableEq

/-- The fields of `Cpu` that `push_off` and `pop_off` use, and `sstatus.SIE`. -/
structure Cpu where
  /-- Depth of `push_off` nesting, a `u8`. -/
  noff : ℕ
  /-- Whether interrupts were on below the outermost `push_off`. -/
  intena : Bool
  /-- Whether interrupts are on. -/
  sie : Bool
  /-- The code that runs. -/
  phase : Phase
  deriving DecidableEq

/-- The suspended frame of a `sched` call. -/
structure Frame where
  /-- `self`, the CPU that called. -/
  cpu : ℕ
  /-- The local variable `intena`. -/
  intena : Bool
  deriving DecidableEq

/-- Where a process is. -/
inductive Place where
  /-- Never scheduled; it will start in `fork_ret`. -/
  | fresh
  /-- On a CPU. -/
  | active
  /-- In the middle of `sched`. -/
  | suspended (frame : Frame)
  deriving DecidableEq

/-- All CPUs and processes. -/
structure System where
  /-- The CPUs. -/
  cpus : ℕ → Cpu
  /-- The processes. -/
  places : ℕ → Place
  /-- The process is on a CPU or its lock is held by a scheduler. -/
  held : ℕ → Bool
  /-- Whether interrupts were on when the process took its first lock. -/
  before : ℕ → Bool

/-- Panics of `push_off`, `pop_off` and `sched`. -/
inductive Panic where
  /-- The `u8` counter overflows. -/
  | noffOverflow
  /-- `pop_off(): interruptable`. -/
  | popInterruptible
  /-- `pop_off(): count not match`. -/
  | countNotMatch
  /-- `sched(): cpu hold multi locks`. -/
  | multiLocks
  /-- `sched(): interruptible`. -/
  | schedInterruptible
  deriving DecidableEq

/-- `push_off`. -/
def Cpu.pushOff (c : Cpu) : Except Panic Cpu :=
  if c.noff=255 then .error .noffOverflow
  else .ok {c with
    sie := false
    intena := if c.noff=0 then c.sie else c.intena
    noff := c.noff+1}

/-- `pop_off`. -/
def Cpu.popOff (c : Cpu) : Except Panic Cpu :=
  if c.sie=true then .error .popInterruptible
  else if c.noff=0 then .error .countNotMatch
  else .ok {c with
    noff := c.noff-1
    sie := c.noff=1 && c.intena}

/-- The scheduler loop up to holding the lock of a fetched process: interrupts on, the lock of the
ready queue taken and dropped, the lock of the process taken. -/
def Cpu.pick (c : Cpu) : Except Panic Cpu := do
  let c := {c with sie := true}
  let c ← c.pushOff
  let c ← c.popOff
  c.pushOff

/-- The checks of `sched` before the switch. -/
def Cpu.schedChecks (c : Cpu) : Except Panic Unit :=
  if c.noff≠1 then .error .multiLocks
  else if c.sie=true then .error .schedInterruptible
  else .ok ()

/-- The steps of the CPUs. -/
inductive Action where
  /-- Code without locks turns interrupts on or off. -/
  | setSie (cpu : ℕ) (on : Bool)
  /-- The process takes a spin lock. -/
  | pushOff (cpu : ℕ)
  /-- The process drops a spin lock. -/
  | popOff (cpu : ℕ)
  /-- The process calls `sched` and control passes to the scheduler. -/
  | sched (cpu : ℕ)
  /-- The scheduler drops the lock of the process that left. -/
  | release (cpu : ℕ)
  /-- The scheduler takes a process from the queue and locks it. -/
  | pick (cpu proc : ℕ)
  /-- The scheduler switches to a process for the first time. -/
  | start (cpu proc : ℕ)
  /-- The scheduler switches to a suspended process and its `sched` returns. -/
  | resume (cpu proc : ℕ)
  deriving DecidableEq

/-- Replace one CPU. -/
def System.setCpu (s : System) (c : ℕ) (cpu : Cpu) : System :=
  {s with cpus := Function.update s.cpus c cpu}

/-- Continue with the result of a CPU operation, or stop with its panic. -/
def onCpu (result : Except Panic Cpu) (next : Cpu → System) : Outcome Panic System :=
  match result with
  | .error e => .fault e
  | .ok cpu => .next (next cpu)

/-- One step. -/
def step (s : System) : Action → Outcome Panic System
  | .setSie c on =>
    match (s.cpus c).phase with
    | .process _ =>
      if (s.cpus c).noff=0 then .next (s.setCpu c {s.cpus c with sie := on}) else .blocked
    | _ => .blocked
  | .pushOff c =>
    match (s.cpus c).phase with
    | .process p => onCpu (s.cpus c).pushOff fun cpu =>
      {s.setCpu c cpu with
        before := if (s.cpus c).noff=0 then Function.update s.before p (s.cpus c).sie
          else s.before}
    | _ => .blocked
  | .popOff c =>
    match (s.cpus c).phase with
    | .process _ => onCpu (s.cpus c).popOff fun cpu => s.setCpu c cpu
    | _ => .blocked
  | .sched c =>
    match (s.cpus c).phase with
    | .process p =>
      match (s.cpus c).schedChecks with
      | .error e => .fault e
      | .ok () => .next {s.setCpu c {s.cpus c with phase := .releasing p} with
          places := Function.update s.places p (.suspended ⟨c,(s.cpus c).intena⟩)}
    | _ => .blocked
  | .release c =>
    match (s.cpus c).phase with
    | .releasing p => onCpu (s.cpus c).popOff fun cpu =>
      {s.setCpu c {cpu with phase := .scheduling} with held := Function.update s.held p false}
    | _ => .blocked
  | .pick c p =>
    if (s.cpus c).phase=.scheduling ∧ s.held p=false then
      onCpu (s.cpus c).pick fun cpu =>
        {s.setCpu c {cpu with phase := .dispatching p} with held := Function.update s.held p true}
    else .blocked
  | .start c p =>
    if (s.cpus c).phase=.dispatching p ∧ s.places p=.fresh then
      -- The new process holds the lock its scheduler took with interrupts on.
      .next {s.setCpu c {s.cpus c with phase := .process p} with
        places := Function.update s.places p .active
        before := Function.update s.before p true}
    else .blocked
  | .resume c p =>
    match s.places p with
    | .suspended frame =>
      if (s.cpus c).phase=.dispatching p then
        let t := s.setCpu c {s.cpus c with phase := .process p}
        -- `self` is the CPU of the call, not the CPU that runs the process now.
        .next {t.setCpu frame.cpu {t.cpus frame.cpu with intena := frame.intena} with
          places := Function.update s.places p .active}
      else .blocked
    | _ => .blocked

/-- All CPUs enter their scheduler; no process has run. -/
def boot : System :=
  ⟨fun _ => ⟨0,false,false,.scheduling⟩,fun _ => .fresh,fun _ => false,fun _ => false⟩

/-- The process a CPU runs, enters or leaves. -/
def Phase.owner : Phase → Option ℕ
  | .scheduling => none
  | .dispatching p => some p
  | .process p => some p
  | .releasing p => some p

@[simp] theorem owner_dispatching (p : ℕ) : (Phase.dispatching p).owner=some p := rfl

@[simp] theorem owner_process (p : ℕ) : (Phase.process p).owner=some p := rfl

@[simp] theorem owner_releasing (p : ℕ) : (Phase.releasing p).owner=some p := rfl

/-- Processes are on one CPU at a time, and a CPU's counter fits what it executes. -/
structure Sound (s : System) : Prop where
  /-- A process on a CPU is held. -/
  held : ∀ c p,(s.cpus c).phase.owner=some p → s.held p=true
  /-- A process is on one CPU. -/
  owner : ∀ c d p,(s.cpus c).phase.owner=some p → (s.cpus d).phase.owner=some p → c=d
  /-- A running process is active. -/
  active : ∀ c p,(s.cpus c).phase=.process p → s.places p=.active
  /-- The scheduler loop holds no lock. -/
  scheduling : ∀ c,(s.cpus c).phase=.scheduling → (s.cpus c).noff=0
  /-- The scheduler switches with one lock and with interrupts off. -/
  dispatching : ∀ c p,(s.cpus c).phase=.dispatching p → (s.cpus c).noff=1 ∧ (s.cpus c).sie=false
  /-- A process leaves with one lock and with interrupts off. -/
  releasing : ∀ c p,(s.cpus c).phase=.releasing p → (s.cpus c).noff=1 ∧ (s.cpus c).sie=false

/-- The interrupt state below the locks of a process is kept in `intena` while it runs and in its
frame while it is suspended. -/
structure Remembered (s : System) : Prop where
  /-- A running process with a lock. -/
  locked : ∀ c p,(s.cpus c).phase=.process p → (s.cpus c).noff≠0 →
    (s.cpus c).intena=s.before p
  /-- A process about to start holds the lock its scheduler took with interrupts on. -/
  entering : ∀ c p,(s.cpus c).phase=.dispatching p → (s.cpus c).intena=true
  /-- A suspended process. -/
  suspended : ∀ p frame,s.places p=.suspended frame → frame.intena=s.before p

/-- The return of `sched` on the CPU of the call, or while both CPUs agree with the frame. -/
def Undisturbed (s : System) : Action → Prop
  | .resume c p =>
    match s.places p with
    | .suspended frame =>
      c=frame.cpu ∨ (s.cpus c).intena=frame.intena ∧ (s.cpus frame.cpu).intena=frame.intena
    | _ => True
  | _ => True

instance (s : System) (a : Action) : Decidable (Undisturbed s a) := by
  unfold Undisturbed
  split
  · split <;> infer_instance
  · infer_instance

/-- When `sched` returns on a CPU, that CPU's `intena` is the one of the call and no other CPU's
`intena` changes. -/
def Restores (s : System) : Action → Prop
  | .resume c p => ∀ frame t,s.places p=.suspended frame → step s (.resume c p)=.next t →
      (t.cpus c).intena=frame.intena ∧ ∀ d,d≠c → (t.cpus d).intena=(s.cpus d).intena
  | _ => True

/-- What the return of `sched` does. -/
theorem step_resume {s t : System} {c p : ℕ} (h : step s (.resume c p)=.next t) :
    ∃ frame,s.places p=.suspended frame ∧ (s.cpus c).phase=.dispatching p ∧
      t={s with
        cpus := fun d => {s.cpus d with
          phase := if d=c then .process p else (s.cpus d).phase
          intena := if d=frame.cpu then frame.intena else (s.cpus d).intena}
        places := Function.update s.places p .active} := by
  simp only [step] at h
  split at h
  · rename_i frame hf
    split at h
    · rename_i hc
      cases h
      refine ⟨frame,hf,hc,?_⟩
      simp only [System.setCpu,System.mk.injEq,and_true]
      funext d
      simp only [Function.update_apply]
      split <;> split <;> simp_all
    · cases h
  · cases h

/-- The return of `sched` is right exactly when it is undisturbed. -/
theorem restores_iff_undisturbed {s t : System} {a : Action} (h : step s a=.next t) :
    Restores s a ↔ Undisturbed s a := by
  cases a with
  | resume c p =>
    obtain ⟨frame,hf,hc,rfl⟩ := step_resume h
    simp only [Restores,Undisturbed,hf]
    constructor
    · intro hres
      obtain ⟨hown,hother⟩ := hres frame _ rfl h
      by_cases hcf : c=frame.cpu
      · exact .inl hcf
      · refine .inr ⟨?_,?_⟩
        · simpa [hcf] using hown
        · simpa using (hother frame.cpu (Ne.symm hcf)).symm
    · rintro hund frame' t' ⟨⟩ ht'
      rw [h] at ht'
      cases ht'
      refine ⟨?_,fun d hd => ?_⟩
      · dsimp only
        split
        · rfl
        · rename_i hcf
          exact (hund.resolve_left hcf).1
      · dsimp only
        split
        · rename_i hdf
          subst hdf
          exact ((hund.resolve_left (Ne.symm hd)).2).symm
        · rfl
  | _ => exact Iff.rfl

/-- `push_off` that returns. -/
theorem pushOff_eq_ok {c d : Cpu} (h : c.pushOff=.ok d) :
    d={c with
      sie := false
      intena := if c.noff=0 then c.sie else c.intena
      noff := c.noff+1} := by
  unfold Cpu.pushOff at h
  split at h
  · cases h
  · cases h
    rfl

/-- `pop_off` that returns. -/
theorem popOff_eq_ok {c d : Cpu} (h : c.popOff=.ok d) :
    c.noff≠0 ∧ d={c with noff := c.noff-1,sie := c.noff=1 && c.intena} := by
  unfold Cpu.popOff at h
  split at h
  · cases h
  · split at h
    · cases h
    · rename_i hn
      cases h
      exact ⟨hn,rfl⟩

/-- The scheduler takes the lock of a process with interrupts on. -/
theorem pick_eq_ok {c d : Cpu} (hn : c.noff=0) (h : c.pick=.ok d) :
    d={c with noff := 1,sie := false,intena := true} := by
  simp [Cpu.pick,Cpu.pushOff,Cpu.popOff,hn,bind,Except.bind] at h
  exact h.symm

/-- A CPU operation that returns. -/
theorem onCpu_eq_next {result : Except Panic Cpu} {next : Cpu → System} {t : System}
    (h : onCpu result next=.next t) : ∃ cpu,result=.ok cpu ∧ t=next cpu := by
  unfold onCpu at h
  split at h
  · cases h
  · cases h
    exact ⟨_,rfl,rfl⟩

/-- Both invariants. -/
structure Inv (s : System) : Prop extends Sound s,Remembered s

/-- A process on a CPU is on no other one. -/
theorem Sound.alone {s : System} (hs : Sound s) {c p : ℕ} (hc : (s.cpus c).phase.owner=some p)
    (d : ℕ) (hd : (s.cpus d).phase.owner=some p) : d=c :=
  hs.owner d c p hd hc

/-- Code without locks changes the interrupt enable. -/
theorem setSie_inv {s t : System} {c : ℕ} {on : Bool} (hs : Inv s)
    (h : step s (.setSie c on)=.next t) : Inv t := by
  obtain ⟨⟨h1,h2,h3,h4,h5,h6⟩,⟨h7,h8,h9⟩⟩ := hs
  simp only [step] at h
  split at h
  · rename_i p hc
    split at h
    · rename_i hn
      cases h
      constructor <;> constructor <;> dsimp only [System.setCpu] <;> grind [Function.update_apply]
    · cases h
  · cases h

/-- The first lock a process takes records the interrupt state, later ones do not. -/
theorem pushOff_inv {s t : System} {c : ℕ} (hs : Inv s) (h : step s (.pushOff c)=.next t) :
    Inv t := by
  simp only [step] at h
  split at h
  · rename_i p hc
    obtain ⟨cpu,hcpu,rfl⟩ := onCpu_eq_next h
    obtain rfl := pushOff_eq_ok hcpu
    clear h hcpu
    have halone : ∀ d,(s.cpus d).phase=.process p → d=c := fun d hd =>
      hs.alone (by rw [hc]; rfl) d (by rw [hd]; rfl)
    obtain ⟨⟨h1,h2,h3,h4,h5,h6⟩,⟨h7,h8,h9⟩⟩ := hs
    constructor <;> constructor <;> dsimp only [System.setCpu] <;> grind [Function.update_apply]
  · cases h

/-- Dropping a lock keeps what is remembered for the locks below it. -/
theorem popOff_inv {s t : System} {c : ℕ} (hs : Inv s) (h : step s (.popOff c)=.next t) :
    Inv t := by
  simp only [step] at h
  split at h
  · rename_i p hc
    obtain ⟨cpu,hcpu,rfl⟩ := onCpu_eq_next h
    obtain ⟨hn,rfl⟩ := popOff_eq_ok hcpu
    clear h hcpu
    obtain ⟨⟨h1,h2,h3,h4,h5,h6⟩,⟨h7,h8,h9⟩⟩ := hs
    constructor <;> constructor <;> dsimp only [System.setCpu] <;> grind [Function.update_apply]
  · cases h

/-- `sched` moves what is remembered from the CPU to the frame. -/
theorem sched_inv {s t : System} {c : ℕ} (hs : Inv s) (h : step s (.sched c)=.next t) :
    Inv t := by
  simp only [step] at h
  split at h
  · rename_i p hc
    split at h
    · cases h
    · rename_i hchk
      cases h
      unfold Cpu.schedChecks at hchk
      obtain ⟨⟨h1,h2,h3,h4,h5,h6⟩,⟨h7,h8,h9⟩⟩ := hs
      constructor <;> constructor <;> dsimp only [System.setCpu] <;>
        grind [Function.update_apply,owner_process,owner_releasing]
  · cases h

/-- The scheduler drops the lock of a suspended process. -/
theorem release_inv {s t : System} {c : ℕ} (hs : Inv s) (h : step s (.release c)=.next t) :
    Inv t := by
  simp only [step] at h
  split at h
  · rename_i p hc
    obtain ⟨cpu,hcpu,rfl⟩ := onCpu_eq_next h
    obtain ⟨hn,rfl⟩ := popOff_eq_ok hcpu
    clear h hcpu
    have halone := hs.alone (c:=c) (p:=p) (by rw [hc]; rfl)
    obtain ⟨⟨h1,h2,h3,h4,h5,h6⟩,⟨h7,h8,h9⟩⟩ := hs
    constructor <;> constructor <;> dsimp only [System.setCpu] <;>
      grind [Function.update_apply,Phase.owner]
  · cases h

/-- The scheduler takes the lock of a process nobody holds. -/
theorem pick_inv {s t : System} {c p : ℕ} (hs : Inv s) (h : step s (.pick c p)=.next t) :
    Inv t := by
  simp only [step] at h
  split at h
  · rename_i hc
    obtain ⟨cpu,hcpu,rfl⟩ := onCpu_eq_next h
    obtain rfl := pick_eq_ok (hs.scheduling c hc.1) hcpu
    clear h hcpu
    obtain ⟨⟨h1,h2,h3,h4,h5,h6⟩,⟨h7,h8,h9⟩⟩ := hs
    constructor <;> constructor <;> dsimp only [System.setCpu] <;>
      grind [Function.update_apply,owner_dispatching]
  · cases h

/-- A new process starts under the lock its scheduler took. -/
theorem start_inv {s t : System} {c p : ℕ} (hs : Inv s) (h : step s (.start c p)=.next t) :
    Inv t := by
  simp only [step] at h
  split at h
  · rename_i hc
    cases h
    obtain ⟨⟨h1,h2,h3,h4,h5,h6⟩,⟨h7,h8,h9⟩⟩ := hs
    constructor <;> constructor <;> dsimp only [System.setCpu] <;>
      grind [Function.update_apply,owner_dispatching,owner_process]
  · cases h

/-- An undisturbed return of `sched` moves what is remembered from the frame to the CPU. -/
theorem resume_inv {s t : System} {c p : ℕ} (hs : Inv s) (hu : Undisturbed s (.resume c p))
    (h : step s (.resume c p)=.next t) : Inv t := by
  obtain ⟨frame,hf,hc,rfl⟩ := step_resume h
  simp only [Undisturbed,hf] at hu
  clear h
  obtain ⟨⟨h1,h2,h3,h4,h5,h6⟩,⟨h7,h8,h9⟩⟩ := hs
  constructor <;> constructor <;> dsimp only <;>
    grind [Function.update_apply,owner_dispatching,owner_process]

/-- Every undisturbed step keeps both invariants. -/
theorem step_inv (s : System) (a : Action) (t : System) (hs : Inv s) (hu : Undisturbed s a)
    (h : step s a=.next t) : Inv t := by
  cases a with
  | setSie c on => exact setSie_inv hs h
  | pushOff c => exact pushOff_inv hs h
  | popOff c => exact popOff_inv hs h
  | sched c => exact sched_inv hs h
  | release c => exact release_inv hs h
  | pick c p => exact pick_inv hs h
  | start c p => exact start_inv hs h
  | resume c p => exact resume_inv hs hu h

theorem boot_inv : Inv boot := by
  constructor <;> constructor <;> simp [boot,Phase.owner]

/-- The last lock a process drops restores the interrupt state of its first one. -/
theorem popOff_restores {s t : System} {c p : ℕ} (hs : Inv s) (hc : (s.cpus c).phase=.process p)
    (h : step s (.popOff c)=.next t) (hn : (t.cpus c).noff=0) : (t.cpus c).sie=s.before p := by
  simp only [step,hc] at h
  obtain ⟨cpu,hcpu,rfl⟩ := onCpu_eq_next h
  obtain ⟨hn0,rfl⟩ := popOff_eq_ok hcpu
  simp only [System.setCpu,Function.update_self] at hn ⊢
  have h1 : (s.cpus c).noff=1 := by omega
  simp [h1,hs.locked c p hc hn0]

/-- In every run the returns of `sched` all restore `intena` on the CPU they return on, and on no
other, exactly when they are all undisturbed; and then interrupts are on after a process drops its
last lock exactly when they were on before it took its first. -/
theorem intena_follows_iff_undisturbed (actions : List Action) (t : System)
    (hr : run step boot actions=.next t) :
    (Guarded step Restores boot actions ↔ Guarded step Undisturbed boot actions) ∧
      (Guarded step Undisturbed boot actions → ∀ c p u,(t.cpus c).phase=.process p →
        step t (.popOff c)=.next u → (u.cpus c).noff=0 → (u.cpus c).sie=t.before p) := by
  refine ⟨guarded_congr (fun s a u h => restores_iff_undisturbed h) hr,fun hg c p u hc h hn => ?_⟩
  exact popOff_restores (run_invariant step_inv boot_inv hg hr) hc h hn

/-- A process calls `sched` with interrupts on below its lock and returns on the second CPU. -/
def migration : List Action :=
  [.pick 0 0,.start 0 0,.popOff 0,.pushOff 0,.sched 0,.release 0,.pick 1 0,.resume 1 0]

/-- Migration with interrupts on is undisturbed. -/
theorem intena_follows_migration :
    ∃ t,run step boot migration=.next t ∧ Guarded step Restores boot migration ∧
      ∀ u,step t (.popOff 1)=.next u → (u.cpus 1).noff=0 → (u.cpus 1).sie=t.before 0 := by
  have hg : Guarded step Undisturbed boot migration := by decide +kernel
  have h := intena_follows_iff_undisturbed migration _ rfl
  exact ⟨_,rfl,h.1.mpr hg,fun u => h.2 hg 1 0 u rfl⟩

/-- A process is interrupted, yields with interrupts off and returns on the second CPU. -/
def interrupted : List Action :=
  [.pick 0 0,.start 0 0,.popOff 0,.setSie 0 false,.pushOff 0,.sched 0,.release 0,.pick 1 0]

/-- The second CPU keeps its scheduler's `intena`, and dropping the process's only lock turns
interrupts on although they were off when it was taken. -/
theorem intena_lost_by_migration :
    ∃ s t u,run step boot interrupted=.next s ∧ step s (.resume 1 0)=.next t ∧
      ¬Restores s (.resume 1 0) ∧ step t (.popOff 1)=.next u ∧ (u.cpus 1).noff=0 ∧
      (u.cpus 1).sie=true ∧ t.before 0=false := by
  refine ⟨_,_,_,rfl,rfl,fun h => ?_,rfl,rfl,rfl,rfl⟩
  have hown := (h ⟨0,false⟩ _ rfl rfl).1
  cases hown

end Xv6Rust.SchedIntena

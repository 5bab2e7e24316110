import Xv6Rust.Runs

/-!
# User-level tasks

`thread/mod.rs` of the user library: a fixed number of tasks that take turns on one stack each,
wait for one another and signal one another. A call of the running task ends with a switch to the
next one, so a run is a list of calls, each by the task that is then current. What the tasks
compute, their stacks and their registers are not seen here.
-/

namespace Xv6Rust.TaskRuntime

open Runs

/-- `MAX_TASKS`. -/
def maxTasks : ℕ := 8

/-- `usize::MAX`. -/
def usizeMax : ℕ := 2^64-1

/-- `TaskState`. -/
inductive TaskState where
  /-- `Available`. -/
  | available
  /-- `Sleep`. -/
  | sleep
  /-- `Ready`. -/
  | ready
  /-- `Running`. -/
  | running
  deriving DecidableEq

/-- `Runtime`. -/
structure Runtime where
  /-- States of the tasks. -/
  tasks : ℕ → TaskState
  /-- The task that runs. -/
  current : ℕ
  /-- Whom a task waits for. -/
  waits : ℕ → ℕ

/-- `Runtime::new`. -/
def Runtime.new : Runtime := ⟨fun i => if i=0 then .running else .available,0,fun _ => 0⟩

/-- A panic, or a loop without an end. -/
inductive Stop where
  /-- `no available task.`. -/
  | noTask
  /-- An index out of bounds. -/
  | index
  /-- The loop of `t_yield` goes on. -/
  | endless
  deriving DecidableEq

/-- How the loop of `t_yield` ends. -/
inductive Scan where
  /-- It has not ended. -/
  | endless
  /-- `t_yield` returns `false`. -/
  | nobody
  /-- A task is found. -/
  | found (pos : ℕ)
  deriving DecidableEq

namespace Runtime

variable (s : Runtime)

/-- The loop of `t_yield` passes the task. -/
def Idle (i : ℕ) : Prop := s.tasks i=.sleep ∨ s.tasks i=.available

instance (i : ℕ) : Decidable (s.Idle i) :=
  inferInstanceAs (Decidable (s.tasks i=.sleep ∨ s.tasks i=.available))

/-- No task waits. -/
def NobodyWaits : Prop := ∀ i,i < maxTasks → s.waits i=0

instance : Decidable s.NobodyWaits :=
  inferInstanceAs (Decidable (∀ i,i < maxTasks → s.waits i=0))

/-- The loop of `t_yield`, with at most the given number of passes. -/
def scan : ℕ → ℕ → Bool → Scan
  | 0,_,_ => .endless
  | fuel+1,pos,temp =>
    if s.Idle pos then
      if pos+1=maxTasks then
        if temp=true then
          if s.current=0 ∧ s.NobodyWaits then .nobody else scan fuel 0 true
        else scan fuel 1 true
      else scan fuel (pos+1) temp
    else .found pos

/-- Change the state of a task. -/
def setTask (i : ℕ) (x : TaskState) : Runtime := {s with tasks := Function.update s.tasks i x}

/-- The switch of `t_yield` to another task. -/
def switchTo (pos : ℕ) : Runtime :=
  let s := if s.Idle s.current then s else s.setTask s.current .ready
  {s.setTask pos .running with current := pos}

/-- `t_yield`, with what it returns. -/
def tYield : Outcome Stop (Bool×Runtime) :=
  match s.scan (2*maxTasks) ((s.current+1)%maxTasks) false with
  | .endless => .fault .endless
  | .nobody => .next (false,s)
  | .found pos => .next (true,s.switchTo pos)

/-- The task waits for any task, or for the one that runs. -/
def Waited (i : ℕ) : Prop := s.waits i=usizeMax ∨ s.waits i=s.current

instance (i : ℕ) : Decidable (s.Waited i) :=
  inferInstanceAs (Decidable (s.waits i=usizeMax ∨ s.waits i=s.current))

/-- The loop of `t_return`. -/
def wakeAll : Runtime :=
  {s with
    tasks := fun i => if i < maxTasks ∧ s.Waited i then .ready else s.tasks i
    waits := fun i => if i < maxTasks ∧ s.Waited i then 0 else s.waits i}

/-- The choice of `t_signal`. -/
def wake (id : ℕ) : Runtime :=
  if s.Waited id then {s.setTask id .ready with waits := Function.update s.waits id 0} else s

/-- `t_return`. -/
def tReturn : Outcome Stop Runtime :=
  let s := s.wakeAll
  if s.current≠0 then (s.setTask s.current .available).tYield.bind fun r => .next r.2
  else .next s

/-- `t_wait`. -/
def tWait (id : ℕ) : Outcome Stop Runtime :=
  if s.current≠0 then
    let s := s.setTask s.current .sleep
    let s := {s with waits := Function.update s.waits s.current (if id=0 then usizeMax else id)}
    s.tYield.bind fun r => .next r.2
  else .next s

/-- `t_signal`. -/
def tSignal (id : ℕ) : Outcome Stop Runtime :=
  if id ≥ maxTasks then .fault .index else (s.wake id).tYield.bind fun r => .next r.2

/-- `spawn`: the first task that is available gets ready. -/
def spawn : Outcome Stop (ℕ×Runtime) :=
  match (List.range maxTasks).find? fun i => s.tasks i=.available with
  | none => .fault .noTask
  | some i => .next (i,s.setTask i .ready)

end Runtime

/-- A call of the running task. -/
inductive Call where
  /-- `spawn`. -/
  | spawn
  /-- `t_yield`. -/
  | tYield
  /-- `t_wait`. -/
  | tWait (id : ℕ)
  /-- `t_return`. -/
  | tReturn
  /-- `t_signal`. -/
  | tSignal (id : ℕ)
  deriving DecidableEq

/-- A call, up to the next one. -/
def step (s : Runtime) : Call → Outcome Stop Runtime
  | .spawn => s.spawn.bind fun r => .next r.2
  | .tYield => s.tYield.bind fun r => .next r.2
  | .tWait id => s.tWait id
  | .tReturn => s.tReturn
  | .tSignal id => s.tSignal id

/-- One task runs, sleeping tasks are those that wait, and the base task can go on. -/
structure Inv (s : Runtime) : Prop where
  /-- The current task is one. -/
  bound : s.current < maxTasks
  /-- It is the one that runs. -/
  running : ∀ i,i < maxTasks → (s.tasks i=.running ↔ i=s.current)
  /-- Who sleeps waits. -/
  waits : ∀ i,i < maxTasks → (s.waits i≠0 ↔ s.tasks i=.sleep)
  /-- The base task does not sleep and is not available. -/
  base : ¬s.Idle 0

section Scanning

variable {s : Runtime} {pos q fuel : ℕ} {temp : Bool}

/-- The loop ends at a task that is not passed, or has passed all of them but the base task, where
nobody waits. It reaches the base task by way of the others only if somebody waits or another
task runs. -/
theorem scan_spec (hbase : ¬s.Idle 0) (hpos : pos < maxTasks)
    (hpassed : temp=true → ∀ j,1 ≤ j → j < pos → s.Idle j)
    (hfuel : (if pos=0 then 1 else maxTasks-pos+(if temp=true then 1 else maxTasks)) ≤ fuel) :
    (s.scan fuel pos temp=.nobody ∧ s.current=0 ∧ s.NobodyWaits ∧
        ∀ j,1 ≤ j → j < maxTasks → s.Idle j) ∨
      ∃ q,s.scan fuel pos temp=.found q ∧ q < maxTasks ∧ ¬s.Idle q ∧
        (q=0 → pos=0 ∨ ¬(s.current=0 ∧ s.NobodyWaits)) := by
  induction fuel generalizing pos temp with
  | zero =>
    split at hfuel <;> omega
  | succ fuel ih =>
    rw [Runtime.scan]
    split
    · rename_i hidle
      have hne : pos≠0 := fun e => hbase (e ▸ hidle)
      rw [if_neg hne] at hfuel
      split
      · rename_i hlast
        split
        · rename_i htemp
          split
          · rename_i hdone
            refine .inl ⟨rfl,hdone.1,hdone.2,fun j hj hlt => ?_⟩
            by_cases e : j=pos
            · rwa [e]
            · exact hpassed htemp j hj (by omega)
          · rename_i hgo
            have hfuel' : 1 ≤ fuel := by
              rw [if_pos htemp] at hfuel
              omega
            obtain h | ⟨q,hq,hlt,hbusy,-⟩ :=
              @ih 0 true (by decide) (fun _ j _ hj => by omega) (by rwa [if_pos rfl])
            · exact .inl h
            · exact .inr ⟨q,hq,hlt,hbusy,fun _ => .inr hgo⟩
        · rename_i htemp
          rw [if_neg htemp] at hfuel
          have hmax : 0 < maxTasks := by decide
          have hfuel' : maxTasks-1+1 ≤ fuel := by omega
          obtain h | ⟨q,hq,hlt,hbusy,hz⟩ :=
            @ih 1 true (by decide) (fun _ j hj hj' => by omega) hfuel'
          · exact .inl h
          · exact .inr ⟨q,hq,hlt,hbusy,fun e => .inr ((hz e).resolve_left (by decide))⟩
      · rename_i hlast
        have hlt : pos+1 < maxTasks := by omega
        obtain h | ⟨q,hq,hq',hbusy,hz⟩ := @ih (pos+1) temp hlt
          (fun ht j hj hj' => by
            by_cases e : j=pos
            · rwa [e]
            · exact hpassed ht j hj (by omega))
          (by rw [if_neg (Nat.succ_ne_zero _)]; omega)
        · exact .inl h
        · exact .inr ⟨q,hq,hq',hbusy,fun e => .inr ((hz e).resolve_left (Nat.succ_ne_zero _))⟩
    · rename_i hbusy
      exact .inr ⟨pos,rfl,hpos,hbusy,fun e => .inl e⟩

end Scanning

/-- What holds when `t_yield` begins: the current task may have gone to sleep, or have ended. -/
structure Yielding (s : Runtime) : Prop where
  /-- The current task is one. -/
  bound : s.current < maxTasks
  /-- No other task runs. -/
  running : ∀ i,i < maxTasks → s.tasks i=.running → i=s.current
  /-- Who sleeps waits. -/
  waits : ∀ i,i < maxTasks → (s.waits i≠0 ↔ s.tasks i=.sleep)
  /-- The base task does not sleep and is not available. -/
  base : ¬s.Idle 0

section Steps

variable {s t u : Runtime} {i : ℕ}

theorem Inv.yielding (h : Inv s) : Yielding s :=
  ⟨h.bound,fun i hi => (h.running i hi).mp,h.waits,h.base⟩

/-- After a switch, a task is in the state it was in, but for the one that runs and the one
before. -/
theorem switchTo_tasks (pos i : ℕ) :
    (s.switchTo pos).tasks i=
      if i=pos then .running else if i=s.current ∧ ¬s.Idle i then .ready else s.tasks i := by
  rw [Runtime.switchTo]
  dsimp only [Runtime.setTask]
  by_cases hpos : i=pos
  · rw [if_pos hpos,hpos,Function.update_self]
  · rw [if_neg hpos,Function.update_of_ne hpos]
    split
    · rename_i hidle
      have hnot : ¬(i=s.current ∧ ¬s.Idle i) := fun h => h.2 (h.1 ▸ hidle)
      rw [if_neg hnot]
    · rename_i hbusy
      by_cases hcur : i=s.current
      · rw [hcur,if_pos ⟨rfl,hbusy⟩]
        exact Function.update_self ..
      · rw [if_neg fun h => hcur h.1]
        exact Function.update_of_ne hcur ..

theorem switchTo_waits (pos : ℕ) : (s.switchTo pos).waits=s.waits := by
  rw [Runtime.switchTo]
  dsimp only [Runtime.setTask]
  split <;> rfl

/-- A task that is passed stays as it is. -/
theorem switchTo_idle {pos : ℕ} (hpos : ¬s.Idle pos) (hi : s.Idle i) :
    (s.switchTo pos).tasks i=s.tasks i := by
  have hne : i≠pos := by
    rintro rfl
    exact hpos hi
  rw [switchTo_tasks,if_neg hne,if_neg fun h => h.2 hi]

/-- After a switch to a task that can run, it is the one that runs. -/
theorem Yielding.switch (h : Yielding s) {pos : ℕ} (hlt : pos < maxTasks) (hpos : ¬s.Idle pos) :
    Inv (s.switchTo pos) := by
  refine ⟨hlt,fun i hi => ?_,fun i hi => ?_,fun hidle => ?_⟩
  · rw [switchTo_tasks]
    split
    · rename_i e
      exact iff_of_true rfl e
    · rename_i hne
      split
      · exact iff_of_false nofun hne
      · rename_i hkeep
        refine iff_of_false (fun hrun => hkeep ⟨h.running i hi hrun,fun hidle => ?_⟩) hne
        rw [Runtime.Idle,hrun] at hidle
        exact hidle.elim nofun nofun
  · rw [switchTo_waits,h.waits i hi]
    by_cases hidle : s.Idle i
    · rw [switchTo_idle hpos hidle]
    · rw [switchTo_tasks]
      refine iff_of_false (fun e => hidle (.inl e)) ?_
      split
      · nofun
      · split
        · nofun
        · exact fun e => hidle (.inl e)
  · rw [Runtime.Idle,switchTo_tasks] at hidle
    split at hidle
    · exact hidle.elim nofun nofun
    · split at hidle
      · exact hidle.elim nofun nofun
      · exact h.base hidle

/-- Every task but the base task is available. -/
def AllAvailable (s : Runtime) : Prop := ∀ i,1 ≤ i → i < maxTasks → s.tasks i=.available

/-- `t_yield` returns `false` and changes nothing if the base task runs and there is no other;
otherwise it switches to a task that can run. -/
theorem Yielding.tYield (h : Yielding s) :
    (s.tYield=.next (false,s) ∧ s.current=0 ∧ AllAvailable s) ∨
      ∃ pos,s.tYield=.next (true,s.switchTo pos) ∧ pos < maxTasks ∧ ¬s.Idle pos ∧
        ¬(s.current=0 ∧ AllAvailable s) := by
  have hbound := h.bound
  have hstart : (s.current+1)%maxTasks < maxTasks := Nat.mod_lt _ (by decide)
  have hfuel : (if (s.current+1)%maxTasks=0 then 1 else
      maxTasks-(s.current+1)%maxTasks+(if false=true then 1 else maxTasks)) ≤ 2*maxTasks := by
    rw [if_neg Bool.false_ne_true]
    split
    · decide
    · omega
  obtain ⟨hscan,hzero,hnobody,hall⟩ | ⟨pos,hscan,hlt,hbusy,hback⟩ :=
    @scan_spec s _ _ false h.base hstart (fun e => absurd e Bool.false_ne_true) hfuel
  · refine .inl ⟨?_,hzero,fun i hi hlt => (hall i hi hlt).resolve_left fun hsleep => ?_⟩
    · rw [Runtime.tYield,hscan]
    · exact (h.waits i hlt).mpr hsleep (hnobody i hlt)
  · refine .inr ⟨pos,?_,hlt,hbusy,fun hdone => ?_⟩
    · rw [Runtime.tYield,hscan]
    · obtain ⟨hzero,hall⟩ := hdone
      by_cases e : pos=0
      · have hnobody : s.NobodyWaits := by
          intro i hi
          by_contra hne
          have hsleep := (h.waits i hi).mp hne
          by_cases hi0 : i=0
          · exact h.base (.inl (hi0 ▸ hsleep))
          · rw [hall i (Nat.one_le_iff_ne_zero.mpr hi0) hi] at hsleep
            cases hsleep
        obtain hs | hs := hback e
        · rw [hzero] at hs
          cases hs
        · exact hs ⟨hzero,hnobody⟩
      · exact hbusy (.inr (hall pos (Nat.one_le_iff_ne_zero.mpr e) hlt))

/-- A call of a task other than the base task wakes only tasks that wait; a signal of the base task
has nothing to do if its target waits or is ready. -/
def Matched (s : Runtime) : Call → Prop
  | .tReturn => s.current≠0
  | .tSignal id => s.current≠0 ∨ s.waits id≠0 ∨ s.tasks id=.ready
  | _ => True

instance (c : Call) : Decidable (Matched s c) :=
  match c with
  | .spawn => inferInstanceAs (Decidable True)
  | .tYield => inferInstanceAs (Decidable True)
  | .tWait _ => inferInstanceAs (Decidable True)
  | .tReturn => inferInstanceAs (Decidable (s.current≠0))
  | .tSignal id =>
    inferInstanceAs (Decidable (s.current≠0 ∨ s.waits id≠0 ∨ s.tasks id=.ready))

/-- A task that waits for any task or for one that is not the base task sleeps. -/
theorem Inv.sleeps (h : Inv s) (hi : i < maxTasks) (hw : s.Waited i) (hc : s.current≠0) :
    s.tasks i=.sleep := by
  refine (h.waits i hi).mp fun e => ?_
  rw [Runtime.Waited,e] at hw
  obtain hw | hw := hw
  · exact absurd hw (by decide)
  · exact hc hw.symm

/-- The target of a signal that changes sleeps. -/
theorem Inv.target (h : Inv s) {id : ℕ} (hid : id < maxTasks) (hm : Matched s (.tSignal id))
    (hw : s.Waited id) : s.tasks id=.sleep ∨ s.tasks id=.ready := by
  by_cases hwait : s.waits id=0
  · obtain hc | hne | hready := hm
    · exact .inl (h.sleeps hid hw hc)
    · exact absurd hwait hne
    · exact .inr hready
  · exact .inl ((h.waits id hid).mp hwait)

/-- An update that is made where a condition holds. -/
theorem update_apply_and {β : Type*} {f : ℕ → β} {id : ℕ} {v : β} {p : Prop} [Decidable p] (hp : p)
    (i : ℕ) : Function.update f id v i=if i=id ∧ p then v else f i := by
  by_cases e : i=id
  · rw [e,if_pos ⟨rfl,hp⟩]
    exact Function.update_self ..
  · rw [if_neg fun hc => e hc.1]
    exact Function.update_of_ne e ..

theorem wake_tasks (id i : ℕ) :
    (s.wake id).tasks i=if i=id ∧ s.Waited id then .ready else s.tasks i := by
  rw [Runtime.wake]
  split
  · rename_i hw
    exact update_apply_and hw i
  · rename_i hw
    rw [if_neg fun hc => hw hc.2]

theorem wake_waits (id i : ℕ) :
    (s.wake id).waits i=if i=id ∧ s.Waited id then 0 else s.waits i := by
  rw [Runtime.wake]
  split
  · rename_i hw
    exact update_apply_and hw i
  · rename_i hw
    rw [if_neg fun hc => hw hc.2]

theorem wake_current (id : ℕ) : (s.wake id).current=s.current := by
  rw [Runtime.wake]
  split <;> rfl

/-- Tasks that sleep or are ready get ready, and wait no more. -/
theorem Inv.woken (h : Inv s) {p : ℕ → Prop} [DecidablePred p] (ht : t.current=s.current)
    (htasks : ∀ i,i < maxTasks → t.tasks i=if p i then .ready else s.tasks i)
    (hwaits : ∀ i,i < maxTasks → t.waits i=if p i then 0 else s.waits i)
    (hp : ∀ i,i < maxTasks → p i → s.tasks i=.sleep ∨ s.tasks i=.ready) : Inv t := by
  refine ⟨ht ▸ h.bound,fun i hi => ?_,fun i hi => ?_,fun hidle => ?_⟩
  · rw [htasks i hi,ht]
    split
    · rename_i hpi
      refine iff_of_false nofun fun e => ?_
      have hrun := (h.running i hi).mpr e
      obtain hs | hs := hp i hi hpi
      · rw [hrun] at hs
        cases hs
      · rw [hrun] at hs
        cases hs
    · exact h.running i hi
  · rw [htasks i hi,hwaits i hi]
    split
    · exact iff_of_false (fun hne => hne rfl) nofun
    · exact h.waits i hi
  · rw [Runtime.Idle,htasks 0 (by decide)] at hidle
    split at hidle
    · exact hidle.elim nofun nofun
    · exact h.base hidle

theorem Inv.wake (h : Inv s) {id : ℕ} (hid : id < maxTasks) (hm : Matched s (.tSignal id)) :
    Inv (s.wake id) :=
  h.woken (wake_current id) (fun _ _ => wake_tasks id _) (fun _ _ => wake_waits id _)
    fun _ _ hp => hp.1 ▸ h.target hid hm hp.2

theorem Inv.wakeAll (h : Inv s) (hc : s.current≠0) : Inv s.wakeAll :=
  h.woken rfl (fun _ _ => rfl) (fun _ _ => rfl) fun _ hi hp => .inl (h.sleeps hi hp.2 hc)

/-- After `t_yield` one task runs, and a task that was available is. -/
theorem Yielding.finish (h : Yielding s) (hb : s.current=0 → Inv s) :
    ∃ t,(s.tYield.bind fun r => .next r.2)=.next t ∧ Inv t ∧
      ∀ i,s.tasks i=.available → t.tasks i=.available := by
  obtain ⟨hy,hzero,-⟩ | ⟨pos,hy,hlt,hbusy,-⟩ := h.tYield
  · exact ⟨s,by rw [hy]; rfl,hb hzero,fun _ ha => ha⟩
  · refine ⟨s.switchTo pos,by rw [hy]; rfl,h.switch hlt hbusy,fun i ha => ?_⟩
    rw [switchTo_idle hbusy (.inr ha)]
    exact ha

/-- The current task, which is not the base task, goes to sleep or ends. -/
theorem Inv.pause (h : Inv s) (hc : s.current≠0) (ht : t.current=s.current) {x : TaskState}
    (htasks : t.tasks=Function.update s.tasks s.current x)
    (hwaits : ∀ i,i≠s.current → t.waits i=s.waits i)
    (hself : t.waits s.current≠0 ↔ x=.sleep) : Yielding t := by
  have hother : ∀ i,i≠s.current → t.tasks i=s.tasks i := fun i hi => by
    rw [htasks,Function.update_of_ne hi]
  refine ⟨ht ▸ h.bound,fun i hi hrun => ?_,fun i hi => ?_,fun hidle => ?_⟩
  · rw [ht]
    by_contra hne
    rw [hother i hne] at hrun
    exact hne ((h.running i hi).mp hrun)
  · by_cases e : i=s.current
    · rw [e,htasks,Function.update_self]
      exact hself
    · rw [hwaits i e,hother i e]
      exact h.waits i hi
  · rw [Runtime.Idle,hother 0 (Ne.symm hc)] at hidle
    exact h.base hidle

/-- The state in which `t_wait` yields. -/
theorem Inv.waiting (h : Inv s) (hc : s.current≠0) (id : ℕ) :
    Yielding {s.setTask s.current .sleep with
      waits := Function.update s.waits s.current (if id=0 then usizeMax else id)} := by
  refine h.pause hc rfl rfl (fun i hi => Function.update_of_ne hi ..) (iff_of_true ?_ rfl)
  show Function.update s.waits s.current (if id=0 then usizeMax else id) s.current≠0
  rw [Function.update_self]
  split
  · decide
  · assumption

/-- The state in which `t_return` yields. -/
theorem Inv.ending (h : Inv s) (hc : s.current≠0) :
    Yielding (s.wakeAll.setTask s.wakeAll.current .available) := by
  have hw := h.wakeAll hc
  refine hw.pause hc rfl rfl (fun _ _ => rfl) (iff_of_false (fun hne => ?_) (fun e => by cases e))
  have hsleep := (hw.waits _ hw.bound).mp hne
  rw [(hw.running _ hw.bound).mpr rfl] at hsleep
  cases hsleep

/-- A call keeps the invariant, ends, and makes no task ready that is available, unless it is
`spawn`. -/
theorem step_spec (h : Inv s) {c : Call} (hm : Matched s c) :
    step s c≠.fault .endless ∧ ∀ t,step s c=.next t → Inv t ∧
      (c≠.spawn → ∀ i,i < maxTasks → s.tasks i=.available → t.tasks i=.available) := by
  cases c with
  | spawn =>
    rw [step,Runtime.spawn]
    split
    · exact ⟨nofun,nofun⟩
    · rename_i i hfind
      have havail : s.tasks i=.available := by simpa using List.find?_some hfind
      refine ⟨nofun,fun t ht => ?_⟩
      cases ht
      refine ⟨⟨h.bound,fun j hj => ?_,fun j hj => ?_,fun hidle => ?_⟩,fun hne => absurd rfl hne⟩
      · by_cases e : j=i
        · have hcur : i≠s.current := fun hi => by
            have hrun := (h.running j hj).mpr (e.trans hi)
            rw [e,havail] at hrun
            cases hrun
          rw [e]
          refine iff_of_false ?_ hcur
          show Function.update s.tasks i .ready i≠.running
          rw [Function.update_self]
          nofun
        · show Function.update s.tasks i .ready j=.running ↔ j=s.current
          rw [Function.update_of_ne e]
          exact h.running j hj
      · show s.waits j≠0 ↔ Function.update s.tasks i .ready j=.sleep
        rw [h.waits j hj]
        by_cases e : j=i
        · rw [e,Function.update_self,havail]
          exact iff_of_false nofun nofun
        · rw [Function.update_of_ne e]
      · change Function.update s.tasks i .ready 0=.sleep ∨
          Function.update s.tasks i .ready 0=.available at hidle
        by_cases e : 0=i
        · rw [e,Function.update_self] at hidle
          exact hidle.elim nofun nofun
        · rw [Function.update_of_ne e] at hidle
          exact h.base hidle
  | tYield =>
    obtain ⟨t,ht,hinv,hkeep⟩ := h.yielding.finish fun _ => h
    rw [step,ht]
    exact ⟨nofun,fun u hu => by cases hu; exact ⟨hinv,fun _ i _ => hkeep i⟩⟩
  | tWait id =>
    rw [step,Runtime.tWait]
    split
    · rename_i hc
      obtain ⟨t,ht,hinv,hkeep⟩ := (h.waiting hc id).finish fun e => absurd e hc
      dsimp only [Runtime.setTask] at ht ⊢
      rw [ht]
      refine ⟨nofun,fun u hu => ?_⟩
      cases hu
      refine ⟨hinv,fun _ i hi ha => hkeep i ?_⟩
      have hne : i≠s.current := fun e => by
        rw [(h.running i hi).mpr e] at ha
        cases ha
      exact (Function.update_of_ne hne ..).trans ha
    · exact ⟨nofun,fun u hu => by cases hu; exact ⟨h,fun _ _ _ ha => ha⟩⟩
  | tReturn =>
    have hc : s.current≠0 := hm
    have hcur : s.wakeAll.current=s.current := rfl
    rw [step,Runtime.tReturn,if_pos (hcur ▸ hc)]
    obtain ⟨t,ht,hinv,hkeep⟩ := (h.ending hc).finish fun e => absurd e hc
    rw [ht]
    refine ⟨nofun,fun u hu => ?_⟩
    cases hu
    refine ⟨hinv,fun _ i hi ha => hkeep i ?_⟩
    by_cases e : i=s.current
    · rw [e]
      exact Function.update_self ..
    · refine (Function.update_of_ne e ..).trans ?_
      have hnot : ¬(i < maxTasks ∧ s.Waited i) := fun hwait => by
        rw [h.sleeps hi hwait.2 hc] at ha
        cases ha
      exact (if_neg hnot).trans ha
  | tSignal id =>
    rw [step,Runtime.tSignal]
    split
    · exact ⟨nofun,nofun⟩
    · rename_i hid
      have hid : id < maxTasks := not_le.mp hid
      have hw := h.wake hid hm
      obtain ⟨t,ht,hinv,hkeep⟩ := hw.yielding.finish fun _ => hw
      rw [ht]
      refine ⟨nofun,fun u hu => ?_⟩
      cases hu
      refine ⟨hinv,fun _ i hi ha => hkeep i ?_⟩
      rw [wake_tasks,if_neg fun hwait => ?_]
      · exact ha
      · obtain hs | hs := h.target hid hm hwait.2
        · rw [← hwait.1,ha] at hs
          cases hs
        · rw [← hwait.1,ha] at hs
          cases hs

end Steps

section Runs

variable {t : Runtime} {as : List Call}

theorem new_inv : Inv .new := by
  refine ⟨by decide,fun i _ => ?_,fun i _ => ?_,fun hidle => hidle.elim nofun nofun⟩
  · show (if i=0 then TaskState.running else .available)=.running ↔ i=0
    split <;> simp [*]
  · show (0 : ℕ)≠0 ↔ (if i=0 then TaskState.running else .available)=.sleep
    split <;> simp

/-- Every state that is reached by calls that match keeps the invariant. -/
theorem run_inv (hg : Guarded step Matched .new as) (h : run step .new as=.next t) : Inv t :=
  run_invariant (fun _ _ u hi hm hu => ((step_spec hi hm).2 u hu).1) new_inv hg h

/-- Only tasks other than the base task return and signal. -/
def Issued (s : Runtime) : Call → Prop
  | .tReturn => s.current≠0
  | .tSignal _ => s.current≠0
  | _ => True

instance (s : Runtime) (c : Call) : Decidable (Issued s c) :=
  match c with
  | .spawn => inferInstanceAs (Decidable True)
  | .tYield => inferInstanceAs (Decidable True)
  | .tWait _ => inferInstanceAs (Decidable True)
  | .tReturn => inferInstanceAs (Decidable (s.current≠0))
  | .tSignal _ => inferInstanceAs (Decidable (s.current≠0))

theorem Issued.matched {s : Runtime} {c : Call} (h : Issued s c) : Matched s c := by
  cases c with
  | spawn => trivial
  | tYield => trivial
  | tWait id => trivial
  | tReturn => exact h
  | tSignal id => exact .inl h

/-- In every run in which the base task neither returns nor signals no call loops for ever, and
between two calls one task runs, the current one; those wait that sleep; the base task neither
sleeps nor is available; and `t_yield` returns, `false` exactly if the base task runs and there is
no other, and then it changes nothing. -/
theorem runtime_invariant (as : List Call) (hg : Guarded step Issued .new as) :
    run step .new as≠.fault .endless ∧ ∀ t,run step .new as=.next t →
      (t.current < maxTasks ∧ ∀ i,i < maxTasks → (t.tasks i=.running ↔ i=t.current)) ∧
      (∀ i,i < maxTasks → (t.waits i≠0 ↔ t.tasks i=.sleep)) ∧
      t.tasks 0≠.sleep ∧ t.tasks 0≠.available ∧
      ∃ b u,t.tYield=.next (b,u) ∧
        (b=false ↔ t.current=0 ∧ ∀ i,1 ≤ i → i < maxTasks → t.tasks i=.available) ∧
        (b=false → u=t) := by
  have hstep : ∀ s c u,Inv s → Issued s c → step s c=.next u → Inv u :=
    fun s c u hi hc hu => ((step_spec hi hc.matched).2 u hu).1
  refine ⟨run_no_fault hstep (fun s c hi hc => (step_spec hi hc.matched).1) new_inv hg,
    fun t ht => ?_⟩
  have h := run_invariant hstep new_inv hg ht
  refine ⟨⟨h.bound,h.running⟩,h.waits,fun e => h.base (.inl e),fun e => h.base (.inr e),?_⟩
  obtain ⟨hy,hzero,hall⟩ | ⟨pos,hy,-,-,hnot⟩ := h.yielding.tYield
  · exact ⟨false,t,hy,iff_of_true rfl ⟨hzero,hall⟩,fun _ => rfl⟩
  · exact ⟨true,t.switchTo pos,hy,iff_of_false nofun hnot,nofun⟩

/-- A task that waits for the first one, which signals it and ends. -/
def waitAndSignal : List Call :=
  [.spawn,.spawn,.tYield,.tYield,.tWait 1,.tYield,.tSignal 2,.tReturn]

/-- The calls end, and after the fifth of them the second task sleeps. -/
theorem runtime_invariant_waitAndSignal :
    run step .new waitAndSignal≠.fault .endless ∧
      ∃ t,run step .new (waitAndSignal.take 5)=.next t ∧ t.tasks 2=.sleep ∧ t.waits 2≠0 ∧
        ∀ i,i < maxTasks → (t.tasks i=.running ↔ i=t.current) := by
  obtain ⟨t,ht,htest⟩ := Outcome.exists_of_test (o:=run step .new (waitAndSignal.take 5))
    (p:=fun t : Runtime => decide (t.tasks 2=.sleep)) (by decide)
  have hsleep : t.tasks 2=.sleep := of_decide_eq_true htest
  obtain ⟨⟨-,hrunning⟩,hwaits,-⟩ :=
    (runtime_invariant (waitAndSignal.take 5) (by decide)).2 t ht
  exact ⟨(runtime_invariant waitAndSignal (by decide)).1,t,ht,hsleep,
    (hwaits 2 (by decide)).mpr hsleep,hrunning⟩

/-- The state in which a call has woken tasks, before it yields. -/
def woken (s : Runtime) : Call → Runtime
  | .tReturn => s.wakeAll
  | .tSignal id => s.wake id
  | _ => s

/-- A call wakes only tasks that sleep and wait for the current task or for any, and no task that
is available gets ready, unless the call is `spawn`. -/
def WakesSleepers (s : Runtime) (c : Call) (t : Runtime) : Prop :=
  (∀ i,i < maxTasks → (woken s c).tasks i≠s.tasks i → s.tasks i=.sleep ∧ s.Waited i) ∧
    (c≠.spawn → ∀ i,i < maxTasks → s.tasks i=.available → t.tasks i=.available)

theorem Inv.wakesSleepers {s : Runtime} (h : Inv s) {c : Call} (ht : step s c=.next t) :
    WakesSleepers s c t ↔ Matched s c := by
  refine ⟨fun hw => ?_,fun hm => ⟨fun i hi hne => ?_,((step_spec h hm).2 t ht).2⟩⟩
  · cases c with
    | spawn => trivial
    | tYield => trivial
    | tWait id => trivial
    | tReturn =>
      -- the base task waits for nobody, which looks as if it waited for itself
      intro hzero
      have hrun := (h.running 0 (by decide)).mpr hzero.symm
      have hwait : s.waits 0=0 := by
        by_contra hne
        rw [(h.waits 0 (by decide)).mp hne] at hrun
        cases hrun
      have hready : s.wakeAll.tasks 0=.ready := if_pos ⟨by decide,.inr (hwait.trans hzero.symm)⟩
      have hsleep := (hw.1 0 (by decide) (by show s.wakeAll.tasks 0≠_; rw [hready,hrun]; nofun)).1
      rw [hrun] at hsleep
      cases hsleep
    | tSignal id =>
      by_contra hnot
      have hnot : s.current=0 ∧ s.waits id=0 ∧ s.tasks id≠.ready := by
        simpa [Matched,not_or] using hnot
      obtain ⟨hzero,hwait,hbusy⟩ := hnot
      have hid : id < maxTasks := by
        rw [step,Runtime.tSignal] at ht
        split at ht
        · cases ht
        · exact not_le.mp (by assumption)
      have hready : (s.wake id).tasks id=.ready := by
        rw [wake_tasks,if_pos ⟨rfl,.inr (hwait.trans hzero.symm)⟩]
      have hsleep := (hw.1 id hid (by show (s.wake id).tasks id≠_; rw [hready]; exact hbusy.symm)).1
      exact (h.waits id hid).mpr hsleep hwait
  · cases c with
    | spawn => exact absurd rfl hne
    | tYield => exact absurd rfl hne
    | tWait id => exact absurd rfl hne
    | tReturn =>
      by_cases hp : i < maxTasks ∧ s.Waited i
      · exact ⟨h.sleeps hi hp.2 hm,hp.2⟩
      · exact absurd (if_neg hp) hne
    | tSignal id =>
      by_cases hp : i=id ∧ s.Waited id
      · obtain ⟨rfl,hwait⟩ := hp
        obtain hs | hs := h.target hi hm hwait
        · exact ⟨hs,hwait⟩
        · refine absurd ?_ hne
          show (s.wake i).tasks i=_
          rw [wake_tasks,if_pos ⟨rfl,hwait⟩,hs]
      · refine absurd ?_ hne
        show (s.wake id).tasks i=_
        rw [wake_tasks,if_neg hp]

/-- After every run of calls that match, the next call wakes only tasks that wait for the current
task or for any, and leaves available tasks available unless it is `spawn`, exactly if it matches
too. -/
theorem wakes_only_sleepers (as : List Call) (hg : Guarded step Matched .new as) (t : Runtime)
    (ht : run step .new as=.next t) (c : Call) (u : Runtime) (hu : step t c=.next u) :
    WakesSleepers t c u ↔ Matched t c :=
  (run_inv hg ht).wakesSleepers hu

theorem wakes_only_sleepers_waitAndSignal :
    ∃ t u,run step .new waitAndSignal=.next t ∧ step t .tYield=.next u ∧
      WakesSleepers t .tYield u := by
  obtain ⟨t,ht,htest⟩ := Outcome.exists_of_test (o:=run step .new waitAndSignal)
    (p:=fun t => (step t .tYield).test fun _ => true) (by decide)
  obtain ⟨u,hu,-⟩ := Outcome.exists_of_test htest
  exact ⟨t,u,ht,hu,(wakes_only_sleepers waitAndSignal (by decide) t ht .tYield u hu).mpr trivial⟩

/-- A signal of the base task runs a task that nobody started. -/
theorem base_signal_runs_available :
    ¬∀ as t,run step .new as=.next t → ∀ c u,step t c=.next u → WakesSleepers t c u := by
  intro hall
  obtain ⟨u,hu,hrun⟩ := Outcome.exists_of_test (o:=step .new (.tSignal 1))
    (p:=fun u => u.tasks 1==.running) (by decide)
  have hkeep := (hall [] .new rfl (.tSignal 1) u hu).2 nofun 1 (by decide) rfl
  rw [beq_iff_eq.mp hrun] at hkeep
  cases hkeep

end Runs

section Joining

variable {s t : Runtime}

/-- A task sleeps until a task returns whose slot is available. -/
def Stranded (s : Runtime) (i : ℕ) : Prop :=
  s.tasks i=.sleep ∧ s.waits i < maxTasks ∧ s.tasks (s.waits i)=.available

instance (s : Runtime) (i : ℕ) : Decidable (Stranded s i) :=
  inferInstanceAs
    (Decidable (s.tasks i=.sleep ∧ s.waits i < maxTasks ∧ s.tasks (s.waits i)=.available))

/-- No task sleeps until a task returns whose slot is available. -/
def Joined (s : Runtime) : Prop := ∀ i,i < maxTasks → ¬Stranded s i

instance (s : Runtime) : Decidable (Joined s) :=
  inferInstanceAs (Decidable (∀ i,i < maxTasks → ¬Stranded s i))

/-- A task other than the base task waits for a slot only while the slot is not available. -/
def Joins (s : Runtime) : Call → Prop
  | .tWait id => s.current=0 ∨ id=0 ∨ maxTasks ≤ id ∨ s.tasks id≠.available
  | _ => True

instance (s : Runtime) (c : Call) : Decidable (Joins s c) :=
  match c with
  | .spawn => inferInstanceAs (Decidable True)
  | .tYield => inferInstanceAs (Decidable True)
  | .tWait id =>
    inferInstanceAs (Decidable (s.current=0 ∨ id=0 ∨ maxTasks ≤ id ∨ s.tasks id≠.available))
  | .tReturn => inferInstanceAs (Decidable True)
  | .tSignal _ => inferInstanceAs (Decidable True)

theorem new_joined : Joined .new := by decide

/-- A switch changes neither who sleeps nor which slots are available. -/
theorem switchTo_same {pos : ℕ} (hpos : ¬s.Idle pos) (i : ℕ) :
    ((s.switchTo pos).tasks i=.sleep ↔ s.tasks i=.sleep) ∧
      ((s.switchTo pos).tasks i=.available ↔ s.tasks i=.available) := by
  by_cases hidle : s.Idle i
  · rw [switchTo_idle hpos hidle]
    exact ⟨Iff.rfl,Iff.rfl⟩
  · have hsleep : s.tasks i≠.sleep := fun e => hidle (.inl e)
    have havail : s.tasks i≠.available := fun e => hidle (.inr e)
    rw [switchTo_tasks]
    split
    · exact ⟨iff_of_false (fun e => by cases e) hsleep,iff_of_false (fun e => by cases e) havail⟩
    · split
      · exact ⟨iff_of_false (fun e => by cases e) hsleep,
          iff_of_false (fun e => by cases e) havail⟩
      · exact ⟨Iff.rfl,Iff.rfl⟩

/-- `t_yield` changes neither who sleeps nor which slots are available. -/
theorem Yielding.same (h : Yielding s) (ht : (s.tYield.bind fun r => .next r.2)=.next t) :
    t.waits=s.waits ∧ ∀ i,(t.tasks i=.sleep ↔ s.tasks i=.sleep) ∧
      (t.tasks i=.available ↔ s.tasks i=.available) := by
  obtain ⟨hy,-,-⟩ | ⟨pos,hy,-,hpos,-⟩ := h.tYield
  · rw [hy] at ht
    cases ht
    exact ⟨rfl,fun _ => ⟨Iff.rfl,Iff.rfl⟩⟩
  · rw [hy] at ht
    cases ht
    exact ⟨switchTo_waits pos,switchTo_same hpos⟩

/-- Nobody gets stranded who neither goes to sleep nor waits for a slot that gets available. -/
theorem Joined.mono (h : Joined s) (hwaits : ∀ i,t.tasks i=.sleep → t.waits i=s.waits i)
    (hsleep : ∀ i,i < maxTasks → t.tasks i=.sleep → s.tasks i=.sleep)
    (havail : ∀ i,i < maxTasks → t.tasks i=.sleep → t.waits i < maxTasks →
      t.tasks (t.waits i)=.available → s.tasks (t.waits i)=.available) : Joined t := by
  intro i hi hs
  obtain ⟨hsl,hlt,hav⟩ := hs
  have hav' := havail i hi hsl hlt hav
  rw [hwaits i hsl] at hlt hav'
  exact h i hi ⟨hsleep i hi hsl,hlt,hav'⟩

/-- Who waits is stranded after `t_yield` exactly if it was before. -/
theorem Yielding.joined (h : Yielding s) (ht : (s.tYield.bind fun r => .next r.2)=.next t) :
    Joined t ↔ Joined s := by
  obtain ⟨hw,hsame⟩ := h.same ht
  refine ⟨fun hj => ?_,fun hj => ?_⟩
  · exact hj.mono (fun i _ => by rw [hw]) (fun i _ e => (hsame i).1.mpr e)
      fun i _ _ _ e => (hsame _).2.mpr e
  · exact hj.mono (fun i _ => by rw [hw]) (fun i _ e => (hsame i).1.mp e)
      fun i _ _ _ e => (hsame _).2.mp e

/-- `t_wait` strands nobody exactly if the slot is not available. -/
theorem Inv.joined_wait (h : Inv s) (hj : Joined s) (hc : s.current≠0) (id : ℕ) :
    Joined {s.setTask s.current .sleep with
      waits := Function.update s.waits s.current (if id=0 then usizeMax else id)} ↔
      Joins s (.tWait id) := by
  have htask : ∀ i,i≠s.current → (s.setTask s.current .sleep).tasks i=s.tasks i :=
    fun i hi => Function.update_of_ne hi ..
  have hself : (s.setTask s.current .sleep).tasks s.current=.sleep := Function.update_self ..
  have hrun : s.tasks s.current=.running := (h.running _ h.bound).mpr rfl
  have havail : ∀ i,(s.setTask s.current .sleep).tasks i=.available ↔ s.tasks i=.available := by
    intro i
    by_cases e : i=s.current
    · rw [e,hself,hrun]
      exact iff_of_false (fun e => by cases e) (fun e => by cases e)
    · rw [htask i e]
  refine ⟨fun hj' => ?_,fun hjoin i hi hs => ?_⟩
  · by_contra hnot
    have hnot : s.current≠0 ∧ id≠0 ∧ id < maxTasks ∧ s.tasks id=.available := by
      simpa [Joins,not_or] using hnot
    obtain ⟨-,hid,hlt,ha⟩ := hnot
    refine hj' s.current h.bound ⟨hself,?_⟩
    show Function.update s.waits s.current _ s.current < maxTasks ∧
      (s.setTask s.current .sleep).tasks (Function.update s.waits s.current _ s.current)=.available
    rw [Function.update_self,if_neg hid]
    exact ⟨hlt,(havail id).mpr ha⟩
  · obtain ⟨hsl,hlt,hav⟩ := hs
    have hav := (havail _).mp hav
    by_cases e : i=s.current
    · rw [e] at hlt hav
      change Function.update s.waits s.current _ s.current < maxTasks at hlt
      change s.tasks (Function.update s.waits s.current _ s.current)=.available at hav
      rw [Function.update_self] at hlt hav
      split at hlt
      · exact absurd hlt (by decide)
      · rename_i hid
        rw [if_neg hid] at hav
        obtain hz | hz | hz | hz := hjoin
        · exact hc hz
        · exact hid hz
        · omega
        · exact hz hav
    · have hsl : s.tasks i=.sleep := (htask i e).symm.trans hsl
      change Function.update s.waits s.current _ i < maxTasks at hlt
      change s.tasks (Function.update s.waits s.current _ i)=.available at hav
      rw [Function.update_of_ne e] at hlt hav
      exact hj i hi ⟨hsl,hlt,hav⟩

/-- A task that ends wakes whoever waits for it. -/
theorem Inv.joined_end (hj : Joined s) :
    Joined (s.wakeAll.setTask s.wakeAll.current .available) := by
  intro i hi hs
  obtain ⟨hsl,hlt,hav⟩ := hs
  change Function.update s.wakeAll.tasks s.current .available i=.sleep at hsl
  have hne : i≠s.current := by
    rintro rfl
    rw [Function.update_self] at hsl
    cases hsl
  rw [Function.update_of_ne hne] at hsl
  have hstill : ¬(i < maxTasks ∧ s.Waited i) := fun hw => by
    have hready : s.wakeAll.tasks i=.ready := if_pos hw
    rw [hready] at hsl
    cases hsl
  have hwait : (s.wakeAll.setTask s.wakeAll.current .available).waits i=s.waits i := if_neg hstill
  rw [hwait] at hlt hav
  have hother : s.waits i≠s.current := fun e => hstill ⟨hi,.inr e⟩
  change Function.update s.wakeAll.tasks s.current .available (s.waits i)=.available at hav
  rw [Function.update_of_ne hother] at hav
  refine hj i hi ⟨(if_neg hstill).symm.trans hsl,hlt,?_⟩
  by_cases hw : s.waits i < maxTasks ∧ s.Waited (s.waits i)
  · have hready : s.wakeAll.tasks (s.waits i)=.ready := if_pos hw
    rw [hready] at hav
    cases hav
  · exact (if_neg hw).symm.trans hav

/-- A call strands a task exactly if it waits for a slot that is available. -/
theorem step_joined (h : Inv s) (hj : Joined s) {c : Call} (hc : Issued s c)
    (ht : step s c=.next t) : Joined t ↔ Joins s c := by
  cases c with
  | spawn =>
    refine iff_of_true ?_ trivial
    rw [step,Runtime.spawn] at ht
    split at ht
    · cases ht
    · rename_i j hfind
      cases ht
      have hback : ∀ i x,x≠TaskState.ready → (s.setTask j .ready).tasks i=x → s.tasks i=x := by
        intro i x hx hi
        by_cases e : i=j
        · rw [e] at hi
          exact absurd ((Function.update_self ..).symm.trans hi).symm hx
        · exact (Function.update_of_ne e ..).symm.trans hi
      exact hj.mono (fun _ _ => rfl) (fun i _ => hback i _ (fun e => by cases e))
        fun i _ _ _ => hback _ _ (fun e => by cases e)
  | tYield => exact iff_of_true ((h.yielding.joined ht).mpr hj) trivial
  | tWait id =>
    rw [step,Runtime.tWait] at ht
    split at ht
    · rename_i hcur
      exact ((h.waiting hcur id).joined ht).trans (h.joined_wait hj hcur id)
    · rename_i hcur
      cases ht
      exact iff_of_true hj (.inl (not_not.mp hcur))
  | tReturn =>
    have hcur : s.current≠0 := hc
    have hsame : s.wakeAll.current=s.current := rfl
    rw [step,Runtime.tReturn,if_pos (hsame ▸ hcur)] at ht
    exact iff_of_true (((h.ending hcur).joined ht).mpr (Inv.joined_end hj)) trivial
  | tSignal id =>
    rw [step,Runtime.tSignal] at ht
    split at ht
    · cases ht
    · rename_i hid
      have hw := h.wake (not_le.mp hid) hc.matched
      have hback : ∀ i x,x≠TaskState.ready → (s.wake id).tasks i=x → s.tasks i=x := by
        intro i x hx hi
        rw [wake_tasks] at hi
        split at hi
        · exact absurd hi.symm hx
        · exact hi
      refine iff_of_true ((hw.yielding.joined ht).mpr (hj.mono (fun i hsl => ?_)
        (fun i _ => hback i _ (fun e => by cases e))
        fun i _ _ _ => hback _ _ (fun e => by cases e))) trivial
      rw [wake_waits]
      split
      · rename_i hwoken
        rw [wake_tasks,if_pos hwoken] at hsl
        cases hsl
      · rfl

/-- With the base task alone and somebody asleep, `t_yield` returns `true` and changes nothing, so
that `run` loops for ever. -/
theorem Inv.spins (h : Inv s) (hzero : s.current=0)
    (hidle : ∀ i,1 ≤ i → i < maxTasks → s.Idle i) {i : ℕ} (hi : i < maxTasks)
    (hsleep : s.tasks i=.sleep) : s.tYield=.next (true,s) := by
  obtain ⟨-,-,hall⟩ | ⟨pos,hy,hlt,hbusy,-⟩ := h.yielding.tYield
  · have hne : i≠0 := by
      rintro rfl
      exact h.base (.inl hsleep)
    rw [hall i (Nat.one_le_iff_ne_zero.mpr hne) hi] at hsleep
    cases hsleep
  · have hpos : pos=0 := by
      by_contra hne
      exact hbusy (hidle pos (Nat.one_le_iff_ne_zero.mpr hne) hlt)
    have htasks : (s.switchTo pos).tasks=s.tasks := by
      funext j
      rw [switchTo_tasks,hpos,hzero]
      by_cases e : j=0
      · rw [if_pos e,e]
        exact ((h.running 0 (by decide)).mpr hzero.symm).symm
      · rw [if_neg e,if_neg fun hc => e hc.1]
    rw [hy]
    have hsame : s.switchTo pos=⟨s.tasks,s.current,s.waits⟩ := by
      rw [← htasks,← switchTo_waits (s:=s) pos,hzero,← hpos]
      rfl
    rw [hsame]

/-- In every run in which the base task neither returns nor signals, and no task waits for a slot
while the slot is available, nobody sleeps until a task returns whose slot is available; and the
next call keeps this exactly if it does not wait for a slot that is available either. -/
theorem waits_are_joined (as : List Call)
    (hg : Guarded step (fun s c => Issued s c ∧ Joins s c) .new as) (t : Runtime)
    (ht : run step .new as=.next t) :
    Joined t ∧ ∀ c u,Issued t c → step t c=.next u → (Joined u ↔ Joins t c) := by
  have hstep : ∀ s c u,Inv s ∧ Joined s → Issued s c ∧ Joins s c → step s c=.next u →
      Inv u ∧ Joined u := fun s c u hs hc hu =>
    ⟨((step_spec hs.1 hc.1.matched).2 u hu).1,(step_joined hs.1 hs.2 hc.1 hu).mpr hc.2⟩
  have h := run_invariant hstep ⟨new_inv,new_joined⟩ hg ht
  exact ⟨h.2,fun c u hc hu => step_joined h.1 h.2 hc hu⟩

theorem waits_are_joined_waitAndSignal : ∃ t,run step .new waitAndSignal=.next t ∧ Joined t := by
  obtain ⟨t,ht,-⟩ := Outcome.exists_of_test (o:=run step .new waitAndSignal)
    (p:=fun _ => true) (by decide)
  exact ⟨t,ht,(waits_are_joined waitAndSignal (by decide) t ht).1⟩

/-- Two tasks, of which the first ends before the second waits for it. -/
def returnAndWait : List Call := [.spawn,.spawn,.tYield,.tReturn,.tWait 1]

/-- The second task sleeps for ever, and so `run` does not end. -/
theorem wait_after_return :
    Guarded step Issued .new returnAndWait ∧
      ∃ t,run step .new returnAndWait=.next t ∧ ¬Joined t ∧ t.tYield=.next (true,t) := by
  have hg : Guarded step Issued .new returnAndWait := by decide
  obtain ⟨t,ht,htest⟩ := Outcome.exists_of_test (o:=run step .new returnAndWait)
    (p:=fun t => decide (Stranded t 2 ∧ t.current=0 ∧
      ∀ i,i < maxTasks → 1 ≤ i → t.Idle i)) (by decide)
  obtain ⟨hs,hzero,hidle⟩ := of_decide_eq_true htest
  have hinv : Inv t := run_invariant
    (fun s c u hi hc hu => ((step_spec hi (Issued.matched hc)).2 u hu).1) new_inv hg ht
  exact ⟨hg,t,ht,fun hj => hj 2 (by decide) hs,
    hinv.spins hzero (fun i hi hlt => hidle i hlt hi) (by decide) hs.1⟩

end Joining

end Xv6Rust.TaskRuntime

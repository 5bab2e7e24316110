import Xv6Rust.ExitWait

/-!
# The parent relation

The children of a process are younger than it is: `alloc_proc` gives out free entries,
and `exiting` hands its children to init, the oldest of all. What a process is doing
fits its state, and tells who holds the parents map and which child `fork` works on.
-/

namespace Xv6Rust.ParentTree

open Runs ExitWait
open ProcTable (nproc ProcState ProcExcl Panic)

/-- The states that a process can have at a place. -/
def Fits : Pc → ProcState → Prop
  | .user,state => state≠.zombie
  | .forkCopy _,state => state=.running ∨ state=.runnable
  | .forkReady _,state => state=.running ∨ state=.runnable
  | .forkAdd _,state => state=.running ∨ state=.runnable
  | .exitLock _ _,state => state=.running ∨ state=.runnable
  | .wakeInit _ _ _,state => state=.running
  | .wakeParent _ _ _ _,state => state=.running
  | .exitUnlock,state => state=.zombie
  | .exited,state => state=.zombie
  | .waitLock,state => state=.running ∨ state=.runnable
  | .scan _ _,state => state=.running
  | .waitAgain,state => state=.sleeping ∨ state=.runnable ∨ state=.running

/-- Places at which the parents map is locked. -/
def Holds : Pc → Prop
  | .wakeInit _ _ _ => True
  | .wakeParent _ _ _ _ => True
  | .exitUnlock => True
  | .scan _ _ => True
  | _ => False

/-- Places of `exiting` after the children are handed to init. -/
def Leaving : Pc → Prop
  | .wakeInit _ _ _ => True
  | .wakeParent _ _ _ _ => True
  | .exitUnlock => True
  | .exited => True
  | _ => False

/-- Places of `exiting`. -/
def Exiting : Pc → Prop
  | .exitLock _ _ => True
  | pc => Leaving pc

/-- The child that `fork` is working on. -/
def childOf : Pc → Option ℕ
  | .forkCopy j => some j
  | .forkReady j => some j
  | .forkAdd j => some j
  | _ => none

/-- An entry that can run or wait: it is neither free, nor allocated only, nor a zombie. -/
def Alive (state : ProcState) : Prop := state≠.unused ∧ state≠.zombie ∧ state≠.allocated

section Parts

variable (st : ℕ → ProcState) (pc : ℕ → Pc) (parents : ℕ → Option ℕ) (queue : List ℕ)
  (birth : ℕ → ℕ) (clock : ℕ)

/-- The table has `NPROC` entries, and init is alive. -/
structure Table : Prop where
  /-- There are no entries beyond. -/
  bound : ∀ i,nproc ≤ i → st i=.unused
  /-- The first entry. -/
  init : Alive (st 0)

/-- States and places agree. -/
structure Places : Prop where
  /-- For every process. -/
  fits : ∀ i,Fits (pc i) (st i)
  /-- Init does not exit. -/
  notInit : ∀ i,Exiting (pc i) → i≠0

/-- The parents map is locked by the process that is at a place that holds it. -/
def Locked (lock : Option ℕ) : Prop := ∀ i,lock=some i ↔ Holds (pc i)

/-- The ready queue. -/
structure Queued : Prop where
  /-- An entry is in it once. -/
  nodup : queue.Nodup
  /-- Its entries can run. -/
  ready : ∀ i∈queue,st i=.runnable

/-- The children that `fork` is working on. -/
structure Forks : Prop where
  /-- Allocated, without a parent. -/
  copying : ∀ p j,pc p=.forkCopy j → st j=.allocated ∧ parents j=none ∧ j≠0 ∧ birth p<birth j
  /-- Allocated, with a parent. -/
  readying : ∀ p j,pc p=.forkReady j → st j=.allocated ∧ parents j=some p
  /-- Not yet in the queue. -/
  adding : ∀ p j,pc p=.forkAdd j → st j=.runnable ∧ j∉queue
  /-- Each has one author. -/
  single : ∀ p q j,childOf (pc p)=some j → childOf (pc q)=some j → p=q

/-- The parents map. -/
structure Family : Prop where
  /-- A parent is alive and older. -/
  parented : ∀ j p,parents j=some p → st j≠.unused ∧ j≠0 ∧ birth p<birth j ∧ Alive (st p)
  /-- Entries in use have one, but for init and those that `fork` copies memory to. -/
  parentless : ∀ j,st j≠.unused → j≠0 → (∀ p,pc p≠.forkCopy j) → parents j≠none
  /-- Ages. -/
  ages : ∀ i,birth i ≤ clock
  /-- Init is the oldest. -/
  root : ∀ j,st j≠.unused → j≠0 → birth 0<birth j
  /-- Whoever has handed its children over has none. -/
  gone : ∀ i j,Leaving (pc i) → parents j≠some i

end Parts

/-- The state of processes, locks, queue and parents is consistent. -/
structure Shape (s : System) : Prop where
  /-- Entries. -/
  table : Table s.state
  /-- Places. -/
  places : Places s.state s.pc
  /-- The lock. -/
  lock : Locked s.pc s.parentsLock
  /-- The queue. -/
  queued : Queued s.state s.queue
  /-- Forks. -/
  forks : Forks s.state s.pc s.parents s.queue s.birth
  /-- Parents. -/
  tree : Family s.state s.pc s.parents s.birth s.clock

section Fitting

variable {c : Pc} {v : ProcState}

/-- A free or allocated entry is in no function. -/
theorem user_of_fits (h : Fits c v) (hv : v=.unused ∨ v=.allocated) : c=.user := by
  obtain rfl | rfl := hv <;> cases c <;> first | rfl | exact absurd h (by simp [Fits])

/-- A process that sleeps can go on. -/
theorem fits_wakeup (h : Fits c .sleeping) : Fits c .runnable := by
  cases c <;> simp_all [Fits]

/-- A process that can go on can run. -/
theorem fits_dispatch (h : Fits c .runnable) : Fits c .running := by
  cases c <;> simp_all [Fits]

/-- A process that runs can stop, unless it holds the parents map. -/
theorem fits_yielding (h : Fits c .running) (hc : ¬Holds c) : Fits c .runnable := by
  cases c <;> simp_all [Fits,Holds]

end Fitting

section Changes

variable {st : ℕ → ProcState} {pc : ℕ → Pc} {parents : ℕ → Option ℕ} {queue queue' : List ℕ}
  {birth : ℕ → ℕ} {clock : ℕ} {p j k : ℕ} {c : Pc} {v : ProcState}

/-- A process moves on between places where `fork` works on no child. -/
theorem Places.setPc (h : Places st pc) (hfit : Fits c (st p)) (hne : Exiting c → p≠0) :
    Places st (Function.update pc p c) := by
  refine ⟨fun i => ?_,fun i => ?_⟩
  · by_cases e : i=p
    · rw [e,Function.update_self]
      exact hfit
    · rw [Function.update_of_ne e]
      exact h.fits i
  · by_cases e : i=p
    · rw [e,Function.update_self]
      exact hne
    · rw [Function.update_of_ne e]
      exact h.notInit i

theorem Forks.setPc (h : Forks st pc parents queue birth) (hc : childOf c=none) :
    Forks st (Function.update pc p c) parents queue birth := by
  have hpc : ∀ q j,childOf (Function.update pc p c q)=some j →
      Function.update pc p c q=pc q := by
    intro q j hq
    by_cases e : q=p
    · rw [e,Function.update_self,hc] at hq
      cases hq
    · exact Function.update_of_ne e ..
  refine ⟨fun q j hq => ?_,fun q j hq => ?_,fun q j hq => ?_,fun q r j hq hr => ?_⟩
  · exact h.copying q j (hpc q j (by rw [hq]; rfl) ▸ hq)
  · exact h.readying q j (hpc q j (by rw [hq]; rfl) ▸ hq)
  · exact h.adding q j (hpc q j (by rw [hq]; rfl) ▸ hq)
  · rw [hpc q j hq] at hq
    rw [hpc r j hr] at hr
    exact h.single q r j hq hr

theorem Family.setPc (h : Family st pc parents birth clock) (hold : childOf (pc p)=none)
    (hgone : Leaving c → ∀ j,parents j≠some p) :
    Family st (Function.update pc p c) parents birth clock := by
  refine ⟨h.parented,fun j hj hne hno => h.parentless j hj hne fun q hq => ?_,h.ages,h.root,
    fun i j hi => ?_⟩
  · have hqp : q≠p := by
      rintro rfl
      rw [hq] at hold
      cases hold
    have hq' := hno q
    rw [Function.update_of_ne hqp] at hq'
    exact hq' hq
  · by_cases e : i=p
    · rw [e,Function.update_self] at hi
      rw [e]
      exact hgone hi j
    · rw [Function.update_of_ne e] at hi
      exact h.gone i j hi

/-- An entry goes from one state in which it is alive to another. -/
theorem Table.restate (h : Table st) (hk : Alive (st k)) (hv : Alive v) :
    Table (Function.update st k v) := by
  refine ⟨fun i hi => ?_,?_⟩
  · have e : i≠k := by
      rintro rfl
      exact hk.1 (h.bound i hi)
    rw [Function.update_of_ne e]
    exact h.bound i hi
  · by_cases e : 0=k
    · rw [e,Function.update_self]
      exact hv
    · rw [Function.update_of_ne e]
      exact h.init

theorem Places.restate (h : Places st pc) (hfit : Fits (pc k) v) :
    Places (Function.update st k v) pc := by
  refine ⟨fun i => ?_,h.notInit⟩
  by_cases e : i=k
  · rw [e,Function.update_self]
    exact hfit
  · rw [Function.update_of_ne e]
    exact h.fits i

theorem Forks.restate (h : Forks st pc parents queue birth) (hk : Alive (st k))
    (hadd : ∀ p,pc p≠.forkAdd k) (hq : ∀ i∈queue',i∈queue ∨ i=k) :
    Forks (Function.update st k v) pc parents queue' birth := by
  have hne : ∀ j,st j=.allocated → Function.update st k v j=.allocated := by
    intro j hj
    have e : j≠k := by
      rintro rfl
      exact hk.2.2 hj
    rw [Function.update_of_ne e]
    exact hj
  refine ⟨fun p j hp => ?_,fun p j hp => ?_,fun p j hp => ?_,h.single⟩
  · obtain ⟨h1,h2⟩ := h.copying p j hp
    exact ⟨hne j h1,h2⟩
  · obtain ⟨h1,h2⟩ := h.readying p j hp
    exact ⟨hne j h1,h2⟩
  · obtain ⟨h1,h2⟩ := h.adding p j hp
    have e : j≠k := by
      rintro rfl
      exact hadd p hp
    rw [Function.update_of_ne e]
    exact ⟨h1,fun hin => (hq j hin).elim h2 e⟩

theorem Family.restate (h : Family st pc parents birth clock) (hk : Alive (st k)) (hv : Alive v) :
    Family (Function.update st k v) pc parents birth clock := by
  have hun : ∀ j,Function.update st k v j=.unused ↔ st j=.unused := by
    intro j
    by_cases e : j=k
    · rw [e,Function.update_self]
      exact ⟨fun h => absurd h hv.1,fun h => absurd h hk.1⟩
    · rw [Function.update_of_ne e]
  have halive : ∀ j,Alive (st j) → Alive (Function.update st k v j) := by
    intro j hj
    by_cases e : j=k
    · rw [e,Function.update_self]
      exact hv
    · rw [Function.update_of_ne e]
      exact hj
  refine ⟨fun j p hp => ?_,fun j hj hne hno => ?_,h.ages,fun j hj hne => ?_,h.gone⟩
  · obtain ⟨h1,h2,h3,h4⟩ := h.parented j p hp
    exact ⟨fun hu => h1 ((hun j).mp hu),h2,h3,halive p h4⟩
  · exact h.parentless j (fun hu => hj ((hun j).mpr hu)) hne hno
  · exact h.root j (fun hu => hj ((hun j).mpr hu)) hne

/-- Places other than one do not change. -/
theorem update_eq_of_ne {q : ℕ} {d : Pc} (h : Function.update pc p c q=d) (hne : c≠d) :
    q≠p ∧ pc q=d := by
  by_cases e : q=p
  · rw [e,Function.update_self] at h
    exact absurd h hne
  · rw [Function.update_of_ne e] at h
    exact ⟨e,h⟩

/-- No process copies memory to an entry. -/
theorem no_copy {i : ℕ} (h : ∀ q,Function.update pc p c q≠.forkCopy i) (hp : pc p≠.forkCopy i) :
    ∀ q,pc q≠.forkCopy i := by
  intro q hq
  by_cases e : q=p
  · exact hp (e ▸ hq)
  · have hq' := h q
    rw [Function.update_of_ne e] at hq'
    exact hq' hq

/-- Two processes do not work on the same child. -/
theorem Forks.other (h : Forks st pc parents queue birth) (hp : childOf (pc p)=some j) {q i : ℕ}
    (hq : childOf (pc q)=some i) (hne : q≠p) : i≠j := by
  rintro rfl
  exact hne (h.single q p i hq hp)

/-- `set_parent`. -/
theorem Forks.setParent (h : Forks st pc parents queue birth) (hp : pc p=.forkCopy j) :
    Forks st (Function.update pc p (.forkReady j)) (Function.update parents j (some p)) queue
      birth := by
  have hpj : childOf (pc p)=some j := by rw [hp]; rfl
  have hchild : ∀ q,childOf (Function.update pc p (.forkReady j) q)=childOf (pc q) := by
    intro q
    by_cases e : q=p
    · rw [e,Function.update_self,hpj]
      rfl
    · rw [Function.update_of_ne e]
  refine ⟨fun q i hq => ?_,fun q i hq => ?_,fun q i hq => ?_,fun q r i hq hr => ?_⟩
  · obtain ⟨hne,hq'⟩ := update_eq_of_ne hq (by intro e; cases e)
    have hij := h.other hpj (by rw [hq']; rfl) hne
    rw [Function.update_of_ne hij]
    exact h.copying q i hq'
  · by_cases e : q=p
    · rw [e,Function.update_self] at hq
      cases hq
      rw [e,Function.update_self]
      exact ⟨(h.copying p j hp).1,rfl⟩
    · rw [Function.update_of_ne e] at hq
      rw [Function.update_of_ne (h.other hpj (by rw [hq]; rfl) e)]
      exact h.readying q i hq
  · exact h.adding q i (update_eq_of_ne hq (by intro e; cases e)).2
  · rw [hchild] at hq hr
    exact h.single q r i hq hr

theorem Family.setParent (h : Family st pc parents birth clock)
    (hf : Forks st pc parents queue birth) (hp : pc p=.forkCopy j) (ha : Alive (st p)) :
    Family st (Function.update pc p (.forkReady j)) (Function.update parents j (some p)) birth
      clock := by
  obtain ⟨hst,-,hj,hb⟩ := hf.copying p j hp
  refine ⟨fun i q hi => ?_,fun i hi hne hno => ?_,h.ages,h.root,fun e i he => ?_⟩
  · by_cases e : i=j
    · rw [e,Function.update_self] at hi
      cases hi
      rw [e]
      refine ⟨fun hu => ?_,hj,hb,ha⟩
      rw [hst] at hu
      cases hu
    · rw [Function.update_of_ne e] at hi
      exact h.parented i q hi
  · by_cases e : i=j
    · rw [e,Function.update_self]
      exact Option.some_ne_none p
    · rw [Function.update_of_ne e]
      refine h.parentless i hi hne (no_copy hno ?_)
      rw [hp]
      intro h
      cases h
      exact e rfl
  · have hep : e≠p := by
      rintro rfl
      rw [Function.update_self] at he
      exact he
    rw [Function.update_of_ne hep] at he
    by_cases e' : i=j
    · rw [e',Function.update_self]
      intro h
      cases h
      exact hep rfl
    · rw [Function.update_of_ne e']
      exact h.gone e i he

/-- The children are handed to init. -/
theorem Forks.reparent (h : Forks st pc parents queue birth) (hp : childOf (pc p)=none) :
    Forks st pc (fun i => if parents i=some p then some 0 else parents i) queue birth := by
  refine ⟨fun q i hq => ?_,fun q i hq => ?_,h.adding,h.single⟩
  · obtain ⟨h1,h2,h3⟩ := h.copying q i hq
    refine ⟨h1,?_,h3⟩
    rw [h2]
    rfl
  · obtain ⟨h1,h2⟩ := h.readying q i hq
    refine ⟨h1,?_⟩
    have hne : q≠p := by
      rintro rfl
      rw [hq] at hp
      cases hp
    rw [h2,if_neg fun e => hne (Option.some.inj e)]

theorem Family.reparent (h : Family st pc parents birth clock) (ht : Table st)
    (hpl : Places st pc) (p : ℕ) :
    Family st pc (fun i => if parents i=some p then some 0 else parents i) birth clock := by
  refine ⟨fun i q hi => ?_,fun i hi hne hno => ?_,h.ages,h.root,fun e i he => ?_⟩
  · split at hi
    · rename_i hp
      cases hi
      obtain ⟨h1,h2,-⟩ := h.parented i p hp
      exact ⟨h1,h2,h.root i h1 h2,ht.init⟩
    · exact h.parented i q hi
  · split
    · exact Option.some_ne_none 0
    · exact h.parentless i hi hne hno
  · split
    · have he' : Exiting (pc e) := by
        cases hc : pc e with
        | exitLock pid status => trivial
        | _ => rw [hc] at he; exact he
      intro h0
      exact hpl.notInit e he' (Option.some.inj h0).symm
    · exact h.gone e i he

/-- Nothing is left behind. -/
theorem reparent_gone (hp : p≠0) :
    (if parents j=some p then some 0 else parents j)≠some p := by
  split
  · intro h
    exact hp (Option.some.inj h).symm
  · assumption

/-- An entry becomes a zombie. -/
theorem Table.die (h : Table st) (hp : st p=.running) (h0 : p≠0) :
    Table (Function.update st p .zombie) := by
  refine ⟨fun i hi => ?_,?_⟩
  · have e : i≠p := by
      rintro rfl
      rw [h.bound i hi] at hp
      cases hp
    rw [Function.update_of_ne e]
    exact h.bound i hi
  · rw [Function.update_of_ne h0.symm]
    exact h.init

theorem Places.die (h : Places st pc) (h0 : p≠0) :
    Places (Function.update st p .zombie) (Function.update pc p .exitUnlock) := by
  refine ⟨fun i => ?_,fun i => ?_⟩
  · by_cases e : i=p
    · rw [e,Function.update_self,Function.update_self]
      rfl
    · rw [Function.update_of_ne e,Function.update_of_ne e]
      exact h.fits i
  · by_cases e : i=p
    · rw [e]
      exact fun _ => h0
    · rw [Function.update_of_ne e]
      exact h.notInit i

theorem Forks.die (h : Forks st pc parents queue birth) (hp : st p=.running) :
    Forks (Function.update st p .zombie) pc parents queue birth := by
  have hne : ∀ i,st i≠.running → Function.update st p .zombie i=st i := by
    intro i hi
    refine Function.update_of_ne ?_ ..
    rintro rfl
    exact hi hp
  refine ⟨fun q i hq => ?_,fun q i hq => ?_,fun q i hq => ?_,h.single⟩
  · have h1 := h.copying q i hq
    rw [hne i (by rw [h1.1]; decide)]
    exact h1
  · have h1 := h.readying q i hq
    rw [hne i (by rw [h1.1]; decide)]
    exact h1
  · have h1 := h.adding q i hq
    rw [hne i (by rw [h1.1]; decide)]
    exact h1

theorem Family.die (h : Family st pc parents birth clock) (hp : st p=.running)
    (hno : ∀ i,parents i≠some p) : Family (Function.update st p .zombie) pc parents birth clock := by
  have hun : ∀ i,Function.update st p .zombie i≠.unused → st i≠.unused := by
    intro i hi
    by_cases e : i=p
    · rw [e,hp]
      decide
    · rwa [Function.update_of_ne e] at hi
  refine ⟨fun i q hi => ?_,fun i hi => h.parentless i (hun i hi),h.ages,fun i hi => h.root i (hun i hi),
    h.gone⟩
  obtain ⟨h1,h2,h3,h4⟩ := h.parented i q hi
  have e : q≠p := by
    rintro rfl
    exact hno i hi
  rw [Function.update_of_ne e]
  refine ⟨?_,h2,h3,h4⟩
  by_cases e' : i=p
  · rw [e',Function.update_self]
    decide
  · rw [Function.update_of_ne e']
    exact h1

/-- A zombie is cleaned up. -/
theorem Table.reap (h : Table st) (hk : st k=.zombie) : Table (Function.update st k .unused) := by
  refine ⟨fun i hi => ?_,?_⟩
  · by_cases e : i=k
    · rw [e,Function.update_self]
    · rw [Function.update_of_ne e]
      exact h.bound i hi
  · have e : 0≠k := by
      rintro rfl
      exact h.init.2.1 hk
    rw [Function.update_of_ne e]
    exact h.init

theorem Places.reset (h : Places st pc) : Places (Function.update st k .unused)
    (Function.update pc k .user) := by
  refine ⟨fun i => ?_,fun i => ?_⟩
  · by_cases e : i=k
    · rw [e,Function.update_self,Function.update_self]
      intro hz
      cases hz
    · rw [Function.update_of_ne e,Function.update_of_ne e]
      exact h.fits i
  · by_cases e : i=k
    · rw [e,Function.update_self]
      exact fun h => absurd h id
    · rw [Function.update_of_ne e]
      exact h.notInit i

theorem Queued.other (h : Queued st queue) (hk : st k≠.runnable) :
    Queued (Function.update st k v) queue := by
  refine ⟨h.nodup,fun i hi => ?_⟩
  have e : i≠k := by
    rintro rfl
    exact hk (h.ready i hi)
  rw [Function.update_of_ne e]
  exact h.ready i hi

theorem Forks.reap (h : Forks st pc parents queue birth) (hk : st k=.zombie) :
    Forks (Function.update st k .unused) pc (Function.update parents k none) queue birth := by
  have hne : ∀ i,st i≠.zombie → i≠k := by
    rintro i hi rfl
    exact hi hk
  refine ⟨fun q i hq => ?_,fun q i hq => ?_,fun q i hq => ?_,h.single⟩
  · have h1 := h.copying q i hq
    have e := hne i (by rw [h1.1]; decide)
    rw [Function.update_of_ne e,Function.update_of_ne e]
    exact h1
  · have h1 := h.readying q i hq
    have e := hne i (by rw [h1.1]; decide)
    rw [Function.update_of_ne e,Function.update_of_ne e]
    exact h1
  · have h1 := h.adding q i hq
    rw [Function.update_of_ne (hne i (by rw [h1.1]; decide))]
    exact h1

theorem Family.reap (h : Family st pc parents birth clock) (hk : st k=.zombie) :
    Family (Function.update st k .unused) pc (Function.update parents k none) birth clock := by
  have hun : ∀ i,Function.update st k .unused i≠.unused → i≠k ∧ st i≠.unused := by
    intro i hi
    by_cases e : i=k
    · rw [e,Function.update_self] at hi
      exact absurd rfl hi
    · rw [Function.update_of_ne e] at hi
      exact ⟨e,hi⟩
  have hpar : ∀ i q,Function.update parents k none i=some q → i≠k ∧ parents i=some q := by
    intro i q hi
    by_cases e : i=k
    · rw [e,Function.update_self] at hi
      cases hi
    · rw [Function.update_of_ne e] at hi
      exact ⟨e,hi⟩
  refine ⟨fun i q hi => ?_,fun i hi hne hno => ?_,h.ages,fun i hi => h.root i (hun i hi).2,
    fun e i he hi => ?_⟩
  · obtain ⟨hik,hi'⟩ := hpar i q hi
    obtain ⟨h1,h2,h3,h4⟩ := h.parented i q hi'
    have e : q≠k := by
      rintro rfl
      exact h4.2.1 hk
    rw [Function.update_of_ne hik,Function.update_of_ne e]
    exact ⟨h1,h2,h3,h4⟩
  · obtain ⟨hik,hi'⟩ := hun i hi
    rw [Function.update_of_ne hik]
    exact h.parentless i hi' hne hno
  · exact h.gone e i he (hpar i e hi).2

/-- `fork` is undone. -/
theorem Forks.undo (h : Forks st pc parents queue birth) (hp : pc p=.forkCopy j) :
    Forks (Function.update st j .unused) (Function.update pc p .user) parents queue birth := by
  have hpj : childOf (pc p)=some j := by rw [hp]; rfl
  refine ⟨fun q i hq => ?_,fun q i hq => ?_,fun q i hq => ?_,fun q r i hq hr => ?_⟩
  · obtain ⟨hne,hq'⟩ := update_eq_of_ne hq (by intro e; cases e)
    rw [Function.update_of_ne (h.other hpj (by rw [hq']; rfl) hne)]
    exact h.copying q i hq'
  · obtain ⟨hne,hq'⟩ := update_eq_of_ne hq (by intro e; cases e)
    rw [Function.update_of_ne (h.other hpj (by rw [hq']; rfl) hne)]
    exact h.readying q i hq'
  · obtain ⟨hne,hq'⟩ := update_eq_of_ne hq (by intro e; cases e)
    rw [Function.update_of_ne (h.other hpj (by rw [hq']; rfl) hne)]
    exact h.adding q i hq'
  · exact (h.setPc (c:=.user) rfl).single q r i hq hr

theorem Family.undo (h : Family st pc parents birth clock) (hf : Forks st pc parents queue birth)
    (hp : pc p=.forkCopy j) :
    Family (Function.update st j .unused) (Function.update pc p .user) parents birth clock := by
  obtain ⟨hst,hpar,-⟩ := hf.copying p j hp
  have hun : ∀ i,Function.update st j .unused i≠.unused → i≠j ∧ st i≠.unused := by
    intro i hi
    by_cases e : i=j
    · rw [e,Function.update_self] at hi
      exact absurd rfl hi
    · rw [Function.update_of_ne e] at hi
      exact ⟨e,hi⟩
  refine ⟨fun i q hi => ?_,fun i hi hne hno => ?_,h.ages,fun i hi => h.root i (hun i hi).2,
    fun e i he => ?_⟩
  · obtain ⟨h1,h2,h3,h4⟩ := h.parented i q hi
    have hij : i≠j := by
      rintro rfl
      rw [hpar] at hi
      cases hi
    have hqj : q≠j := by
      rintro rfl
      exact h4.2.2 hst
    rw [Function.update_of_ne hij,Function.update_of_ne hqj]
    exact ⟨h1,h2,h3,h4⟩
  · obtain ⟨hij,hi'⟩ := hun i hi
    refine h.parentless i hi' hne (no_copy hno ?_)
    rw [hp]
    intro e
    cases e
    exact hij rfl
  · by_cases e' : e=p
    · rw [e',Function.update_self] at he
      exact absurd he id
    · rw [Function.update_of_ne e'] at he
      exact h.gone e i he

/-- A child becomes `RUNNABLE`. -/
theorem Table.ready (h : Table st) (hj : st j=.allocated) :
    Table (Function.update st j .runnable) := by
  refine ⟨fun i hi => ?_,?_⟩
  · have e : i≠j := by
      rintro rfl
      rw [h.bound i hi] at hj
      cases hj
    rw [Function.update_of_ne e]
    exact h.bound i hi
  · have e : 0≠j := by
      rintro rfl
      exact h.init.2.2 hj
    rw [Function.update_of_ne e]
    exact h.init

theorem Forks.ready (h : Forks st pc parents queue birth) (hq : Queued st queue)
    (hp : pc p=.forkReady j) : Forks (Function.update st j .runnable)
      (Function.update pc p (.forkAdd j)) parents queue birth := by
  have hpj : childOf (pc p)=some j := by rw [hp]; rfl
  have hst := (h.readying p j hp).1
  have hchild : ∀ q,childOf (Function.update pc p (.forkAdd j) q)=childOf (pc q) := by
    intro q
    by_cases e : q=p
    · rw [e,Function.update_self,hpj]
      rfl
    · rw [Function.update_of_ne e]
  refine ⟨fun q i hq => ?_,fun q i hq => ?_,fun q i hi => ?_,fun q r i hq hr => ?_⟩
  · obtain ⟨hne,hq'⟩ := update_eq_of_ne hq (by intro e; cases e)
    rw [Function.update_of_ne (h.other hpj (by rw [hq']; rfl) hne)]
    exact h.copying q i hq'
  · obtain ⟨hne,hq'⟩ := update_eq_of_ne hq (by intro e; cases e)
    rw [Function.update_of_ne (h.other hpj (by rw [hq']; rfl) hne)]
    exact h.readying q i hq'
  · by_cases e : q=p
    · rw [e,Function.update_self] at hi
      cases hi
      rw [Function.update_self]
      refine ⟨rfl,fun hin => ?_⟩
      rw [hq.ready j hin] at hst
      cases hst
    · rw [Function.update_of_ne e] at hi
      rw [Function.update_of_ne (h.other hpj (by rw [hi]; rfl) e)]
      exact h.adding q i hi
  · rw [hchild] at hq hr
    exact h.single q r i hq hr

theorem Family.ready (h : Family st pc parents birth clock) (hp : pc p=.forkReady j)
    (hj : st j=.allocated) :
    Family (Function.update st j .runnable) (Function.update pc p (.forkAdd j)) parents birth
      clock := by
  have hun : ∀ i,Function.update st j .runnable i≠.unused → st i≠.unused := by
    intro i hi
    by_cases e : i=j
    · rw [e,hj]
      decide
    · rwa [Function.update_of_ne e] at hi
  refine ⟨fun i q hi => ?_,fun i hi hne hno => ?_,h.ages,fun i hi => h.root i (hun i hi),
    fun e i he => ?_⟩
  · obtain ⟨h1,h2,h3,h4⟩ := h.parented i q hi
    have hqj : q≠j := by
      rintro rfl
      exact h4.2.2 hj
    rw [Function.update_of_ne hqj]
    refine ⟨?_,h2,h3,h4⟩
    by_cases e : i=j
    · rw [e,Function.update_self]
      decide
    · rw [Function.update_of_ne e]
      exact h1
  · refine h.parentless i (hun i hi) hne (no_copy hno ?_)
    rw [hp]
    intro e
    cases e
  · by_cases e' : e=p
    · rw [e',Function.update_self] at he
      exact absurd he id
    · rw [Function.update_of_ne e'] at he
      exact h.gone e i he

/-- A child is put into the queue. -/
theorem Queued.add (h : Queued st queue) (hj : st j=.runnable) (hn : j∉queue) :
    Queued st (queue++[j]) := by
  refine ⟨List.nodup_append.mpr ⟨h.nodup,List.nodup_singleton j,fun a ha b hb e => ?_⟩,
    fun i hi => ?_⟩
  · rw [List.mem_singleton.mp hb] at e
    exact hn (e ▸ ha)
  · obtain hi | hi := List.mem_append.mp hi
    · exact h.ready i hi
    · rw [List.mem_singleton.mp hi]
      exact hj

theorem Forks.add (h : Forks st pc parents queue birth) (hp : pc p=.forkAdd j) :
    Forks st (Function.update pc p .user) parents (queue++[j]) birth := by
  have hpj : childOf (pc p)=some j := by rw [hp]; rfl
  have hset := h.setPc (p:=p) (c:=.user) rfl
  refine ⟨hset.copying,hset.readying,fun q i hq => ?_,hset.single⟩
  obtain ⟨hne,hq'⟩ := update_eq_of_ne hq (by intro e; cases e)
  obtain ⟨h1,h2⟩ := h.adding q i hq'
  refine ⟨h1,fun hin => ?_⟩
  obtain hin | hin := List.mem_append.mp hin
  · exact h2 hin
  · exact h.other hpj (by rw [hq']; rfl) hne (List.mem_singleton.mp hin)

theorem Family.add (h : Family st pc parents birth clock) (hp : pc p=.forkAdd j) :
    Family st (Function.update pc p .user) parents birth clock := by
  refine ⟨h.parented,fun i hi hne hno => h.parentless i hi hne (no_copy hno ?_),h.ages,h.root,
    fun e i he => ?_⟩
  · rw [hp]
    intro e
    cases e
  · by_cases e' : e=p
    · rw [e',Function.update_self] at he
      exact absurd he id
    · rw [Function.update_of_ne e'] at he
      exact h.gone e i he

/-- `alloc_proc`. -/
theorem Table.alloc (h : Table st) (hj : st j=.unused) (hb : j<nproc) :
    Table (Function.update st j .allocated) := by
  refine ⟨fun i hi => ?_,?_⟩
  · have e : i≠j := by omega
    rw [Function.update_of_ne e]
    exact h.bound i hi
  · have e : 0≠j := by
      rintro rfl
      exact h.init.1 hj
    rw [Function.update_of_ne e]
    exact h.init

theorem Forks.alloc (h : Forks st pc parents queue birth) (hfam : Family st pc parents birth clock)
    (ht : Table st) (hp : childOf (pc p)=none) (hrun : st p=.running) (hj : st j=.unused)
    (hpj : childOf (pc j)=none) : Forks (Function.update st j .allocated)
      (Function.update pc p (.forkCopy j)) parents queue (Function.update birth j (clock+1)) := by
  have hchild : ∀ q i,childOf (pc q)=some i → i≠j := by
    rintro q i hq rfl
    have hall : st i=.allocated ∨ st i=.runnable := by
      cases hc : pc q with
      | forkCopy k =>
        rw [hc] at hq
        cases hq
        exact .inl (h.copying q i hc).1
      | forkReady k =>
        rw [hc] at hq
        cases hq
        exact .inl (h.readying q i hc).1
      | forkAdd k =>
        rw [hc] at hq
        cases hq
        exact .inr (h.adding q i hc).1
      | _ =>
        rw [hc] at hq
        cases hq
    rw [hj] at hall
    obtain e | e := hall <;> cases e
  have hself : ∀ q i,childOf (pc q)=some i → q≠j := by
    rintro q i hq rfl
    rw [hpj] at hq
    cases hq
  have hpne : p≠j := by
    rintro rfl
    rw [hj] at hrun
    cases hrun
  refine ⟨fun q i hq => ?_,fun q i hq => ?_,fun q i hq => ?_,fun q r i hq hr => ?_⟩
  · by_cases e : q=p
    · rw [e,Function.update_self] at hq
      cases hq
      rw [e,Function.update_self,Function.update_self,Function.update_of_ne hpne]
      refine ⟨rfl,?_,?_,Nat.lt_succ_of_le (hfam.ages p)⟩
      · cases hpar : parents j with
        | none => rfl
        | some q => exact absurd hj (hfam.parented j q hpar).1
      · rintro rfl
        exact ht.init.1 hj
    · rw [Function.update_of_ne e] at hq
      have hc : childOf (pc q)=some i := by rw [hq]; rfl
      rw [Function.update_of_ne (hchild q i hc),Function.update_of_ne (hchild q i hc),
        Function.update_of_ne (hself q i hc)]
      exact h.copying q i hq
  · obtain ⟨-,hq'⟩ := update_eq_of_ne hq (by intro e; cases e)
    rw [Function.update_of_ne (hchild q i (by rw [hq']; rfl))]
    exact h.readying q i hq'
  · obtain ⟨-,hq'⟩ := update_eq_of_ne hq (by intro e; cases e)
    rw [Function.update_of_ne (hchild q i (by rw [hq']; rfl))]
    exact h.adding q i hq'
  · have hsplit : ∀ q,childOf (Function.update pc p (.forkCopy j) q)=some i →
        (q=p ∧ i=j) ∨ (q≠p ∧ childOf (pc q)=some i) := by
      intro q hq
      by_cases e : q=p
      · rw [e,Function.update_self] at hq
        cases hq
        exact .inl ⟨e,rfl⟩
      · rw [Function.update_of_ne e] at hq
        exact .inr ⟨e,hq⟩
    obtain ⟨rfl,rfl⟩ | ⟨-,hq'⟩ := hsplit q hq
    · obtain ⟨rfl,-⟩ | ⟨-,hr'⟩ := hsplit r hr
      · rfl
      · exact absurd rfl (hchild r i hr')
    · obtain ⟨rfl,rfl⟩ | ⟨-,hr'⟩ := hsplit r hr
      · exact absurd rfl (hchild q i hq')
      · exact h.single q r i hq' hr'

theorem Family.alloc (h : Family st pc parents birth clock) (ht : Table st)
    (hp : childOf (pc p)=none) (hj : st j=.unused) :
    Family (Function.update st j .allocated) (Function.update pc p (.forkCopy j)) parents
      (Function.update birth j (clock+1)) (clock+1) := by
  refine ⟨fun i q hi => ?_,fun i hi hne hno => ?_,fun i => ?_,fun i hi hne => ?_,fun e i he => ?_⟩
  · obtain ⟨h1,h2,h3,h4⟩ := h.parented i q hi
    have hij : i≠j := by
      rintro rfl
      exact h1 hj
    have hqj : q≠j := by
      rintro rfl
      exact h4.1 hj
    rw [Function.update_of_ne hij,Function.update_of_ne hqj,Function.update_of_ne hij,
      Function.update_of_ne hqj]
    exact ⟨h1,h2,h3,h4⟩
  · have hij : i≠j := by
      rintro rfl
      exact hno p (Function.update_self ..)
    rw [Function.update_of_ne hij] at hi
    refine h.parentless i hi hne (no_copy hno ?_)
    intro e
    rw [e] at hp
    cases hp
  · by_cases e : i=j
    · rw [e,Function.update_self]
    · rw [Function.update_of_ne e]
      exact (h.ages i).trans (Nat.le_succ _)
  · have e0 : 0≠j := by
      rintro rfl
      exact ht.init.1 hj
    rw [Function.update_of_ne e0]
    by_cases e : i=j
    · rw [e,Function.update_self]
      exact Nat.lt_succ_of_le (h.ages 0)
    · rw [Function.update_of_ne e] at hi ⊢
      exact h.root i hi hne
  · by_cases e' : e=p
    · rw [e',Function.update_self] at he
      exact absurd he id
    · rw [Function.update_of_ne e'] at he
      exact h.gone e i he

/-- The parents map stays locked, or unlocked, when a process moves on. -/
theorem Locked.setPc {lock : Option ℕ} (h : Locked pc lock) (hc : Holds c ↔ Holds (pc p)) :
    Locked (Function.update pc p c) lock := by
  intro i
  by_cases e : i=p
  · rw [e,Function.update_self,hc]
    exact h p
  · rw [Function.update_of_ne e]
    exact h i

/-- A process locks the parents map. -/
theorem Locked.take (h : Locked pc none) (hc : Holds c) :
    Locked (Function.update pc p c) (some p) := by
  intro i
  by_cases e : i=p
  · rw [e,Function.update_self]
    exact ⟨fun _ => hc,fun _ => rfl⟩
  · rw [Function.update_of_ne e,← h i]
    exact ⟨fun h => absurd (Option.some.inj h).symm e,nofun⟩

/-- It gives it back. -/
theorem Locked.release {lock : Option ℕ} (h : Locked pc lock) (hp : Holds (pc p)) (hc : ¬Holds c) :
    Locked (Function.update pc p c) none := by
  intro i
  by_cases e : i=p
  · rw [e,Function.update_self]
    exact ⟨nofun,fun h => absurd h hc⟩
  · rw [Function.update_of_ne e,← h i]
    have hl : lock=some p := (h p).mpr hp
    rw [hl]
    exact ⟨nofun,fun h => absurd (Option.some.inj h).symm e⟩

end Changes

section Operations

variable {s t : System} {p j k : ℕ} {c : Pc}

theorem state_setEntry (entry : ProcExcl) :
    (s.setEntry k entry).state=Function.update s.state k entry.state := by
  funext i
  rw [System.state,System.setEntry]
  by_cases e : i=k
  · rw [e]
    dsimp only
    rw [Function.update_self,Function.update_self]
  · dsimp only
    rw [Function.update_of_ne e,Function.update_of_ne e]
    rfl

theorem state_setState (v : ProcState) : (s.setState k v).state=Function.update s.state k v :=
  state_setEntry _

/-- A process that `fork` does not work for moves on, and the lock follows. -/
theorem Shape.enter (h : Shape s) {lock : Option ℕ} (hfit : Fits c (s.state p))
    (hne : Exiting c → p≠0) (hlock : Locked (Function.update s.pc p c) lock)
    (hold : childOf (s.pc p)=none) (hc : childOf c=none)
    (hgone : Leaving c → ∀ j,s.parents j≠some p) :
    Shape {s.setPc p c with parentsLock := lock} :=
  ⟨h.table,h.places.setPc hfit hne,hlock,h.queued,h.forks.setPc hc,h.tree.setPc hold hgone⟩

/-- The same without the lock. -/
theorem Shape.move (h : Shape s) (hfit : Fits c (s.state p)) (hne : Exiting c → p≠0)
    (hlock : Holds c ↔ Holds (s.pc p)) (hold : childOf (s.pc p)=none) (hc : childOf c=none)
    (hgone : Leaving c → ∀ j,s.parents j≠some p) : Shape (s.setPc p c) :=
  h.enter hfit hne (h.lock.setPc hlock) hold hc hgone

/-- An entry goes from one state in which it is alive to another. -/
theorem Shape.restate (h : Shape s) (hk : Alive (s.state k)) {v : ProcState} (hv : Alive v)
    (hfit : Fits (s.pc k) v) (hadd : ∀ p,s.pc p≠.forkAdd k)
    (hst : t.state=Function.update s.state k v) (hpc : t.pc=s.pc) (hpar : t.parents=s.parents)
    (hlock : t.parentsLock=s.parentsLock) (hq : Queued t.state t.queue)
    (hin : ∀ i∈t.queue,i∈s.queue ∨ i=k) (hb : t.birth=s.birth) (hcl : t.clock=s.clock) :
    Shape t := by
  refine ⟨?_,?_,?_,hq,?_,?_⟩
  · rw [hst]
    exact h.table.restate hk hv
  · rw [hst,hpc]
    exact h.places.restate hfit
  · rw [hpc,hlock]
    exact h.lock
  · rw [hst,hpc,hpar,hb]
    exact h.forks.restate hk hadd hin
  · rw [hst,hpc,hpar,hb,hcl]
    exact h.tree.restate hk hv

/-- No entry that runs or sleeps waits to be put into the queue. -/
theorem Shape.not_adding (h : Shape s) (hk : s.state k≠.runnable) : ∀ p,s.pc p≠.forkAdd k :=
  fun p hp => hk (h.forks.adding p k hp).1

/-- A sleeping process is alive, and can go on. -/
theorem Shape.sleeper (h : Shape s) (hk : s.state k=.sleeping) :
    Alive (s.state k) ∧ Fits (s.pc k) .runnable := by
  have hf := h.places.fits k
  rw [hk] at hf ⊢
  exact ⟨⟨by decide,by decide,by decide⟩,fits_wakeup hf⟩

/-- `wakeup` at an entry. -/
theorem Shape.wakeup (h : Shape s) (k channel : ℕ) : Shape (s.wakeup k channel) := by
  rw [System.wakeup]
  split
  · rename_i hk
    obtain ⟨ha,hf⟩ := h.sleeper hk.1
    have hnr : s.state k≠.runnable := by
      rw [hk.1]
      decide
    have hnq : k∉s.queue := fun hin => hnr (h.queued.ready k hin)
    have hst : ((s.setState k .runnable).enqueue k).state=Function.update s.state k .runnable :=
      state_setState _
    refine h.restate ha (v:=.runnable) ⟨by decide,by decide,by decide⟩ hf (h.not_adding hnr) hst
      rfl rfl rfl ?_ (fun i hi => ?_) rfl rfl
    · rw [hst]
      exact (h.queued.other hnr).add (Function.update_self ..) hnq
    · obtain hi | hi := List.mem_append.mp hi
      · exact .inl hi
      · exact .inr (List.mem_singleton.mp hi)
  · exact h

theorem wakeup_pc (k channel : ℕ) : (s.wakeup k channel).pc=s.pc := by
  rw [System.wakeup]
  split <;> rfl

theorem wakeup_parents (k channel : ℕ) : (s.wakeup k channel).parents=s.parents := by
  rw [System.wakeup]
  split <;> rfl

/-- A process that runs is not woken up. -/
theorem wakeup_running (hp : s.state p=.running) (k channel : ℕ) :
    (s.wakeup k channel).state p=.running := by
  rw [System.wakeup]
  split
  · rename_i hk
    have e : p≠k := by
      rintro rfl
      rw [hp] at hk
      cases hk.1
    have hst : ((s.setState k .runnable).enqueue k).state=Function.update s.state k .runnable :=
      state_setState _
    rw [hst,Function.update_of_ne e]
    exact hp
  · exact hp

/-- `exiting` wakes an entry up and goes on to the next. -/
theorem Shape.wakeup_next (h : Shape s) (hp : s.state p=.running) (hpc : Leaving (s.pc p))
    (hfit : Fits c .running) (hh : Holds c ↔ Holds (s.pc p)) (hold : childOf (s.pc p)=none)
    (hnew : childOf c=none) (h0 : p≠0) (k channel : ℕ) :
    Shape ((s.wakeup k channel).setPc p c) := by
  have hw := h.wakeup k channel
  have e := wakeup_pc (s:=s) k channel
  refine hw.move ?_ (fun _ => h0) (by rw [e]; exact hh) (by rw [e]; exact hold) hnew fun _ j => ?_
  · rw [wakeup_running hp]
    exact hfit
  · rw [wakeup_parents]
    exact h.tree.gone p j hpc

/-- A process that runs is alive. -/
theorem alive_running {v : ProcState} (h : v=.running) : Alive v := by
  rw [h]
  exact ⟨by decide,by decide,by decide⟩

/-- A process is taken from the queue. -/
theorem Shape.dispatch (h : Shape s) (hp : p∈s.queue) :
    Shape {s.setEntry p {s.table p with state := .running,channel := 0} with
      queue := s.queue.erase p} := by
  have hr := h.queued.ready p hp
  have hf : Fits (s.pc p) .running := by
    have hf := h.places.fits p
    rw [hr] at hf
    exact fits_dispatch hf
  have ha : Alive (s.state p) := by
    rw [hr]
    exact ⟨by decide,by decide,by decide⟩
  refine h.restate ha (alive_running rfl) hf (fun q hq => (h.forks.adding q p hq).2 hp)
    (state_setEntry _) rfl rfl rfl ⟨h.queued.nodup.erase p,fun i hi => ?_⟩
    (fun i hi => .inl (List.mem_of_mem_erase hi)) rfl rfl
  have hi' : i∈s.queue.erase p := hi
  have e : i≠p := by
    rintro rfl
    exact h.queued.nodup.not_mem_erase hi'
  have hst : ({s.setEntry p {s.table p with state := .running,channel := 0} with
      queue := s.queue.erase p} : System).state i=s.state i :=
    (congrFun (state_setEntry _) i).trans (Function.update_of_ne e ..)
  rw [hst]
  exact h.queued.ready i (List.mem_of_mem_erase hi')

/-- A running process goes to sleep. -/
theorem Shape.sleep (h : Shape s) (hp : s.state p=.running) (hf : Fits (s.pc p) .sleeping)
    (channel : ℕ) : Shape (s.sleep p channel) := by
  have hnr : s.state p≠.runnable := by
    rw [hp]
    decide
  refine h.restate (alive_running hp) (v:=.sleeping) ⟨by decide,by decide,by decide⟩ hf
    (h.not_adding hnr) (state_setEntry _) rfl rfl rfl ?_ (fun i hi => .inl hi) rfl rfl
  have hst : (s.sleep p channel).state=Function.update s.state p .sleeping := state_setEntry _
  rw [hst]
  exact h.queued.other hnr

/-- A running process that has not locked the parents map yields. -/
theorem Shape.yielding (h : Shape s) (hp : s.state p=.running) (hl : s.parentsLock≠some p) :
    Shape (s.yielding p) := by
  have hnr : s.state p≠.runnable := by
    rw [hp]
    decide
  have hnq : p∉s.queue := fun hin => hnr (h.queued.ready p hin)
  have hnh : ¬Holds (s.pc p) := fun hh => hl ((h.lock p).mpr hh)
  have hf : Fits (s.pc p) .runnable := by
    have hf := h.places.fits p
    rw [hp] at hf
    exact fits_yielding hf hnh
  have hst : (s.yielding p).state=Function.update s.state p .runnable := state_setState _
  refine h.restate (alive_running hp) (v:=.runnable) ⟨by decide,by decide,by decide⟩ hf
    (h.not_adding hnr) hst rfl rfl rfl ?_ (fun i hi => ?_) rfl rfl
  · rw [hst]
    exact (h.queued.other hnr).add (Function.update_self ..) hnq
  · obtain hi | hi := List.mem_append.mp hi
    · exact .inl hi
    · exact .inr (List.mem_singleton.mp hi)

/-- A fork starts. -/
theorem Shape.alloc (h : Shape s) (hp : s.state p=.running) (hpc : s.pc p=.user) (hb : j<nproc)
    (hj : s.state j=.unused) (pid : ℕ) : Shape ((s.alloc p j pid).setPc p (.forkCopy j)) := by
  have hst : ((s.alloc p j pid).setPc p (.forkCopy j)).state=
      Function.update s.state j .allocated := state_setEntry _
  have hnr : s.state j≠.runnable := by
    rw [hj]
    decide
  have hpj : s.pc j=.user := user_of_fits (h.places.fits j) (.inl hj)
  have hchild : childOf (s.pc p)=none := by rw [hpc]; rfl
  refine ⟨?_,?_,?_,?_,?_,?_⟩
  · rw [hst]
    exact h.table.alloc hj hb
  · rw [hst]
    have hpl : Places (Function.update s.state j .allocated) s.pc := h.places.restate (by
      rw [hpj]
      exact fun e => by cases e)
    refine hpl.setPc (.inl ?_) (fun e => absurd e id)
    have hpne : p≠j := by
      rintro rfl
      rw [hj] at hp
      cases hp
    rw [Function.update_of_ne hpne]
    exact hp
  · refine h.lock.setPc ?_
    rw [hpc]
    exact Iff.rfl
  · rw [hst]
    exact h.queued.other hnr
  · rw [hst]
    exact h.forks.alloc h.tree h.table hchild hp hj (by rw [hpj]; rfl)
  · rw [hst]
    exact h.tree.alloc h.table hchild hj

/-- `set_parent`. -/
theorem Shape.setParent (h : Shape s) (hp : s.state p=.running) (hpc : s.pc p=.forkCopy j) :
    Shape ((s.setParent j p).setPc p (.forkReady j)) := by
  refine ⟨h.table,h.places.setPc (.inl hp) (fun e => absurd e id),h.lock.setPc ?_,h.queued,
    h.forks.setParent hpc,h.tree.setParent h.forks hpc (alive_running hp)⟩
  rw [hpc]
  exact Iff.rfl

/-- `fork` is undone. -/
theorem Shape.undo (h : Shape s) (hp : s.state p=.running) (hpc : s.pc p=.forkCopy j) :
    Shape ((s.setEntry j .clean).setPc p .user) := by
  have hst : ((s.setEntry j .clean).setPc p .user).state=Function.update s.state j .unused :=
    state_setEntry _
  obtain ⟨hj,-,hj0,-⟩ := h.forks.copying p j hpc
  refine ⟨?_,?_,?_,?_,?_,?_⟩
  · rw [hst]
    refine ⟨fun i hi => ?_,?_⟩
    · by_cases e : i=j
      · rw [e,Function.update_self]
      · rw [Function.update_of_ne e]
        exact h.table.bound i hi
    · rw [Function.update_of_ne hj0.symm]
      exact h.table.init
  · rw [hst]
    have hpj : s.pc j=.user := user_of_fits (h.places.fits j) (.inr hj)
    have hpl : Places (Function.update s.state j .unused) s.pc := h.places.restate (by
      rw [hpj]
      exact fun e => by cases e)
    have hpne : p≠j := by
      rintro rfl
      rw [hj] at hp
      cases hp
    refine hpl.setPc ?_ (fun e => absurd e id)
    rw [Function.update_of_ne hpne,hp]
    exact fun e => by cases e
  · refine h.lock.setPc ?_
    rw [hpc]
    exact Iff.rfl
  · rw [hst]
    refine h.queued.other ?_
    rw [hj]
    decide
  · rw [hst]
    exact h.forks.undo hpc
  · rw [hst]
    exact h.tree.undo h.forks hpc

/-- The child that `fork` made is runnable. -/
theorem Shape.ready (h : Shape s) (hp : s.state p=.running) (hpc : s.pc p=.forkReady j) :
    Shape ((s.setState j .runnable).setPc p (.forkAdd j)) := by
  have hst : ((s.setState j .runnable).setPc p (.forkAdd j)).state=
      Function.update s.state j .runnable := state_setState _
  obtain ⟨hj,-⟩ := h.forks.readying p j hpc
  have hpj : s.pc j=.user := user_of_fits (h.places.fits j) (.inr hj)
  have hpne : p≠j := by
    rintro rfl
    rw [hj] at hp
    cases hp
  have hpl : Places (Function.update s.state j .runnable) s.pc := h.places.restate (by
    rw [hpj]
    exact fun e => by cases e)
  refine ⟨?_,?_,?_,?_,?_,?_⟩
  · rw [hst]
    exact h.table.ready hj
  · rw [hst]
    refine hpl.setPc (.inl ?_) (fun e => absurd e id)
    rw [Function.update_of_ne hpne]
    exact hp
  · refine h.lock.setPc ?_
    rw [hpc]
    exact Iff.rfl
  · rw [hst]
    refine h.queued.other ?_
    rw [hj]
    decide
  · rw [hst]
    exact h.forks.ready h.queued hpc
  · rw [hst]
    exact h.tree.ready hpc hj

/-- The child is put into the queue. -/
theorem Shape.add (h : Shape s) (hp : s.state p=.running) (hpc : s.pc p=.forkAdd j) :
    Shape ((s.enqueue j).setPc p .user) := by
  obtain ⟨hj,hn⟩ := h.forks.adding p j hpc
  have hfit : Fits .user (s.state p) := by
    rw [hp]
    exact fun e => by cases e
  refine ⟨h.table,h.places.setPc hfit (fun e => absurd e id),h.lock.setPc ?_,h.queued.add hj hn,
    h.forks.add hpc,h.tree.add hpc⟩
  rw [hpc]
  exact Iff.rfl

/-- The parents map is locked and the children are handed to init. -/
theorem Shape.reparent (h : Shape s) (hp : s.state p=.running) {pid : ℕ} {status : ℤ}
    (hpc : s.pc p=.exitLock pid status) (hl : s.parentsLock=none) (k : ℕ) :
    Shape (((s.reparent p).lockParents p).setPc p (.wakeInit pid status k)) := by
  have hchild : childOf (s.pc p)=none := by rw [hpc]; rfl
  have hp0 : p≠0 := h.places.notInit p (by rw [hpc]; trivial)
  have hrep : Shape (s.reparent p) :=
    ⟨h.table,h.places,h.lock,h.queued,h.forks.reparent hchild,h.tree.reparent h.table h.places p⟩
  have hlock : Locked s.pc none := by
    rw [← hl]
    exact h.lock
  exact hrep.enter hp (fun _ => hp0) (hlock.take (by trivial)) hchild rfl
    fun _ j => reparent_gone hp0

/-- A process becomes a zombie. -/
theorem Shape.die (h : Shape s) {pid parent : ℕ} {status : ℤ}
    (hpc : s.pc p=.wakeParent pid status parent k) :
    Shape ((s.die p pid status).setPc p .exitUnlock) := by
  have hst : ((s.die p pid status).setPc p .exitUnlock).state=Function.update s.state p .zombie :=
    state_setEntry _
  have hp : s.state p=.running := by
    have hf := h.places.fits p
    rw [hpc] at hf
    exact hf
  have hp0 : p≠0 := h.places.notInit p (by rw [hpc]; trivial)
  have hchild : childOf (s.pc p)=none := by rw [hpc]; rfl
  have hno : ∀ j,s.parents j≠some p := fun j => h.tree.gone p j (by rw [hpc]; trivial)
  refine ⟨?_,?_,?_,?_,?_,?_⟩
  · rw [hst]
    exact h.table.die hp hp0
  · rw [hst]
    exact h.places.die hp0
  · refine h.lock.setPc ?_
    rw [hpc]
    exact Iff.rfl
  · rw [hst]
    refine h.queued.other ?_
    rw [hp]
    decide
  · rw [hst]
    exact (h.forks.die hp).setPc rfl
  · rw [hst]
    exact (h.tree.die hp hno).setPc hchild fun _ => hno

/-- A zombie that has given the parents map back is where it stays. -/
theorem Shape.exited (h : Shape s) (hk : s.state k=.zombie) (hl : s.parentsLock≠some k) :
    s.pc k=.exited := by
  have hf := h.places.fits k
  have hn : ¬Holds (s.pc k) := fun hh => hl ((h.lock k).mpr hh)
  rw [hk] at hf
  cases hc : s.pc k with
  | exited => rfl
  | exitUnlock =>
    rw [hc] at hn
    exact absurd trivial hn
  | _ =>
    rw [hc] at hf
    exact absurd hf (by simp [Fits])

/-- A zombie is cleaned up. -/
theorem Shape.reap (h : Shape s) (hk : s.state k=.zombie) (hl : s.parentsLock≠some k) (p : ℕ) :
    Shape (s.reap p k) := by
  have hst : (s.reap p k).state=Function.update s.state k .unused := state_setEntry _
  have hpc := h.exited hk hl
  refine ⟨?_,?_,?_,?_,?_,?_⟩
  · rw [hst]
    exact h.table.reap hk
  · rw [hst]
    exact h.places.reset
  · refine h.lock.setPc ?_
    rw [hpc]
    exact Iff.rfl
  · rw [hst]
    refine h.queued.other ?_
    rw [hk]
    decide
  · rw [hst]
    exact (h.forks.reap hk).setPc rfl
  · rw [hst]
    exact (h.tree.reap hk).setPc (by rw [hpc]; rfl) (fun e => absurd e id)

/-- The holder of the parents map goes back to the user. -/
theorem Shape.leave (h : Shape s) (hp : s.state p=.running) (hh : Holds (s.pc p))
    (hold : childOf (s.pc p)=none) : Shape (s.unlockParents.setPc p .user) := by
  have hfit : Fits .user (s.state p) := by
    rw [hp]
    exact fun e => by cases e
  exact h.enter hfit (fun e => absurd e id) (h.lock.release hh id) hold rfl (fun e => absurd e id)

/-- `waiting` locks the parents map. -/
theorem Shape.take (h : Shape s) (hp : s.state p=.running) (hl : s.parentsLock=none)
    (hold : childOf (s.pc p)=none) : Shape ((s.lockParents p).setPc p (.scan 0 false)) := by
  have hlock : Locked s.pc none := by
    rw [← hl]
    exact h.lock
  exact h.enter hp (fun e => absurd e id) (hlock.take (by trivial)) hold rfl
    (fun e => absurd e id)

/-- `waiting` goes to sleep. -/
theorem Shape.rest (h : Shape s) (hp : s.state p=.running) {b : Bool} (hpc : s.pc p=.scan k b) :
    Shape ((s.sleep p (channelOf p)).unlockParents.setPc p .waitAgain) := by
  have hold : childOf (s.pc p)=none := by rw [hpc]; rfl
  have hl := h.lock.release (p:=p) (c:=.waitAgain) (by rw [hpc]; trivial) id
  have hmove : Shape (s.unlockParents.setPc p .waitAgain) :=
    h.enter (.inr (.inr hp)) (fun e => absurd e id) hl hold rfl (fun e => absurd e id)
  have hfit : Fits ((s.unlockParents.setPc p .waitAgain).pc p) .sleeping := by
    have e : (s.unlockParents.setPc p .waitAgain).pc p=.waitAgain := Function.update_self ..
    rw [e]
    exact .inl rfl
  exact hmove.sleep hp hfit (channelOf p)

/-- The next section of a process keeps the shape, and fails no assertion. -/
theorem go_shape {copied killed : Bool} (h : Shape s)
    (hp : s.state p=.running ∨ s.pc p=.exitUnlock) :
    (∀ e,go s p copied killed≠.fault e) ∧ ∀ t,go s p copied killed=.next t → Shape t := by
  have hrun : s.pc p≠.exitUnlock → s.state p=.running := fun hne => hp.resolve_right hne
  cases hpc : s.pc p with
  | user =>
    simp only [go,hpc]
    exact ⟨nofun,nofun⟩
  | forkCopy j =>
    have hr := hrun (by rw [hpc]; nofun)
    simp only [go,hpc]
    split
    · split
      · exact ⟨nofun,nofun⟩
      · split
        · rename_i hpar
          exact absurd (h.forks.copying p j hpc).2.1 hpar
        · refine ⟨nofun,fun t ht => ?_⟩
          cases ht
          exact h.setParent hr hpc
    · split
      · exact ⟨nofun,nofun⟩
      · refine ⟨nofun,fun t ht => ?_⟩
        cases ht
        exact h.undo hr hpc
  | forkReady j =>
    have hr := hrun (by rw [hpc]; nofun)
    simp only [go,hpc]
    split
    · exact ⟨nofun,nofun⟩
    · refine ⟨nofun,fun t ht => ?_⟩
      cases ht
      exact h.ready hr hpc
  | forkAdd j =>
    have hr := hrun (by rw [hpc]; nofun)
    simp only [go,hpc]
    refine ⟨nofun,fun t ht => ?_⟩
    cases ht
    exact h.add hr hpc
  | exitLock pid status =>
    have hr := hrun (by rw [hpc]; nofun)
    simp only [go,hpc]
    split
    · exact ⟨nofun,nofun⟩
    · rename_i hl
      refine ⟨nofun,fun t ht => ?_⟩
      cases ht
      exact h.reparent hr hpc (not_not.mp hl) _
  | wakeInit pid status k =>
    have hr := hrun (by rw [hpc]; nofun)
    have hp0 : p≠0 := h.places.notInit p (by rw [hpc]; trivial)
    have hno : ∀ j,s.parents j≠some p := fun j => h.tree.gone p j (by rw [hpc]; trivial)
    simp only [go,hpc]
    split
    · split
      · exact ⟨nofun,nofun⟩
      · refine ⟨nofun,fun t ht => ?_⟩
        cases ht
        exact h.wakeup_next hr (by rw [hpc]; trivial) (by exact rfl) (by rw [hpc]; exact Iff.rfl)
          (by rw [hpc]; rfl) rfl hp0 k _
    · split
      · rename_i hpar
        refine absurd hpar (h.tree.parentless p ?_ hp0 ?_)
        · rw [hr]
          decide
        · intro q hq
          have hst := (h.forks.copying q p hq).1
          rw [hr] at hst
          cases hst
      · rename_i parent hpar
        refine ⟨nofun,fun t ht => ?_⟩
        cases ht
        exact h.move hr (fun _ => hp0) (by rw [hpc]; exact Iff.rfl) (by rw [hpc]; rfl) rfl
          fun _ => hno
  | wakeParent pid status parent k =>
    have hr := hrun (by rw [hpc]; nofun)
    have hp0 : p≠0 := h.places.notInit p (by rw [hpc]; trivial)
    have hno : ∀ j,s.parents j≠some p := fun j => h.tree.gone p j (by rw [hpc]; trivial)
    simp only [go,hpc]
    split
    · split
      · exact ⟨nofun,nofun⟩
      · refine ⟨nofun,fun t ht => ?_⟩
        cases ht
        exact h.wakeup_next hr (by rw [hpc]; trivial) (by exact rfl) (by rw [hpc]; exact Iff.rfl)
          (by rw [hpc]; rfl) rfl hp0 k _
    · split
      · exact ⟨nofun,nofun⟩
      · refine ⟨nofun,fun t ht => ?_⟩
        cases ht
        exact h.die hpc
  | exitUnlock =>
    simp only [go,hpc]
    refine ⟨nofun,fun t ht => ?_⟩
    cases ht
    have hf := h.places.fits p
    have hp0 : p≠0 := h.places.notInit p (by rw [hpc]; trivial)
    rw [hpc] at hf
    exact h.enter hf (fun _ => hp0) (h.lock.release (by rw [hpc]; trivial) id) (by rw [hpc]; rfl)
      rfl fun _ j => h.tree.gone p j (by rw [hpc]; trivial)
  | exited =>
    simp only [go,hpc]
    exact ⟨nofun,nofun⟩
  | waitLock =>
    have hr := hrun (by rw [hpc]; nofun)
    simp only [go,hpc]
    split
    · exact ⟨nofun,nofun⟩
    · rename_i hl
      refine ⟨nofun,fun t ht => ?_⟩
      cases ht
      exact h.take hr (not_not.mp hl) (by rw [hpc]; rfl)
  | waitAgain =>
    have hr := hrun (by rw [hpc]; nofun)
    simp only [go,hpc]
    split
    · exact ⟨nofun,nofun⟩
    · rename_i hl
      refine ⟨nofun,fun t ht => ?_⟩
      cases ht
      exact h.take hr (not_not.mp hl) (by rw [hpc]; rfl)
  | scan k haveChild =>
    have hr := hrun (by rw [hpc]; nofun)
    have hh : Holds (s.pc p) := by
      rw [hpc]
      trivial
    have hold : childOf (s.pc p)=none := by rw [hpc]; rfl
    have hnext : ∀ b,Shape (s.setPc p (.scan (k+1) b)) := fun b =>
      h.move hr (fun e => absurd e id) (by rw [hpc]; exact Iff.rfl) hold rfl (fun e => absurd e id)
    simp only [go,hpc]
    split
    · split
      · refine ⟨nofun,fun t ht => ?_⟩
        cases ht
        exact hnext haveChild
      split
      · exact ⟨nofun,nofun⟩
      split
      · refine ⟨nofun,fun t ht => ?_⟩
        cases ht
        exact hnext true
      · rename_i hz
        split
        · refine ⟨nofun,fun t ht => ?_⟩
          cases ht
          exact h.leave hr hh hold
        · refine ⟨nofun,fun t ht => ?_⟩
          cases ht
          have hz' : s.state k=.zombie := not_not.mp hz
          have hne : p≠k := by
            rintro rfl
            rw [hr] at hz'
            cases hz'
          have hl : s.parentsLock=some p := (h.lock p).mpr hh
          have hlk : s.parentsLock≠some k := by
            rw [hl]
            exact fun e => hne (Option.some.inj e)
          have hpc' : (s.reap p k).pc p=s.pc p := Function.update_of_ne hne ..
          have hst : (s.reap p k).state p=s.state p :=
            (congrFun (state_setEntry _) p).trans (Function.update_of_ne hne ..)
          exact (h.reap hz' hlk p).leave (hst.trans hr) (by rw [hpc']; exact hh)
            (by rw [hpc']; exact hold)
    · split
      · refine ⟨nofun,fun t ht => ?_⟩
        cases ht
        exact h.leave hr hh hold
      split
      · exact ⟨nofun,nofun⟩
      · refine ⟨nofun,fun t ht => ?_⟩
        cases ht
        exact h.rest hr hpc

/-- A step keeps the shape, and fails neither the assertion of `set_parent` nor the `unwrap` of
`exiting`. -/
theorem step_shape {a : Label} (h : Shape s) :
    step s a≠.fault .parentSet ∧ step s a≠.fault .noParent ∧ ∀ t,step s a=.next t → Shape t := by
  cases a with
  | fork p j pid =>
    rw [step]
    split
    · rename_i hc
      obtain ⟨hp,hpc,hb,hj,-⟩ := hc
      refine ⟨nofun,nofun,fun t ht => ?_⟩
      cases ht
      exact h.alloc hp hpc hb hj pid
    · exact ⟨nofun,nofun,nofun⟩
  | exit p status =>
    rw [step]
    split
    · rename_i hc
      split
      · exact ⟨nofun,nofun,nofun⟩
      · rename_i h0
        refine ⟨nofun,nofun,fun t ht => ?_⟩
        cases ht
        exact h.move (.inl hc.1) (fun _ => h0) (by rw [hc.2]; exact Iff.rfl) (by rw [hc.2]; rfl) rfl
          (fun e => absurd e id)
    · exact ⟨nofun,nofun,nofun⟩
  | wait p =>
    rw [step]
    split
    · rename_i hc
      refine ⟨nofun,nofun,fun t ht => ?_⟩
      cases ht
      exact h.move (.inl hc.1) (fun e => absurd e id) (by rw [hc.2]; exact Iff.rfl)
        (by rw [hc.2]; rfl) rfl (fun e => absurd e id)
    · exact ⟨nofun,nofun,nofun⟩
  | go p copied killed =>
    rw [step]
    split
    · rename_i hc
      obtain ⟨h1,h2⟩ := @go_shape s p copied killed h hc
      exact ⟨h1 _,h1 _,h2⟩
    · exact ⟨nofun,nofun,nofun⟩
  | sleepOn p channel =>
    rw [step]
    split
    · rename_i hc
      refine ⟨nofun,nofun,fun t ht => ?_⟩
      cases ht
      refine h.sleep hc.1 ?_ channel
      rw [hc.2.1]
      exact fun e => by cases e
    · exact ⟨nofun,nofun,nofun⟩
  | wakeOn p channel =>
    rw [step]
    split
    · refine ⟨nofun,nofun,fun t ht => ?_⟩
      cases ht
      exact h.wakeup p channel
    · exact ⟨nofun,nofun,nofun⟩
  | yielding p =>
    rw [step]
    split
    · rename_i hc
      refine ⟨nofun,nofun,fun t ht => ?_⟩
      cases ht
      exact h.yielding hc.1 hc.2
    · exact ⟨nofun,nofun,nofun⟩
  | switched p =>
    rw [step]
    split
    · refine ⟨nofun,nofun,fun t ht => ?_⟩
      cases ht
      exact ⟨h.table,h.places,h.lock,h.queued,h.forks,h.tree⟩
    · exact ⟨nofun,nofun,nofun⟩
  | dispatch p =>
    rw [step]
    split
    · rename_i hc
      refine ⟨nofun,nofun,fun t ht => ?_⟩
      cases ht
      exact h.dispatch hc.1
    · exact ⟨nofun,nofun,nofun⟩

/-- The processes start in shape. -/
theorem start_shape (pid : ℕ) : Shape (start pid) := by
  have hst : ∀ i,(start pid).state i=if i=0 then .runnable else .unused := by
    intro i
    simp only [System.state,start]
    split <;> rfl
  have h0 : ∀ i,(start pid).state i≠.unused → i=0 := by
    intro i hi
    rw [hst] at hi
    by_contra hne
    exact hi (if_neg hne)
  refine ⟨⟨fun i hi => ?_,?_⟩,⟨fun i => ?_,fun i hi => ?_⟩,fun i => ?_,⟨?_,fun i hi => ?_⟩,?_,?_⟩
  · have hne : i≠0 := by
      rintro rfl
      exact absurd hi (by decide)
    rw [hst,if_neg hne]
  · rw [hst]
    exact ⟨by decide,by decide,by decide⟩
  · rw [hst]
    split <;> exact fun e => by cases e
  · exact absurd hi id
  · exact ⟨nofun,fun h => absurd h id⟩
  · exact List.nodup_singleton 0
  · rw [hst,List.mem_singleton.mp hi]
    rfl
  · exact ⟨nofun,nofun,nofun,nofun⟩
  · exact ⟨nofun,fun j hj hne => absurd (h0 j hj) hne,fun _ => le_refl _,
      fun j hj hne => absurd (h0 j hj) hne,fun _ _ h => absurd h id⟩

/-- Every state that is reached is in shape. -/
theorem run_shape {pid : ℕ} {as : List Label} (h : run step (start pid) as=.next s) : Shape s :=
  run_invariant (fun _ a t hs (_ : True) ht => (@step_shape _ a hs).2.2 t ht) (start_shape pid)
    (guarded_of_forall (fun _ _ => trivial) _ _) h

/-- Whoever is above another is older. -/
theorem Shape.older (h : Shape s) {i p : ℕ} (hip : Relation.TransGen (fun j q => s.parents j=some q)
    i p) : s.birth p < s.birth i := by
  induction hip with
  | single hp => exact (h.tree.parented i _ hp).2.2.1
  | tail _ hp ih => exact (h.tree.parented _ _ hp).2.2.1.trans ih

/-- Parents lead to init, from entry to entry in use. -/
theorem Shape.reaches (h : Shape s) (hfork : ∀ p j,s.pc p≠.forkCopy j) {i : ℕ}
    (hi : s.state i≠.unused) : Relation.ReflTransGen (fun j q => s.parents j=some q) i 0 := by
  induction hb : s.birth i using Nat.strong_induction_on generalizing i with
  | _ b ih =>
    by_cases h0 : i=0
    · rw [h0]
    · obtain ⟨p,hp⟩ := Option.ne_none_iff_exists'.mp
        (h.tree.parentless i hi h0 fun q => hfork q i)
      obtain ⟨-,-,hage,halive⟩ := h.tree.parented i p hp
      exact .head hp (ih _ (hb ▸ hage) halive.1 rfl)

/-- The assertion of `set_parent` and the `unwrap` of `exiting` do not fail; and while `fork` is
not between `alloc_proc` and `set_parent`, the entries in use other than init are those that have
a parent, a parent is neither free nor a zombie, and parents lead to init without a cycle. -/
theorem parents_form_tree (pid : ℕ) (as : List Label) (s : System)
    (h : run step (start pid) as=.next s) :
    (∀ a,step s a≠.fault .parentSet ∧ step s a≠.fault .noParent) ∧
      ((∀ p j,s.pc p≠.forkCopy j) →
        (∀ i,s.parents i≠none ↔ s.state i≠.unused ∧ i≠0) ∧
        (∀ i p,s.parents i=some p → s.state p≠.unused ∧ s.state p≠.zombie) ∧
        (∀ i,s.state i≠.unused →
          Relation.ReflTransGen (fun j p => s.parents j=some p) i 0) ∧
        ∀ i,¬Relation.TransGen (fun j p => s.parents j=some p) i i) := by
  have hs := run_shape h
  refine ⟨fun a => ?_,fun hfork => ⟨fun i => ⟨fun hne => ?_,fun hi => ?_⟩,fun i p hp => ?_,
    fun i hi => hs.reaches hfork hi,fun i hcycle => lt_irrefl _ (hs.older hcycle)⟩⟩
  · obtain ⟨h1,h2,-⟩ := step_shape (a:=a) hs
    exact ⟨h1,h2⟩
  · obtain ⟨p,hp⟩ := Option.ne_none_iff_exists'.mp hne
    obtain ⟨hused,h0,-⟩ := hs.tree.parented i p hp
    exact ⟨hused,h0⟩
  · exact hs.tree.parentless i hi.1 hi.2 fun q => hfork q i
  · obtain ⟨-,-,-,halive⟩ := hs.tree.parented i p hp
    exact ⟨halive.1,halive.2.1⟩

/-- Init forks a child, which forks another. -/
def grandchild : List Label :=
  [.dispatch 0,.fork 0 1 2,.go 0 true false,.go 0 true false,.go 0 true false,.dispatch 1,
    .fork 1 2 3,.go 1 true false,.go 1 true false,.go 1 true false]

theorem parents_form_tree_grandchild :
    ∃ s,run step (start 1) grandchild=.next s ∧ s.parents 2=some 1 ∧
      Relation.ReflTransGen (fun j p => s.parents j=some p) 2 0 := by
  obtain ⟨s,hs,htest⟩ := Outcome.exists_of_test (o:=run step (start 1) grandchild)
    (p:=fun s => s.parents 2==some 1 && s.state 2==.runnable &&
      (List.range nproc).all fun p => s.pc p==.user) (by decide +kernel)
  simp only [Bool.and_eq_true,beq_iff_eq,List.all_eq_true,List.mem_range] at htest
  obtain ⟨⟨hparent,hstate⟩,huser⟩ := htest
  have hfork : ∀ p j,s.pc p≠.forkCopy j := by
    intro p j hp
    by_cases hb : p < nproc
    · rw [huser p hb] at hp
      cases hp
    · have hs := run_shape hs
      have hfits := hs.places.fits p
      rw [hs.table.bound p (by omega),hp] at hfits
      exact hfits.elim nofun nofun
  refine ⟨s,hs,hparent,((parents_form_tree 1 grandchild s hs).2 hfork).2.2.1 2 ?_⟩
  rw [hstate]
  nofun

end Operations

end Xv6Rust.ParentTree

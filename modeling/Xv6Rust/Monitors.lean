import Xv6Rust.Runs

/-!
# Sections that sleep

Threads enter a section under a lock, one at a time. Inside, a thread changes the data that the
lock protects, wakes the sleepers of a channel one entry of the table after the other, goes to
sleep on a channel, or leaves. Who goes to sleep takes the lock of its own entry, gives the lock of
the section up, and only then counts as asleep; nobody can wake it in between, because its entry
is locked. The rule at the end says when no sleeper is forgotten: whoever makes the reason to
sleep on a channel go away owes a wake-up of it, and pays before it gives the lock up.
-/

namespace Xv6Rust.Monitors

open Runs

/-- What a thread inside does next. -/
inductive Act (κ σ τ : Type*) where
  /-- Change the data. -/
  | update (data : σ) (t : τ)
  /-- Wake the sleepers of a channel. -/
  | wake (channel : κ) (t : τ)
  /-- Sleep on a channel, and enter again. -/
  | sleep (channel : κ) (t : τ)
  /-- Give the lock up. -/
  | leave (t : τ)

/-- The code of a thread: `τ` is where it is in it, `ι` what it learns from outside. -/
structure Program (κ σ τ ι : Type*) where
  /-- A call that a thread outside may make. -/
  enters : τ → τ → Bool
  /-- What a thread inside does, given whether it is killed. -/
  next : Bool → ι → τ → σ → Act κ σ τ

/-- Where a thread is. -/
inductive Place (κ τ : Type*) where
  /-- Outside. -/
  | out (t : τ)
  /-- It waits for the lock. -/
  | entering (t : τ)
  /-- Inside, with the lock. -/
  | inside (t : τ)
  /-- In `wakeup`, with the lock, at an entry of the table. -/
  | waking (channel : κ) (k : ℕ) (t : τ)
  /-- In `sleep`, with the lock. -/
  | parking (channel : κ) (t : τ)
  /-- In `sleep`, with the lock and that of its entry. -/
  | parked (channel : κ) (t : τ)
  /-- In `sleep`, with the lock of its entry. -/
  | falling (channel : κ) (t : τ)
  /-- Asleep. -/
  | asleep (channel : κ) (t : τ)
  /-- Awake again. -/
  | woken (t : τ)

/-- Data under a lock, and threads. -/
structure System (κ σ τ : Type*) where
  /-- The data. -/
  data : σ
  /-- Who has the lock. -/
  lock : Option ℕ
  /-- Places of the threads. -/
  places : ℕ → Place κ τ
  /-- Who is killed. -/
  killed : ℕ → Bool

/-- Steps of the threads. -/
inductive Label (τ ι : Type*) where
  /-- A call. -/
  | call (p : ℕ) (t : τ)
  /-- The lock is taken. -/
  | take (p : ℕ)
  /-- A step inside. -/
  | act (p : ℕ) (x : ι)
  /-- `wakeup` looks at an entry. -/
  | wake (p : ℕ)
  /-- `sleep` takes the lock of the entry. -/
  | park (p : ℕ)
  /-- `sleep` gives the lock up. -/
  | drop (p : ℕ)
  /-- `sleep` switches away. -/
  | fall (p : ℕ)
  /-- A thread that is awake goes on. -/
  | resume (p : ℕ)
  /-- `kill`. -/
  | kill (p : ℕ)

variable {κ σ τ ι : Type*}

namespace System

variable (s : System κ σ τ)

/-- Move a thread. -/
def move (p : ℕ) (v : Place κ τ) : System κ σ τ := {s with places := Function.update s.places p v}

/-- Move a thread that gives the lock up. -/
def free (p : ℕ) (v : Place κ τ) : System κ σ τ := {s.move p v with lock := none}

end System

/-- The entry of a sleeper of a channel gets ready. -/
def Place.rouse [DecidableEq κ] (channel : κ) : Place κ τ → Place κ τ
  | .asleep c t => if c=channel then .woken t else .asleep c t
  | v => v

/-- The lock of the entry is taken. -/
def Place.locked : Place κ τ → Bool
  | .parked _ _ => true
  | .falling _ _ => true
  | _ => false

/-- A step, in a table of `n` entries. -/
def step [DecidableEq κ] (prog : Program κ σ τ ι) (n : ℕ) (s : System κ σ τ) :
    Label τ ι → Outcome Empty (System κ σ τ)
  | .call p t =>
    match s.places p with
    | .out u => if p < n ∧ prog.enters u t=true then .next (s.move p (.entering t)) else .blocked
    | _ => .blocked
  | .take p =>
    match s.places p with
    | .entering t => if s.lock=none then .next {s.move p (.inside t) with lock := some p} else .blocked
    | _ => .blocked
  | .act p x =>
    match s.places p with
    | .inside t =>
      match prog.next (s.killed p) x t s.data with
      | .update data t => .next {s.move p (.inside t) with data := data}
      | .wake c t => .next (s.move p (.waking c 0 t))
      | .sleep c t => .next (s.move p (.parking c t))
      | .leave t => .next (s.free p (.out t))
    | _ => .blocked
  | .wake p =>
    match s.places p with
    | .waking c k t =>
      if k < n then
        if (s.places k).locked=true then .blocked
        else .next ((s.move k ((s.places k).rouse c)).move p (.waking c (k+1) t))
      else .next (s.move p (.inside t))
    | _ => .blocked
  | .park p =>
    match s.places p with
    | .parking c t => .next (s.move p (.parked c t))
    | _ => .blocked
  | .drop p =>
    match s.places p with
    | .parked c t => .next (s.free p (.falling c t))
    | _ => .blocked
  | .fall p =>
    match s.places p with
    | .falling c t => .next (s.move p (.asleep c t))
    | _ => .blocked
  | .resume p =>
    match s.places p with
    | .woken t => .next (s.move p (.entering t))
    | _ => .blocked
  | .kill p =>
    if (s.places p).locked=true then .blocked
    else
      match s.places p with
      | .asleep _ t => .next {s.move p (.woken t) with killed := Function.update s.killed p true}
      | _ => .next {s with killed := Function.update s.killed p true}

/-- What each step does when it is taken. -/
inductive Change [DecidableEq κ] (prog : Program κ σ τ ι) (n : ℕ) (s : System κ σ τ) :
    Label τ ι → System κ σ τ → Prop
  /-- A thread outside makes a call. -/
  | call {p : ℕ} {t u : τ} (place : s.places p=.out u) (entry : p < n)
      (enters : prog.enters u t=true) : Change prog n s (.call p t) (s.move p (.entering t))
  /-- A thread takes the lock. -/
  | take {p : ℕ} {t : τ} (place : s.places p=.entering t) (free : s.lock=none) :
      Change prog n s (.take p) {s.move p (.inside t) with lock := some p}
  /-- The thread inside changes the data. -/
  | update {p : ℕ} {x : ι} {data : σ} {t u : τ} (place : s.places p=.inside t)
      (act : prog.next (s.killed p) x t s.data=.update data u) :
      Change prog n s (.act p x) {s.move p (.inside u) with data := data}
  /-- It begins to wake the sleepers of a channel. -/
  | notify {p : ℕ} {x : ι} {c : κ} {t u : τ} (place : s.places p=.inside t)
      (act : prog.next (s.killed p) x t s.data=.wake c u) :
      Change prog n s (.act p x) (s.move p (.waking c 0 u))
  /-- It begins to sleep. -/
  | sleep {p : ℕ} {x : ι} {c : κ} {t u : τ} (place : s.places p=.inside t)
      (act : prog.next (s.killed p) x t s.data=.sleep c u) :
      Change prog n s (.act p x) (s.move p (.parking c u))
  /-- It gives the lock up. -/
  | leave {p : ℕ} {x : ι} {t u : τ} (place : s.places p=.inside t)
      (act : prog.next (s.killed p) x t s.data=.leave u) :
      Change prog n s (.act p x) (s.free p (.out u))
  /-- `wakeup` looks at an entry that is not locked. -/
  | rouse {p : ℕ} {c : κ} {k : ℕ} {t : τ} (place : s.places p=.waking c k t) (entry : k < n)
      (unlocked : (s.places k).locked≠true) :
      Change prog n s (.wake p) ((s.move k ((s.places k).rouse c)).move p (.waking c (k+1) t))
  /-- `wakeup` returns. -/
  | woke {p : ℕ} {c : κ} {k : ℕ} {t : τ} (place : s.places p=.waking c k t) (past : n ≤ k) :
      Change prog n s (.wake p) (s.move p (.inside t))
  /-- `sleep` takes the lock of the entry. -/
  | park {p : ℕ} {c : κ} {t : τ} (place : s.places p=.parking c t) :
      Change prog n s (.park p) (s.move p (.parked c t))
  /-- `sleep` gives the lock up. -/
  | drop {p : ℕ} {c : κ} {t : τ} (place : s.places p=.parked c t) :
      Change prog n s (.drop p) (s.free p (.falling c t))
  /-- `sleep` switches away. -/
  | fall {p : ℕ} {c : κ} {t : τ} (place : s.places p=.falling c t) :
      Change prog n s (.fall p) (s.move p (.asleep c t))
  /-- A thread that is awake goes on. -/
  | resume {p : ℕ} {t : τ} (place : s.places p=.woken t) :
      Change prog n s (.resume p) (s.move p (.entering t))
  /-- `kill` finds a sleeper. -/
  | killAsleep {p : ℕ} {c : κ} {t : τ} (place : s.places p=.asleep c t) :
      Change prog n s (.kill p)
        {s.move p (.woken t) with killed := Function.update s.killed p true}
  /-- `kill` finds any other thread. -/
  | kill {p : ℕ} : Change prog n s (.kill p) {s with killed := Function.update s.killed p true}

/-- Every step that is taken is one of these. -/
theorem step_change [DecidableEq κ] {prog : Program κ σ τ ι} {n : ℕ} {s t : System κ σ τ}
    {a : Label τ ι} (h : step prog n s a=.next t) : Change prog n s a t := by
  cases a with
  | call p u =>
    rw [step] at h
    split at h
    · rename_i u' hp
      split at h
      · rename_i hc
        cases h
        exact .call hp hc.1 hc.2
      · cases h
    · cases h
  | take p =>
    rw [step] at h
    split at h
    · rename_i u hp
      split at h
      · rename_i hfree
        cases h
        exact .take hp hfree
      · cases h
    · cases h
  | act p x =>
    rw [step] at h
    split at h
    · rename_i u hp
      split at h
      · rename_i data u' hact
        cases h
        exact .update hp hact
      · rename_i c u' hact
        cases h
        exact .notify hp hact
      · rename_i c u' hact
        cases h
        exact .sleep hp hact
      · rename_i u' hact
        cases h
        exact .leave hp hact
    · cases h
  | wake p =>
    rw [step] at h
    split at h
    · rename_i c k u hp
      split at h
      · rename_i hk
        split at h
        · cases h
        · rename_i hlocked
          cases h
          exact .rouse hp hk hlocked
      · rename_i hend
        cases h
        exact .woke hp (not_lt.mp hend)
    · cases h
  | park p =>
    rw [step] at h
    split at h
    · rename_i c u hp
      cases h
      exact .park hp
    · cases h
  | drop p =>
    rw [step] at h
    split at h
    · rename_i c u hp
      cases h
      exact .drop hp
    · cases h
  | fall p =>
    rw [step] at h
    split at h
    · rename_i c u hp
      cases h
      exact .fall hp
    · cases h
  | resume p =>
    rw [step] at h
    split at h
    · rename_i u hp
      cases h
      exact .resume hp
    · cases h
  | kill p =>
    rw [step] at h
    split at h
    · cases h
    · split at h
      · rename_i c u hp
        cases h
        exact .killAsleep hp
      · cases h
        exact .kill

/-- The thread has the lock. -/
def Place.Holds : Place κ τ → Prop
  | .inside _ => True
  | .waking _ _ _ => True
  | .parking _ _ => True
  | .parked _ _ => True
  | _ => False

/-- The thread is in `sleep` on a channel, before it gives the lock up. -/
def Place.Parks (c : κ) : Place κ τ → Prop
  | .parking c' _ => c'=c
  | .parked c' _ => c'=c
  | _ => False

/-- The thread is in `sleep` on a channel, and has given the lock up. -/
def Place.Sleeps (c : κ) : Place κ τ → Prop
  | .falling c' _ => c'=c
  | .asleep c' _ => c'=c
  | _ => False

/-- The thread is outside. -/
def Place.Out : Place κ τ → Prop
  | .out _ => True
  | _ => False

/-- The thread will wake entry `q` if it sleeps on the channel. -/
def Place.Owes (owes : τ → κ → Prop) (c : κ) (q : ℕ) : Place κ τ → Prop
  | .inside t => owes t c
  | .waking c' k t => (c'=c ∧ k ≤ q) ∨ owes t c
  | _ => False

/-- An act is right: who sleeps has a reason, a reason that goes away is owed, and nothing is owed
when the lock is given up. -/
def Pays (reason : κ → σ → Prop) (owes : τ → κ → Prop) (data : σ) (t : τ) : Act κ σ τ → Prop
  | .update data' t' => ∀ c,reason c data ∨ owes t c → reason c data' ∨ owes t' c
  | .wake c' t' => ∀ c,owes t c → c'=c ∨ owes t' c
  | .sleep c' _ => reason c' data ∧ ∀ c,owes t c → reason c data
  | .leave _ => ∀ c,owes t c → reason c data

/-- One thread has the lock, and every sleeper has a reason to sleep or will be woken. -/
structure Inv (reason : κ → σ → Prop) (owes : τ → κ → Prop) (n : ℕ) (s : System κ σ τ) : Prop where
  /-- Who has the lock. -/
  lock : ∀ p,s.lock=some p ↔ (s.places p).Holds
  /-- Threads have entries in the table. -/
  bound : ∀ p,(s.places p).Out ∨ p < n
  /-- Who is about to sleep has a reason. -/
  parks : ∀ p c,(s.places p).Parks c → reason c s.data
  /-- Who sleeps has a reason, or will be woken. -/
  sleeps : ∀ p c,(s.places p).Sleeps c → reason c s.data ∨ ∃ h,(s.places h).Owes owes c p

section Rule

variable {reason : κ → σ → Prop} {owes : τ → κ → Prop} {n : ℕ} {s t : System κ σ τ} {p q : ℕ}
  {v : Place κ τ}

theorem Place.Owes.holds {c : κ} (h : v.Owes owes c q) : v.Holds := by
  cases v with
  | inside t => trivial
  | waking c k t => trivial
  | _ => exact absurd h id

/-- Who owes has the lock. -/
theorem Inv.owner (h : Inv reason owes n s) {c : κ} (hp : (s.places p).Holds)
    (hq : ∃ h,(s.places h).Owes owes c q) : (s.places p).Owes owes c q := by
  obtain ⟨r,hr⟩ := hq
  have hlock := (h.lock p).mpr hp
  rw [(h.lock r).mpr hr.holds] at hlock
  cases hlock
  exact hr

/-- Where the lock is free, every sleeper has a reason. -/
theorem Inv.right (h : Inv reason owes n s) {c : κ} (hfree : s.lock=none)
    (hp : (s.places p).Sleeps c) : reason c s.data := by
  obtain hr | ⟨r,hr⟩ := h.sleeps p c hp
  · exact hr
  · have hlock := (h.lock r).mpr hr.holds
    rw [hfree] at hlock
    cases hlock

/-- A thread moves that has the lock neither before nor after, and does not fall asleep. -/
theorem Inv.quiet (h : Inv reason owes n s) (hbound : p < n) (hold : ¬(s.places p).Holds)
    (hnew : ¬v.Holds) (hparks : ∀ c,¬v.Parks c) (hsleeps : ∀ c,v.Sleeps c → (s.places p).Sleeps c)
    (hdata : t.data=s.data) (hlock : t.lock=s.lock) (hplaces : t.places=Function.update s.places p v) :
    Inv reason owes n t := by
  have hself : t.places p=v := by rw [hplaces,Function.update_self]
  have hother : ∀ q,q≠p → t.places q=s.places q := fun q hq => by
    rw [hplaces,Function.update_of_ne hq]
  have howes : ∀ {c q},(∃ h,(s.places h).Owes owes c q) → ∃ h,(t.places h).Owes owes c q := by
    intro c q ⟨r,hr⟩
    have hne : r≠p := by
      rintro rfl
      exact hold hr.holds
    exact ⟨r,by rwa [hother r hne]⟩
  refine ⟨fun q => ?_,fun q => ?_,fun q c hq => ?_,fun q c hq => ?_⟩
  · rw [hlock,h.lock q]
    by_cases e : q=p
    · rw [e,hself]
      exact iff_of_false hold hnew
    · rw [hother q e]
  · by_cases e : q=p
    · exact .inr (e ▸ hbound)
    · rw [hother q e]
      exact h.bound q
  · rw [hdata]
    by_cases e : q=p
    · rw [e,hself] at hq
      exact absurd hq (hparks c)
    · rw [hother q e] at hq
      exact h.parks q c hq
  · rw [hdata]
    refine (h.sleeps q c ?_).imp_right howes
    by_cases e : q=p
    · rw [e,hself] at hq
      rw [e]
      exact hsleeps c hq
    · rwa [hother q e] at hq

theorem Place.Parks.holds {c : κ} (h : v.Parks c) : v.Holds := by
  cases v with
  | parking c t => trivial
  | parked c t => trivial
  | _ => exact absurd h id

/-- The thread that has the lock makes a step; a sleeper that it wakes moves too. -/
theorem Inv.held (h : Inv reason owes n s) (hold : (s.places p).Holds)
    (hplaces : t.places p=v) (hlock : ∀ q,t.lock=some q ↔ q=p ∧ v.Holds)
    (hother : ∀ q,q≠p → t.places q=s.places q ∨ (¬(s.places q).Out ∧ ¬(t.places q).Holds ∧
      ∀ c,¬(t.places q).Sleeps c))
    (hparks : ∀ c,v.Parks c → reason c t.data) (hself : ∀ c,v.Sleeps c → reason c t.data)
    (hreason : ∀ q c,(t.places q).Sleeps c → reason c s.data ∨ (s.places p).Owes owes c q →
      reason c t.data ∨ v.Owes owes c q) : Inv reason owes n t := by
  have hpn : p < n := by
    refine (h.bound p).resolve_left fun hout => ?_
    cases hp : s.places p with
    | out t =>
      rw [hp] at hold
      exact hold
    | _ =>
      rw [hp] at hout
      exact hout
  have hnot : ∀ q,q≠p → ¬(s.places q).Holds := by
    intro q hq hh
    have e := (h.lock q).mpr hh
    rw [(h.lock p).mpr hold] at e
    cases e
    exact hq rfl
  have hnot' : ∀ q,q≠p → ¬(t.places q).Holds := by
    intro q hq
    obtain hsame | hmoved := hother q hq
    · rw [hsame]
      exact hnot q hq
    · exact hmoved.2.1
  refine ⟨fun q => ?_,fun q => ?_,fun q c hq => ?_,fun q c hq => ?_⟩
  · rw [hlock q]
    by_cases e : q=p
    · rw [e,hplaces]
      exact and_iff_right rfl
    · exact iff_of_false (fun hc => e hc.1) (hnot' q e)
  · by_cases e : q=p
    · exact .inr (e ▸ hpn)
    · obtain hsame | hmoved := hother q e
      · rw [hsame]
        exact h.bound q
      · exact .inr ((h.bound q).resolve_left hmoved.1)
  · by_cases e : q=p
    · rw [e,hplaces] at hq
      exact hparks c hq
    · exact absurd hq.holds (hnot' q e)
  · by_cases e : q=p
    · rw [e,hplaces] at hq
      exact .inl (hself c hq)
    · obtain hsame | hmoved := hother q e
      · have hsleep := hq
        rw [hsame] at hq
        obtain hr | hv := hreason q c hsleep ((h.sleeps q c hq).imp_right (h.owner hold))
        · exact .inl hr
        · exact .inr ⟨p,by rwa [hplaces]⟩
      · exact absurd hq (hmoved.2.2 c)

/-- An entry whose lock is free does not sleep on the channel any more. -/
theorem not_sleeps_rouse [DecidableEq κ] {c c' : κ} (hv : v.locked≠true) (hs : (v.rouse c').Sleeps c) :
    c'≠c := by
  intro e
  cases v with
  | asleep c₁ t₁ =>
    rw [Place.rouse] at hs
    split at hs
    · exact hs
    · rename_i hne
      exact hne (Eq.trans hs e.symm)
  | falling c₁ t₁ => exact hv rfl
  | _ => exact hs

/-- Only a sleeper changes when it is woken, and it does not enter yet. -/
theorem rouse_cases [DecidableEq κ] (v : Place κ τ) (c : κ) :
    v.rouse c=v ∨ (¬v.Out ∧ ¬(v.rouse c).Holds ∧ ∀ c',¬(v.rouse c).Sleeps c') := by
  cases v with
  | asleep c₁ t₁ =>
    rw [Place.rouse]
    split
    · exact .inr ⟨id,id,fun c hc => hc⟩
    · exact .inl rfl
  | _ => exact .inl rfl

/-- Who sleeps is not outside. -/
theorem Place.Sleeps.not_out {c : κ} (h : v.Sleeps c) : ¬v.Out := by
  intro hout
  cases v with
  | out t => exact h
  | _ => exact hout

/-- The lock of a thread that has it. -/
theorem Inv.lock_iff (h : Inv reason owes n s) (hold : (s.places p).Holds) (q : ℕ) :
    s.lock=some q ↔ q=p := by
  rw [(h.lock p).mpr hold]
  exact ⟨fun e => by cases e; rfl,fun e => by rw [e]⟩

/-- Taking the lock keeps the invariant. -/
theorem Inv.take (h : Inv reason owes n s) {u : τ} (hp : s.places p=.entering u)
    (hfree : s.lock=none) : Inv reason owes n {s.move p (.inside u) with lock := some p} := by
  have hself : (s.move p (.inside u)).places p=.inside u := Function.update_self ..
  have hsame : ∀ q,q≠p → (s.move p (.inside u)).places q=s.places q := fun q hq =>
    Function.update_of_ne hq ..
  have hnone : ∀ q,¬(s.places q).Holds := fun q hq => by
    have e := (h.lock q).mpr hq
    rw [hfree] at e
    cases e
  have hpn : p < n := (h.bound p).resolve_left (by rw [hp]; exact id)
  refine ⟨fun q => ?_,fun q => ?_,fun q c hq => ?_,fun q c hq => ?_⟩
  · by_cases e : q=p
    · rw [e]
      refine iff_of_true rfl ?_
      show ((s.move p (.inside u)).places p).Holds
      rw [hself]
      trivial
    · refine iff_of_false (fun hc => ?_) ?_
      · cases hc
        exact e rfl
      · show ¬((s.move p (.inside u)).places q).Holds
        rw [hsame q e]
        exact hnone q
  · by_cases e : q=p
    · exact .inr (e ▸ hpn)
    · show ((s.move p (.inside u)).places q).Out ∨ q < n
      rw [hsame q e]
      exact h.bound q
  · change ((s.move p (.inside u)).places q).Parks c at hq
    by_cases e : q=p
    · rw [e,hself] at hq
      exact absurd hq id
    · rw [hsame q e] at hq
      exact absurd hq.holds (hnone q)
  · change ((s.move p (.inside u)).places q).Sleeps c at hq
    by_cases e : q=p
    · rw [e,hself] at hq
      exact absurd hq id
    · rw [hsame q e] at hq
      exact .inl (h.right hfree hq)

/-- `wakeup` keeps the invariant at every entry. -/
theorem Inv.rouse [DecidableEq κ] (h : Inv reason owes n s) {c' : κ} {k : ℕ} {u : τ}
    (hp : s.places p=.waking c' k u) (hlocked : (s.places k).locked≠true) :
    Inv reason owes n ((s.move k ((s.places k).rouse c')).move p (.waking c' (k+1) u)) := by
  have hold : (s.places p).Holds := by rw [hp]; trivial
  have hat : ∀ q,q≠p → ((s.move k ((s.places k).rouse c')).move p (.waking c' (k+1) u)).places q=
      if q=k then (s.places k).rouse c' else s.places q := by
    intro q hq
    show Function.update (Function.update s.places k ((s.places k).rouse c')) p _ q=_
    rw [Function.update_of_ne hq]
    split
    · rename_i e
      rw [e,Function.update_self]
    · rename_i e
      rw [Function.update_of_ne e]
  refine h.held hold (Function.update_self ..)
    (fun q => (h.lock_iff hold q).trans (and_iff_left trivial).symm) (fun q hq => ?_)
    (fun c hc => absurd hc id) (fun c hc => absurd hc id) fun q c hq hr => ?_
  · rw [hat q hq]
    split
    · rename_i e
      rw [e]
      exact rouse_cases _ _
    · exact .inl rfl
  · obtain hr | hr := hr
    · exact .inl hr
    · rw [hp] at hr
      refine .inr (hr.imp_left fun hk => ⟨hk.1,?_⟩)
      have hqp : q≠p := by
        rintro rfl
        have hv : ((s.move k ((s.places k).rouse c')).move q (.waking c' (k+1) u)).places q=
            .waking c' (k+1) u := Function.update_self ..
        rw [hv] at hq
        exact hq
      rw [hat q hqp] at hq
      split at hq
      · exact absurd hk.1 (not_sleeps_rouse hlocked hq)
      · omega

/-- A step keeps the invariant, if acts are right. -/
theorem Inv.step [DecidableEq κ] {prog : Program κ σ τ ι} {a : Label τ ι}
    (h : Inv reason owes n s)
    (hpays : ∀ p x u,a=.act p x → s.places p=.inside u →
      Pays reason owes s.data u (prog.next (s.killed p) x u s.data))
    (ht : step prog n s a=.next t) : Inv reason owes n t := by
  have hself : ∀ (p : ℕ) (v : Place κ τ),(s.move p v).places p=v := fun p v =>
    Function.update_self ..
  have hsame : ∀ (p : ℕ) (v : Place κ τ) q,q≠p → (s.move p v).places q=s.places q := fun p v q hq =>
    Function.update_of_ne hq ..
  have hentry : ∀ p,¬(s.places p).Out → p < n := fun p hp => (h.bound p).resolve_left hp
  cases step_change ht with
  | @call p u u' hp hn he =>
    exact h.quiet (v:=.entering u) hn (by rw [hp]; exact id) (fun hf => hf) (fun _ hf => hf)
      (fun _ hf => absurd hf id) rfl rfl rfl
  | take hp hfree => exact h.take hp hfree
  | @update p x data u u' hp hact =>
    have hpay := hpays p x u rfl hp
    rw [hact] at hpay
    have hold : (s.places p).Holds := by rw [hp]; trivial
    refine h.held (t:={s.move p (.inside u') with data := data}) hold (hself ..)
      (fun q => (h.lock_iff hold q).trans (and_iff_left trivial).symm)
      (fun q hq => .inl (hsame p _ q hq))
      (fun c hc => absurd hc id) (fun c hc => absurd hc id) fun q c _ hr => ?_
    rw [hp] at hr
    exact hpay c hr
  | @notify p x c' u u' hp hact =>
    have hpay := hpays p x u rfl hp
    rw [hact] at hpay
    have hold : (s.places p).Holds := by rw [hp]; trivial
    refine h.held hold (hself ..)
      (fun q => (h.lock_iff hold q).trans (and_iff_left trivial).symm)
      (fun q hq => .inl (hsame p _ q hq)) (fun c hc => absurd hc id)
      (fun c hc => absurd hc id) fun q c _ hr => ?_
    rw [hp] at hr
    obtain hr | hr := hr
    · exact .inl hr
    · exact .inr ((hpay c hr).imp_left fun e => ⟨e,Nat.zero_le _⟩)
  | @sleep p x c' u u' hp hact =>
    have hpay := hpays p x u rfl hp
    rw [hact] at hpay
    have hold : (s.places p).Holds := by rw [hp]; trivial
    refine h.held hold (hself ..)
      (fun q => (h.lock_iff hold q).trans (and_iff_left trivial).symm)
      (fun q hq => .inl (hsame p _ q hq)) (fun c hc => ?_)
      (fun c hc => absurd hc id) fun q c _ hr => ?_
    · change c'=c at hc
      exact hc ▸ hpay.1
    · rw [hp] at hr
      exact .inl (hr.elim id fun hr => hpay.2 c hr)
  | @leave p x u u' hp hact =>
    have hpay := hpays p x u rfl hp
    rw [hact] at hpay
    have hold : (s.places p).Holds := by rw [hp]; trivial
    refine h.held (t:=s.free p (.out u')) hold (hself ..)
      (fun q => iff_of_false (fun hc => by cases hc) fun hc => hc.2)
      (fun q hq => .inl (hsame p _ q hq)) (fun c hc => absurd hc id)
      (fun c hc => absurd hc id) fun q c _ hr => ?_
    rw [hp] at hr
    exact .inl (hr.elim id fun hr => hpay c hr)
  | rouse hp hk hlocked => exact h.rouse hp hlocked
  | @woke p c' k u hp hend =>
    have hold : (s.places p).Holds := by rw [hp]; trivial
    refine h.held hold (hself ..)
      (fun q => (h.lock_iff hold q).trans (and_iff_left trivial).symm)
      (fun q hq => .inl (hsame p _ q hq)) (fun c hc => absurd hc id)
      (fun c hc => absurd hc id) fun q c hq hr => ?_
    rw [hp] at hr
    obtain hr | hk | hu := hr
    · exact .inl hr
    · have hqp : q≠p := by
        rintro rfl
        rw [hself] at hq
        exact hq
      rw [hsame p _ q hqp] at hq
      have hqn : q < n := hentry q hq.not_out
      omega
    · exact .inr hu
  | @park p c' u hp =>
    have hold : (s.places p).Holds := by rw [hp]; trivial
    refine h.held hold (hself ..)
      (fun q => (h.lock_iff hold q).trans (and_iff_left trivial).symm)
      (fun q hq => .inl (hsame p _ q hq)) (fun c hc => ?_)
      (fun c hc => absurd hc id) fun q c _ hr => ?_
    · exact h.parks p c (by rw [hp]; exact hc)
    · rw [hp] at hr
      exact .inl (hr.elim id fun hr => absurd hr id)
  | @drop p c' u hp =>
    have hold : (s.places p).Holds := by rw [hp]; trivial
    refine h.held (t:=s.free p (.falling c' u)) hold (hself ..)
      (fun q => iff_of_false (fun hc => by cases hc) fun hc => hc.2)
      (fun q hq => .inl (hsame p _ q hq)) (fun c hc => absurd hc id) (fun c hc => ?_)
      fun q c _ hr => ?_
    · exact h.parks p c (by rw [hp]; exact hc)
    · rw [hp] at hr
      exact .inl (hr.elim id fun hr => absurd hr id)
  | @fall p c' u hp =>
    exact h.quiet (v:=.asleep c' u) (hentry p (by rw [hp]; exact id)) (by rw [hp]; exact id)
      (fun hf => hf) (fun _ hf => hf) (fun c hc => by rw [hp]; exact hc) rfl rfl rfl
  | @resume p u hp =>
    exact h.quiet (v:=.entering u) (hentry p (by rw [hp]; exact id)) (by rw [hp]; exact id)
      (fun hf => hf) (fun _ hf => hf) (fun _ hf => absurd hf id) rfl rfl rfl
  | @killAsleep p c' u hp =>
    exact h.quiet (v:=.woken u) (hentry p (by rw [hp]; exact id)) (by rw [hp]; exact id)
      (fun hf => hf) (fun _ hf => hf) (fun _ hf => absurd hf id) rfl rfl rfl
  | kill => exact ⟨h.lock,h.bound,h.parks,h.sleeps⟩

/-- What is known of a place: facts that hold under the lock, and of a thread that is to enter those
that hold of all data. -/
def Place.Knows (ok : τ → σ → Prop) (data : σ) : Place κ τ → Prop
  | .out _ => True
  | .inside t => ok t data
  | .waking _ _ t => ok t data
  | .entering t => ∀ d,ok t d
  | .parking _ t => ∀ d,ok t d
  | .parked _ t => ∀ d,ok t d
  | .falling _ t => ∀ d,ok t d
  | .asleep _ t => ∀ d,ok t d
  | .woken t => ∀ d,ok t d

/-- An act keeps what is known. -/
def Learns (ok : τ → σ → Prop) (data : σ) : Act κ σ τ → Prop
  | .update data' t => ok t data'
  | .wake _ t => ok t data
  | .sleep _ t => ∀ d,ok t d
  | .leave _ => True

/-- Who does not have the lock knows nothing of the data. -/
theorem Place.Knows.other {ok : τ → σ → Prop} {data data' : σ} (h : v.Knows ok data)
    (hv : ¬v.Holds) : v.Knows ok data' := by
  cases v with
  | inside t => exact absurd trivial hv
  | waking c k t => exact absurd trivial hv
  | out t => trivial
  | _ => exact h

/-- A thread that moves knows what it should. -/
theorem knows_move {ok : τ → σ → Prop} {data : σ} (hs : ∀ q,(s.places q).Knows ok data)
    (hv : v.Knows ok data) (q : ℕ) : ((s.move p v).places q).Knows ok data := by
  by_cases e : q=p
  · rw [e]
    show (Function.update s.places p v p).Knows ok data
    rwa [Function.update_self]
  · show (Function.update s.places p v q).Knows ok data
    rw [Function.update_of_ne e]
    exact hs q

theorem Place.Knows.rouse [DecidableEq κ] {ok : τ → σ → Prop} {data : σ} (h : v.Knows ok data)
    (c : κ) : (v.rouse c).Knows ok data := by
  cases v with
  | asleep c₁ t₁ =>
    rw [Place.rouse]
    split
    · exact h
    · exact h
  | _ => exact h

/-- A step keeps what is known, if calls and acts do. -/
theorem Inv.knows [DecidableEq κ] {prog : Program κ σ τ ι} {a : Label τ ι} {ok : τ → σ → Prop}
    (h : Inv reason owes n s) (hk : ∀ q,(s.places q).Knows ok s.data)
    (henters : ∀ u t,prog.enters u t=true → ∀ d,ok t d)
    (hlearns : ∀ p x u,a=.act p x → s.places p=.inside u → ok u s.data →
      Learns ok s.data (prog.next (s.killed p) x u s.data))
    (ht : Monitors.step prog n s a=.next t) : ∀ q,(t.places q).Knows ok t.data := by
  have hat : ∀ {p v},s.places p=v → v.Knows ok s.data := fun hp => by
    rw [←hp]
    exact hk _
  cases step_change ht with
  | call hp hn he => exact knows_move hk (henters _ _ he)
  | take hp hfree => exact knows_move hk (hat hp s.data)
  | @update p x data u u' hp hact =>
    have hl := hlearns p x u rfl hp (hat hp)
    rw [hact] at hl
    have hlock : s.lock=some p := (h.lock p).mpr (by rw [hp]; trivial)
    -- the others do not have the lock
    intro q
    by_cases e : q=p
    · rw [e]
      show (Function.update s.places p (.inside u') p).Knows ok data
      rw [Function.update_self]
      exact hl
    · show (Function.update s.places p (.inside u') q).Knows ok data
      rw [Function.update_of_ne e]
      refine (hk q).other fun hq => e ?_
      have hlock' := (h.lock q).mpr hq
      rw [hlock] at hlock'
      cases hlock'
      rfl
  | @notify p x c u u' hp hact =>
    have hl := hlearns p x u rfl hp (hat hp)
    rw [hact] at hl
    exact knows_move hk hl
  | @sleep p x c u u' hp hact =>
    have hl := hlearns p x u rfl hp (hat hp)
    rw [hact] at hl
    exact knows_move hk hl
  | leave hp hact => exact knows_move hk trivial
  | rouse hp hlt hlocked =>
    have hu := hat hp
    exact knows_move (knows_move hk ((hk _).rouse _)) hu
  | woke hp hend =>
    have hu := hat hp
    exact knows_move hk hu
  | park hp =>
    have hu := hat hp
    exact knows_move hk hu
  | drop hp =>
    have hu := hat hp
    exact knows_move hk hu
  | fall hp =>
    have hu := hat hp
    exact knows_move hk hu
  | resume hp =>
    have hu := hat hp
    exact knows_move hk hu
  | killAsleep hp =>
    have hu := hat hp
    exact knows_move hk hu
  | kill => exact hk

/-- Threads outside, with the lock free. -/
theorem Inv.start {data : σ} {t : τ} :
    Inv reason owes n (⟨data,none,fun _ => .out t,fun _ => false⟩ : System κ σ τ) :=
  ⟨fun _ => iff_of_false nofun id,fun _ => .inl trivial,fun _ _ h => absurd h id,
    fun _ _ h => absurd h id⟩

end Rule

end Xv6Rust.Monitors

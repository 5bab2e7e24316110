import Xv6Rust.Monitors

/-!
# Sleepers with reasons of their own

In a section that sleeps, the threads on one channel may wait for different things. The rule says
when none of them is forgotten: whoever makes the reason of one of them go away owes a wake-up of
the channel to all, and pays before it gives the lock up.
-/

namespace Xv6Rust.Monitors

open Runs

variable {κ σ τ ι : Type*}

/-- The thread is in `sleep` on a channel, with the lock, to go on at such a point. -/
def Place.ParksAt (c : κ) (u : τ) : Place κ τ → Prop
  | .parking c' t => c'=c ∧ t=u
  | .parked c' t => c'=c ∧ t=u
  | _ => False

/-- The thread is in `sleep` on a channel, without the lock, to go on at such a point. -/
def Place.SleepsAt (c : κ) (u : τ) : Place κ τ → Prop
  | .falling c' t => c'=c ∧ t=u
  | .asleep c' t => c'=c ∧ t=u
  | _ => False

/-- An act is right: who sleeps has a reason, reasons that go away are owed, and nothing is owed
when the lock is given up. -/
def PaysEach (reason : κ → τ → σ → Prop) (owes : τ → κ → Prop) (data : σ) (t : τ) :
    Act κ σ τ → Prop
  | .update data' t' => ∀ c,(∀ u,reason c u data → reason c u data' ∨ owes t' c) ∧
      (owes t c → owes t' c)
  | .wake c' t' => ∀ c,owes t c → c'=c ∨ owes t' c
  | .sleep c' t' => reason c' t' data ∧ ∀ c,¬owes t c
  | .leave _ => ∀ c,¬owes t c

/-- Every sleeper has a reason of its own to sleep, or will be woken. -/
structure Each (reason : κ → τ → σ → Prop) (owes : τ → κ → Prop) (s : System κ σ τ) : Prop where
  parks : ∀ p c u,(s.places p).ParksAt c u → reason c u s.data
  sleeps : ∀ p c u,(s.places p).SleepsAt c u →
    reason c u s.data ∨ ∃ h,(s.places h).Owes owes c p

/-- One thread has the lock. -/
abbrev Locked (n : ℕ) (s : System κ σ τ) : Prop :=
  Inv (fun _ _ => True) (fun _ _ => False) n s

section Rule

variable {reason : κ → τ → σ → Prop} {owes : τ → κ → Prop} {n : ℕ} {s t : System κ σ τ} {p q : ℕ}
  {v : Place κ τ}

theorem Place.ParksAt.holds {c : κ} {u : τ} (h : v.ParksAt c u) : v.Holds := by
  cases v with
  | parking c t => trivial
  | parked c t => trivial
  | _ => exact absurd h id

theorem Place.SleepsAt.sleeps {c : κ} {u : τ} (h : v.SleepsAt c u) : v.Sleeps c := by
  cases v with
  | falling c t => exact h.1
  | asleep c t => exact h.1
  | _ => exact absurd h id

/-- The lock is taken and given up whatever the reasons are. -/
theorem Locked.step [DecidableEq κ] {prog : Program κ σ τ ι} {a : Label τ ι} (h : Locked n s)
    (ht : step prog n s a=.next t) : Locked n t := by
  refine Inv.step h (fun p x u _ _ => ?_) ht
  cases prog.next (s.killed p) x u s.data with
  | update d t => exact fun _ _ => .inl trivial
  | wake c t => exact fun _ hf => absurd hf id
  | sleep c t => exact ⟨trivial,fun _ hf => absurd hf id⟩
  | leave t => exact fun _ hf => absurd hf id

/-- Two threads that have the lock are one. -/
theorem Locked.unique (h : Locked n s) (hp : (s.places p).Holds) (hq : (s.places q).Holds) :
    p=q := by
  have hlock := (h.lock p).mpr hp
  rw [(h.lock q).mpr hq,Option.some.injEq] at hlock
  exact hlock.symm

/-- A thread that owes nothing moves, and sleeps only for a reason. -/
theorem Each.quiet (h : Each reason owes s) (hdata : t.data=s.data)
    (hplaces : t.places=Function.update s.places p v)
    (howes : ∀ c q,¬(s.places p).Owes owes c q)
    (hparks : ∀ c u,v.ParksAt c u → reason c u s.data)
    (hsleeps : ∀ c u,v.SleepsAt c u → (s.places p).SleepsAt c u ∨ reason c u s.data) :
    Each reason owes t := by
  have hself : t.places p=v := by rw [hplaces,Function.update_self]
  have hother : ∀ q,q≠p → t.places q=s.places q := fun q hq => by
    rw [hplaces,Function.update_of_ne hq]
  have howed : ∀ {c q},(∃ h,(s.places h).Owes owes c q) → ∃ h,(t.places h).Owes owes c q := by
    intro c q ⟨r,hr⟩
    have hne : r≠p := by
      rintro rfl
      exact howes c q hr
    exact ⟨r,by rwa [hother r hne]⟩
  refine ⟨fun q c u hq => ?_,fun q c u hq => ?_⟩
  · rw [hdata]
    by_cases e : q=p
    · rw [e,hself] at hq
      exact hparks c u hq
    · rw [hother q e] at hq
      exact h.parks q c u hq
  · rw [hdata]
    by_cases e : q=p
    · rw [e,hself] at hq
      obtain hq | hr := hsleeps c u hq
      · rw [e]
        exact (h.sleeps p c u hq).imp_right howed
      · exact .inl hr
    · rw [hother q e] at hq
      exact (h.sleeps q c u hq).imp_right howed

/-- The thread that has the lock moves; only it can have owed anything. -/
theorem Each.held (h : Each reason owes s) (hl : Locked n s) (hold : (s.places p).Holds)
    (hplaces : t.places=Function.update s.places p v) (hnot : ∀ c u,¬v.SleepsAt c u)
    (hparks : ∀ c u,v.ParksAt c u → reason c u t.data)
    (howes : ∀ q c u,q≠p → (s.places q).SleepsAt c u →
      reason c u s.data ∨ (s.places p).Owes owes c q → reason c u t.data ∨ v.Owes owes c q) :
    Each reason owes t := by
  have hself : t.places p=v := by rw [hplaces,Function.update_self]
  have hother : ∀ q,q≠p → t.places q=s.places q := fun q hq => by
    rw [hplaces,Function.update_of_ne hq]
  refine ⟨fun q c u hq => ?_,fun q c u hq => ?_⟩
  · by_cases e : q=p
    · rw [e,hself] at hq
      exact hparks c u hq
    · rw [hother q e] at hq
      exact absurd (hl.unique hq.holds hold) e
  · by_cases e : q=p
    · rw [e,hself] at hq
      exact absurd hq (hnot c u)
    · rw [hother q e] at hq
      refine (howes q c u e hq ((h.sleeps q c u hq).imp_right fun ⟨r,hr⟩ => ?_)).imp_right
        fun hv => ⟨p,by rwa [hself]⟩
      rwa [hl.unique hold hr.holds]

/-- An entry that is woken does not sleep on the channel any more. -/
theorem Place.SleepsAt.of_rouse [DecidableEq κ] {c c' : κ} {u : τ} (h : (v.rouse c').SleepsAt c u)
    (hv : v.locked≠true) : v.SleepsAt c u ∧ c'≠c := by
  have hne := not_sleeps_rouse hv h.sleeps
  refine ⟨?_,hne⟩
  cases v with
  | asleep c₁ t₁ =>
    rw [Place.rouse] at h
    split at h
    · exact absurd h id
    · exact h
  | _ => exact h

theorem Place.ParksAt.of_rouse [DecidableEq κ] {c c' : κ} {u : τ} (h : (v.rouse c').ParksAt c u) :
    v.ParksAt c u := by
  cases v with
  | asleep c₁ t₁ =>
    rw [Place.rouse] at h
    split at h
    · exact absurd h id
    · exact absurd h id
  | _ => exact h

/-- `wakeup` looks at an entry. -/
theorem Each.rouse [DecidableEq κ] {c' : κ} {k : ℕ} {w : τ} (h : Each reason owes s)
    (hl : Locked n s) (hp : s.places p=.waking c' k w) (hlocked : (s.places k).locked≠true) :
    Each reason owes ((s.move k ((s.places k).rouse c')).move p (.waking c' (k+1) w)) := by
  have hold : (s.places p).Holds := by
    rw [hp]
    trivial
  have hself : ((s.move k ((s.places k).rouse c')).move p (.waking c' (k+1) w)).places p=
      .waking c' (k+1) w := Function.update_self ..
  have hat : ∀ q,q≠p → ((s.move k ((s.places k).rouse c')).move p (.waking c' (k+1) w)).places q=
      if q=k then (s.places k).rouse c' else s.places q := by
    intro q hq
    show Function.update (Function.update s.places k ((s.places k).rouse c')) p _ q=_
    rw [Function.update_of_ne hq,Function.update_apply]
  refine ⟨fun q c u hq => ?_,fun q c u hq => ?_⟩
  · by_cases e : q=p
    · rw [e,hself] at hq
      exact absurd hq id
    · rw [hat q e] at hq
      have hparks : (s.places q).ParksAt c u := by
        split at hq
        · rename_i ek
          rw [ek]
          exact hq.of_rouse
        · exact hq
      exact absurd (hl.unique hparks.holds hold) e
  · by_cases e : q=p
    · rw [e,hself] at hq
      exact absurd hq id
    · rw [hat q e] at hq
      have hsleeps : (s.places q).SleepsAt c u ∧ (c'=c → q≠k) := by
        split at hq
        · rename_i ek
          obtain ⟨hk,hne⟩ := hq.of_rouse hlocked
          rw [ek]
          exact ⟨hk,fun he => absurd he hne⟩
        · rename_i ek
          exact ⟨hq,fun _ => ek⟩
      refine (h.sleeps q c u hsleeps.1).imp_right fun ⟨r,hr⟩ => ⟨p,?_⟩
      rw [hl.unique hr.holds hold,hp] at hr
      rw [hself]
      obtain ⟨hc,hk⟩ | hw := hr
      · have hqk := hsleeps.2 hc
        exact .inl ⟨hc,by omega⟩
      · exact .inr hw

/-- A step keeps a reason for every sleeper, if acts are right. -/
theorem Each.step [DecidableEq κ] {prog : Program κ σ τ ι} {a : Label τ ι}
    (h : Each reason owes s) (hl : Locked n s)
    (hpays : ∀ p x u,a=.act p x → s.places p=.inside u →
      PaysEach reason owes s.data u (prog.next (s.killed p) x u s.data))
    (ht : step prog n s a=.next t) : Each reason owes t := by
  cases step_change ht with
  | @call p u u' hp hn he =>
    exact h.quiet (v:=.entering u) rfl rfl (fun c q => by rw [hp]; exact id)
      (fun _ _ hf => absurd hf id) fun _ _ hf => absurd hf id
  | @take p u hp hfree =>
    exact h.quiet (v:=.inside u) rfl rfl (fun c q => by rw [hp]; exact id)
      (fun _ _ hf => absurd hf id) fun _ _ hf => absurd hf id
  | @update p x data u u' hp hact =>
    have hpay := hpays p x u rfl hp
    rw [hact] at hpay
    refine h.held (v:=.inside u') hl (by rw [hp]; trivial) rfl (fun _ _ hf => hf)
      (fun _ _ hf => absurd hf id) fun q c w _ _ hr => ?_
    rw [hp] at hr
    obtain hr | hr := hr
    · exact (hpay c).1 w hr
    · exact .inr ((hpay c).2 hr)
  | @notify p x c' u u' hp hact =>
    have hpay := hpays p x u rfl hp
    rw [hact] at hpay
    refine h.held (v:=.waking c' 0 u') hl (by rw [hp]; trivial) rfl (fun _ _ hf => hf)
      (fun _ _ hf => absurd hf id) fun q c w _ _ hr => ?_
    rw [hp] at hr
    obtain hr | hr := hr
    · exact .inl hr
    · exact .inr ((hpay c hr).imp_left fun e => ⟨e,Nat.zero_le _⟩)
  | @sleep p x c' u u' hp hact =>
    have hpay := hpays p x u rfl hp
    rw [hact] at hpay
    refine h.held (v:=.parking c' u') hl (by rw [hp]; trivial) rfl (fun _ _ hf => hf)
      (fun c w hw => ?_) fun q c w _ _ hr => ?_
    · obtain ⟨rfl,rfl⟩ := hw
      exact hpay.1
    · rw [hp] at hr
      exact .inl (hr.resolve_right (hpay.2 c))
  | @leave p x u u' hp hact =>
    have hpay := hpays p x u rfl hp
    rw [hact] at hpay
    refine h.held (v:=.out u') hl (by rw [hp]; trivial) rfl (fun _ _ hf => hf)
      (fun _ _ hf => absurd hf id) fun q c w _ _ hr => ?_
    rw [hp] at hr
    exact .inl (hr.resolve_right (hpay c))
  | rouse hp hk hlocked => exact h.rouse hl hp hlocked
  | @woke p c' k u hp hend =>
    refine h.held (v:=.inside u) hl (by rw [hp]; trivial) rfl (fun _ _ hf => hf)
      (fun _ _ hf => absurd hf id) fun q c w _ hq hr => ?_
    rw [hp] at hr
    obtain hr | hk | hu := hr
    · exact .inl hr
    · have hqn : q < n := (hl.bound q).resolve_left hq.sleeps.not_out
      omega
    · exact .inr hu
  | @park p c' u hp =>
    refine h.held (v:=.parked c' u) hl (by rw [hp]; trivial) rfl (fun _ _ hf => hf)
      (fun c w hw => ?_) fun q c w _ _ hr => ?_
    · exact h.parks p c w (by rw [hp]; exact hw)
    · rw [hp] at hr
      exact .inl (hr.resolve_right id)
  | @drop p c' u hp =>
    exact h.quiet (v:=.falling c' u) rfl rfl (fun c q => by rw [hp]; exact id)
      (fun _ _ hf => absurd hf id) fun c w hw => .inr (h.parks p c w (by rw [hp]; exact hw))
  | @fall p c' u hp =>
    exact h.quiet (v:=.asleep c' u) rfl rfl (fun c q => by rw [hp]; exact id)
      (fun _ _ hf => absurd hf id) fun c w hw => .inl (by rw [hp]; exact hw)
  | @resume p u hp =>
    exact h.quiet (v:=.entering u) rfl rfl (fun c q => by rw [hp]; exact id)
      (fun _ _ hf => absurd hf id) fun _ _ hf => absurd hf id
  | @killAsleep p c' u hp =>
    exact h.quiet (v:=.woken u) rfl rfl (fun c q => by rw [hp]; exact id)
      (fun _ _ hf => absurd hf id) fun _ _ hf => absurd hf id
  | kill => exact ⟨h.parks,h.sleeps⟩

/-- The point of its code that a thread has come to. -/
def Place.token : Place κ τ → τ
  | .out t => t
  | .entering t => t
  | .inside t => t
  | .waking _ _ t => t
  | .parking _ t => t
  | .parked _ t => t
  | .falling _ t => t
  | .asleep _ t => t
  | .woken t => t

/-- What holds at the points that threads have come to, whether they are killed or not. -/
def Tells (tell : Bool → τ → σ → Prop) (s : System κ σ τ) : Prop :=
  ∀ q,tell (s.killed q) (s.places q).token s.data

/-- An act keeps what holds, for the thread and for the others. -/
def Keeps (tell : Bool → τ → σ → Prop) (killed : Bool) (data : σ) : Act κ σ τ → Prop
  | .update data' t => tell killed t data' ∧ ∀ b u,tell b u data → tell b u data'
  | .wake _ t => tell killed t data
  | .sleep _ t => tell killed t data
  | .leave t => tell killed t data

theorem token_rouse [DecidableEq κ] (c : κ) : (v.rouse c).token=v.token := by
  cases v with
  | asleep c' t =>
    rw [Place.rouse]
    split
    · rfl
    · rfl
  | _ => rfl

/-- A thread moves. -/
theorem Tells.move {tell : Bool → τ → σ → Prop} (h : Tells tell s)
    (hv : tell (s.killed p) v.token s.data) : Tells tell (s.move p v) := by
  intro q
  show tell (s.killed q) (Function.update s.places p v q).token s.data
  by_cases e : q=p
  · rw [e,Function.update_self]
    exact hv
  · rw [Function.update_of_ne e]
    exact h q

/-- What holds at the points of the code holds in every step, if acts keep it. -/
theorem Tells.step [DecidableEq κ] {prog : Program κ σ τ ι} {a : Label τ ι}
    {tell : Bool → τ → σ → Prop} (h : Tells tell s)
    (hkill : ∀ b u d,tell b u d → tell true u d)
    (henters : ∀ b u u' d,tell b u d → prog.enters u u'=true → tell b u' d)
    (hacts : ∀ b x u d,tell b u d → Keeps tell b d (prog.next b x u d))
    (ht : step prog n s a=.next t) : Tells tell t := by
  have hat : ∀ {p v u},s.places p=v → v.token=u → tell (s.killed p) u s.data :=
    fun {p v u} hp hu => by
      rw [← hu,← hp]
      exact h p
  cases step_change ht with
  | call hp hn he => exact h.move (henters _ _ _ _ (hat hp rfl) he)
  | take hp hfree => exact h.move (hat hp rfl)
  | @update p x data u u' hp hact =>
    have hkeep := hacts (s.killed p) x u s.data (hat hp rfl)
    rw [hact] at hkeep
    have hall : Tells tell {s with data := data} := fun q => hkeep.2 _ _ (h q)
    exact hall.move hkeep.1
  | @notify p x c u u' hp hact =>
    have hkeep := hacts (s.killed p) x u s.data (hat hp rfl)
    rw [hact] at hkeep
    exact h.move (v:=.waking c 0 u') hkeep
  | @sleep p x c u u' hp hact =>
    have hkeep := hacts (s.killed p) x u s.data (hat hp rfl)
    rw [hact] at hkeep
    exact h.move (v:=.parking c u') hkeep
  | @leave p x u u' hp hact =>
    have hkeep := hacts (s.killed p) x u s.data (hat hp rfl)
    rw [hact] at hkeep
    exact h.move (v:=.out u') hkeep
  | @rouse p c k u hp hk hlocked =>
    have hk' : Tells tell (s.move k ((s.places k).rouse c)) := h.move (by
      rw [token_rouse]
      exact h k)
    exact hk'.move (v:=.waking c (k+1) u) (hat hp rfl)
  | @woke p c k u hp hend => exact h.move (v:=.inside u) (hat hp rfl)
  | @park p c u hp => exact h.move (v:=.parked c u) (hat hp rfl)
  | @drop p c u hp => exact h.move (v:=.falling c u) (hat hp rfl)
  | @fall p c u hp => exact h.move (v:=.asleep c u) (hat hp rfl)
  | @resume p u hp => exact h.move (v:=.entering u) (hat hp rfl)
  | @killAsleep p c u hp =>
    have hmoved := h.move (v:=.woken u) (hat hp rfl)
    intro q
    show tell (Function.update s.killed p true q) _ _
    by_cases e : q=p
    · rw [e,Function.update_self]
      exact hkill _ _ _ (hmoved p)
    · rw [Function.update_of_ne e]
      exact hmoved q
  | @kill p =>
    intro q
    show tell (Function.update s.killed p true q) _ _
    by_cases e : q=p
    · rw [e,Function.update_self]
      exact hkill _ _ _ (h p)
    · rw [Function.update_of_ne e]
      exact h q

/-- Where the lock is free, every sleeper has its reason. -/
theorem Each.right (h : Each reason owes s) (hl : Locked n s) (hfree : s.lock=none) {c : κ} {u : τ}
    (hp : (s.places p).SleepsAt c u) : reason c u s.data := by
  refine (h.sleeps p c u hp).resolve_right fun ⟨r,hr⟩ => ?_
  have hlock := (hl.lock r).mpr hr.holds
  rw [hfree] at hlock
  cases hlock

end Rule

end Xv6Rust.Monitors

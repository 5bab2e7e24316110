import Xv6Rust.Monitors

/-!
# Sleep locks

`SleepLock` of `sleeplock.rs`: a flag under a spin lock. `lock` sleeps on the address of the flag
while it is set, and sets it; the guard's `drop` clears it and wakes the sleepers. At most one
guard exists, and nobody sleeps while the flag is clear, unless the one who cleared it is about
to wake the sleepers.
-/

namespace Xv6Rust.SleepLocks

open Runs Monitors

/-- Where a process is in `lock` and `unlock`. -/
inductive Pc where
  /-- It has no guard. -/
  | idle
  /-- `lock`, at the test of the loop. -/
  | test
  /-- `lock`, with the flag set. -/
  | taken
  /-- It has a guard. -/
  | guard
  /-- `lock` with a guard already, at the test of the loop. -/
  | again
  /-- `unlock`, before the flag is cleared. -/
  | clear
  /-- `unlock`, with the flag clear. -/
  | notify
  /-- `unlock`, after `wakeup`. -/
  | finish
  deriving DecidableEq

/-- `SleepLock::lock` and `SleepLock::unlock` over the flag. -/
def sleepLock : Program Unit Bool Pc Unit where
  enters
    | .idle,.test => true
    | .guard,.clear => true
    | .guard,.again => true
    | _,_ => false
  next _ _ t locked :=
    match t with
    | .test => if locked=true then .sleep () .test else .update true .taken
    | .again => if locked=true then .sleep () .again else .update true .taken
    | .taken => .leave .guard
    | .clear => .update false .notify
    | .notify => .wake () .finish
    | _ => .leave .idle

/-- A new lock and processes without guards. -/
def new : System Unit Bool Pc := ⟨false,none,fun _ => .out .idle,fun _ => false⟩

/-- There is a reason to sleep while the flag is set. -/
def Reason (_ : Unit) (locked : Bool) : Prop := locked=true

/-- Who has cleared the flag owes a wake-up. -/
def Owes (t : Pc) (_ : Unit) : Prop := t=.notify

/-- The process has a guard, or is about to return one or to drop it. -/
def Guards : Place Unit Pc → Prop
  | .out t => t=.guard
  | .entering t => t=.clear ∨ t=.again
  | .inside t => t=.taken ∨ t=.clear ∨ t=.again
  | .waking _ _ _ => False
  | .parking _ t => t=.again
  | .parked _ t => t=.again
  | .falling _ t => t=.again
  | .asleep _ t => t=.again
  | .woken t => t=.again

instance : DecidablePred Guards
  | .out t => inferInstanceAs (Decidable (t=.guard))
  | .entering t => inferInstanceAs (Decidable (t=.clear ∨ t=.again))
  | .inside t => inferInstanceAs (Decidable (t=.taken ∨ t=.clear ∨ t=.again))
  | .waking _ _ _ => inferInstanceAs (Decidable False)
  | .parking _ t => inferInstanceAs (Decidable (t=.again))
  | .parked _ t => inferInstanceAs (Decidable (t=.again))
  | .falling _ t => inferInstanceAs (Decidable (t=.again))
  | .asleep _ t => inferInstanceAs (Decidable (t=.again))
  | .woken t => inferInstanceAs (Decidable (t=.again))

/-- The places that a process can be in. -/
def Fits : Place Unit Pc → Prop
  | .out t => t=.idle ∨ t=.guard
  | .entering t => t=.test ∨ t=.again ∨ t=.clear
  | .inside t => t≠.idle ∧ t≠.guard
  | .waking _ _ t => t=.finish
  | .parking _ t => t=.test ∨ t=.again
  | .parked _ t => t=.test ∨ t=.again
  | .falling _ t => t=.test ∨ t=.again
  | .asleep _ t => t=.test ∨ t=.again
  | .woken t => t=.test ∨ t=.again

section Exclusion

variable {s t : System Unit Bool Pc} {n : ℕ}

/-- Acts are right. -/
theorem pays (killed : Bool) (x : Unit) (t : Pc) (locked : Bool) :
    Pays Reason Owes locked t (sleepLock.next killed x t locked) := by
  have hnone : ∀ t' : Pc,t'≠.notify → ∀ c,Owes t' c → Reason c locked :=
    fun t' ht c hc => absurd hc ht
  cases t with
  | test =>
    show Pays Reason Owes locked .test (if locked=true then .sleep () .test else .update true .taken)
    split
    · rename_i hl
      exact ⟨hl,hnone .test (by decide)⟩
    · exact fun _ _ => .inl rfl
  | again =>
    show Pays Reason Owes locked .again (if locked=true then .sleep () .again else .update true .taken)
    split
    · rename_i hl
      exact ⟨hl,hnone .again (by decide)⟩
    · exact fun _ _ => .inl rfl
  | clear => exact fun _ _ => .inr rfl
  | notify => exact fun _ _ => .inl rfl
  | idle => exact hnone .idle (by decide)
  | taken => exact hnone .taken (by decide)
  | guard => exact hnone .guard (by decide)
  | finish => exact hnone .finish (by decide)

/-- The flag is set exactly if somebody has a guard, and only one does. -/
structure Exclusive (s : System Unit Bool Pc) : Prop where
  /-- Processes are where they can be. -/
  fits : ∀ p,Fits (s.places p)
  /-- There is one guard. -/
  single : ∀ p q,Guards (s.places p) → Guards (s.places q) → p=q
  /-- The flag tells whether there is. -/
  flag : s.data=true ↔ ∃ p,Guards (s.places p)

/-- A process moves and keeps its guard, or keeps none. -/
theorem Exclusive.move (h : Exclusive s) {p : ℕ} {v : Place Unit Pc} (hv : Fits v)
    (hg : Guards v ↔ Guards (s.places p)) (hdata : t.data=s.data)
    (hplaces : t.places=Function.update s.places p v) : Exclusive t := by
  have hat : ∀ q,Guards (t.places q) ↔ Guards (s.places q) := by
    intro q
    rw [hplaces]
    by_cases e : q=p
    · rw [e,Function.update_self]
      exact hg
    · rw [Function.update_of_ne e]
  refine ⟨fun q => ?_,fun q r hq hr => h.single q r ((hat q).mp hq) ((hat r).mp hr),?_⟩
  · rw [hplaces]
    by_cases e : q=p
    · rwa [e,Function.update_self]
    · rw [Function.update_of_ne e]
      exact h.fits q
  · rw [hdata,h.flag]
    exact exists_congr fun q => (hat q).symm

/-- A step inside keeps locks exclusive. -/
theorem Exclusive.act (h : Exclusive s) {p : ℕ} {x : Unit}
    (ht : Monitors.step sleepLock n s (.act p x)=.next t) : Exclusive t := by
  rw [Monitors.step] at ht
  split at ht
  · rename_i u hp
    have hu := h.fits p
    rw [hp] at hu
    have hself : ∀ v : Place Unit Pc,(s.move p v).places p=v := fun v => Function.update_self ..
    have hother : ∀ (v : Place Unit Pc) q,q≠p → (s.move p v).places q=s.places q :=
      fun v q hq => Function.update_of_ne hq ..
    have hfits : ∀ v : Place Unit Pc,Fits v → ∀ q,Fits ((s.move p v).places q) := by
      intro v hv q
      by_cases e : q=p
      · rwa [e,hself]
      · rw [hother v q e]
        exact h.fits q
    cases u with
    | idle => exact absurd rfl hu.1
    | guard => exact absurd rfl hu.2
    | test =>
      dsimp only [sleepLock] at ht
      by_cases hl : s.data=true
      · rw [if_pos hl] at ht
        cases ht
        exact h.move (v:=.parking () .test) (.inl rfl)
          (by rw [hp]; exact iff_of_false (by decide) (by decide)) rfl rfl
      · rw [if_neg hl] at ht
        cases ht
        have hnone : ∀ q,¬Guards (s.places q) := fun q hq => hl (h.flag.mpr ⟨q,hq⟩)
        have honly : ∀ q,Guards ((s.move p (.inside .taken)).places q) → q=p := by
          intro q hq
          by_contra e
          rw [hother _ q e] at hq
          exact hnone q hq
        refine ⟨hfits _ ⟨by decide,by decide⟩,fun q r hq hr => (honly q hq).trans (honly r hr).symm,
          iff_of_true rfl ⟨p,?_⟩⟩
        show Guards ((s.move p (.inside .taken)).places p)
        rw [hself]
        exact .inl rfl
    | again =>
      have hl : s.data=true := h.flag.mpr ⟨p,by rw [hp]; exact .inr (.inr rfl)⟩
      dsimp only [sleepLock] at ht
      rw [if_pos hl] at ht
      cases ht
      exact h.move (v:=.parking () .again) (.inr rfl)
        (by rw [hp]; exact iff_of_true rfl (.inr (.inr rfl))) rfl rfl
    | taken =>
      cases ht
      exact h.move (v:=.out .guard) (.inr rfl)
        (by rw [hp]; exact iff_of_true rfl (.inl rfl)) rfl rfl
    | clear =>
      cases ht
      have hg : Guards (s.places p) := by
        rw [hp]
        exact .inr (.inl rfl)
      have hnone : ∀ q,¬Guards ((s.move p (.inside .notify)).places q) := by
        intro q hq
        by_cases e : q=p
        · rw [e,hself] at hq
          exact absurd hq (by decide)
        · rw [hother _ q e] at hq
          exact e (h.single q p hq hg)
      exact ⟨hfits _ ⟨by decide,by decide⟩,fun q _ hq => absurd hq (hnone q),
        iff_of_false Bool.false_ne_true (not_exists.mpr hnone)⟩
    | notify =>
      cases ht
      exact h.move (v:=.waking () 0 .finish) rfl
        (by rw [hp]; exact iff_of_false (by decide) (by decide)) rfl rfl
    | finish =>
      cases ht
      exact h.move (v:=.out .idle) (.inl rfl)
        (by rw [hp]; exact iff_of_false (by decide) (by decide)) rfl rfl
  · cases ht

/-- `wakeup` keeps locks exclusive. -/
theorem Exclusive.rouse (h : Exclusive s) (c : Unit) (k : ℕ) :
    Exclusive (s.move k ((s.places k).rouse c)) := by
  have hk := h.fits k
  cases hv : s.places k with
  | asleep c₁ t₁ =>
    rw [hv] at hk
    rw [Place.rouse]
    split
    · exact h.move (v:=.woken t₁) hk (by rw [hv]; exact Iff.rfl) rfl rfl
    · exact h.move (v:=.asleep c₁ t₁) hk (by rw [hv]) rfl rfl
  | _ =>
    rw [hv] at hk
    exact h.move hk (by rw [hv]) rfl rfl

/-- A step keeps locks exclusive. -/
theorem Exclusive.step (h : Exclusive s) {a : Label Pc Unit}
    (ht : Monitors.step sleepLock n s a=.next t) : Exclusive t := by
  have hfits : ∀ {p v},s.places p=v → Fits v := fun hp => by
    rw [←hp]
    exact h.fits _
  cases step_change ht with
  | @call p u u' hp hn he =>
    refine h.move (v:=.entering u) ?_ ?_ rfl rfl
    · cases u' <;> cases u <;> first
        | exact absurd he Bool.false_ne_true
        | exact .inl rfl
        | exact .inr (.inl rfl)
        | exact .inr (.inr rfl)
    · rw [hp]
      cases u' <;> cases u <;> first
        | exact absurd he Bool.false_ne_true
        | exact iff_of_false (fun hc => hc.elim Pc.noConfusion Pc.noConfusion) Pc.noConfusion
        | exact iff_of_true (.inl rfl) rfl
        | exact iff_of_true (.inr rfl) rfl
  | @take p u hp hfree =>
    have hu := hfits hp
    refine h.move (v:=.inside u) ?_ ?_ rfl rfl
    · obtain rfl | rfl | rfl := hu
      · exact ⟨by decide,by decide⟩
      · exact ⟨by decide,by decide⟩
      · exact ⟨by decide,by decide⟩
    · rw [hp]
      obtain rfl | rfl | rfl := hu
      · exact iff_of_false (by decide) (by decide)
      · exact iff_of_true (.inr (.inr rfl)) (.inr rfl)
      · exact iff_of_true (.inr (.inl rfl)) (.inl rfl)
  | update hp hact => exact h.act ht
  | notify hp hact => exact h.act ht
  | sleep hp hact => exact h.act ht
  | leave hp hact => exact h.act ht
  | @rouse p c k u hp hlt hlocked =>
    have hu := hfits hp
    refine (h.rouse c k).move (v:=.waking c (k+1) u) hu ?_ rfl rfl
    have hat : ¬Guards ((s.move k ((s.places k).rouse c)).places p) := by
      show ¬Guards (Function.update s.places k ((s.places k).rouse c) p)
      by_cases e : p=k
      · rw [← e,Function.update_self,hp]
        exact id
      · rw [Function.update_of_ne e,hp]
        exact id
    exact iff_of_false id hat
  | @woke p c k u hp hend =>
    have hu := hfits hp
    refine h.move (v:=.inside u) ?_ ?_ rfl rfl
    · rw [show u=.finish from hu]
      exact ⟨by decide,by decide⟩
    · rw [hp,show u=.finish from hu]
      exact iff_of_false (by decide) id
  | @park p c u hp =>
    have hu := hfits hp
    exact h.move (v:=.parked c u) hu (by rw [hp]; exact Iff.rfl) rfl rfl
  | @drop p c u hp =>
    have hu := hfits hp
    exact h.move (v:=.falling c u) hu (by rw [hp]; exact Iff.rfl) rfl rfl
  | @fall p c u hp =>
    have hu := hfits hp
    exact h.move (v:=.asleep c u) hu (by rw [hp]; exact Iff.rfl) rfl rfl
  | @resume p u hp =>
    have hu := hfits hp
    refine h.move (v:=.entering u) (hu.imp_right .inl) ?_ rfl rfl
    rw [hp]
    obtain rfl | rfl := hu
    · exact iff_of_false (by decide) (by decide)
    · exact iff_of_true (.inr rfl) rfl
  | @killAsleep p c u hp =>
    have hu := hfits hp
    exact h.move (v:=.woken u) hu (by rw [hp]; exact Iff.rfl) rfl rfl
  | kill => exact ⟨h.fits,h.single,h.flag⟩

end Exclusion

/-- The process is in `unlock`, with the flag clear and before the end of `wakeup`. -/
def Unlocking : Place Unit Pc → Prop
  | .inside t => t=.notify
  | .waking _ _ _ => True
  | _ => False

/-- In every run at most one process has a guard, the flag is set exactly while one has, and if
a process sleeps while the flag is clear, another is in `unlock` with the spin lock. -/
theorem sleepLock_excludes (n : ℕ) (as : List (Label Pc Unit)) (t : System Unit Bool Pc)
    (h : run (step sleepLock n) new as=.next t) :
    (∀ p q,Guards (t.places p) → Guards (t.places q) → p=q) ∧
      (t.data=true ↔ ∃ p,Guards (t.places p)) ∧
      ∀ p,(t.places p).Sleeps () → t.data=false → ∃ q,t.lock=some q ∧ Unlocking (t.places q) := by
  have hstep : ∀ (s : System Unit Bool Pc) (a : Label Pc Unit) (u : System Unit Bool Pc),
      Inv Reason Owes n s ∧ Exclusive s → True → step sleepLock n s a=.next u →
        Inv Reason Owes n u ∧ Exclusive u :=
    fun s a u hs _ hu => ⟨hs.1.step (fun p x v _ _ => pays _ x v s.data) hu,hs.2.step hu⟩
  have hnew : Inv Reason Owes n new ∧ Exclusive new := by
    refine ⟨.start,fun _ => .inl rfl,fun p q hp => ?_,iff_of_false Bool.false_ne_true ?_⟩
    · cases hp
    · rintro ⟨p,hp⟩
      cases hp
  obtain ⟨hinv,hex⟩ := run_invariant hstep hnew (guarded_of_forall (fun _ _ => trivial) _ _) h
  refine ⟨hex.single,hex.flag,fun p hp hclear => ?_⟩
  obtain hr | ⟨q,hq⟩ := hinv.sleeps p () hp
  · rw [Reason,hclear] at hr
    cases hr
  · refine ⟨q,(hinv.lock q).mpr hq.holds,?_⟩
    cases hv : t.places q with
    | inside u =>
      rw [hv] at hq
      exact hq
    | waking c k u => trivial
    | _ =>
      rw [hv] at hq
      exact hq

/-- Two processes that want the lock: the second sleeps, and is woken. -/
def contend : List (Label Pc Unit) :=
  [.call 0 .test,.take 0,.act 0 (),.act 0 (),.call 1 .test,.take 1,.act 1 (),.park 1,.drop 1,
    .call 0 .clear,.take 0,.act 0 (),.act 0 (),.wake 0,.fall 1,.wake 0,.wake 0,.act 0 (),
    .resume 1,.take 1,.act 1 ()]

theorem sleepLock_excludes_contend :
    ∃ t,run (step sleepLock 2) new contend=.next t ∧ t.data=true ∧
      ∀ p q,Guards (t.places p) → Guards (t.places q) → p=q := by
  obtain ⟨t,ht,hd⟩ := Outcome.exists_of_test (o:=run (step sleepLock 2) new contend)
    (p:=fun t => t.data) (by decide +kernel)
  exact ⟨t,ht,hd,(sleepLock_excludes 2 contend t ht).1⟩

end Xv6Rust.SleepLocks

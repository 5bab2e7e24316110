import Xv6Rust.VirtioDisk

/-!
# Ring counters of the virtio disk

`avail.idx`, `used.idx` and `used_idx` are counters of 16 bits. The device advances
its own modulo 2^16, the driver adds one to the other two with overflow checks. The
run of the driver is recorded with the number of requests submitted, the heads the
device has returned and the heads the handler has taken, and the counters are compared
with that record: they agree up to the last value of the counter, and the request
after it stops the kernel.
-/

namespace Xv6Rust.VirtioCounters

open Runs VirtioDisk

/-- The loop of `intr` with the heads it has taken so far: it goes on until the two
indices agree. -/
def drain : ℕ → System → List ℕ → Except Panic (Option (System×List ℕ))
  | 0,_,_ => .ok none
  | fuel+1,s,taken =>
    if s.usedIdx≠s.deviceIdx then do
      let t ← handleUsed s
      drain fuel t (taken++[s.usedRing (s.usedIdx.toNat%num)])
    else .ok (some (s,taken))

/-- The driver with a record of what it has done since boot. -/
structure Counted where
  /-- The driver. -/
  sys : System
  /-- Number of requests submitted. -/
  sent : ℕ
  /-- Heads the device has put on the used ring, oldest first. -/
  returned : List ℕ
  /-- Heads the interrupt handler has taken off it, oldest first. -/
  handled : List ℕ

/-- The driver after `init`. -/
def boot : Counted := ⟨VirtioDisk.init,0,[],[]⟩

/-- The number of requests an attempt to take descriptors submits. -/
def submissions (s : System) : ℕ :=
  match alloc3Desc s with
  | .ok (_,some _) => 1
  | _ => 0

/-- One step of the driver with its record. -/
def step (c : Counted) : Action → Outcome Panic Counted
  | .start proc => (VirtioDisk.step c.sys (.start proc)).bind fun t =>
      .next {c with sys := t,sent := c.sent+submissions c.sys}
  | .complete head status => (VirtioDisk.step c.sys (.complete head status)).bind fun t =>
      .next {c with sys := t,returned := c.returned++[head]}
  | .intr =>
    match drain (2^16) c.sys c.handled with
    | .ok (some (t,taken)) => .next {c with sys := t,handled := taken}
    | .ok none => .blocked
    | .error e => .fault e
  | a => (VirtioDisk.step c.sys a).bind fun t => .next {c with sys := t}

/-- An attempt to take descriptors finds none or enough for a request. -/
def Enough (c : Counted) (a : Action) : Prop := EnoughOrNone c.sys a

instance (c : Counted) (a : Action) : Decidable (Enough c a) :=
  inferInstanceAs (Decidable (EnoughOrNone c.sys a))

/-- The counters serve the next request: it is submitted without overflow at its place
in the ring, and an interrupt takes exactly the heads returned and not yet taken, each
once, and stops with the two indices equal. An interrupt that finds a request failed
by the device stops in the driver's own panic for it. -/
structure CountersWork (c : Counted) : Prop where
  /-- The next request is submitted. -/
  submits : ∀ req idx,∃ t,submit c.sys req idx=.ok t ∧
    t.availRing (c.sent%num)=idx.head ∧ t.availIdx.toNat=(c.sent+1)%2^16
  /-- The handler is behind the device. -/
  behind : c.handled<+:c.returned
  /-- The handler catches up when the device reports no failure. -/
  handles : (∀ head∈c.returned.drop c.handled.length,(c.sys.info head).status=0) →
    ∃ t,step c .intr=.next t
  /-- What it has taken then is what the device has returned. -/
  taken : ∀ t,step c .intr=.next t → t.handled=c.returned ∧ t.returned=c.returned ∧
    t.sys.usedIdx=t.sys.deviceIdx ∧ t.sys.usedIdx.toNat=c.returned.length%2^16
  /-- The only panic is the one for a failed request. -/
  panics : ∀ e,step c .intr=.fault e → e=.interruptStatus

section Drain

variable {s t : System}

theorem backlog_eq_zero : backlog s=0 ↔ s.usedIdx=s.deviceIdx := by
  rw [backlog,←UInt16.toNat_zero,UInt16.toNat_inj]
  constructor
  · intro h
    rw [←UInt16.sub_add_cancel s.deviceIdx s.usedIdx,h,UInt16.zero_add]
  · intro h
    rw [h,UInt16.sub_self]

theorem completed_of_empty (h : backlog s=0) : completed s=[] := by
  rw [completed,h]
  rfl

/-- The loop of the source is the loop that counts its rounds beforehand. -/
theorem drain_eq {n fuel : ℕ} (taken : List ℕ) (hb : backlog s=n) (hf : n<fuel) :
    drain fuel s taken=(intrLoop s n).map fun t => some (t,taken++completed s) := by
  induction n generalizing s fuel taken with
  | zero =>
    obtain ⟨fuel,rfl⟩ : ∃ k,fuel=k+1 := ⟨fuel-1,by omega⟩
    rw [drain,if_neg (by simpa using backlog_eq_zero.mp hb),completed_of_empty hb,
      List.append_nil]
    rfl
  | succ n ih =>
    obtain ⟨fuel,rfl⟩ : ∃ k,fuel=k+1 := ⟨fuel-1,by omega⟩
    have hne : s.usedIdx≠s.deviceIdx := by
      intro h
      rw [backlog_eq_zero.mpr h] at hb
      omega
    rw [drain,if_pos hne,intrLoop]
    cases hu : handleUsed s with
    | error e => rfl
    | ok u =>
      obtain ⟨buf,-,rfl⟩ := handleUsed_ok hu
      obtain ⟨hc,hn⟩ := completed_handled buf hb
      have hfuel : n<fuel := by omega
      have hrest := ih (taken++[s.usedRing (s.usedIdx.toNat%num)]) hn hfuel
      rw [List.append_assoc,List.singleton_append,←hc] at hrest
      exact hrest

theorem backlog_lt_size : backlog s<2^16 := UInt16.toNat_lt _

/-- A round of the handler with the index below its last value handles the entry or
finds that the device has failed it. -/
theorem handleUsed_cases {n buf : ℕ} (hu : s.usedIdx.toNat+(n+1)≤65535)
    (hc : (s.info (s.usedRing (s.usedIdx.toNat%num))).bufChannel=some buf) :
    ((s.info (s.usedRing (s.usedIdx.toNat%num))).status≠0 ∧
      handleUsed s=.error .interruptStatus) ∨
    ((s.info (s.usedRing (s.usedIdx.toNat%num))).status=0 ∧
      handleUsed s=.ok (VirtioDisk.handled s (s.usedRing (s.usedIdx.toNat%num)) buf)) := by
  have hlast : s.usedIdx≠65535 := by
    intro h
    rw [h] at hu
    change 65535+(n+1)≤65535 at hu
    omega
  by_cases hst : (s.info (s.usedRing (s.usedIdx.toNat%num))).status=0
  · right
    refine ⟨hst,?_⟩
    rw [handleUsed]
    dsimp only
    rw [if_neg (by simpa using hst),hc]
    dsimp only
    rw [if_neg hlast]
    simp only [VirtioDisk.handled,hc]
  · left
    refine ⟨hst,?_⟩
    rw [handleUsed]
    dsimp only
    rw [if_pos hst]

/-- The handler takes every entry and stops with equal indices, unless the device has
failed one of the requests. -/
theorem intrLoop_spec {n : ℕ} (hb : backlog s=n) (hu : s.usedIdx.toNat+n≤65535)
    (hc : ∀ head∈completed s,∃ buf,(s.info head).bufChannel=some buf) :
    (∃ t,intrLoop s n=.ok t ∧ t.usedIdx=s.deviceIdx ∧ t.usedIdx.toNat=s.usedIdx.toNat+n ∧
      t.deviceIdx=s.deviceIdx ∧ t.availIdx=s.availIdx ∧ t.pending=s.pending ∧
      t.borrowed=s.borrowed) ∨
    (intrLoop s n=.error .interruptStatus ∧ ∃ head∈completed s,(s.info head).status≠0) := by
  induction n generalizing s with
  | zero => exact .inl ⟨s,rfl,backlog_eq_zero.mp hb,rfl,rfl,rfl,rfl,rfl⟩
  | succ n ih =>
    have hmem : s.usedRing (s.usedIdx.toNat%num)∈completed s := by
      rw [(completed_handled 0 hb).1]
      exact List.mem_cons_self
    obtain ⟨buf,hbuf⟩ := hc _ hmem
    rcases handleUsed_cases hu hbuf with ⟨hst,he⟩|⟨hst,he⟩
    · right
      rw [intrLoop,he]
      exact ⟨rfl,_,hmem,hst⟩
    · obtain ⟨hq,hn⟩ := completed_handled buf hb
      generalize s.usedRing (s.usedIdx.toNat%num)=id at hq hn he hmem hbuf
      have hidx : (VirtioDisk.handled s id buf).usedIdx.toNat=s.usedIdx.toNat+1 := by
        change (s.usedIdx+1).toNat=_
        rw [UInt16.toNat_add,UInt16.toNat_one]
        omega
      have hinfo : ∀ k,((VirtioDisk.handled s id buf).info k).bufChannel=(s.info k).bufChannel ∧
          ((VirtioDisk.handled s id buf).info k).status=(s.info k).status := by
        intro k
        by_cases e : k=id
        · rw [e]
          simp [VirtioDisk.handled]
        · simp [VirtioDisk.handled,e]
      have hsub : ∀ head∈completed (VirtioDisk.handled s id buf),head∈completed s := by
        intro head hm
        rw [hq]
        exact List.mem_cons_of_mem _ hm
      have hrest := ih hn (by omega) (fun head hm => by
        rw [(hinfo head).1]
        exact hc head (hsub head hm))
      rw [intrLoop,he]
      rcases hrest with ⟨t,h1,h2,h3,h4⟩|⟨h1,head,hm,hst'⟩
      · exact .inl ⟨t,h1,h2,by rw [h3,hidx]; omega,h4⟩
      · refine .inr ⟨h1,head,hsub head hm,?_⟩
        rw [(hinfo head).2] at hst'
        exact hst'

end Drain

/-- The counters against the record. -/
structure Counts (c : Counted) : Prop where
  /-- The invariant of the driver. -/
  inv : VirtioDisk.Inv c.sys
  /-- `avail.idx` counts the requests submitted. -/
  avail : c.sys.availIdx.toNat=c.sent
  /-- A request submitted is with the device or returned. -/
  total : c.returned.length+c.sys.pending.length=c.sent
  /-- The record of the handler and the ring together are what was returned. -/
  ring : c.returned=c.handled++completed c.sys
  /-- `used_idx` counts the entries handled. -/
  used : c.sys.usedIdx.toNat=c.handled.length

namespace Counts

variable {c d : Counted}

theorem sent_le (h : Counts c) : c.sent≤65535 := by
  have := UInt16.toNat_lt c.sys.availIdx
  have := h.avail
  omega

theorem returned_length (h : Counts c) : c.returned.length=c.handled.length+backlog c.sys := by
  rw [h.ring,List.length_append,completed,List.length_map,List.length_range]

theorem backlog_le (h : Counts c) : c.sys.usedIdx.toNat+backlog c.sys≤65535 := by
  have h1 := h.returned_length
  have h2 := h.sent_le
  have h3 := h.total
  rw [h.used]
  omega

/-- `used.idx` counts the entries returned. -/
theorem device (h : Counts c) : c.sys.deviceIdx.toNat=c.returned.length := by
  have h1 := h.returned_length
  have h2 := h.backlog_le
  have h3 := UInt16.toNat_lt c.sys.deviceIdx
  have h4 := h.used
  rw [backlog,UInt16.toNat_sub] at h1 h2
  omega

/-- The channel of an entry that is not handled is there. -/
theorem channel (h : Counts c) : ∀ head∈completed c.sys,
    ∃ buf,(c.sys.info head).bufChannel=some buf := by
  intro head hm
  obtain ⟨p,req,idx,-,-,hb⟩ := h.inv.completed_owner hm
  exact ⟨req.buf,hb⟩

theorem drop_handled (h : Counts c) : c.returned.drop c.handled.length=completed c.sys := by
  rw [h.ring,List.drop_left]

theorem step_intr (h : Counts c) :
    (∃ t,intrLoop c.sys (backlog c.sys)=.ok t ∧ t.usedIdx=t.deviceIdx ∧
      t.usedIdx.toNat=c.returned.length ∧ t.availIdx=c.sys.availIdx ∧
      t.pending=c.sys.pending ∧ t.borrowed=c.sys.borrowed ∧ step c .intr=.next {c with sys := t,handled := c.returned}) ∨
    (step c .intr=.fault .interruptStatus ∧ ∃ head∈completed c.sys,(c.sys.info head).status≠0) := by
  have hd := drain_eq c.handled (s:=c.sys) rfl backlog_lt_size
  rcases intrLoop_spec rfl h.backlog_le h.channel with
    ⟨t,h1,h2,h3,h4,h5,h6,h7⟩|⟨h1,hst⟩
  · left
    refine ⟨t,h1,h2.trans h4.symm,?_,h5,h6,h7,?_⟩
    · rw [h3,h.returned_length,h.used]
    · rw [h1,←h.ring] at hd
      rw [step,hd]
      rfl
  · right
    refine ⟨?_,hst⟩
    rw [h1] at hd
    rw [step,hd]
    rfl

end Counts

section Steps

variable {c d : Counted}

/-- A step that leaves the counters and the rings alone keeps them counted. -/
theorem Counts.frame (h : Counts c) {t : System} (hi : VirtioDisk.Inv t)
    (ha : t.availIdx=c.sys.availIdx) (hp : t.pending=c.sys.pending)
    (hd : t.deviceIdx=c.sys.deviceIdx) (hu : t.usedIdx=c.sys.usedIdx)
    (hr : t.usedRing=c.sys.usedRing) : Counts {c with sys := t} := by
  have hcompleted : completed t=completed c.sys := by
    rw [completed,completed,backlog,backlog,hd,hu,hr]
  constructor
  · exact hi
  · rw [ha]
    exact h.avail
  · rw [hp]
    exact h.total
  · rw [hcompleted]
    exact h.ring
  · rw [hu]
    exact h.used

/-- An attempt that finds nothing free submits nothing. -/
theorem submissions_none {s : System} (h : freeCount s=0) : submissions s=0 := by
  rw [submissions,alloc3Desc_none h]

/-- An attempt that finds enough submits one request. -/
theorem submissions_some {s : System} (h : 3≤freeCount s) : submissions s=1 := by
  obtain ⟨idx,ha,-⟩ := alloc3Desc_some h
  rw [submissions,ha]

theorem Counts.start (h : Counts c) {p : ℕ} (hc : Enough c (.start p))
    (hs : step c (.start p)=.next d) : Counts d := by
  obtain ⟨t,ht,he⟩ := Outcome.bind_eq_next hs
  cases he
  have hi := h.inv.step hc ht
  rw [VirtioDisk.step] at ht
  split at ht
  · rename_i req hp
    have hst := locked_next ht
    rcases hc with hc|hc
    · rw [start_none p req hc] at hst
      cases hst
      have hk := h.frame hi rfl rfl rfl rfl rfl
      rw [submissions_none hc]
      exact ⟨hk.inv,hk.avail,hk.total,hk.ring,hk.used⟩
    · obtain ⟨-,idx,-,hsome,-⟩ := start_some p req hc
      rw [hsome] at hst
      split at hst
      · cases hst
      · rename_i hlast
        cases hst
        rw [submissions_some hc]
        have hsent := h.avail
        have hlt := UInt16.toNat_lt c.sys.availIdx
        have hne : c.sys.availIdx.toNat≠65535 := by
          intro e
          exact hlast (UInt16.toNat_inj.mp e)
        constructor
        · exact hi
        · change (c.sys.availIdx+1).toNat=_
          rw [UInt16.toNat_add,UInt16.toNat_one]
          dsimp only
          omega
        · have htotal := h.total
          change c.returned.length+(idx.head::c.sys.pending).length=_
          rw [List.length_cons]
          dsimp only
          omega
        · exact h.ring
        · exact h.used
  · cases ht

theorem Counts.complete (h : Counts c) {head : ℕ} {status : UInt8}
    (hs : step c (.complete head status)=.next d) : Counts d := by
  obtain ⟨t,ht,he⟩ := Outcome.bind_eq_next hs
  cases he
  have hi := h.inv.step (a:=.complete head status) trivial ht
  rw [VirtioDisk.step] at ht
  split at ht
  · rename_i hm
    cases ht
    constructor
    · exact hi
    · exact h.avail
    · have htotal := h.total
      have hpos := List.length_pos_of_mem hm
      change (c.returned++[head]).length+(c.sys.pending.erase head).length=_
      rw [List.length_append,List.length_singleton,List.length_erase_of_mem hm]
      dsimp only
      omega
    · rw [completed_complete (h.inv.backlog_lt hm),←List.append_assoc,←h.ring]
    · exact h.used
  · cases ht

theorem Counts.intr (h : Counts c) (hs : step c .intr=.next d) : Counts d := by
  rcases h.step_intr with ⟨t,ht,heq,hused,havail,hpend,-,hstep⟩|⟨hstep,-⟩
  · rw [hstep] at hs
    cases hs
    have hi := h.inv.intrLoop rfl ht
    have hempty : completed t=[] := completed_of_empty (backlog_eq_zero.mpr heq)
    constructor
    · exact hi
    · rw [havail]
      exact h.avail
    · rw [hpend]
      exact h.total
    · rw [hempty,List.append_nil]
    · exact hused
  · rw [hstep] at hs
    cases hs

/-- Every step keeps the counters counted as long as attempts to take descriptors find
none or enough. -/
theorem Counts.step {a : Action} (h : Counts c) (hc : Enough c a)
    (hs : step c a=.next d) : Counts d := by
  cases a with
  | call p req =>
    obtain ⟨t,ht,he⟩ := Outcome.bind_eq_next hs
    cases he
    have hi := h.inv.step hc ht
    rw [VirtioDisk.step] at ht
    split at ht
    · cases ht
      exact h.frame hi rfl rfl rfl rfl rfl
    · cases ht
  | start p => exact h.start hc hs
  | resume p =>
    obtain ⟨t,ht,he⟩ := Outcome.bind_eq_next hs
    cases he
    have hi := h.inv.step hc ht
    rw [VirtioDisk.step] at ht
    split at ht
    · rename_i req idx hp
      have hst := locked_next ht
      rw [awaitDisk] at hst
      split at hst
      · cases hst
        exact h.frame hi rfl rfl rfl rfl rfl
      · rw [h.inv.finish_eq (by rw [hp]; rfl)] at hst
        cases hst
        exact h.frame hi rfl rfl rfl rfl rfl
    · cases ht
  | kill p =>
    obtain ⟨t,ht,he⟩ := Outcome.bind_eq_next hs
    cases he
    have hi := h.inv.step hc ht
    rw [VirtioDisk.step] at ht
    split at ht
    · cases ht
      exact h.frame hi rfl rfl rfl rfl rfl
    · cases ht
      exact h.frame hi rfl rfl rfl rfl rfl
    · cases ht
  | complete head status => exact h.complete hs
  | intr => exact h.intr hs

theorem counts_boot : Counts boot := ⟨inv_init,rfl,rfl,rfl,rfl⟩

/-- The counters serve a request exactly as long as fewer than 2^16-1 came before. -/
theorem Counts.work_iff (h : Counts c) : CountersWork c ↔ c.sent<65535 := by
  constructor
  · intro hw
    by_contra hlt
    have hsent : c.sent=65535 := le_antisymm h.sent_le (not_lt.mp hlt)
    obtain ⟨t,ht,-⟩ := hw.submits ⟨0,0,false⟩ ⟨0,1,2⟩
    have hlast : c.sys.availIdx=65535 := UInt16.toNat_inj.mp (h.avail.trans hsent)
    rw [submit,if_pos hlast] at ht
    cases ht
  · intro hlt
    constructor
    · intro req idx
      have hlast : c.sys.availIdx≠65535 := by
        intro e
        have := h.avail
        rw [e] at this
        change 65535=c.sent at this
        omega
      refine ⟨_,if_neg hlast,?_,?_⟩
      · rw [h.avail]
        exact Function.update_self _ _ _
      · have := h.avail
        change (c.sys.availIdx+1).toNat=_
        rw [UInt16.toNat_add,UInt16.toNat_one,this]
    · rw [h.ring]
      exact List.prefix_append _ _
    · intro hstatus
      rw [h.drop_handled] at hstatus
      rcases h.step_intr with ⟨t,-,-,-,-,-,-,hstep⟩|⟨-,head,hm,hne⟩
      · exact ⟨_,hstep⟩
      · exact absurd (hstatus head hm) hne
    · intro t ht
      rcases h.step_intr with ⟨u,-,heq,hused,-,-,-,hstep⟩|⟨hstep,-⟩
      · rw [hstep] at ht
        cases ht
        refine ⟨rfl,rfl,heq,?_⟩
        have h1 := h.total
        dsimp only
        rw [hused]
        omega
      · rw [hstep] at ht
        cases ht
    · intro e he
      rcases h.step_intr with ⟨u,-,-,-,-,-,-,hstep⟩|⟨hstep,-⟩
      · rw [hstep] at he
        cases he
      · rw [hstep] at he
        cases he
        rfl

end Steps

/-- Ring counters. In every state reached by a run in which no attempt to take
descriptors finds one or two of them free, the counters serve the next request
exactly when fewer than 65535 requests were submitted before it. -/
theorem counters_work_iff {actions : List Action} {c : Counted}
    (hg : Guarded step Enough boot actions) (hr : run step boot actions=.next c) :
    CountersWork c ↔ c.sent<65535 := by
  have h : Counts c := run_invariant (fun c a d hc he hs => hc.step he hs) counts_boot hg hr
  exact h.work_iff

/-- A block read into a buffer. -/
def oneRead : Request := ⟨10,1,false⟩

/-- One request from its call to its end. -/
def oneRequest : List Action :=
  [.call 0 oneRead,.start 0,.complete 0 0,.intr,.resume 0]

/-- That many requests, one after the other. -/
def requests (n : ℕ) : List Action := (List.replicate n oneRequest).flatten

theorem counters_work_iff_oneRequest :
    Guarded step Enough boot (requests 2) ∧
      ∃ c,run step boot (requests 2)=.next c ∧ (CountersWork c ↔ c.sent<65535) ∧ c.sent=2 := by
  have hg : Guarded step Enough boot (requests 2) := by decide +kernel
  obtain ⟨c,hc,hs⟩ : ∃ c,run step boot (requests 2)=.next c ∧ decide (c.sent=2)=true :=
    Outcome.exists_of_test (by decide +kernel)
  exact ⟨hg,c,hc,counters_work_iff hg hc,of_decide_eq_true hs⟩

/-- No request is under way. -/
structure Quiet (c : Counted) : Prop where
  /-- The counters are counted. -/
  counts : Counts c
  /-- Nobody is in `rw`. -/
  idle : ∀ p,c.sys.procs p=.idle
  /-- No buffer is borrowed. -/
  borrowed : c.sys.borrowed=[]

section LongRun

variable {c : Counted}

theorem Quiet.free (h : Quiet c) : ∀ i<num,c.sys.free i=true := by
  intro i hi
  refine (h.counts.inv.owned.free_iff i hi).mpr fun p hp => ?_
  rw [h.idle p] at hp
  cases hp

theorem Quiet.queue (h : Quiet c) : c.sys.pending=[] ∧ completed c.sys=[] := by
  rw [←List.append_eq_nil_iff,List.eq_nil_iff_forall_not_mem]
  intro head hm
  obtain ⟨p,req,idx,hf,-⟩ := (h.counts.inv.queue head).mp hm
  rw [h.idle p] at hf
  cases hf

/-- With every descriptor free a request gets the first three. -/
theorem alloc3Desc_free {s : System} (hf : ∀ i<num,s.free i=true) :
    ∃ t,alloc3Desc s=.ok (t,some [0,1,2]) := by
  rw [num] at hf
  have h0 := allocDesc_first (i:=0) (s:=s) (by decide) (hf 0 (by decide)) (by omega)
  have h1 := allocDesc_first (i:=1) (s:={s with free := Function.update s.free 0 false})
    (by decide) (by simpa using hf 1 (by decide)) (by
      intro j hj
      obtain rfl : j=0 := by omega
      exact Function.update_self 0 false s.free)
  have h2 := allocDesc_first (i:=2)
    (s:={s with free := Function.update (Function.update s.free 0 false) 1 false})
    (by decide) (by simpa using hf 2 (by decide)) (by
      intro j hj
      obtain rfl|rfl : j=0 ∨ j=1 := by omega
      · simp
      · exact Function.update_self 1 false (Function.update s.free 0 false))
  rw [alloc3Desc,alloc3Loop,h0]
  dsimp only
  rw [alloc3Loop,h1]
  dsimp only
  rw [alloc3Loop,h2]
  dsimp only
  rw [alloc3Loop]
  exact ⟨_,rfl⟩

theorem freeCount_free {s : System} (hf : ∀ i<num,s.free i=true) : freeCount s=num := by
  rw [freeCount,Finset.filter_true_of_mem fun i hi => hf i (Finset.mem_range.mp hi),
    Finset.card_range]

/-- A request from no other under way gets the first three descriptors. -/
theorem start_free {s : System} (p : ℕ) (req : Request) (hf : ∀ i<num,s.free i=true)
    (ha : s.availIdx≠65535) :
    VirtioDisk.start s p req=.ok (submitted s p req ⟨0,1,2⟩) := by
  obtain ⟨t,idx,halloc,hstart,-⟩ := start_some p req
    (show 3≤freeCount s by rw [freeCount_free hf]; decide)
  obtain ⟨u,hu⟩ := alloc3Desc_free hf
  rw [hu] at halloc
  have hidx : idx=⟨0,1,2⟩ := by
    cases idx
    cases halloc
    rfl
  rw [hstart,if_neg ha,hidx]

/-- The device finds the status byte of a request at the end of its chain. -/
theorem complete_status {s : System} {idx : Chain} (status : UInt8) (hl : Linked s.desc idx) :
    ((VirtioDisk.complete s idx.head status).info idx.head).status=status := by
  simp only [VirtioDisk.complete,hl.head.2,hl.data.2,hl.status.2,Function.update_self]

/-- The driver after a call of `rw` with nothing else under way. -/
def called (s : System) (req : Request) : System :=
  {s with procs := Function.update s.procs 0 (.want req),borrowed := [req.buf]}

theorem Quiet.call (h : Quiet c) (req : Request) :
    step c (.call 0 req)=.next {c with sys := called c.sys req} := by
  have hcall : VirtioDisk.step c.sys (.call 0 req)=.next (called c.sys req) := by
    rw [VirtioDisk.step,if_pos ⟨h.idle 0,by rw [h.borrowed]; exact List.not_mem_nil⟩,h.borrowed]
    rfl
  change (VirtioDisk.step c.sys (.call 0 req)).bind _=_
  rw [hcall]
  rfl

theorem Quiet.enough (h : Quiet c) (req : Request) : 3≤freeCount (called c.sys req) := by
  rw [freeCount_free (s:=called c.sys req) h.free]
  decide

/-- The request of a quiet driver is submitted over the first three descriptors. -/
theorem Quiet.start (h : Quiet c) (req : Request) (hlt : c.sent<65535) :
    step {c with sys := called c.sys req} (.start 0)=
      .next {c with sys := submitted (called c.sys req) 0 req ⟨0,1,2⟩,sent := c.sent+1} := by
  have hlast : (called c.sys req).availIdx≠65535 := by
    intro e
    have havail := h.counts.avail
    change c.sys.availIdx=65535 at e
    rw [e] at havail
    change 65535=c.sent at havail
    omega
  have hfree : ∀ i<num,(called c.sys req).free i=true := h.free
  have hwant : (called c.sys req).procs 0=.want req := Function.update_self 0 _ c.sys.procs
  rw [step,VirtioDisk.step,hwant]
  dsimp only
  rw [start_free 0 req hfree hlast,submissions_some (h.enough req)]
  rfl

/-- One request of the first process is under way, over these descriptors. -/
structure Sent (c : Counted) (req : Request) (idx : Chain) : Prop where
  /-- The counters are counted. -/
  counts : Counts c
  /-- The device has it. -/
  pending : idx.head∈c.sys.pending
  /-- Nothing waits for the interrupt handler. -/
  completed : completed c.sys=[]
  /-- Its caller sleeps. -/
  caller : c.sys.procs 0=.sleepBuf req idx
  /-- Nobody else is in `rw`. -/
  idle : ∀ p≠0,c.sys.procs p=.idle
  /-- Its buffer is borrowed. -/
  borrowed : c.sys.borrowed=[req.buf]

theorem Quiet.sent (h : Quiet c) (req : Request) (hlt : c.sent<65535) :
    Sent {c with sys := submitted (called c.sys req) 0 req ⟨0,1,2⟩,sent := c.sent+1} req
      ⟨0,1,2⟩ := by
  have hcalled : Counts {c with sys := called c.sys req} :=
    Counts.step (a:=.call 0 req) h.counts trivial (h.call req)
  constructor
  · exact Counts.step (a:=.start 0) hcalled (.inr (h.enough req)) (h.start req hlt)
  · exact List.mem_cons_self
  · exact h.queue.2
  · exact Function.update_self 0 _ (called c.sys req).procs
  · intro p hp
    simp only [submitted,called,Function.update_of_ne hp]
    exact h.idle p
  · rfl

/-- The device returns the request, the interrupt hands it back and its caller takes it
down. -/
theorem Sent.finish {req : Request} {idx : Chain} (h : Sent c req idx) :
    ∃ d,run step c [.complete idx.head 0,.intr,.resume 0]=.next d ∧ Quiet d ∧
      d.sent=c.sent := by
  have hlinked := h.counts.inv.linked 0 req idx (by rw [h.caller]; rfl)
  have hreturn : step c (.complete idx.head 0)=
      .next {c with
        sys := VirtioDisk.complete c.sys idx.head 0
        returned := c.returned++[idx.head]} := by
    rw [step,VirtioDisk.step,if_pos h.pending]
    rfl
  have hreturned := h.counts.complete hreturn
  have hone : VirtioDisk.completed (VirtioDisk.complete c.sys idx.head 0)=[idx.head] := by
    rw [completed_complete (h.counts.inv.backlog_lt h.pending),h.completed]
    rfl
  rw [run_cons_next _ hreturn]
  rcases hreturned.step_intr with ⟨t,ht,-,-,-,-,hborrowed,hintr⟩|⟨-,head,hm,hne⟩
  · have hback := hreturned.intr hintr
    have hexact := hreturned.inv.intrLoop_exact rfl ht
    have hcaller : (t.info idx.head).disk=false ∧ t.procs 0=.wait req idx := by
      have h0 := hexact 0
      rw [show (VirtioDisk.complete c.sys idx.head 0).procs 0=_ from h.caller] at h0
      dsimp only [Call.inFlight] at h0
      rw [if_pos (by rw [hone]; exact List.mem_singleton_self _)] at h0
      exact h0
    have hothers : ∀ p≠0,t.procs p=.idle := by
      intro p hp
      have h1 := hexact p
      rw [show (VirtioDisk.complete c.sys idx.head 0).procs p=_ from h.idle p hp] at h1
      exact h1
    have hresume : awaitDisk t 0 req idx=.ok (finished t 0 req idx) := by
      rw [awaitDisk,if_neg (by rw [hcaller.1]; decide)]
      exact hback.inv.finish_eq (by rw [hcaller.2]; rfl)
    have hstep : VirtioDisk.step t (.resume 0)=.next (finished t 0 req idx) := by
      rw [VirtioDisk.step,hcaller.2]
      dsimp only
      rw [hresume]
      rfl
    rw [run_cons_next _ hintr]
    set m : Counted := {c with
      sys := t
      returned := c.returned++[idx.head]
      handled := c.returned++[idx.head]} with hm
    have hlast : step m (.resume 0)=.next {m with sys := finished t 0 req idx} := by
      change (VirtioDisk.step t (.resume 0)).bind _=_
      rw [hstep]
      rfl
    refine ⟨_,run_cons_next _ hlast,⟨hback.step (a:=.resume 0) trivial hlast,?_,?_⟩,rfl⟩
    · intro p
      by_cases hp : p=0
      · rw [hp]
        simp only [finished,Function.update_self]
      · simp only [finished,Function.update_of_ne hp,hothers p hp]
        rfl
    · have hone : t.borrowed=[req.buf] := hborrowed.trans h.borrowed
      simp only [finished,hone,List.erase_cons_head]
  · rw [hone,List.mem_singleton] at hm
    rw [hm] at hne
    exact absurd (complete_status 0 hlinked) hne

/-- One request from its call to its end, with nothing else under way. -/
theorem Quiet.request (h : Quiet c) (hlt : c.sent<65535) :
    Guarded step Enough c oneRequest ∧
      ∃ d,run step c oneRequest=.next d ∧ Quiet d ∧ d.sent=c.sent+1 := by
  obtain ⟨d,hd,hq,hsent⟩ := (h.sent oneRead hlt).finish
  have hrun : run step c oneRequest=.next d := by
    rw [oneRequest,run_cons_next _ (h.call oneRead),run_cons_next _ (h.start oneRead hlt)]
    exact hd
  refine ⟨?_,d,hrun,hq,hsent⟩
  rw [oneRequest,Guarded,h.call oneRead]
  refine ⟨trivial,?_⟩
  dsimp only
  rw [Guarded,h.start oneRead hlt]
  refine ⟨.inr (h.enough oneRead),guarded_of_mem (fun a ha e => ?_) _⟩
  simp only [List.mem_cons,List.not_mem_nil,or_false] at ha
  rcases ha with rfl|rfl|rfl <;> trivial

/-- Any number of requests up to the last value of the counter. -/
theorem Quiet.requests (h : Quiet c) {n : ℕ} (hn : c.sent+n≤65535) :
    Guarded step Enough c (requests n) ∧
      ∃ d,run step c (requests n)=.next d ∧ Quiet d ∧ d.sent=c.sent+n := by
  induction n generalizing c with
  | zero => exact ⟨trivial,c,rfl,h,rfl⟩
  | succ n ih =>
    obtain ⟨hg,d,hd,hq,hsent⟩ := h.request (by omega)
    obtain ⟨hg',e,he,hq',hsent'⟩ := ih hq (by omega)
    have hsplit : VirtioCounters.requests (n+1)=oneRequest++VirtioCounters.requests n := by
      rw [VirtioCounters.requests,List.replicate_succ,List.flatten_cons]
      rfl
    rw [hsplit,run_append _ hd]
    exact ⟨guarded_append hg hd hg',e,he,hq',by omega⟩

theorem quiet_boot : Quiet boot := ⟨counts_boot,fun _ => rfl,rfl⟩

end LongRun

/-- After 65535 requests, each finished before the next, `avail.idx` is at its last
value; the counters do not serve the request after them, which stops the kernel. -/
theorem counters_stop :
    Guarded step Enough boot (requests 65535) ∧
      (∃ c,run step boot (requests 65535)=.next c ∧ c.sent=65535 ∧ ¬CountersWork c) ∧
      run step boot (requests 65535++[.call 0 oneRead,.start 0])=.fault .overflow := by
  obtain ⟨hg,c,hr,hq,hsent⟩ := quiet_boot.requests (n:=65535) (by decide)
  have hfull : c.sent=65535 := hsent
  refine ⟨hg,⟨c,hr,hfull,?_⟩,?_⟩
  · rw [hq.counts.work_iff,hfull]
    decide
  · have hlast : (called c.sys oneRead).availIdx=65535 :=
      UInt16.toNat_inj.mp (hq.counts.avail.trans hfull)
    obtain ⟨-,idx,-,hstart,-⟩ := start_some 0 oneRead (hq.enough oneRead)
    rw [if_pos hlast] at hstart
    have hwant : (called c.sys oneRead).procs 0=.want oneRead :=
      Function.update_self 0 _ c.sys.procs
    have hstep : step {c with sys := called c.sys oneRead} (.start 0)=.fault .overflow := by
      rw [step,VirtioDisk.step,hwant]
      dsimp only
      rw [hstart]
      rfl
    rw [run_append _ hr,run_cons_next _ (hq.call oneRead),run,hstep]

end Xv6Rust.VirtioCounters

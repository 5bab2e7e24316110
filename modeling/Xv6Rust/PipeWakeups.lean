import Xv6Rust.Monitors
import Xv6Rust.PipeRing

/-!
# Sleepers on a pipe

`Pipe::read`, `Pipe::write` and `Pipe::close` of `fs/file/pipe.rs` as sections under the pipe lock.
Readers sleep on the address of `read_cnt` while the pipe is empty and open for writing, writers on
that of `write_cnt` while it is full and open for reading. A `write` that finds its process killed
returns without waking the readers, also after it has stored bytes.
-/

namespace Xv6Rust.PipeWakeups

open Runs Monitors
open PipeRing (PipeInner pipeSize slot)

/-- What processes sleep on. -/
inductive Channel where
  /-- `&pipe.read_cnt`. -/
  | readCnt
  /-- `&pipe.write_cnt`. -/
  | writeCnt
  deriving DecidableEq

/-- Where a process is in a call on the pipe. -/
inductive Pc where
  /-- Not in the pipe. -/
  | idle
  /-- `read`, at the test of its waiting loop. -/
  | readLoop (count : ℕ)
  /-- `read`, in its copying loop with so many bytes left. -/
  | readCopy (left : ℕ)
  /-- `read`, after its `wakeup`. -/
  | readEnd
  /-- `write`, at the test of its loop with these bytes left; the flag tells whether it has stored
  bytes since it took the lock. -/
  | writeLoop (bytes : List UInt8) (stored : Bool)
  /-- `write` of a full pipe, after its `wakeup`. -/
  | writeFull (bytes : List UInt8)
  /-- `write`, after its last `wakeup`. -/
  | writeEnd
  /-- `close`. -/
  | close (isWrite : Bool)
  /-- `close`, with the flag clear. -/
  | closeWake (isWrite : Bool)
  /-- `close`, after its `wakeup`. -/
  | closeEnd

/-- `Pipe::read`, `Pipe::write` and `Pipe::close`; what is learnt is whether a user copy succeeds. -/
def pipe : Program Channel PipeInner Pc Bool where
  enters
    | .idle,.readLoop _ => true
    | .idle,.writeLoop _ false => true
    | .idle,.close _ => true
    | _,_ => false
  next killed copyOk t pipe :=
    match t with
    | .readLoop count =>
      if pipe.readCnt=pipe.writeCnt ∧ pipe.writeOpen=true then
        if killed=true then .leave .idle else .sleep .readCnt (.readLoop count)
      else .update pipe (.readCopy (min count (pipe.writeCnt-pipe.readCnt).toNat))
    | .readCopy 0 => .wake .writeCnt .readEnd
    | .readCopy (left+1) =>
      -- the counter moves before the byte is copied
      if copyOk=true then .update {pipe with readCnt := pipe.readCnt+1} (.readCopy left)
      else .update {pipe with readCnt := pipe.readCnt+1} (.readCopy 0)
    | .writeLoop [] _ => .wake .readCnt .writeEnd
    | .writeLoop (byte::bytes) stored =>
      if pipe.readOpen=false ∨ killed=true then .leave .idle
      else if pipe.full then .wake .readCnt (.writeFull (byte::bytes))
      else if copyOk=true then .update (pipe.store byte) (.writeLoop bytes true)
      else .update pipe (.writeLoop [] stored)
    | .writeFull bytes => .sleep .writeCnt (.writeLoop bytes false)
    | .close true => .update {pipe with writeOpen := false} (.closeWake true)
    | .close false => .update {pipe with readOpen := false} (.closeWake false)
    | .closeWake true => .wake .readCnt .closeEnd
    | .closeWake false => .wake .writeCnt .closeEnd
    | _ => .leave .idle

/-- The pipe of `Pipe::create`, and processes that are not in it. -/
def create : System Channel PipeInner Pc :=
  ⟨PipeRing.create.pipe,none,fun _ => .out .idle,fun _ => false⟩

/-- There is a reason to sleep. -/
def Reason : Channel → PipeInner → Prop
  | .readCnt,pipe => pipe.readCnt=pipe.writeCnt ∧ pipe.writeOpen=true
  | .writeCnt,pipe => pipe.full ∧ pipe.readOpen=true

/-- Who changes the pipe owes a wake-up. -/
def Owes : Pc → Channel → Prop
  | .readCopy _,c => c=.writeCnt
  | .writeLoop _ true,c => c=.readCnt
  | .closeWake true,c => c=.readCnt
  | .closeWake false,c => c=.writeCnt
  | _,_ => False

/-- What a process knows of the pipe while it has the lock. -/
def Ok : Pc → PipeInner → Prop
  | .readCopy left,pipe => left ≤ (pipe.writeCnt-pipe.readCnt).toNat
  | .writeLoop _ true,pipe => pipe.readOpen=true
  | .writeFull _,pipe => pipe.full ∧ pipe.readOpen=true
  | _,_ => True

/-- The process is at the test of a `write` with bytes left that has stored some since it took the
lock. -/
def interrupted : Place Channel Pc → Bool
  | .inside (.writeLoop (_::_) true) => true
  | _ => false

/-- The step is not the test of a `write` that finds its process killed after it has stored bytes
under the lock. -/
def Undisturbed (s : System Channel PipeInner Pc) : Label Pc Bool → Prop
  | .act p _ => ¬(interrupted (s.places p)=true ∧ s.killed p=true)
  | _ => True

instance (s : System Channel PipeInner Pc) : DecidablePred (Undisturbed s)
  | .act p _ => inferInstanceAs (Decidable ¬(interrupted (s.places p)=true ∧ s.killed p=true))
  | .call _ _ => inferInstanceAs (Decidable True)
  | .take _ => inferInstanceAs (Decidable True)
  | .wake _ => inferInstanceAs (Decidable True)
  | .park _ => inferInstanceAs (Decidable True)
  | .drop _ => inferInstanceAs (Decidable True)
  | .fall _ => inferInstanceAs (Decidable True)
  | .resume _ => inferInstanceAs (Decidable True)
  | .kill _ => inferInstanceAs (Decidable True)

section Sections

variable {data : PipeInner} {t : Pc} {killed copyOk : Bool}

/-- Who owes nothing may leave. -/
theorem owes_none (h : ∀ c,¬Owes t c) : ∀ c,Owes t c → Reason c data :=
  fun c hc => absurd hc (h c)

/-- A pipe with unread bytes is not empty. -/
theorem readCnt_ne_writeCnt (h : 0 < (data.writeCnt-data.readCnt).toNat) :
    data.readCnt≠data.writeCnt := by
  intro e
  rw [e,UInt32.sub_self] at h
  exact absurd h (by decide)

/-- Taking a byte takes one from the unread ones. -/
theorem unread_pred {left : ℕ} (h : left+1 ≤ (data.writeCnt-data.readCnt).toNat) :
    left ≤ (data.writeCnt-(data.readCnt+1)).toNat := by
  rw [UInt32.toNat_sub] at h ⊢
  rw [UInt32.toNat_add]
  have hw := data.writeCnt.toNat_lt
  have hr := data.readCnt.toNat_lt
  rw [UInt32.toNat_one]
  omega

/-- Acts keep what a process knows. -/
theorem learns (hok : Ok t data) : Learns Ok data (pipe.next killed copyOk t data) := by
  cases t with
  | readLoop count =>
    show Learns Ok data (if data.readCnt=data.writeCnt ∧ data.writeOpen=true then
      if killed=true then .leave .idle else .sleep Channel.readCnt (.readLoop count)
      else .update data (.readCopy (min count (data.writeCnt-data.readCnt).toNat)))
    split
    · split
      · trivial
      · exact fun _ => trivial
    · exact Nat.min_le_right ..
  | readCopy left =>
    cases left with
    | zero => trivial
    | succ left =>
      show Learns Ok data (if copyOk=true then
        .update {data with readCnt := data.readCnt+1} (.readCopy left)
        else .update {data with readCnt := data.readCnt+1} (.readCopy 0))
      split
      · exact unread_pred hok
      · exact Nat.zero_le _
  | writeLoop bytes stored =>
    cases bytes with
    | nil => trivial
    | cons byte bytes =>
      show Learns Ok data (if data.readOpen=false ∨ killed=true then .leave .idle
        else if data.full then .wake Channel.readCnt (.writeFull (byte::bytes))
        else if copyOk=true then .update (data.store byte) (.writeLoop bytes true)
        else .update data (.writeLoop [] stored))
      split
      · trivial
      · rename_i hopen
        have hopen : data.readOpen=true := by
          cases hr : data.readOpen with
          | true => rfl
          | false => exact absurd (.inl hr) hopen
        split
        · rename_i hfull
          exact ⟨hfull,hopen⟩
        · split
          · exact hopen
          · cases stored with
            | true => exact hopen
            | false => trivial
  | writeFull bytes => exact fun _ => trivial
  | close isWrite =>
    cases isWrite with
    | true => trivial
    | false => trivial
  | closeWake isWrite =>
    cases isWrite with
    | true => trivial
    | false => trivial
  | idle => trivial
  | readEnd => trivial
  | writeEnd => trivial
  | closeEnd => trivial

/-- Acts are right, but for a `write` that is killed after it has stored bytes. -/
theorem pays (hok : Ok t data) (hc : ¬(interrupted (.inside t)=true ∧ killed=true)) :
    Pays Reason Owes data t (pipe.next killed copyOk t data) := by
  cases t with
  | readLoop count =>
    show Pays Reason Owes data _ (if data.readCnt=data.writeCnt ∧ data.writeOpen=true then
      if killed=true then .leave .idle else .sleep Channel.readCnt (.readLoop count)
      else .update data (.readCopy (min count (data.writeCnt-data.readCnt).toNat)))
    split
    · rename_i hempty
      split
      · exact owes_none fun _ => id
      · exact ⟨hempty,owes_none fun _ => id⟩
    · exact fun _ hr => .inl (hr.elim id fun ho => absurd ho id)
  | readCopy left =>
    cases left with
    | zero => exact fun c hcopy => .inl hcopy.symm
    | succ left =>
      -- the readers have no reason to sleep, and the writers are owed a wake-up
      have hunread : data.readCnt≠data.writeCnt :=
        readCnt_ne_writeCnt (Nat.lt_of_lt_of_le left.succ_pos hok)
      have howed : ∀ c,Reason c data ∨ c=.writeCnt → c=.writeCnt := by
        intro c hr
        cases c with
        | readCnt => exact hr.elim (fun hr => absurd hr.1 hunread) id
        | writeCnt => rfl
      show Pays Reason Owes data _ (if copyOk=true then
        .update {data with readCnt := data.readCnt+1} (.readCopy left)
        else .update {data with readCnt := data.readCnt+1} (.readCopy 0))
      split
      · exact fun c hr => .inr (howed c hr)
      · exact fun c hr => .inr (howed c hr)
  | writeLoop bytes stored =>
    cases bytes with
    | nil =>
      intro c ho
      cases stored with
      | true => exact .inl (Eq.symm ho)
      | false => exact absurd ho id
    | cons byte bytes =>
      show Pays Reason Owes data _ (if data.readOpen=false ∨ killed=true then .leave .idle
        else if data.full then .wake Channel.readCnt (.writeFull (byte::bytes))
        else if copyOk=true then .update (data.store byte) (.writeLoop bytes true)
        else .update data (.writeLoop [] stored))
      split
      · rename_i hleave
        cases stored with
        | true =>
          -- the read end is open since the bytes were stored
          obtain hclosed | hkilled := hleave
          · rw [show data.readOpen=true from hok] at hclosed
            cases hclosed
          · exact absurd ⟨rfl,hkilled⟩ hc
        | false => exact owes_none fun _ => id
      · split
        · intro c ho
          cases stored with
          | true => exact .inl (Eq.symm ho)
          | false => exact absurd ho id
        · rename_i hfull
          split
          · intro c hr
            cases c with
            | readCnt => exact .inr rfl
            | writeCnt =>
              obtain hr | ho := hr
              · exact absurd hr.1 hfull
              · cases stored with
                | true => exact Channel.noConfusion ho
                | false => exact absurd ho id
          · intro c hr
            refine hr.imp_right fun ho => ?_
            cases stored with
            | true => exact ho
            | false => exact absurd ho id
  | writeFull bytes => exact ⟨hok,owes_none fun _ => id⟩
  | close isWrite =>
    cases isWrite with
    | true =>
      intro c hr
      cases c with
      | readCnt => exact .inr rfl
      | writeCnt => exact .inl (hr.elim id fun ho => absurd ho id)
    | false =>
      intro c hr
      cases c with
      | readCnt => exact .inl (hr.elim id fun ho => absurd ho id)
      | writeCnt => exact .inr rfl
  | closeWake isWrite =>
    cases isWrite with
    | true => exact fun c ho => .inl (Eq.symm ho)
    | false => exact fun c ho => .inl (Eq.symm ho)
  | idle => exact owes_none fun _ => id
  | readEnd => exact owes_none fun _ => id
  | writeEnd => exact owes_none fun _ => id
  | closeEnd => exact owes_none fun _ => id

/-- An empty pipe has no buffered bytes. -/
theorem buffered_empty (h : data.readCnt=data.writeCnt) : data.buffered=[] := by
  rw [PipeInner.buffered,h,UInt32.sub_self]
  rfl

/-- A full pipe has `PIPESIZE` buffered bytes. -/
theorem buffered_full (h : data.full) : data.buffered.length=pipeSize := by
  have hr := data.readCnt.toNat_lt
  rw [PipeInner.buffered,List.length_map,List.length_range,UInt32.toNat_sub,
    show data.writeCnt=data.readCnt+UInt32.ofNat pipeSize from h,UInt32.toNat_add,
    show (UInt32.ofNat pipeSize).toNat=454 from rfl]
  simp only [pipeSize]
  omega

end Sections

section Sleepers

variable {n : ℕ} {s t : System Channel PipeInner Pc} {a : Label Pc Bool}

/-- Sleepers have a reason or will be woken, and processes know what holds. -/
structure Sound (n : ℕ) (s : System Channel PipeInner Pc) : Prop where
  /-- Sleepers have a reason, or will be woken. -/
  inv : Inv Reason Owes n s
  /-- What processes know holds. -/
  known : ∀ p,(s.places p).Knows Ok s.data

/-- Calls start without knowledge of the pipe. -/
theorem enters_ok {u v : Pc} (h : pipe.enters u v=true) (data : PipeInner) : Ok v data := by
  cases v with
  | readLoop count => trivial
  | close isWrite => trivial
  | writeLoop bytes stored =>
    cases stored with
    | false => trivial
    | true => cases u <;> exact absurd h Bool.false_ne_true
  | _ => cases u <;> exact absurd h Bool.false_ne_true

/-- An undisturbed step keeps pipes sound. -/
theorem Sound.step (h : Sound n s) (hc : Undisturbed s a) (ht : Monitors.step pipe n s a=.next t) :
    Sound n t := by
  have hok : ∀ p u,s.places p=.inside u → Ok u s.data := by
    intro p u hp
    have hk := h.known p
    rwa [hp] at hk
  refine ⟨h.inv.step (fun p x u ha hp => ?_) ht,h.inv.knows h.known (fun _ _ => enters_ok)
    (fun p x u _ hp => learns) ht⟩
  rw [ha,Undisturbed,hp] at hc
  exact pays (hok p u hp) hc

theorem create_sound : Sound n create := ⟨.start,fun _ => trivial⟩

/-- In every run in which no `write` finds its process killed after it has stored bytes under the
lock: while the lock is free, a process sleeps in `read` only if nothing is buffered and the write
end is open, and in `write` only if the buffer is full and the read end is open. -/
theorem pipe_wakes_sleepers (n : ℕ) (as : List (Label Pc Bool)) (t : System Channel PipeInner Pc)
    (hc : Guarded (step pipe n) Undisturbed create as) (h : run (step pipe n) create as=.next t)
    (hfree : t.lock=none) (p : ℕ) :
    ((t.places p).Sleeps .readCnt → t.data.buffered=[] ∧ t.data.writeOpen=true) ∧
      ((t.places p).Sleeps .writeCnt →
        t.data.buffered.length=pipeSize ∧ t.data.readOpen=true) := by
  have hs : Sound n t :=
    run_invariant (fun _ _ _ hs hc ht => Sound.step hs hc ht) create_sound hc h
  constructor
  · intro hp
    have hr := hs.inv.right hfree hp
    exact ⟨buffered_empty hr.1,hr.2⟩
  · intro hp
    have hr := hs.inv.right hfree hp
    exact ⟨buffered_full hr.1,hr.2⟩

end Sleepers

/-- Process 0 sleeps in `read`, process 1 writes a byte, and process 0 is woken. -/
def wokenReader : List (Label Pc Bool) :=
  [.call 0 (.readLoop 1),.take 0,.act 0 true,.park 0,.drop 0,.fall 0,
    .call 1 (.writeLoop [7] false),.take 1,.act 1 true,.act 1 true,.wake 1,.wake 1,.wake 1,
    .act 1 true]

theorem pipe_wakes_sleepers_wokenReader :
    ∃ t,run (step pipe 2) create wokenReader=.next t ∧ t.lock=none ∧
      ((t.places 0).Sleeps .readCnt → t.data.buffered=[] ∧ t.data.writeOpen=true) := by
  obtain ⟨t,ht,hd⟩ := Outcome.exists_of_test (o:=run (step pipe 2) create wokenReader)
    (p:=fun t => t.lock.isNone) (by decide)
  have hfree : t.lock=none := Option.isNone_iff_eq_none.mp hd
  exact ⟨t,ht,hfree,(pipe_wakes_sleepers 2 wokenReader t (by decide) ht hfree 0).1⟩

/-- Process 0 sleeps in `read`; process 1 stores a byte and is killed before the next. -/
def killedWriter : List (Label Pc Bool) :=
  [.call 0 (.readLoop 1),.take 0,.act 0 true,.park 0,.drop 0,.fall 0,
    .call 1 (.writeLoop [7,8] false),.take 1,.act 1 true,.kill 1,.act 1 true]

/-- A process is asleep in `read`. -/
def asleepReader : Place Channel Pc → Bool
  | .asleep .readCnt _ => true
  | _ => false

theorem killedWriter_wakes_nobody :
    ∃ t,run (step pipe 2) create killedWriter=.next t ∧ t.lock=none ∧
      (t.places 0).Sleeps .readCnt ∧ t.data.buffered≠[] := by
  obtain ⟨t,ht,hd⟩ := Outcome.exists_of_test (o:=run (step pipe 2) create killedWriter)
    (p:=fun t => t.lock.isNone && asleepReader (t.places 0) && !t.data.buffered.isEmpty)
    (by decide)
  rw [Bool.and_eq_true,Bool.and_eq_true] at hd
  refine ⟨t,ht,Option.isNone_iff_eq_none.mp hd.1.1,?_,?_⟩
  · have hp := hd.1.2
    cases hv : t.places 0 with
    | asleep c u =>
      rw [hv] at hp
      cases c with
      | readCnt => rfl
      | writeCnt => cases hp
    | _ =>
      rw [hv] at hp
      cases hp
  · intro he
    have hb := hd.2
    rw [he] at hb
    cases hb

end Xv6Rust.PipeWakeups

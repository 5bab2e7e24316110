import Xv6Rust.Runs

/-!
# The line discipline of the console

`intr` and `read` of `driver/console.rs`: three wrapping indices into one ring, moved by the
interrupt handler and by readers under one lock. The reference is an editor with a line and a list
of committed bytes, and readers that take committed bytes from its front. Every run of the driver
is a run of the reference.
-/

namespace Xv6Rust.ConsoleLine

open Runs

/-- `CONSOLE_BUF`. -/
def consoleBuf : ℕ := 128

/-- `CTRL_EOT`. -/
def ctrlEot : UInt8 := 0x04

/-- `CTRL_BS`. -/
def ctrlBs : UInt8 := 0x08

/-- `CTRL_LF`. -/
def ctrlLf : UInt8 := 0x0a

/-- `CTRL_CR`. -/
def ctrlCr : UInt8 := 0x0d

/-- `CTRL_DEL`. -/
def ctrlDel : UInt8 := 0x7f

/-- `CTRL_PRINT_PROCESS`. -/
def ctrlPrintProcess : UInt8 := 0x10

/-- `CTRL_BS_LINE`. -/
def ctrlBsLine : UInt8 := 0x15

/-- `Console`. -/
structure Console where
  /-- The ring. -/
  buf : Fin consoleBuf → UInt8
  /-- Read index. -/
  ri : UInt64
  /-- Write index. -/
  wi : UInt64
  /-- Edit index. -/
  ei : UInt64

/-- `i.0 % CONSOLE_BUF`. -/
def slot (i : UInt64) : Fin consoleBuf := ⟨i.toNat%consoleBuf,Nat.mod_lt _ (by decide)⟩

/-- The loop of `CTRL_BS_LINE`, for so many rounds at most. -/
def Console.eraseLine (console : Console) : ℕ → Console
  | 0 => console
  | rounds+1 =>
    if console.ei≠console.wi ∧ console.buf (slot (console.ei-1))≠ctrlLf then
      {console with ei := console.ei-1}.eraseLine rounds
    else console

/-- `intr` of a byte that is not `CTRL_PRINT_PROCESS`, and whether it wakes the readers. -/
def Console.intr (console : Console) (c : UInt8) : Console × Bool :=
  if c=ctrlBsLine then (console.eraseLine (console.ei-console.wi).toNat,false)
  else if c=ctrlBs ∨ c=ctrlDel then
    if console.ei≠console.wi then ({console with ei := console.ei-1},false) else (console,false)
  else if c≠0 ∧ (console.ei-console.ri).toNat < consoleBuf then
    let c := if c=ctrlCr then ctrlLf else c
    let console := {console with
      buf := Function.update console.buf (slot console.ei) c
      ei := console.ei+1}
    if c=ctrlLf ∨ c=ctrlEot ∨ (console.ei-console.ri).toNat=consoleBuf then
      ({console with wi := console.ei},true)
    else (console,false)
  else (console,false)

/-- Where a process is in `read` of `tot` bytes. -/
inductive Call where
  /-- Not in `read`. -/
  | idle
  /-- At the test of the outer loop, with the lock. -/
  | reading (tot left : ℕ)
  /-- In `sleep`; woken once the flag is false. -/
  | sleeping (tot left : ℕ) (asleep : Bool)
  deriving DecidableEq

/-- What happens to readers. -/
inductive Event where
  /-- A byte is copied to a reader. -/
  | copied (p : ℕ) (c : UInt8)
  /-- A `read` of `tot` bytes returns `n`; the flag tells whether it has consumed an `EOT`. -/
  | returned (p tot n : ℕ) (eot : Bool)
  deriving DecidableEq

/-- Input of a console and the processes that read it. -/
structure System (β : Type*) where
  /-- The input. -/
  input : β
  /-- Who has the lock. -/
  lock : Option ℕ
  /-- Places of the processes. -/
  calls : ℕ → Call
  /-- What has happened to readers. -/
  log : List Event

namespace System

variable {β : Type*} (s : System β)

/-- A process moves. -/
def goto (p : ℕ) (call : Call) : System β := {s with calls := Function.update s.calls p call}

/-- A process gives the lock up to sleep. -/
def sleep (p tot left : ℕ) : System β := {s.goto p (.sleeping tot left true) with lock := none}

/-- A process gives the lock up and returns. -/
def finish (p tot n : ℕ) (eot : Bool) : System β :=
  {s.goto p .idle with lock := none,log := s.log++[.returned p tot n eot]}

/-- A byte is copied. -/
def copy (p : ℕ) (c : UInt8) : System β := {s with log := s.log++[.copied p c]}

/-- `PROC_MANAGER.wakeup(&console.ri)`. -/
def wakeup : System β :=
  {s with calls := fun p =>
    match s.calls p with
    | .sleeping tot left _ => .sleeping tot left false
    | call => call}

/-- The input after an interrupt, and the readers woken if it says so. -/
def typed (r : β × Bool) : System β :=
  if r.2=true then {s with input := r.1}.wakeup else {s with input := r.1}

end System

/-- Steps of the console's users. -/
inductive Action where
  /-- A byte arrives. -/
  | intr (c : UInt8)
  /-- A call of `read` takes the lock. -/
  | read (p tot : ℕ)
  /-- One round of the loop of `read`. -/
  | iterate (p : ℕ)
  /-- A woken process takes the lock again. -/
  | relock (p : ℕ)
  deriving DecidableEq

/-- How the driver fails. -/
inductive Panic where
  /-- `todo!`. -/
  | todo

/-- Steps of a console: `key` takes a byte that arrives, and `round` is one round of a `read`. -/
def stepWith {β : Type*} (key : β → UInt8 → β × Bool) (round : System β → ℕ → ℕ → ℕ → System β)
    (s : System β) : Action → Outcome Panic (System β)
  | .intr c =>
    if s.lock≠none then .blocked
    else if c=ctrlPrintProcess then .fault .todo
    else .next (s.typed (key s.input c))
  | .read p tot =>
    if s.lock=none ∧ s.calls p=.idle then .next {s.goto p (.reading tot tot) with lock := some p}
    else .blocked
  | .iterate p =>
    if s.lock=some p then
      match s.calls p with
      | .reading tot left => .next (round s p tot left)
      | _ => .blocked
    else .blocked
  | .relock p =>
    match s.calls p with
    | .sleeping tot left false =>
      if s.lock=none then .next {s.goto p (.reading tot left) with lock := some p} else .blocked
    | _ => .blocked

/-- One round of the loop of `read`. -/
def read (s : System Console) (p tot left : ℕ) : System Console :=
  if left=0 then s.finish p tot (tot-left) false
  else if s.input.ri=s.input.wi then s.sleep p tot left
  else
    let c := s.input.buf (slot s.input.ri)
    let s := {s with input := {s.input with ri := s.input.ri+1}}
    if c=ctrlEot then
      if left < tot then
        {s with input := {s.input with ri := s.input.ri-1}}.finish p tot (tot-left) false
      else s.finish p tot (tot-left) true
    else if c=ctrlLf then (s.copy p c).finish p tot (tot-(left-1)) false
    else (s.copy p c).goto p (.reading tot (left-1))

/-- Steps of the driver. -/
def step : System Console → Action → Outcome Panic (System Console) := stepWith Console.intr read

/-- `CONSOLE`. -/
def new : System Console := ⟨⟨fun _ => 0,0,0,0⟩,none,fun _ => .idle,[]⟩

/-- The reference: what is committed, how much of it is taken, and the line. -/
structure Editor where
  /-- Bytes committed so far. -/
  committed : List UInt8
  /-- How many of them are taken. -/
  taken : ℕ
  /-- Bytes that can still be erased. -/
  line : List UInt8

namespace Editor

variable (e : Editor)

/-- Committed bytes that are not taken. -/
def unread : List UInt8 := e.committed.drop e.taken

/-- Bytes in the buffer. -/
def held : ℕ := e.unread.length+e.line.length

/-- The line is committed. -/
def commit : Editor := {e with committed := e.committed++e.line,line := []}

/-- A byte arrives. -/
def key (c : UInt8) : Editor × Bool :=
  if c=ctrlBsLine then ({e with line := []},false)
  else if c=ctrlBs ∨ c=ctrlDel then ({e with line := e.line.dropLast},false)
  else if c=0 ∨ e.held=consoleBuf then (e,false)
  else
    let c := if c=ctrlCr then ctrlLf else c
    let e := {e with line := e.line++[c]}
    if c=ctrlLf ∨ c=ctrlEot ∨ e.held=consoleBuf then (e.commit,true) else (e,false)

/-- The first unread byte is taken. -/
def take : Editor := {e with taken := e.taken+1}

end Editor

/-- One round of a `read` from the reference: an `EOT` is consumed by a `read` that has nothing,
which returns 0, and stops one that has something. -/
def Editor.read (s : System Editor) (p tot left : ℕ) : System Editor :=
  if left=0 then s.finish p tot tot false
  else
    match s.input.unread with
    | [] => s.sleep p tot left
    | c::_ =>
      if c=ctrlEot then
        if left=tot then {s with input := s.input.take}.finish p tot 0 true
        else s.finish p tot (tot-left) false
      else
        let s := {s with input := s.input.take}.copy p c
        if c=ctrlLf then s.finish p tot (tot-left+1) false
        else s.goto p (.reading tot (left-1))

/-- Steps of the reference. -/
def Editor.step : System Editor → Action → Outcome Panic (System Editor) :=
  stepWith Editor.key Editor.read

/-- The reference before any byte arrives. -/
def Editor.new : System Editor := ⟨⟨[],0,[]⟩,none,fun _ => .idle,[]⟩

section Indices

variable {a b : ℕ}

/-- The wrapping difference of indices at most `CONSOLE_BUF` apart. -/
theorem index_sub (h : a ≤ b) (hfit : b ≤ a+consoleBuf) :
    (UInt64.ofNat b-UInt64.ofNat a).toNat=b-a := by
  rw [UInt64.toNat_sub,UInt64.toNat_ofNat',UInt64.toNat_ofNat']
  simp only [consoleBuf] at hfit
  omega

/-- Indices at most `CONSOLE_BUF` apart are equal only if their counts are. -/
theorem index_inj (h : a ≤ b) (hfit : b ≤ a+consoleBuf) :
    UInt64.ofNat a=UInt64.ofNat b ↔ a=b := by
  rw [← UInt64.toNat_inj,UInt64.toNat_ofNat',UInt64.toNat_ofNat']
  simp only [consoleBuf] at hfit
  omega

theorem index_succ (n : ℕ) : UInt64.ofNat n+1=UInt64.ofNat (n+1) := by
  rw [UInt64.ofNat_add]
  rfl

theorem index_pred (n : ℕ) : UInt64.ofNat (n+1)-1=UInt64.ofNat n := by
  rw [← index_succ,UInt64.add_sub_cancel]

/-- `CONSOLE_BUF` divides the range of the indices, so that a slot does not jump when one wraps. -/
theorem slot_ofNat (n : ℕ) : (slot (UInt64.ofNat n)).val=n%consoleBuf := by
  show (UInt64.ofNat n).toNat%consoleBuf=_
  rw [UInt64.toNat_ofNat']
  exact Nat.mod_mod_of_dvd n (by decide)

end Indices

/-- The ring holds the bytes of a list that are not taken. -/
structure Holds (console : Console) (bytes : List UInt8) (taken : ℕ) : Prop where
  /-- The read index counts taken bytes. -/
  ri : console.ri=UInt64.ofNat taken
  /-- The edit index counts bytes. -/
  ei : console.ei=UInt64.ofNat bytes.length
  /-- No byte is taken before it is there. -/
  le : taken ≤ bytes.length
  /-- At most `CONSOLE_BUF` bytes are not taken. -/
  fits : bytes.length ≤ taken+consoleBuf
  /-- They are in their slots. -/
  ring : ∀ k (hk : k < bytes.length),taken ≤ k →
    console.buf (slot (UInt64.ofNat k))=bytes[k]

/-- What the console holds is what the editor holds. -/
structure Represents (console : Console) (e : Editor) : Prop where
  /-- The ring has the bytes. -/
  holds : Holds console (e.committed++e.line) e.taken
  /-- The write index counts committed bytes. -/
  wi : console.wi=UInt64.ofNat e.committed.length
  /-- Only committed bytes are taken. -/
  taken : e.taken ≤ e.committed.length
  /-- A line feed does not stay in the line. -/
  plain : ctrlLf∉e.line

section Input

variable {console : Console} {bytes : List UInt8} {taken : ℕ} {e : Editor} {c : UInt8}

/-- A byte is stored where there is room. -/
theorem Holds.push (h : Holds console bytes taken) (hroom : bytes.length < taken+consoleBuf) :
    Holds {console with
      buf := Function.update console.buf (slot console.ei) c
      ei := console.ei+1} (bytes++[c]) taken where
  ri := h.ri
  ei := by
    rw [List.length_append]
    show console.ei+1=_
    rw [h.ei]
    exact index_succ _
  le := by
    rw [List.length_append]
    exact Nat.le_add_right_of_le h.le
  fits := by
    rw [List.length_append]
    exact hroom
  ring := by
    intro k hk hle
    rw [List.length_append,List.length_singleton] at hk
    show Function.update console.buf (slot console.ei) c (slot (UInt64.ofNat k))=_
    rw [h.ei]
    by_cases e : k=bytes.length
    · subst e
      rw [Function.update_self,List.getElem_concat_length rfl]
    · have hlt : k < bytes.length := by omega
      rw [List.getElem_append_left hlt,Function.update_of_ne,h.ring k hlt hle]
      intro hs
      have hs := congrArg Fin.val hs
      rw [slot_ofNat,slot_ofNat] at hs
      simp only [consoleBuf] at hs hroom
      omega

/-- The last byte is erased. -/
theorem Holds.erase (h : Holds console (bytes++[c]) taken) (hle : taken ≤ bytes.length) :
    Holds {console with ei := console.ei-1} bytes taken where
  ri := h.ri
  ei := by
    show console.ei-1=_
    rw [h.ei,List.length_append]
    exact index_pred _
  le := hle
  fits := by
    have hf := h.fits
    rw [List.length_append] at hf
    omega
  ring := by
    intro k hk hkle
    have hr := h.ring k (by rw [List.length_append]; omega) hkle
    rwa [List.getElem_append_left hk] at hr

/-- The first byte is taken. -/
theorem Holds.take (h : Holds console bytes taken) (hlt : taken < bytes.length) :
    Holds {console with ri := console.ri+1} bytes (taken+1) where
  ri := by
    show console.ri+1=_
    rw [h.ri]
    exact index_succ _
  ei := h.ei
  le := hlt
  fits := by
    have hf := h.fits
    omega
  ring := fun k hk hle => h.ring k hk (by omega)

/-- The number of bytes that are not taken. -/
theorem Holds.count (h : Holds console bytes taken) :
    (console.ei-console.ri).toNat=bytes.length-taken := by
  rw [h.ei,h.ri]
  exact index_sub h.le h.fits

/-- What the editor holds. -/
theorem Editor.held_eq (h : e.taken ≤ e.committed.length) :
    e.held=(e.committed++e.line).length-e.taken := by
  rw [Editor.held,Editor.unread,List.length_drop,List.length_append]
  omega

/-- The edit index is the write index exactly if the line is empty. -/
theorem Represents.line_empty (h : Represents console e) :
    console.ei=console.wi ↔ e.line=[] := by
  have hf := h.holds.fits
  have ht := h.taken
  rw [h.holds.ei,h.wi,eq_comm,index_inj,List.length_append,← List.length_eq_zero_iff]
  · omega
  · rw [List.length_append]
    omega
  · omega

/-- The number of bytes in the line. -/
theorem Represents.line_length (h : Represents console e) :
    (console.ei-console.wi).toNat=e.line.length := by
  have hf := h.holds.fits
  have ht := h.taken
  rw [h.holds.ei,h.wi,index_sub]
  · rw [List.length_append]
    omega
  · rw [List.length_append]
    omega
  · omega

/-- The last byte of the line is erased. -/
theorem Represents.erase {line : List UInt8} (h : Represents console ⟨bytes,taken,line++[c]⟩) :
    Represents {console with ei := console.ei-1} ⟨bytes,taken,line⟩ := by
  have ht : taken ≤ bytes.length := h.taken
  have hh : Holds console (bytes++(line++[c])) taken := h.holds
  rw [← List.append_assoc] at hh
  exact ⟨hh.erase (by rw [List.length_append]; omega),h.wi,ht,
    fun hm => h.plain (List.mem_append_left _ hm)⟩

/-- The loop of `CTRL_BS_LINE` erases the line. -/
theorem Represents.eraseLine {rounds : ℕ} (h : Represents console e)
    (hr : e.line.length ≤ rounds) : Represents (console.eraseLine rounds) {e with line := []} := by
  induction rounds generalizing console e with
  | zero =>
    have hl : e.line=[] := List.length_eq_zero_iff.mp (Nat.le_zero.mp hr)
    rw [Console.eraseLine,← hl]
    exact h
  | succ rounds ih =>
    rw [Console.eraseLine]
    by_cases hl : e.line=[]
    · rw [if_neg fun hc => hc.1 (h.line_empty.mpr hl),← hl]
      exact h
    · obtain ⟨committed,taken,l⟩ := e
      obtain ⟨line,c,rfl⟩ := (List.eq_nil_or_concat l).resolve_left hl
      rw [List.concat_eq_append] at h hr
      have hlen : (committed++(line++[c])).length=(committed++line).length+1 := by
        simp only [List.length_append,List.length_singleton]
        omega
      have hlast : console.buf (slot (console.ei-1))=c := by
        have ht : taken ≤ committed.length := h.taken
        have hb := h.holds.ring (committed++line).length (hlen ▸ Nat.lt_succ_self _)
          (by rw [List.length_append]; exact Nat.le_add_right_of_le ht)
        rw [h.holds.ei,hlen,index_pred,hb]
        simp only [← List.append_assoc]
        exact List.getElem_concat_length rfl _
      rw [if_pos]
      · refine ih (e:=⟨committed,taken,line⟩) h.erase ?_
        rw [List.length_append] at hr
        exact Nat.le_of_succ_le_succ hr
      · refine ⟨fun hc => ?_,fun hc => h.plain ?_⟩
        · exact List.append_ne_nil_of_right_ne_nil line (List.cons_ne_nil c []) (h.line_empty.mp hc)
        · rw [← hc,hlast]
          exact List.mem_append_right _ (List.mem_singleton_self c)

/-- `intr` is a key of the editor. -/
theorem Represents.intr (h : Represents console e) (c : UInt8) :
    Represents (console.intr c).1 (e.key c).1 ∧ (console.intr c).2=(e.key c).2 := by
  have hcount := h.holds.count
  have hheld := Editor.held_eq h.taken
  rw [Console.intr,Editor.key]
  split
  · exact ⟨h.eraseLine (Nat.le_of_eq h.line_length.symm),rfl⟩
  · split
    · by_cases hl : e.line=[]
      · rw [if_neg fun hc => hc (h.line_empty.mpr hl)]
        refine ⟨?_,rfl⟩
        rw [hl,List.dropLast_nil,← hl]
        exact h
      · rw [if_pos fun hc => hl (h.line_empty.mp hc)]
        refine ⟨?_,rfl⟩
        obtain ⟨committed,taken,l⟩ := e
        obtain ⟨line,b,rfl⟩ := (List.eq_nil_or_concat l).resolve_left hl
        rw [List.concat_eq_append] at h
        rw [List.concat_eq_append,List.dropLast_concat]
        exact h.erase
    · by_cases hroom : c=0 ∨ e.held=consoleBuf
      · rw [if_pos hroom,if_neg]
        · exact ⟨h,rfl⟩
        · rintro ⟨hc,hlt⟩
          obtain hc' | hfull := hroom
          · exact hc hc'
          · omega
      · have hlt : (console.ei-console.ri).toNat < consoleBuf := by
          have hf := h.holds.fits
          rw [not_or] at hroom
          omega
        rw [if_neg hroom,if_pos ⟨fun hc => hroom (.inl hc),hlt⟩]
        generalize (if c=ctrlCr then ctrlLf else c)=c
        have hpush := h.holds.push (c:=c) (by omega)
        rw [List.append_assoc] at hpush
        have hfull := hpush.count
        have hfull' := Editor.held_eq (e:={e with line := e.line++[c]}) h.taken
        dsimp only at hfull hfull' ⊢
        rw [hfull,hfull']
        split
        · refine ⟨⟨?_,?_,?_,List.not_mem_nil⟩,rfl⟩
          · show Holds _ ((e.committed++(e.line++[c]))++[]) _
            rw [List.append_nil]
            exact ⟨hpush.ri,hpush.ei,hpush.le,hpush.fits,hpush.ring⟩
          · exact hpush.ei
          · show e.taken ≤ (e.committed++(e.line++[c])).length
            exact hpush.le
        · rename_i hcommit
          refine ⟨⟨hpush,h.wi,h.taken,fun hm => ?_⟩,rfl⟩
          obtain hm | hm := List.mem_append.mp hm
          · exact h.plain hm
          · exact hcommit (.inl (List.mem_singleton.mp hm).symm)

/-- The console is empty for a reader exactly if nothing is unread. -/
theorem Represents.unread_empty (h : Represents console e) :
    console.ri=console.wi ↔ e.unread=[] := by
  have hf := h.holds.fits
  have ht := h.taken
  rw [List.length_append] at hf
  rw [h.holds.ri,h.wi,index_inj ht (by omega),Editor.unread,List.drop_eq_nil_iff]
  omega

/-- A reader finds the first unread byte, and can take it. -/
theorem Represents.front {rest : List UInt8} (h : Represents console e)
    (hu : e.unread=c::rest) : console.buf (slot console.ri)=c ∧
      Represents {console with ri := console.ri+1} e.take := by
  have hlt : e.taken < e.committed.length := by
    by_contra hc
    rw [Editor.unread,List.drop_eq_nil_iff.mpr (by omega)] at hu
    cases hu
  have hlt' : e.taken < (e.committed++e.line).length := by
    rw [List.length_append]
    omega
  refine ⟨?_,h.holds.take hlt',h.wi,hlt,h.plain⟩
  rw [h.holds.ri,h.holds.ring e.taken hlt' (Nat.le_refl _),List.getElem_append_left hlt]
  rw [Editor.unread,List.drop_eq_getElem_cons hlt] at hu
  exact (List.cons.inj hu).1

end Input

/-- A `read` has at most the bytes left that it wants. -/
def Call.Fits : Call → Prop
  | .idle => True
  | .reading tot left => left ≤ tot
  | .sleeping tot left _ => left ≤ tot

/-- A state of the driver and one of the reference. -/
structure Simulates (s : System Console) (e : System Editor) : Prop where
  /-- The inputs correspond. -/
  input : Represents s.input e.input
  /-- The lock is the same. -/
  lock : s.lock=e.lock
  /-- Processes are at the same places. -/
  calls : s.calls=e.calls
  /-- The same has happened. -/
  log : s.log=e.log
  /-- Calls have at most the bytes left that they want. -/
  fits : ∀ p,(s.calls p).Fits

section Simulation

variable {s t : System Console} {e : System Editor} {p tot left : ℕ}

/-- A process moves in both. -/
theorem Simulates.goto (h : Simulates s e) (p : ℕ) (call : Call) (hc : call.Fits) :
    Simulates (s.goto p call) (e.goto p call) := by
  refine ⟨h.input,h.lock,?_,h.log,fun q => ?_⟩
  · show Function.update s.calls p call=Function.update e.calls p call
    rw [h.calls]
  show (Function.update s.calls p call q).Fits
  by_cases e : q=p
  · rwa [e,Function.update_self]
  · rw [Function.update_of_ne e]
    exact h.fits q

theorem Simulates.sleep (h : Simulates s e) (hle : left ≤ tot) :
    Simulates (s.sleep p tot left) (e.sleep p tot left) :=
  have hg := h.goto p (.sleeping tot left true) hle
  ⟨hg.input,rfl,hg.calls,hg.log,hg.fits⟩

theorem Simulates.finish (h : Simulates s e) (n : ℕ) (eot : Bool) :
    Simulates (s.finish p tot n eot) (e.finish p tot n eot) :=
  have hg := h.goto p .idle trivial
  ⟨hg.input,rfl,hg.calls,congrArg (·++[Event.returned p tot n eot]) hg.log,hg.fits⟩

theorem Simulates.copy (h : Simulates s e) (c : UInt8) : Simulates (s.copy p c) (e.copy p c) :=
  ⟨h.input,h.lock,h.calls,congrArg (·++[Event.copied p c]) h.log,h.fits⟩

/-- A round of `read` is one of the reference. -/
theorem Simulates.read (h : Simulates s e) (hle : left ≤ tot) :
    Simulates (ConsoleLine.read s p tot left) (Editor.read e p tot left) := by
  rw [ConsoleLine.read,Editor.read]
  split
  · rename_i hleft
    rw [hleft,Nat.sub_zero]
    exact h.finish tot false
  · rename_i hleft
    cases hu : e.input.unread with
    | nil =>
      rw [if_pos (h.input.unread_empty.mpr hu)]
      exact h.sleep hle
    | cons c rest =>
      obtain ⟨hc,htake⟩ := h.input.front hu
      have hs : Simulates {s with input := {s.input with ri := s.input.ri+1}}
          {e with input := e.input.take} := ⟨htake,h.lock,h.calls,h.log,h.fits⟩
      rw [if_neg (by rw [h.input.unread_empty,hu]; exact List.cons_ne_nil c rest)]
      dsimp only
      rw [hc]
      split
      · by_cases hfull : left=tot
        · rw [if_pos hfull,if_neg (by omega),hfull,Nat.sub_self]
          exact hs.finish 0 true
        · rw [if_neg hfull,if_pos (by omega)]
          -- the index is where it was
          rw [UInt64.add_sub_cancel]
          exact h.finish (tot-left) false
      · split
        · rw [show tot-(left-1)=tot-left+1 by omega]
          exact (hs.copy c).finish (tot-left+1) false
        · exact (hs.copy c).goto p _ (Nat.le_trans (Nat.sub_le left 1) hle)

/-- The readers are woken in both. -/
theorem Simulates.wakeup (h : Simulates s e) : Simulates s.wakeup e.wakeup := by
  refine ⟨h.input,h.lock,?_,h.log,fun q => ?_⟩
  · show s.wakeup.calls=e.wakeup.calls
    rw [System.wakeup,System.wakeup,h.calls]
  · have hq := h.fits q
    show (match s.calls q with
      | .sleeping tot left _ => Call.sleeping tot left false
      | call => call).Fits
    cases hv : s.calls q with
    | sleeping tot left asleep =>
      rw [hv] at hq
      exact hq
    | _ =>
      rw [hv] at hq
      exact hq

/-- A step of the driver is a step of the reference. -/
theorem Simulates.step (h : Simulates s e) {a : Action} (ht : ConsoleLine.step s a=.next t) :
    ∃ f,Editor.step e a=.next f ∧ Simulates t f := by
  rw [ConsoleLine.step] at ht
  rw [Editor.step]
  cases a with
  | intr c =>
    rw [stepWith] at ht ⊢
    rw [← h.lock]
    split at ht
    · cases ht
    · rename_i hfree
      split at ht
      · cases ht
      · rename_i hc
        cases ht
        rw [if_neg hfree,if_neg hc]
        obtain ⟨hin,hwoke⟩ := h.input.intr c
        refine ⟨_,rfl,?_⟩
        have hs : Simulates {s with input := (s.input.intr c).1} {e with input := (e.input.key c).1} :=
          ⟨hin,h.lock,h.calls,h.log,h.fits⟩
        rw [System.typed,System.typed,hwoke]
        split
        · exact hs.wakeup
        · exact hs
  | read p tot =>
    rw [stepWith] at ht ⊢
    rw [← h.lock,← h.calls]
    split at ht
    · rename_i hc
      cases ht
      rw [if_pos hc]
      have hg := h.goto p (.reading tot tot) (Nat.le_refl tot)
      exact ⟨_,rfl,hg.input,rfl,hg.calls,hg.log,hg.fits⟩
    · cases ht
  | iterate p =>
    rw [stepWith] at ht ⊢
    rw [← h.lock,← h.calls]
    split at ht
    · rename_i hlock
      rw [if_pos hlock]
      cases hp : s.calls p with
      | reading tot left =>
        rw [hp] at ht
        cases ht
        have hf := h.fits p
        rw [hp] at hf
        exact ⟨_,rfl,h.read hf⟩
      | idle =>
        rw [hp] at ht
        cases ht
      | sleeping tot left asleep =>
        rw [hp] at ht
        cases ht
    · cases ht
  | relock p =>
    rw [stepWith] at ht ⊢
    rw [← h.lock,← h.calls]
    cases hp : s.calls p with
    | sleeping tot left asleep =>
      rw [hp] at ht
      cases asleep with
      | true => cases ht
      | false =>
        dsimp only at ht ⊢
        split at ht
        · rename_i hlock
          cases ht
          rw [if_pos hlock]
          have hf := h.fits p
          rw [hp] at hf
          have hg := h.goto p (.reading tot left) hf
          exact ⟨_,rfl,hg.input,rfl,hg.calls,hg.log,hg.fits⟩
        · cases ht
    | idle =>
      rw [hp] at ht
      cases ht
    | reading tot left =>
      rw [hp] at ht
      cases ht

end Simulation

/-- What an event takes from the committed bytes. -/
def consumed : Event → List UInt8
  | .copied _ c => [c]
  | .returned _ _ _ true => [ctrlEot]
  | .returned _ _ _ false => []

/-- No `EOT` is copied, and a `read` returns 0 exactly if it consumes one, or is for no bytes. -/
def Event.Right : Event → Prop
  | .copied _ c => c≠ctrlEot
  | .returned _ tot n eot => n=0 ↔ eot=true ∨ tot=0

/-- Readers get the committed bytes in order. -/
structure Delivers (e : System Editor) : Prop where
  /-- The bytes taken are those that readers got, and the `EOT` that ended reads. -/
  taken : e.log.flatMap consumed=e.input.committed.take e.input.taken
  /-- Events are right. -/
  right : ∀ ev∈e.log,ev.Right
  /-- Only committed bytes are taken. -/
  le : e.input.taken ≤ e.input.committed.length
  /-- Calls have at most the bytes left that they want. -/
  fits : ∀ p,(e.calls p).Fits

section Reference

variable {e f : System Editor} {p tot left : ℕ}

/-- A process moves. -/
theorem Delivers.goto (h : Delivers e) (p : ℕ) (call : Call) (hc : call.Fits) :
    Delivers (e.goto p call) := by
  refine ⟨h.taken,h.right,h.le,fun q => ?_⟩
  show (Function.update e.calls p call q).Fits
  by_cases hq : q=p
  · rwa [hq,Function.update_self]
  · rw [Function.update_of_ne hq]
    exact h.fits q

/-- A reader gets the first unread byte, or consumes it. -/
theorem Delivers.log {c : UInt8} {rest : List UInt8} (ev : Event) (h : Delivers e)
    (hu : e.input.unread=c::rest) (hc : consumed ev=[c]) (hr : ev.Right) :
    Delivers {e with input := e.input.take,log := e.log++[ev]} := by
  have hlt : e.input.taken < e.input.committed.length := by
    by_contra hlt
    rw [Editor.unread,List.drop_eq_nil_iff.mpr (by omega)] at hu
    cases hu
  rw [Editor.unread,List.drop_eq_getElem_cons hlt] at hu
  refine ⟨?_,fun ev' hm => ?_,hlt,h.fits⟩
  · show (e.log++[ev]).flatMap consumed=e.input.committed.take (e.input.taken+1)
    rw [List.flatMap_append,h.taken,List.flatMap_singleton,hc,← (List.cons.inj hu).1,
      List.take_append_getElem hlt]
  · obtain hm | hm := List.mem_append.mp hm
    · exact h.right ev' hm
    · rw [List.mem_singleton.mp hm]
      exact hr

/-- A `read` returns without an `EOT`. -/
theorem Delivers.finish {n : ℕ} (h : Delivers e) (hr : n=0 ↔ tot=0) :
    Delivers (e.finish p tot n false) := by
  have hg := h.goto p .idle trivial
  refine ⟨?_,fun ev hm => ?_,hg.le,hg.fits⟩
  · show (e.log++[Event.returned p tot n false]).flatMap consumed=_
    rw [List.flatMap_append,h.taken]
    exact List.append_nil _
  · obtain hm | hm := List.mem_append.mp hm
    · exact h.right ev hm
    · rw [List.mem_singleton.mp hm]
      exact hr.trans ⟨.inr,fun hc => hc.resolve_left Bool.false_ne_true⟩

/-- A round of `read` delivers in order. -/
theorem Delivers.read (h : Delivers e) (hle : left ≤ tot) : Delivers (Editor.read e p tot left) := by
  rw [Editor.read]
  split
  · exact h.finish Iff.rfl
  · rename_i hleft
    cases hu : e.input.unread with
    | nil =>
      have hg := h.goto p (.sleeping tot left true) hle
      exact ⟨hg.taken,hg.right,hg.le,hg.fits⟩
    | cons c rest =>
      dsimp only
      split
      · rename_i hc
        split
        · have hl := h.log (.returned p tot 0 true) hu (by rw [hc]; rfl)
            (iff_of_true rfl (.inl rfl))
          have hg := hl.goto p .idle trivial
          exact ⟨hg.taken,hg.right,hg.le,hg.fits⟩
        · exact h.finish (by omega)
      · rename_i hc
        have hl := h.log (.copied p c) hu rfl hc
        split
        · exact hl.finish (by omega)
        · exact hl.goto p (.reading tot (left-1)) (Nat.le_trans (Nat.sub_le left 1) hle)

/-- A key keeps what is committed. -/
theorem Editor.key_committed (e : Editor) (c : UInt8) :
    e.committed<+:(e.key c).1.committed ∧ (e.key c).1.taken=e.taken := by
  rw [Editor.key]
  split
  · exact ⟨List.prefix_rfl,rfl⟩
  · split
    · exact ⟨List.prefix_rfl,rfl⟩
    · split
      · exact ⟨List.prefix_rfl,rfl⟩
      · generalize (if c=ctrlCr then ctrlLf else c)=c
        dsimp only
        split
        · exact ⟨List.prefix_append _ _,rfl⟩
        · exact ⟨List.prefix_rfl,rfl⟩

/-- A round of `read` keeps what is committed. -/
theorem Editor.read_committed : (Editor.read e p tot left).input.committed=e.input.committed := by
  rw [Editor.read]
  split
  · rfl
  · split
    · rfl
    · dsimp only
      split
      · split
        · rfl
        · rfl
      · split
        · rfl
        · rfl

/-- A step delivers in order and keeps what is committed. -/
theorem Delivers.step {a : Action} (h : Delivers e) (hf : Editor.step e a=.next f) :
    Delivers f ∧ e.input.committed<+:f.input.committed := by
  rw [Editor.step] at hf
  cases a with
  | intr c =>
    rw [stepWith] at hf
    split at hf
    · cases hf
    · split at hf
      · cases hf
      · cases hf
        obtain ⟨hpre,htaken⟩ := e.input.key_committed c
        have hin : Delivers {e with input := (e.input.key c).1} := by
          refine ⟨?_,h.right,?_,h.fits⟩
          · show e.log.flatMap consumed=(e.input.key c).1.committed.take (e.input.key c).1.taken
            obtain ⟨more,hmore⟩ := hpre
            rw [h.taken,htaken,← hmore,List.take_append_of_le_length h.le]
          · show (e.input.key c).1.taken ≤ (e.input.key c).1.committed.length
            rw [htaken]
            exact Nat.le_trans h.le hpre.length_le
        rw [System.typed]
        split
        · refine ⟨⟨hin.taken,hin.right,hin.le,fun q => ?_⟩,hpre⟩
          have hq := h.fits q
          show (match e.calls q with
            | .sleeping tot left _ => Call.sleeping tot left false
            | call => call).Fits
          cases hv : e.calls q with
          | sleeping tot left asleep =>
            rw [hv] at hq
            exact hq
          | _ =>
            rw [hv] at hq
            exact hq
        · exact ⟨hin,hpre⟩
  | read p tot =>
    rw [stepWith] at hf
    split at hf
    · cases hf
      have hg := h.goto p (.reading tot tot) (Nat.le_refl tot)
      exact ⟨⟨hg.taken,hg.right,hg.le,hg.fits⟩,List.prefix_rfl⟩
    · cases hf
  | iterate p =>
    rw [stepWith] at hf
    split at hf
    · have hp := h.fits p
      split at hf
      · rename_i tot left hcall
        rw [hcall] at hp
        cases hf
        refine ⟨h.read hp,?_⟩
        rw [Editor.read_committed]
      · cases hf
    · cases hf
  | relock p =>
    rw [stepWith] at hf
    have hp := h.fits p
    split at hf
    · rename_i tot left hcall
      rw [hcall] at hp
      split at hf
      · cases hf
        have hg := h.goto p (.reading tot left) hp
        exact ⟨⟨hg.taken,hg.right,hg.le,hg.fits⟩,List.prefix_rfl⟩
      · cases hf
    · cases hf

end Reference

/-- The indices are in order and at most `CONSOLE_BUF` apart, as counters. -/
def Console.Ordered (console : Console) : Prop :=
  ∃ ri wi ei : ℕ,console.ri=UInt64.ofNat ri ∧ console.wi=UInt64.ofNat wi ∧
    console.ei=UInt64.ofNat ei ∧ ri ≤ wi ∧ wi ≤ ei ∧ ei ≤ ri+consoleBuf

/-- Consoles that an editor describes are in order. -/
theorem Represents.ordered {console : Console} {e : Editor} (h : Represents console e) :
    console.Ordered := by
  refine ⟨_,_,_,h.holds.ri,h.wi,h.holds.ei,h.taken,?_,h.holds.fits⟩
  rw [List.length_append]
  exact Nat.le_add_right _ _

/-- In every run of the driver, and after it, the indices are in order; the driver does what the
reference does; what is committed stays committed; and readers get the committed bytes, in order
and each once, but for those `EOT` that a `read` consumes which then returns 0. -/
theorem console_refines_editor (as bs : List Action) (s t : System Console)
    (hs : run step new as=.next s) (ht : run step s bs=.next t) :
    ∃ e f,run Editor.step Editor.new as=.next e ∧ run Editor.step e bs=.next f ∧
      Simulates s e ∧ Simulates t f ∧ t.input.Ordered ∧
      e.input.committed<+:f.input.committed ∧
      t.log.flatMap consumed=f.input.committed.take f.input.taken ∧ ∀ ev∈t.log,ev.Right := by
  have hnew : Simulates new Editor.new :=
    ⟨⟨⟨rfl,rfl,Nat.le_refl _,Nat.zero_le _,fun k hk => absurd hk (Nat.not_lt_zero k)⟩,rfl,
      Nat.le_refl _,List.not_mem_nil⟩,rfl,rfl,rfl,fun _ => trivial⟩
  have hnew' : Delivers Editor.new := ⟨rfl,nofun,Nat.le_refl _,fun _ => trivial⟩
  have hsim : ∀ s e a t,Simulates s e → step s a=.next t → ∃ f,Editor.step e a=.next f ∧ Simulates t f :=
    fun s e a t h ht => h.step ht
  obtain ⟨e,he,hse⟩ := run_simulation hsim hnew hs
  obtain ⟨f,hf,htf⟩ := run_simulation hsim hse ht
  have hdelivers : ∀ g a u,Delivers g → True → Editor.step g a=.next u → Delivers u :=
    fun _ _ _ h _ hu => (h.step hu).1
  have hde : Delivers e :=
    run_invariant hdelivers hnew' (guarded_of_forall (fun _ _ => trivial) _ _) he
  have hgrows : ∀ g a u,Delivers g ∧ e.input.committed<+:g.input.committed → True →
      Editor.step g a=.next u → Delivers u ∧ e.input.committed<+:u.input.committed :=
    fun _ _ _ h _ hu => ⟨(h.1.step hu).1,h.2.trans (h.1.step hu).2⟩
  have hdf : Delivers f ∧ e.input.committed<+:f.input.committed :=
    run_invariant hgrows ⟨hde,List.prefix_rfl⟩ (guarded_of_forall (fun _ _ => trivial) _ _) hf
  refine ⟨e,f,he,hf,hse,htf,htf.input.ordered,hdf.2,?_,?_⟩
  · rw [htf.log,hdf.1.taken]
  · rw [htf.log]
    exact hdf.1.right

/-- A line with an erased byte, an `EOT` after it, and one read of it in two rounds. -/
def typedLine : List Action :=
  [.intr 97,.intr 98,.intr ctrlBs,.intr ctrlEot,.read 0 4,.iterate 0,.iterate 0]

theorem console_refines_editor_typedLine :
    ∃ t,run step new typedLine=.next t ∧
      t.log=[.copied 0 97,.returned 0 4 1 false] ∧ t.input.Ordered := by
  obtain ⟨t,ht,hlog⟩ := Outcome.exists_of_test (o:=run step new typedLine)
    (p:=fun t : System Console => decide (t.log=[Event.copied 0 97,Event.returned 0 4 1 false])) (by decide +kernel)
  obtain ⟨_,_,_,_,_,_,hord,_⟩ := console_refines_editor typedLine [] t t ht rfl
  exact ⟨t,ht,of_decide_eq_true hlog,hord⟩

end Xv6Rust.ConsoleLine

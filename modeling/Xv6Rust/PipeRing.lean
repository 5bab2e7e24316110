import Xv6Rust.Runs

/-!
# Pipes as byte streams

`Pipe::read` and `Pipe::write` of `fs/file/pipe.rs`, one loop iteration a step,
with any number of callers sharing the pipe lock. The counters are wrapping
32-bit words reduced modulo `PIPESIZE` to index the ring. Since `PIPESIZE` does
not divide `2^32` the index jumps when a counter wraps, and a byte stored just
after the wrap can land on an unread byte stored just before it.
-/

namespace Xv6Rust.PipeRing

open Runs

/-- `PIPESIZE`. -/
def pipeSize : ℕ := 454

/-- `PipeInner`: open flags, wrapping counters and the ring. -/
structure PipeInner where
  /-- The read end is open. -/
  readOpen : Bool
  /-- The write end is open. -/
  writeOpen : Bool
  /-- Bytes read since the pipe was created, modulo `2^32`. -/
  readCnt : UInt32
  /-- Bytes written since the pipe was created, modulo `2^32`. -/
  writeCnt : UInt32
  /-- The ring. -/
  data : Fin pipeSize → UInt8

/-- `(cnt.0 % PIPESIZE_U32) as usize`. -/
def slot (cnt : UInt32) : Fin pipeSize := ⟨cnt.toNat%pipeSize,Nat.mod_lt _ (by decide)⟩

/-- Store one byte and advance the write counter. -/
def PipeInner.store (pipe : PipeInner) (byte : UInt8) : PipeInner :=
  {pipe with
    data := Function.update pipe.data (slot pipe.writeCnt) byte
    writeCnt := pipe.writeCnt+1}

/-- `write_cnt == read_cnt + PIPESIZE`. -/
def PipeInner.full (pipe : PipeInner) : Prop := pipe.writeCnt=pipe.readCnt+UInt32.ofNat pipeSize

instance (pipe : PipeInner) : Decidable pipe.full :=
  inferInstanceAs (Decidable (pipe.writeCnt=pipe.readCnt+UInt32.ofNat pipeSize))

/-- Where a process is in a call on the pipe. -/
inductive Call where
  /-- Not in the pipe. -/
  | idle
  /-- `read`, at the test of its waiting loop, holding the lock. -/
  | readLoop (count : ℕ)
  /-- `read`, in `sleep`; woken once the flag is false. -/
  | readSleep (count : ℕ) (asleep : Bool)
  /-- `read`, in its copying loop with so many bytes left, holding the lock. -/
  | readCopy (left : ℕ)
  /-- `write`, at the test of its loop with these bytes left, holding the lock. -/
  | writeLoop (bytes : List UInt8)
  /-- `write`, in `sleep`; woken once the flag is false. -/
  | writeSleep (bytes : List UInt8) (asleep : Bool)

/-- A pipe, its callers, and the history of bytes stored and delivered. -/
structure System where
  /-- The shared pipe. -/
  pipe : PipeInner
  /-- Holder of the pipe lock. -/
  lock : Option ℕ
  /-- Position of every process. -/
  calls : ℕ → Call
  /-- The killed flag of every process. -/
  killed : ℕ → Bool
  /-- All bytes stored by writers, in order. -/
  stored : List UInt8
  /-- All bytes delivered to readers, in order. -/
  delivered : List UInt8

/-- Steps of the pipe's users. -/
inductive Action where
  /-- Call `read` and take the lock. -/
  | read (proc count : ℕ)
  /-- Call `write` and take the lock. -/
  | write (proc : ℕ) (bytes : List UInt8)
  /-- One iteration by the lock holder; the flag is the result of a user copy. -/
  | iterate (proc : ℕ) (copyOk : Bool)
  /-- A woken process takes the lock again. -/
  | relock (proc : ℕ)
  /-- `kill` of a process. -/
  | kill (proc : ℕ)
  /-- `close` of one end. -/
  | close (isWrite : Bool)
  deriving DecidableEq

/-- `PROC_MANAGER.wakeup(&pipe.read_cnt)`. -/
def wakeReaders (calls : ℕ → Call) : ℕ → Call := fun proc =>
  match calls proc with
  | .readSleep count _ => .readSleep count false
  | call => call

/-- `PROC_MANAGER.wakeup(&pipe.write_cnt)`. -/
def wakeWriters (calls : ℕ → Call) : ℕ → Call := fun proc =>
  match calls proc with
  | .writeSleep bytes _ => .writeSleep bytes false
  | call => call

/-- Release the lock with the process at a new position. -/
def System.leave (s : System) (proc : ℕ) (call : Call) : System :=
  {s with lock := none,calls := Function.update s.calls proc call}

/-- End of a `read` that copied: wake writers, drop the lock, return. -/
def System.endRead (s : System) (proc : ℕ) : System :=
  {s with calls := wakeWriters s.calls}.leave proc .idle

/-- End of a `write` that left its loop: wake readers, drop the lock, return. -/
def System.endWrite (s : System) (proc : ℕ) : System :=
  {s with calls := wakeReaders s.calls}.leave proc .idle

/-- One iteration of the loop a lock holder is in. -/
def iterate (s : System) (proc : ℕ) (copyOk : Bool) : Outcome Empty System :=
  match s.calls proc with
  | .readLoop count =>
    if s.pipe.readCnt=s.pipe.writeCnt ∧ s.pipe.writeOpen=true then
      if s.killed proc=true then .next (s.leave proc .idle)
      else .next (s.leave proc (.readSleep count true))
    else
      let left := min count (s.pipe.writeCnt-s.pipe.readCnt).toNat
      .next {s with calls := Function.update s.calls proc (.readCopy left)}
  | .readCopy 0 => .next (s.endRead proc)
  | .readCopy (left+1) =>
    let byte := s.pipe.data (slot s.pipe.readCnt)
    let pipe := {s.pipe with readCnt := s.pipe.readCnt+1}
    if copyOk=true then
      .next {s with
        pipe := pipe
        calls := Function.update s.calls proc (.readCopy left)
        delivered := s.delivered++[byte]}
    else .next ({s with pipe := pipe}.endRead proc)
  | .writeLoop [] => .next (s.endWrite proc)
  | .writeLoop (byte::bytes) =>
    if s.pipe.readOpen=false ∨ s.killed proc=true then .next (s.leave proc .idle)
    else if s.pipe.full then
      .next ({s with calls := wakeReaders s.calls}.leave proc (.writeSleep (byte::bytes) true))
    else if copyOk=true then
      .next {s with
        pipe := s.pipe.store byte
        calls := Function.update s.calls proc (.writeLoop bytes)
        stored := s.stored++[byte]}
    else .next (s.endWrite proc)
  | _ => .blocked

/-- One step of the pipe. -/
def step (s : System) : Action → Outcome Empty System
  | .read proc count =>
    match s.lock,s.calls proc with
    | none,.idle => .next {s with lock := some proc,calls := Function.update s.calls proc (.readLoop count)}
    | _,_ => .blocked
  | .write proc bytes =>
    match s.lock,s.calls proc with
    | none,.idle => .next {s with lock := some proc,calls := Function.update s.calls proc (.writeLoop bytes)}
    | _,_ => .blocked
  | .iterate proc copyOk => if s.lock=some proc then iterate s proc copyOk else .blocked
  | .relock proc =>
    match s.lock,s.calls proc with
    | none,.readSleep count false =>
      .next {s with lock := some proc,calls := Function.update s.calls proc (.readLoop count)}
    | none,.writeSleep bytes false =>
      .next {s with lock := some proc,calls := Function.update s.calls proc (.writeLoop bytes)}
    | _,_ => .blocked
  | .kill proc =>
    -- `kill` also makes a sleeper runnable.
    let woken := match s.calls proc with
      | .readSleep count _ => Call.readSleep count false
      | .writeSleep bytes _ => .writeSleep bytes false
      | call => call
    .next {s with
      killed := Function.update s.killed proc true
      calls := Function.update s.calls proc woken}
  | .close isWrite =>
    if s.lock≠none then .blocked
    else if isWrite=true then
      .next {s with pipe := {s.pipe with writeOpen := false},calls := wakeReaders s.calls}
    else
      .next {s with pipe := {s.pipe with readOpen := false},calls := wakeWriters s.calls}

/-- The pipe of `Pipe::create`: zeroed, with both ends open. -/
def create : System := ⟨⟨true,true,0,0,fun _ => 0⟩,none,fun _ => .idle,fun _ => false,[],[]⟩

/-- The buffered bytes, from the read counter to the write counter. -/
def PipeInner.buffered (pipe : PipeInner) : List UInt8 :=
  (List.range (pipe.writeCnt-pipe.readCnt).toNat).map fun i =>
    pipe.data (slot (pipe.readCnt+UInt32.ofNat i))

/-- What makes the pipe a byte stream: delivered bytes are a prefix of the
stored ones and the rest is exactly what the ring holds. -/
def Stream (s : System) : Prop :=
  s.delivered<+:s.stored ∧ s.pipe.buffered.length≤pipeSize ∧
    s.stored=s.delivered++s.pipe.buffered

/-- Bytes by which the ring index falls back when a counter wraps. -/
def wrapShift : ℕ := 2^32%pipeSize

/-- The call is a `write` with bytes left. -/
def Call.pending : Call → Bool
  | .writeLoop (_::_) => true
  | _ => false

/-- The next iteration of a process stores a byte if its user copy succeeds. -/
def Stores (s : System) (proc : ℕ) : Prop :=
  (s.calls proc).pending=true ∧ s.pipe.readOpen=true ∧ s.killed proc=false ∧ ¬s.pipe.full

/-- A byte is about to be stored just after the write counter has wrapped, while
so many unread bytes from before the wrap remain that it hits one of them. -/
def HitsUnread (s : System) (proc : ℕ) : Prop :=
  Stores s proc ∧ s.pipe.writeCnt < s.pipe.readCnt ∧ s.pipe.writeCnt.toNat<wrapShift ∧
    wrapShift≤(s.pipe.writeCnt-s.pipe.readCnt).toNat

/-- The user copy of an iteration succeeds. -/
def CopySucceeds : Action → Prop
  | .iterate _ copyOk => copyOk=true
  | _ => True

instance (a : Action) : Decidable (CopySucceeds a) := by
  cases a <;> unfold CopySucceeds <;> infer_instance

/-- User copies succeed, and no byte is stored over an unread one. -/
def Clean (s : System) : Action → Prop
  | .iterate proc copyOk => copyOk=true ∧ ¬HitsUnread s proc
  | _ => True

instance (s : System) (proc : ℕ) : Decidable (HitsUnread s proc) := by
  unfold HitsUnread Stores
  infer_instance

instance (s : System) (a : Action) : Decidable (Clean s a) := by
  cases a <;> unfold Clean <;> infer_instance

section Counters

theorem cnt_succ (n : ℕ) : UInt32.ofNat n+1=UInt32.ofNat (n+1) := by
  rw [UInt32.ofNat_add]
  rfl

/-- The wrapping difference of two counters at most `PIPESIZE` apart is the
difference of the byte counts. -/
theorem cnt_sub {read write : ℕ} (h : read≤write) (hfit : write ≤ read+pipeSize) :
    (UInt32.ofNat write-UInt32.ofNat read).toNat=write-read := by
  rw [UInt32.toNat_sub,UInt32.toNat_ofNat',UInt32.toNat_ofNat']
  simp only [pipeSize] at hfit
  omega

/-- The test for a full ring is exact across the wrap. -/
theorem cnt_full_iff {read write : ℕ} (h : read≤write) (hfit : write ≤ read+pipeSize) :
    UInt32.ofNat write=UInt32.ofNat read+UInt32.ofNat pipeSize ↔ write=read+pipeSize := by
  rw [← UInt32.ofNat_add,← UInt32.toNat_inj,UInt32.toNat_ofNat',UInt32.toNat_ofNat']
  simp only [pipeSize] at hfit ⊢
  omega

/-- Two positions less than `PIPESIZE` apart share a slot only when the counter
wraps between them and they are exactly `wrapShift` apart. -/
theorem slot_collision {k write : ℕ} (hk : k<write) (hfit : write<k+pipeSize)
    (hs : slot (UInt32.ofNat k)=slot (UInt32.ofNat write)) :
    write=k+wrapShift ∧ write%2^32<wrapShift := by
  have he : k%2^32%pipeSize=write%2^32%pipeSize := by
    have hv := congrArg Fin.val hs
    simpa only [slot,UInt32.toNat_ofNat'] using hv
  have hw : wrapShift=176 := by decide
  rw [hw]
  simp only [pipeSize] at hfit he
  -- The two positions lie in one epoch of the counter or in two adjacent ones.
  have hepoch : write/2^32=k/2^32 ∨ write/2^32=k/2^32+1 := by omega
  have hka := Nat.div_add_mod k (2^32)
  have hwa := Nat.div_add_mod write (2^32)
  have hlt := Nat.mod_lt k (show 0<2^32 by decide)
  generalize k%2^32=a at *
  generalize write%2^32=b at *
  rcases hepoch with hsame|hnext
  · rw [hsame] at hwa
    omega
  · rw [hnext] at hwa
    omega

end Counters

/-- The representation invariant: the counters are the byte counts modulo
`2^32`, and every unread byte is in its slot. -/
structure Inv (s : System) : Prop where
  /-- The read counter counts delivered bytes. -/
  read : s.pipe.readCnt=UInt32.ofNat s.delivered.length
  /-- The write counter counts stored bytes. -/
  write : s.pipe.writeCnt=UInt32.ofNat s.stored.length
  /-- No byte is delivered before it is stored. -/
  le : s.delivered.length ≤ s.stored.length
  /-- At most `PIPESIZE` bytes are unread. -/
  fits : s.stored.length ≤ s.delivered.length+pipeSize
  /-- Delivery is in order. -/
  order : s.delivered=s.stored.take s.delivered.length
  /-- Unread bytes are in the ring. -/
  ring : ∀ k (hk : k < s.stored.length),s.delivered.length≤k →
    s.pipe.data (slot (UInt32.ofNat k))=s.stored.get ⟨k,hk⟩
  /-- A reader in its copying loop holds the lock and has the bytes it needs. -/
  copying : ∀ proc left,s.calls proc=.readCopy left →
    s.lock=some proc ∧ s.delivered.length+left ≤ s.stored.length

theorem create_inv : Inv create where
  read := rfl
  write := rfl
  le := Nat.le_refl _
  fits := Nat.zero_le _
  order := rfl
  ring := by intro k hk; cases hk
  copying := by intro proc left h; cases h

/-- The ring holds exactly the undelivered bytes. -/
theorem buffered_eq {s : System} (hs : Inv s) :
    s.pipe.buffered=s.stored.drop s.delivered.length := by
  have hn : (s.pipe.writeCnt-s.pipe.readCnt).toNat=s.stored.length-s.delivered.length := by
    rw [hs.read,hs.write,cnt_sub hs.le hs.fits]
  apply List.ext_getElem
  · rw [PipeInner.buffered,List.length_map,List.length_range,List.length_drop,hn]
  · intro i hi hi'
    rw [List.length_drop] at hi'
    simp only [PipeInner.buffered,List.getElem_map,List.getElem_range,List.getElem_drop]
    rw [hs.read,← UInt32.ofNat_add,hs.ring (s.delivered.length+i) (by omega) (by omega)]
    rfl

/-- Invariant states are byte streams. -/
theorem inv_stream {s : System} (hs : Inv s) : Stream s := by
  have hb := buffered_eq hs
  have hfit := hs.fits
  refine ⟨?_,?_,?_⟩
  · rw [hs.order]
    exact List.take_prefix _ _
  · rw [hb,List.length_drop]
    omega
  · calc s.stored=s.stored.take s.delivered.length++s.stored.drop s.delivered.length :=
          (List.take_append_drop _ _).symm
      _=s.delivered++s.pipe.buffered := by rw [← hs.order,hb]

/-- A change of calls, lock and flags that starts no copying keeps the
invariant. -/
theorem inv_of_same {s t : System} (hs : Inv s) (hd : t.pipe.data=s.pipe.data)
    (hr : t.pipe.readCnt=s.pipe.readCnt) (hw : t.pipe.writeCnt=s.pipe.writeCnt)
    (hst : t.stored=s.stored) (hdl : t.delivered=s.delivered)
    (hc : ∀ proc left,t.calls proc=.readCopy left →
      t.lock=some proc ∧ s.delivered.length+left ≤ s.stored.length) : Inv t where
  read := by rw [hr,hdl,hs.read]
  write := by rw [hw,hst,hs.write]
  le := by rw [hst,hdl]; exact hs.le
  fits := by rw [hst,hdl]; exact hs.fits
  order := by rw [hst,hdl]; exact hs.order
  ring := by
    intro k hk hle
    have hk' : k < s.stored.length := hst ▸ hk
    rw [hd,hs.ring k hk' (hdl ▸ hle)]
    simp only [List.get_eq_getElem,hst]
  copying := by rw [hst,hdl]; exact hc

theorem wakeReaders_copy {calls : ℕ → Call} {proc left : ℕ} :
    wakeReaders calls proc=.readCopy left ↔ calls proc=.readCopy left := by
  unfold wakeReaders
  cases calls proc <;> simp

theorem wakeWriters_copy {calls : ℕ → Call} {proc left : ℕ} :
    wakeWriters calls proc=.readCopy left ↔ calls proc=.readCopy left := by
  unfold wakeWriters
  cases calls proc <;> simp

/-- While a process holds the lock no other process is copying. -/
theorem copying_self {s : System} {proc other left : ℕ} (hs : Inv s) (hl : s.lock=some proc)
    (h : s.calls other=.readCopy left) : other=proc := by
  have hc := (hs.copying other left h).1
  rw [hl] at hc
  exact (Option.some.inj hc).symm

/-- A lock holder that leaves the pipe leaves nobody copying. -/
theorem inv_leave {s : System} {proc : ℕ} {call : Call} (hs : Inv s) (hl : s.lock=some proc)
    (hcall : ∀ left,call≠.readCopy left) : Inv (s.leave proc call) := by
  refine inv_of_same hs rfl rfl rfl rfl rfl ?_
  intro other left h
  simp only [System.leave,Function.update_apply] at h
  split at h
  · exact absurd h (hcall left)
  · rename_i hne
    exact absurd (copying_self hs hl h) hne

theorem inv_wakeReaders {s : System} (hs : Inv s) : Inv {s with calls := wakeReaders s.calls} :=
  inv_of_same hs rfl rfl rfl rfl rfl fun proc left h => hs.copying proc left (wakeReaders_copy.mp h)

theorem inv_wakeWriters {s : System} (hs : Inv s) : Inv {s with calls := wakeWriters s.calls} :=
  inv_of_same hs rfl rfl rfl rfl rfl fun proc left h => hs.copying proc left (wakeWriters_copy.mp h)

theorem inv_endRead {s : System} {proc : ℕ} (hs : Inv s) (hl : s.lock=some proc) :
    Inv (s.endRead proc) := inv_leave (inv_wakeWriters hs) hl nofun

theorem inv_endWrite {s : System} {proc : ℕ} (hs : Inv s) (hl : s.lock=some proc) :
    Inv (s.endWrite proc) := inv_leave (inv_wakeReaders hs) hl nofun

/-- Copying one byte out delivers the oldest unread byte. -/
theorem inv_deliver {s : System} {proc left : ℕ} (hs : Inv s)
    (hcall : s.calls proc=.readCopy (left+1)) :
    Inv {s with
      pipe := {s.pipe with readCnt := s.pipe.readCnt+1}
      calls := Function.update s.calls proc (.readCopy left)
      delivered := s.delivered++[s.pipe.data (slot s.pipe.readCnt)]} := by
  obtain ⟨hl,hleft⟩ := hs.copying proc (left+1) hcall
  have hlt : s.delivered.length < s.stored.length := by omega
  have hbyte : s.pipe.data (slot s.pipe.readCnt)=s.stored.get ⟨s.delivered.length,hlt⟩ := by
    rw [hs.read]
    exact hs.ring _ hlt (Nat.le_refl _)
  have hfit := hs.fits
  constructor <;> dsimp only
  · rw [hs.read,cnt_succ,List.length_append,List.length_singleton]
  · exact hs.write
  · rw [List.length_append,List.length_singleton]
    omega
  · rw [List.length_append,List.length_singleton]
    omega
  · rw [hbyte,List.length_append,List.length_singleton,List.take_succ_eq_append_getElem hlt,
      ← hs.order]
    rfl
  · intro k hk hle
    rw [List.length_append,List.length_singleton] at hle
    exact hs.ring k hk (by omega)
  · intro other n h
    rw [Function.update_apply] at h
    split at h
    · rename_i he
      cases h
      rw [List.length_append,List.length_singleton]
      exact ⟨he ▸ hl,by omega⟩
    · rename_i hne
      exact absurd (copying_self hs hl h) hne

/-- Storing one byte appends it to the stream unless it hits an unread one. -/
theorem inv_store {s : System} {proc : ℕ} {byte : UInt8} {bytes : List UInt8} (hs : Inv s)
    (hl : s.lock=some proc) (hfull : ¬s.pipe.full)
    (hhit : ¬(s.pipe.writeCnt < s.pipe.readCnt ∧ s.pipe.writeCnt.toNat<wrapShift ∧
      wrapShift≤(s.pipe.writeCnt-s.pipe.readCnt).toNat)) :
    Inv {s with
      pipe := s.pipe.store byte
      calls := Function.update s.calls proc (.writeLoop bytes)
      stored := s.stored++[byte]} := by
  have hle := hs.le
  have hfit := hs.fits
  rw [PipeInner.full,hs.read,hs.write,cnt_full_iff hle hfit] at hfull
  rw [hs.read,hs.write,cnt_sub hle hfit,UInt32.lt_iff_toNat_lt,UInt32.toNat_ofNat',
    UInt32.toNat_ofNat'] at hhit
  have hw : wrapShift=176 := by decide
  have hps : pipeSize=454 := rfl
  have hfree : ∀ k,k < s.stored.length → s.delivered.length≤k →
      slot (UInt32.ofNat k)≠slot (UInt32.ofNat s.stored.length) := by
    intro k hk hge hsame
    have hc := slot_collision hk (by omega) hsame
    apply hhit
    rw [hw] at hc ⊢
    refine ⟨?_,hc.2,by omega⟩
    omega
  constructor <;> dsimp only [PipeInner.store]
  · exact hs.read
  · rw [hs.write,cnt_succ,List.length_append,List.length_singleton]
  · rw [List.length_append,List.length_singleton]
    omega
  · rw [List.length_append,List.length_singleton]
    omega
  · rw [List.take_append_of_le_length hle]
    exact hs.order
  · intro k hk hge
    rw [List.length_append,List.length_singleton] at hk
    rw [hs.write,Function.update_apply]
    by_cases hlast : k=s.stored.length
    · subst hlast
      rw [if_pos rfl]
      simp only [List.get_eq_getElem,List.getElem_concat_length]
    · have hk' : k < s.stored.length := by omega
      rw [if_neg (hfree k hk' hge),hs.ring k hk' hge]
      simp only [List.get_eq_getElem,List.getElem_append_left hk']
  · intro other n h
    rw [Function.update_apply] at h
    split at h
    · cases h
    · rename_i hne
      exact absurd (copying_self hs hl h) hne

/-- One loop iteration with a successful user copy keeps the invariant unless it
stores over an unread byte. -/
theorem iterate_inv {s t : System} {proc : ℕ} (hs : Inv s) (hl : s.lock=some proc)
    (hhit : ¬HitsUnread s proc) (h : iterate s proc true=.next t) : Inv t := by
  unfold iterate at h
  split at h
  · rename_i count hcall
    split at h
    · split at h <;> cases h <;> exact inv_leave hs hl nofun
    · cases h
      refine inv_of_same hs rfl rfl rfl rfl rfl ?_
      intro other left h
      dsimp only at h
      rw [Function.update_apply] at h
      split at h
      · rename_i he
        cases h
        have hle := hs.le
        refine ⟨he ▸ hl,?_⟩
        rw [hs.read,hs.write,cnt_sub hle hs.fits]
        omega
      · rename_i hne
        exact absurd (copying_self hs hl h) hne
  · cases h
    exact inv_endRead hs hl
  · rename_i left hcall
    rw [if_pos rfl] at h
    cases h
    exact inv_deliver hs hcall
  · cases h
    exact inv_endWrite hs hl
  · rename_i byte bytes hcall
    split at h
    · cases h
      exact inv_leave hs hl nofun
    split at h
    · cases h
      exact inv_leave (inv_wakeReaders hs) hl nofun
    rename_i hopen hfull
    rw [if_pos rfl] at h
    cases h
    rw [not_or,Bool.not_eq_false,Bool.not_eq_true] at hopen
    have hst : Stores s proc := ⟨by rw [hcall]; rfl,hopen.1,hopen.2,hfull⟩
    exact inv_store hs hl hfull fun hc => hhit ⟨hst,hc⟩
  · cases h

/-- A process that was not copying takes the free lock at the start of a loop. -/
theorem inv_enter {s : System} {proc : ℕ} {call : Call} (hs : Inv s) (hl : s.lock=none)
    (hcall : ∀ left,call≠.readCopy left) :
    Inv {s with lock := some proc,calls := Function.update s.calls proc call} := by
  refine inv_of_same hs rfl rfl rfl rfl rfl ?_
  intro other left h
  dsimp only at h
  rw [Function.update_apply] at h
  split at h
  · exact absurd h (hcall left)
  · have hc := (hs.copying other left h).1
    rw [hl] at hc
    cases hc

/-- Every clean step keeps the invariant. -/
theorem step_inv (s : System) (a : Action) (t : System) (hs : Inv s) (ha : Clean s a)
    (h : step s a=.next t) : Inv t := by
  cases a with
  | read proc count =>
    simp only [step] at h
    split at h
    · rename_i hl _
      cases h
      exact inv_enter hs hl nofun
    · cases h
  | write proc bytes =>
    simp only [step] at h
    split at h
    · rename_i hl _
      cases h
      exact inv_enter hs hl nofun
    · cases h
  | iterate proc copyOk =>
    obtain ⟨rfl,hhit⟩ := ha
    simp only [step] at h
    split at h
    · rename_i hl
      exact iterate_inv hs hl hhit h
    · cases h
  | relock proc =>
    simp only [step] at h
    split at h
    · rename_i hl _
      cases h
      exact inv_enter hs hl nofun
    · rename_i hl _
      cases h
      exact inv_enter hs hl nofun
    · cases h
  | kill proc =>
    simp only [step] at h
    cases h
    refine inv_of_same hs rfl rfl rfl rfl rfl ?_
    intro other left h
    dsimp only at h
    rw [Function.update_apply] at h
    split at h
    · rename_i he
      subst he
      apply hs.copying other left
      cases hc : s.calls other <;> rw [hc] at h <;> simp_all
    · exact hs.copying other left h
  | close isWrite =>
    simp only [step] at h
    split at h
    · cases h
    split at h
    · cases h
      exact inv_of_same (inv_wakeReaders hs) rfl rfl rfl rfl rfl (inv_wakeReaders hs).copying
    · cases h
      exact inv_of_same (inv_wakeWriters hs) rfl rfl rfl rfl rfl (inv_wakeWriters hs).copying

/-- In every interleaving of readers and writers whose user copies succeed and
in which no byte is stored just after the counter wrap onto an unread byte from
before it, the pipe is a byte stream in every state, for any number of bytes. -/
theorem pipe_stream_off_collisions (actions : List Action) (t : System)
    (hg : Guarded step Clean create actions) (ht : run step create actions=.next t) :
    Stream t :=
  inv_stream (run_invariant step_inv create_inv hg ht)

/-- The guard admits a write, a read of part of it, and a second reader. -/
theorem pipe_stream_two_readers :
    let actions := [.write 0 [7,8],.iterate 0 true,.iterate 0 true,.iterate 0 true,.read 1 1,
      .iterate 1 true,.iterate 1 true,.iterate 1 true,.read 2 5,.iterate 2 true]
    ∃ t,run step create actions=.next t ∧ Stream t ∧ t.delivered=[7] := by
  intro actions
  have hg : Guarded step Clean create actions := by decide +kernel
  exact ⟨_,rfl,pipe_stream_off_collisions actions _ hg rfl,rfl⟩

section Wrap

/-- One byte written and read back by process 0. -/
def oneByte : List Action :=
  [.write 0 [0],.iterate 0 true,.iterate 0 true,.read 0 1,.iterate 0 true,.iterate 0 true,
    .iterate 0 true]

/-- The pipe after `n` zero bytes have passed through it. -/
def drained (n : ℕ) : System :=
  {create with
    pipe := {create.pipe with readCnt := UInt32.ofNat n,writeCnt := UInt32.ofNat n}
    stored := List.replicate n 0
    delivered := List.replicate n 0}

theorem run_oneByte (n : ℕ) : run step (drained n) oneByte=.next (drained (n+1)) := by
  have hroom : ¬UInt32.ofNat n=UInt32.ofNat n+UInt32.ofNat pipeSize := by
    rw [cnt_full_iff (Nat.le_refl n) (Nat.le_add_right _ _),pipeSize]
    omega
  have hdiff : (UInt32.ofNat n+1-UInt32.ofNat n).toNat=1 := by
    rw [cnt_succ,cnt_sub (Nat.le_succ n) (by simp only [pipeSize]; omega)]
    omega
  have hne : ¬UInt32.ofNat n=UInt32.ofNat n+1 := by
    intro h
    rw [← h] at hdiff
    simp at hdiff
  simp [run,oneByte,drained,create,step,iterate,PipeInner.full,PipeInner.store,System.leave,
    System.endRead,System.endWrite,hroom,hne]
  refine ⟨?_,(List.replicate_succ' ..).symm⟩
  funext proc
  by_cases hp : proc=0
  · rw [hp,Function.update_self]
  · simp [wakeReaders,wakeWriters,hp]

/-- Any number of bytes passes through the pipe one at a time. -/
theorem run_drained (n : ℕ) :
    run step create (List.replicate n oneByte).flatten=.next (drained n) := by
  induction n with
  | zero => rfl
  | succ n ih =>
    rw [List.replicate_succ',List.flatten_append,List.flatten_singleton,run_append _ ih]
    exact run_oneByte n

/-- The ring after storing a list of bytes from a counter on. -/
def storeAll (data : Fin pipeSize → UInt8) (cnt : UInt32) : List UInt8 → Fin pipeSize → UInt8
  | [] => data
  | byte::bytes => storeAll (Function.update data (slot cnt) byte) (cnt+1) bytes

/-- A writer with room for all its bytes stores them one iteration each. -/
theorem run_stores {s : System} {p : ℕ} (bytes : List UInt8) (hl : s.lock=some p)
    (hcall : s.calls p=.writeLoop bytes) (hopen : s.pipe.readOpen=true)
    (hkill : s.killed p=false)
    (hroom : ∀ i,i<bytes.length →
      s.pipe.writeCnt+UInt32.ofNat i≠s.pipe.readCnt+UInt32.ofNat pipeSize) :
    run step s (List.replicate bytes.length (.iterate p true))=.next {s with
      pipe := {s.pipe with
        data := storeAll s.pipe.data s.pipe.writeCnt bytes
        writeCnt := s.pipe.writeCnt+UInt32.ofNat bytes.length}
      calls := Function.update s.calls p (.writeLoop [])
      stored := s.stored++bytes} := by
  induction bytes generalizing s with
  | nil =>
    rw [← hcall,Function.update_eq_self,List.append_nil]
    simp [storeAll]
  | cons byte bytes ih =>
    have h0 := hroom 0 (Nat.succ_pos _)
    have hs : step s (.iterate p true)=.next {s with
        pipe := s.pipe.store byte
        calls := Function.update s.calls p (.writeLoop bytes)
        stored := s.stored++[byte]} := by
      have hf : ¬s.pipe.full := by simpa [PipeInner.full] using h0
      simp [step,iterate,hl,hcall,hopen,hkill,hf]
    have hcnt : ∀ i,s.pipe.writeCnt+1+UInt32.ofNat i=s.pipe.writeCnt+UInt32.ofNat (i+1) := by
      intro i
      rw [← cnt_succ,UInt32.add_assoc,UInt32.add_comm 1]
    rw [List.length_cons,List.replicate_succ,run_cons_next _ hs,ih]
    · simp only [PipeInner.store,storeAll,Function.update_idem,hcnt,List.append_assoc,
        List.singleton_append]
    · exact hl
    · exact Function.update_self ..
    · exact hopen
    · exact hkill
    · intro i hi
      have h := hroom (i+1) (by simpa using hi)
      dsimp only [PipeInner.store]
      rw [hcnt]
      exact h

/-- A one, zeros up to the wrap, and a two that lands on the one. -/
def burst : List UInt8 := 1::List.replicate 175 0++[2]

/-- Process 0 writes the burst, and then reads one byte. -/
def burstActions : List Action :=
  .write 0 burst::(List.replicate burst.length (.iterate 0 true)++
    [.iterate 0 true,.read 0 1,.iterate 0 true,.iterate 0 true])

/-- Once the counters stand `wrapShift` before the wrap, the reader of the burst
gets its last byte first. -/
theorem run_burst {n : ℕ} (hn : n%2^32=2^32-wrapShift) :
    ∃ t,run step (drained n) burstActions=.next t ∧
      t.stored=List.replicate n 0++burst ∧ t.delivered=List.replicate n 0++[2] := by
  have hcnt : UInt32.ofNat n=4294967120 := by
    rw [← UInt32.toNat_inj,UInt32.toNat_ofNat',hn]
    decide
  have hw : step (drained n) (.write 0 burst)=.next {drained n with
      lock := some 0,calls := Function.update (drained n).calls 0 (.writeLoop burst)} := rfl
  have hs := run_stores burst (s:={drained n with
      lock := some 0,calls := Function.update (drained n).calls 0 (.writeLoop burst)}) (p:=0)
    rfl (by dsimp only; rw [Function.update_self]) rfl rfl (by
      dsimp only [drained]
      rw [hcnt]
      decide +kernel)
  have hdata : storeAll (fun _ => 0) 4294967120 burst (slot 4294967120)=2 := by decide +kernel
  have hleft : (4294967120+UInt32.ofNat burst.length-4294967120 : UInt32).toNat=177 := by
    decide +kernel
  have hne : ¬(4294967120 : UInt32)=4294967120+UInt32.ofNat burst.length := by decide +kernel
  rw [burstActions,run_cons_next _ hw,run_append _ hs]
  dsimp only [drained,create]
  rw [hcnt]
  generalize (4294967120 : UInt32)+UInt32.ofNat burst.length=w at hleft hne ⊢
  simp [run,step,iterate,System.endWrite,System.leave,hne,hleft,hdata]

/-- A byte is overwritten before it is read: after enough single bytes have
moved the counters close to the wrap, one write of 177 bytes stores its last
byte over its first unread one, and what is delivered is no prefix of what was
stored although every user copy succeeds. -/
theorem pipe_overwrites_unread :
    ∃ actions t,(∀ a∈actions,CopySucceeds a) ∧ run step create actions=.next t ∧
      ¬t.delivered<+:t.stored := by
  obtain ⟨n,hn⟩ : ∃ n,n%2^32=2^32-wrapShift := ⟨2^32-wrapShift,by decide⟩
  obtain ⟨t,ht,hst,hdl⟩ := run_burst hn
  refine ⟨(List.replicate n oneByte).flatten++burstActions,t,?_,?_,?_⟩
  · have hone : ∀ a∈oneByte,CopySucceeds a := by decide
    have hburst : ∀ a∈burstActions,CopySucceeds a := by decide +kernel
    intro a ha
    rcases List.mem_append.mp ha with ha|ha
    · obtain ⟨l,hl,ha⟩ := List.mem_flatten.mp ha
      rw [List.eq_of_mem_replicate hl] at ha
      exact hone a ha
    · exact hburst a ha
  · rw [run_append _ (run_drained n)]
    exact ht
  · rw [hst,hdl,List.prefix_append_right_inj]
    decide +kernel

end Wrap

end Xv6Rust.PipeRing

import Xv6Rust.Runs

/-!
# Descriptors of the virtio disk

`Disk` of `driver/virtio_disk.rs` with the calls of `rw` by any number of
processes, the interrupt handler and the device. A step is one section under the
`DISK` lock: an attempt to take three descriptors with the submission that follows
it, a round of the waiting loop, or a whole `intr`. The device acts between these
sections. When `alloc3_desc` runs out after one or two descriptors it releases the
loop indices `0..i` in place of the descriptors it took, so the descriptors of
other requests are set free.
-/

namespace Xv6Rust.VirtioDisk

open Runs

/-- `NUM`, the number of descriptors. -/
def num : ℕ := 8

/-- `BSIZE`. -/
def bsize : ℕ := 1024

/-- `VRING_DESC_F_NEXT`. -/
def descFNext : UInt16 := 1

/-- `VRING_DESC_F_WRITE`. -/
def descFWrite : UInt16 := 2

/-- What the address of a descriptor points at. -/
inductive DmaAddr where
  /-- The null address of a released descriptor. -/
  | null
  /-- `ops[i]`. -/
  | op (i : ℕ)
  /-- The data of a buffer. -/
  | data (buf : ℕ)
  /-- `info[i].status`. -/
  | status (i : ℕ)
  deriving DecidableEq

/-- `VQDesc`. -/
structure VQDesc where
  /-- Address of the memory it describes. -/
  addr : DmaAddr
  /-- Length of that memory. -/
  len : ℕ
  /-- Flag bits. -/
  flags : UInt16
  /-- The next descriptor of the chain. -/
  next : ℕ
  deriving DecidableEq

/-- `VIRTIO_BLK_T_IN` and `VIRTIO_BLK_T_OUT`. -/
inductive BlkType where
  /-- Read from the disk. -/
  | typeIn
  /-- Write to the disk. -/
  | typeOut
  deriving DecidableEq

/-- `VirtIOBlkReq`; its reserved word is always zero. -/
structure VirtIOBlkReq where
  /-- Direction of the transfer. -/
  type : BlkType
  /-- First sector of 512 bytes. -/
  sector : ℕ
  deriving DecidableEq

/-- `Info`. -/
structure Info where
  /-- Channel to wake when the request is done. -/
  bufChannel : Option ℕ
  /-- Status byte the device writes. -/
  status : UInt8
  /-- The device owns the request. -/
  disk : Bool
  deriving DecidableEq

/-- The arguments of one `rw`: the buffer, its block and the direction. -/
structure Request where
  /-- Address of the buffer data, which is also the channel slept on. -/
  buf : ℕ
  /-- `buf.read_blockno()`. -/
  blockno : ℕ
  /-- The direction. -/
  writing : Bool
  deriving DecidableEq

/-- The array `idx` of `rw`. -/
structure Chain where
  /-- `idx[0]`. -/
  head : ℕ
  /-- `idx[1]`. -/
  data : ℕ
  /-- `idx[2]`. -/
  status : ℕ
  deriving DecidableEq

/-- The descriptors of a chain. -/
def Chain.toList (idx : Chain) : List ℕ := [idx.head,idx.data,idx.status]

/-- Where a process is in `rw`. -/
inductive Call where
  /-- Not in `rw`. -/
  | idle
  /-- Before an attempt to take descriptors, without the lock. -/
  | want (req : Request)
  /-- Asleep on `free[0]`. -/
  | sleepFree (req : Request)
  /-- In the waiting loop of a submitted request, without the lock. -/
  | wait (req : Request) (idx : Chain)
  /-- Asleep on the buffer of a submitted request. -/
  | sleepBuf (req : Request) (idx : Chain)
  deriving DecidableEq

/-- The request a process has in flight, with its descriptors. -/
def Call.inFlight : Call → Option (Request×Chain)
  | .wait req idx => some (req,idx)
  | .sleepBuf req idx => some (req,idx)
  | _ => none

/-- The descriptors that belong to a process. -/
def Call.chain (call : Call) : List ℕ :=
  match call.inFlight with
  | some (_,idx) => idx.toList
  | none => []

/-- The buffer a process has borrowed for its call of `rw`. -/
def Call.buf : Call → Option ℕ
  | .idle => none
  | .want req => some req.buf
  | .sleepFree req => some req.buf
  | .wait req _ => some req.buf
  | .sleepBuf req _ => some req.buf

/-- The disk, the processes that use it and the device's obligations. -/
structure System where
  /-- Descriptor table. -/
  desc : ℕ → VQDesc
  /-- `avail.idx`. -/
  availIdx : UInt16
  /-- `avail.ring`. -/
  availRing : ℕ → ℕ
  /-- `used.idx`, advanced by the device. -/
  deviceIdx : UInt16
  /-- The `id` fields of `used.ring`. -/
  usedRing : ℕ → ℕ
  /-- `free`. -/
  free : ℕ → Bool
  /-- `used_idx`, advanced by `intr`. -/
  usedIdx : UInt16
  /-- `info`. -/
  info : ℕ → Info
  /-- `ops`. -/
  ops : ℕ → VirtIOBlkReq
  /-- Position of every process. -/
  procs : ℕ → Call
  /-- Buffers borrowed by the calls of `rw` under way. -/
  borrowed : List ℕ
  /-- Heads made available that the device has not returned. -/
  pending : List ℕ

/-- Failed assertions of the driver. -/
inductive Panic where
  /-- `desc index not correct`. -/
  | descIndex
  /-- `interrupt status`. -/
  | interruptStatus
  /-- `virtio disk intr handler not found pre-stored buf channel to wakeup`. -/
  | noChannel
  /-- The assertion on the channel taken back by `rw`. -/
  | channelMismatch
  /-- A 16-bit index passes its largest value. -/
  | overflow
  deriving DecidableEq

/-- The driver after `init`. -/
def init : System where
  desc := fun _ => ⟨.null,0,0,0⟩
  availIdx := 0
  availRing := fun _ => 0
  deviceIdx := 0
  usedRing := fun _ => 0
  free := fun _ => true
  usedIdx := 0
  info := fun _ => ⟨none,0,false⟩
  ops := fun _ => ⟨.typeIn,0⟩
  procs := fun _ => .idle
  borrowed := []
  pending := []

/-- `PROC_MANAGER.wakeup(&free[0])`, seen by one process. -/
def Call.wokenFree : Call → Call
  | .sleepFree req => .want req
  | call => call

/-- `PROC_MANAGER.wakeup(buf_raw_data)`, seen by one process. -/
def Call.wokenBuf (buf : ℕ) : Call → Call
  | .sleepBuf req idx => if req.buf=buf then .wait req idx else .sleepBuf req idx
  | call => call

/-- `alloc_desc`: the first free descriptor. -/
def allocDesc (s : System) : Option (ℕ×System) :=
  ((List.range num).find? s.free).map fun i => (i,{s with free := Function.update s.free i false})

/-- A descriptor is cleared and set free, and its waiters are woken. -/
def released (s : System) (i : ℕ) : System :=
  {s with
    desc := Function.update s.desc i ⟨.null,0,0,0⟩
    free := Function.update s.free i true
    procs := fun proc => (s.procs proc).wokenFree}

/-- `free_desc`. -/
def freeDesc (s : System) (i : ℕ) : Except Panic System :=
  if i≥num ∨ s.free i=true then .error .descIndex else .ok (released s i)

/-- The loop of `alloc3_desc` with `left` rounds to go and the descriptors taken
so far. On failure it frees `0..i` for the loop index `i`. -/
def alloc3Loop (s : System) (taken : List ℕ) : ℕ → Except Panic (System×Option (List ℕ))
  | 0 => .ok (s,some taken)
  | left+1 =>
    match allocDesc s with
    | some (ix,t) => alloc3Loop t (taken++[ix]) left
    | none => do
      let t ← (List.range taken.length).foldlM freeDesc s
      .ok (t,none)

/-- `alloc3_desc`. -/
def alloc3Desc (s : System) : Except Panic (System×Option (List ℕ)) := alloc3Loop s [] 3

/-- The loop of `free_chain`. Every round frees a descriptor that was in use, so
after `num` rounds the next one fails in `free_desc`. -/
def freeChain (s : System) (i : ℕ) : ℕ → Except Panic System
  | 0 => .error .descIndex
  | rounds+1 => do
    let t ← freeDesc s i
    if (s.desc i).flags&&&descFNext≠0 then freeChain t (s.desc i).next rounds
    else .ok t

/-- The descriptor table with a request formatted over three descriptors. -/
def format (s : System) (req : Request) (idx : Chain) : ℕ → VQDesc :=
  let desc := Function.update s.desc idx.head ⟨.op idx.head,16,descFNext,idx.data⟩
  let direction := if req.writing=true then 0 else descFWrite
  let desc := Function.update desc idx.data ⟨.data req.buf,bsize,direction|||descFNext,idx.status⟩
  Function.update desc idx.status ⟨.status idx.head,1,descFWrite,0⟩

/-- The body of `rw` from the formatting to the notification of the device. -/
def submit (s : System) (req : Request) (idx : Chain) : Except Panic System :=
  if s.availIdx=65535 then .error .overflow
  else .ok {s with
    ops := Function.update s.ops idx.head
      ⟨if req.writing=true then .typeOut else .typeIn,req.blockno*(bsize/512)⟩
    desc := format s req idx
    info := Function.update s.info idx.head ⟨some req.buf,0xff,true⟩
    availRing := Function.update s.availRing (s.availIdx.toNat%num) idx.head
    availIdx := s.availIdx+1
    pending := idx.head::s.pending}

/-- The end of `rw`: take the channel back and free the chain. -/
def finish (s : System) (proc : ℕ) (req : Request) (idx : Chain) : Except Panic System :=
  if (s.info idx.head).bufChannel≠some req.buf then .error .channelMismatch
  else do
    let t ← freeChain {s with
      info := Function.update s.info idx.head {s.info idx.head with bufChannel := none}} idx.head num
    .ok {t with
      procs := Function.update t.procs proc .idle
      borrowed := t.borrowed.erase req.buf}

/-- One test of the waiting loop of `rw`, under the lock. -/
def awaitDisk (s : System) (proc : ℕ) (req : Request) (idx : Chain) : Except Panic System :=
  if (s.info idx.head).disk=true then
    .ok {s with procs := Function.update s.procs proc (.sleepBuf req idx)}
  else finish s proc req idx

/-- One round of the allocation loop of `rw`; when it gets its descriptors the
request is submitted and waited for under the same lock. -/
def start (s : System) (proc : ℕ) (req : Request) : Except Panic System := do
  match ← alloc3Desc s with
  | (t,some [head,data,status]) =>
    let u ← submit t req ⟨head,data,status⟩
    awaitDisk u proc req ⟨head,data,status⟩
  | (t,_) => .ok {t with procs := Function.update t.procs proc (.sleepFree req)}

/-- One round of the loop of `intr`. -/
def handleUsed (s : System) : Except Panic System :=
  let id := s.usedRing (s.usedIdx.toNat%num)
  if (s.info id).status≠0 then .error .interruptStatus
  else
    match (s.info id).bufChannel with
    | none => .error .noChannel
    | some buf =>
      if s.usedIdx=65535 then .error .overflow
      else .ok {s with
        info := Function.update s.info id {s.info id with disk := false}
        procs := fun proc => (s.procs proc).wokenBuf buf
        usedIdx := s.usedIdx+1}

/-- Rounds of the loop of `intr`. -/
def intrLoop (s : System) : ℕ → Except Panic System
  | 0 => .ok s
  | rounds+1 => do
    let t ← handleUsed s
    intrLoop t rounds

/-- Entries of the used ring that `intr` has not handled. -/
def backlog (s : System) : ℕ := (s.deviceIdx-s.usedIdx).toNat

/-- `intr`: handle entries until the two indices agree. -/
def intr (s : System) : Except Panic System := intrLoop s (backlog s)

/-- The device returns a head on the used ring. It reads the chain in memory to
find where the status byte goes. -/
def complete (s : System) (head : ℕ) (status : UInt8) : System :=
  let info :=
    match (s.desc (s.desc (s.desc head).next).next).addr with
    | .status i => Function.update s.info i {s.info i with status := status}
    | _ => s.info
  {s with
    info := info
    usedRing := Function.update s.usedRing (s.deviceIdx.toNat%num) head
    deviceIdx := s.deviceIdx+1
    pending := s.pending.erase head}

/-- Steps of the processes, the device and the interrupt handler. -/
inductive Action where
  /-- Call `rw`. -/
  | call (proc : ℕ) (req : Request)
  /-- Take the lock for an attempt to get descriptors. -/
  | start (proc : ℕ)
  /-- Take the lock again in the waiting loop. -/
  | resume (proc : ℕ)
  /-- `kill` makes a sleeper runnable. -/
  | kill (proc : ℕ)
  /-- The device returns a head with a status. -/
  | complete (head : ℕ) (status : UInt8)
  /-- The interrupt handler. -/
  | intr
  deriving DecidableEq

/-- A section under the lock as a step. -/
def locked : Except Panic System → Outcome Panic System
  | .ok s => .next s
  | .error e => .fault e

/-- One step of the system. A buffer is in one call of `rw` at a time, since `rw`
borrows it mutably. -/
def step (s : System) : Action → Outcome Panic System
  | .call proc req =>
    if s.procs proc=.idle ∧ req.buf∉s.borrowed then
      .next {s with
        procs := Function.update s.procs proc (.want req)
        borrowed := req.buf::s.borrowed}
    else .blocked
  | .start proc =>
    match s.procs proc with
    | .want req => locked (start s proc req)
    | _ => .blocked
  | .resume proc =>
    match s.procs proc with
    | .wait req idx => locked (awaitDisk s proc req idx)
    | _ => .blocked
  | .kill proc =>
    match s.procs proc with
    | .sleepFree req => .next {s with procs := Function.update s.procs proc (.want req)}
    | .sleepBuf req idx => .next {s with procs := Function.update s.procs proc (.wait req idx)}
    | _ => .blocked
  | .complete head status =>
    if head∈s.pending then .next (complete s head status) else .blocked
  | .intr => locked (intr s)

/-- Number of free descriptors. -/
def freeCount (s : System) : ℕ := ((Finset.range num).filter fun i => s.free i=true).card

/-- An attempt to take descriptors finds none or enough for a request. -/
def EnoughOrNone (s : System) : Action → Prop
  | .start _ => freeCount s=0 ∨ 3≤freeCount s
  | _ => True

instance (s : System) (a : Action) : Decidable (EnoughOrNone s a) :=
  match a with
  | .start _ => inferInstanceAs (Decidable (freeCount s=0 ∨ 3≤freeCount s))
  | .call _ _ => inferInstanceAs (Decidable True)
  | .resume _ => inferInstanceAs (Decidable True)
  | .kill _ => inferInstanceAs (Decidable True)
  | .complete _ _ => inferInstanceAs (Decidable True)
  | .intr => inferInstanceAs (Decidable True)

/-- Heads on the used ring that `intr` has not handled, oldest first. -/
def completed (s : System) : List ℕ :=
  (List.range (backlog s)).map fun k => s.usedRing ((s.usedIdx+UInt16.ofNat k).toNat%num)

/-- Ownership of the descriptors: a descriptor is free exactly when it belongs to
no request in flight, and the chains of requests in flight are three descriptors
each and disjoint. -/
structure Owned (s : System) : Prop where
  /-- Free means owned by nobody. -/
  free_iff : ∀ i,i<num → (s.free i=true ↔ ∀ p,i∉(s.procs p).chain)
  /-- Chains have three different descriptors. -/
  nodup : ∀ p,(s.procs p).chain.Nodup
  /-- Different requests share no descriptor. -/
  disjoint : ∀ p q,p≠q → List.Disjoint (s.procs p).chain (s.procs q).chain

/-- What one interrupt does: of the requests in flight exactly those the device has
returned stop being owned by the disk, and exactly their callers are woken. -/
def IntrExact (s : System) : Prop :=
  (∀ head∈completed s,∃ p req idx,(s.procs p).inFlight=some (req,idx) ∧ idx.head=head ∧
    (s.info head).bufChannel=some req.buf) ∧
  ∀ t,step s .intr=.next t → ∀ p,
    match (s.procs p).inFlight with
    | none => t.procs p=s.procs p
    | some (req,idx) =>
      if idx.head∈completed s then (t.info idx.head).disk=false ∧ t.procs p=.wait req idx
      else (t.info idx.head).disk=(s.info idx.head).disk ∧ t.procs p=s.procs p

section Allocation

variable {s t : System}

theorem allocDesc_some {i : ℕ} (h : allocDesc s=some (i,t)) :
    i<num ∧ s.free i=true ∧ t={s with free := Function.update s.free i false} := by
  rw [allocDesc,Option.map_eq_some_iff] at h
  obtain ⟨j,hj,h⟩ := h
  obtain ⟨rfl,rfl⟩ := Prod.mk.inj h
  have hmem := List.mem_of_find?_eq_some hj
  rw [List.mem_range] at hmem
  exact ⟨hmem,List.find?_some hj,rfl⟩

/-- `alloc_desc` takes the first free descriptor. -/
theorem allocDesc_first {i : ℕ} (hi : i<num) (hf : s.free i=true)
    (hb : ∀ j < i,s.free j=false) :
    allocDesc s=some (i,{s with free := Function.update s.free i false}) := by
  have hfind : (List.range num).find? s.free=some i := by
    rw [List.find?_range_eq_some]
    refine ⟨hf,List.mem_range.mpr hi,fun j hj => ?_⟩
    rw [hb j hj]
    rfl
  rw [allocDesc,hfind]
  rfl

theorem allocDesc_none (h : freeCount s=0) : allocDesc s=none := by
  rw [freeCount,Finset.card_eq_zero,Finset.filter_eq_empty_iff] at h
  rw [allocDesc,Option.map_eq_none_iff,List.find?_eq_none]
  intro i hi
  exact h (Finset.mem_range.mpr (List.mem_range.mp hi))

/-- With a free descriptor left `alloc_desc` succeeds and leaves one fewer. -/
theorem allocDesc_of_pos (h : 0<freeCount s) :
    ∃ i,i<num ∧ s.free i=true ∧
      allocDesc s=some (i,{s with free := Function.update s.free i false}) ∧
      freeCount {s with free := Function.update s.free i false}=freeCount s-1 := by
  obtain ⟨j,hj⟩ := Finset.card_pos.mp h
  rw [Finset.mem_filter,Finset.mem_range] at hj
  cases ha : allocDesc s with
  | none =>
    rw [allocDesc,Option.map_eq_none_iff,List.find?_eq_none] at ha
    exact absurd hj.2 (ha j (List.mem_range.mpr hj.1))
  | some p =>
    obtain ⟨i,t⟩ := p
    obtain ⟨hi,hf,rfl⟩ := allocDesc_some ha
    refine ⟨i,hi,hf,rfl,?_⟩
    have hset : (Finset.range num).filter (fun k => Function.update s.free i false k=true)=
        ((Finset.range num).filter fun k => s.free k=true).erase i := by
      ext k
      by_cases hk : k=i
      · simp [hk]
      · simp [hk]
    have hmem : i∈(Finset.range num).filter fun k => s.free k=true :=
      Finset.mem_filter.mpr ⟨Finset.mem_range.mpr hi,hf⟩
    rw [freeCount,hset,Finset.card_erase_of_mem hmem,freeCount]

/-- An attempt that finds nothing free changes nothing. -/
theorem alloc3Desc_none (h : freeCount s=0) : alloc3Desc s=.ok (s,none) := by
  rw [alloc3Desc,alloc3Loop,allocDesc_none h]
  rfl

/-- An attempt that finds three free descriptors takes three different ones. -/
theorem alloc3Desc_some (h : 3≤freeCount s) :
    ∃ idx : Chain,alloc3Desc s=.ok ({s with free := fun i => s.free i && decide (i∉idx.toList)},
      some idx.toList) ∧ idx.toList.Nodup ∧ ∀ i∈idx.toList,i<num ∧ s.free i=true := by
  obtain ⟨a,ha,fa,ea,ca⟩ := allocDesc_of_pos (s:=s) (by omega)
  obtain ⟨b,hb,fb,eb,cb⟩ := allocDesc_of_pos
    (s:={s with free := Function.update s.free a false}) (by omega)
  obtain ⟨c,hc,fc,ec,-⟩ := allocDesc_of_pos
    (s:={s with free := Function.update (Function.update s.free a false) b false}) (by
      dsimp only at cb
      omega)
  have hba : b≠a := by
    intro e
    rw [e] at fb
    simp at fb
  have hcb : c≠b := by
    intro e
    rw [e] at fc
    simp at fc
  have hca : c≠a := by
    intro e
    rw [e] at fc
    simp [Ne.symm hba] at fc
  have fb' : s.free b=true := by simpa [hba] using fb
  have fc' : s.free c=true := by simpa [hca,hcb] using fc
  refine ⟨⟨a,b,c⟩,?_,?_,?_⟩
  · rw [alloc3Desc,alloc3Loop,ea]
    dsimp only
    rw [alloc3Loop,eb]
    dsimp only
    rw [alloc3Loop,ec]
    dsimp only
    rw [alloc3Loop]
    have hfree : Function.update (Function.update (Function.update s.free a false) b false) c false=
        fun i => s.free i && decide (i∉Chain.toList ⟨a,b,c⟩) := by
      funext i
      by_cases h1 : i=c
      · simp [h1,Chain.toList]
      · by_cases h2 : i=b
        · simp [h2,Chain.toList,Function.update_apply]
        · by_cases h3 : i=a
          · simp [h3,Chain.toList,Function.update_apply]
          · simp [h1,h2,h3,Chain.toList]
    rw [hfree]
    rfl
  · simp [Chain.toList,Ne.symm hba,Ne.symm hca,Ne.symm hcb]
  · intro i hi
    simp only [Chain.toList,List.mem_cons,List.not_mem_nil,or_false] at hi
    rcases hi with rfl|rfl|rfl
    · exact ⟨ha,fa⟩
    · exact ⟨hb,fb'⟩
    · exact ⟨hc,fc'⟩

end Allocation

/-- The chain of a request in flight is as `rw` formatted it. -/
structure Linked (desc : ℕ → VQDesc) (idx : Chain) : Prop where
  /-- The head goes on to the data. -/
  head : (desc idx.head).flags&&&descFNext≠0 ∧ (desc idx.head).next=idx.data
  /-- The data goes on to the status. -/
  data : (desc idx.data).flags&&&descFNext≠0 ∧ (desc idx.data).next=idx.status
  /-- The status ends the chain. -/
  status : (desc idx.status).flags&&&descFNext=0 ∧ (desc idx.status).addr=.status idx.head

/-- The invariant of the driver. -/
structure Inv (s : System) : Prop where
  /-- Descriptors in use are in range. -/
  lt : ∀ p i,i∈(s.procs p).chain → i<num
  /-- Ownership. -/
  owned : Owned s
  /-- Requests in flight are intact. -/
  linked : ∀ p req idx,(s.procs p).inFlight=some (req,idx) → Linked s.desc idx
  /-- The channel of a request is the buffer submitted with it. -/
  channel : ∀ p req idx,(s.procs p).inFlight=some (req,idx) →
    (s.info idx.head).bufChannel=some req.buf
  /-- A buffer is in one call only. -/
  bufs : ∀ p q b,(s.procs p).buf=some b → (s.procs q).buf=some b → p=q
  /-- Buffers in calls are borrowed. -/
  borrowed : ∀ p b,(s.procs p).buf=some b → b∈s.borrowed
  /-- The device returns each head once. -/
  queue_nodup : (s.pending++completed s).Nodup
  /-- The heads with the device or on the used ring are those the disk owns. -/
  queue : ∀ h,h∈s.pending++completed s ↔
    ∃ p req idx,(s.procs p).inFlight=some (req,idx) ∧ idx.head=h ∧ (s.info h).disk=true

@[simp] theorem wokenFree_inFlight (call : Call) : call.wokenFree.inFlight=call.inFlight := by
  cases call <;> rfl

@[simp] theorem wokenFree_buf (call : Call) : call.wokenFree.buf=call.buf := by
  cases call <;> rfl

@[simp] theorem wokenFree_wokenFree (call : Call) : call.wokenFree.wokenFree=call.wokenFree := by
  cases call <;> rfl

@[simp] theorem wokenBuf_inFlight (b : ℕ) (call : Call) :
    (call.wokenBuf b).inFlight=call.inFlight := by
  cases call with
  | sleepBuf req idx => rw [Call.wokenBuf]; split <;> rfl
  | _ => rfl

@[simp] theorem wokenBuf_buf (b : ℕ) (call : Call) : (call.wokenBuf b).buf=call.buf := by
  cases call with
  | sleepBuf req idx => rw [Call.wokenBuf]; split <;> rfl
  | _ => rfl

theorem chain_congr {call call' : Call} (h : call'.inFlight=call.inFlight) :
    call'.chain=call.chain := by
  rw [Call.chain,Call.chain,h]

theorem chain_of_inFlight {call : Call} {req : Request} {idx : Chain}
    (h : call.inFlight=some (req,idx)) : call.chain=idx.toList := by
  rw [Call.chain,h]

theorem buf_of_inFlight {call : Call} {req : Request} {idx : Chain}
    (h : call.inFlight=some (req,idx)) : call.buf=some req.buf := by
  cases call with
  | wait r i => cases h; rfl
  | sleepBuf r i => cases h; rfl
  | _ => cases h

section Preserve

variable {s t : System}

/-- Two requests in flight with a descriptor in common are the same. -/
theorem Inv.eq_of_shared (hi : Inv s) {p q i : ℕ} (hp : i∈(s.procs p).chain)
    (hq : i∈(s.procs q).chain) : p=q := by
  by_contra h
  exact hi.owned.disjoint p q h hp hq

/-- The invariant sees the processes through their requests and buffers only, so
sleeping and waking keep it. -/
theorem Inv.procs (hi : Inv s) {procs : ℕ → Call}
    (hf : ∀ p,(procs p).inFlight=(s.procs p).inFlight) (hb : ∀ p,(procs p).buf=(s.procs p).buf) :
    Inv {s with procs := procs} := by
  have hc : ∀ p,(procs p).chain=(s.procs p).chain := fun p => chain_congr (hf p)
  constructor
  · intro p i h
    dsimp only at h
    rw [hc] at h
    exact hi.lt p i h
  · constructor
    · intro i h
      simp only [hc]
      exact hi.owned.free_iff i h
    · intro p
      simp only [hc]
      exact hi.owned.nodup p
    · intro p q h
      simp only [hc]
      exact hi.owned.disjoint p q h
  · intro p req idx h
    dsimp only at h
    rw [hf] at h
    exact hi.linked p req idx h
  · intro p req idx h
    dsimp only at h
    rw [hf] at h
    exact hi.channel p req idx h
  · intro p q b h h'
    dsimp only at h h'
    rw [hb] at h h'
    exact hi.bufs p q b h h'
  · intro p b h
    dsimp only at h
    rw [hb] at h
    exact hi.borrowed p b h
  · exact hi.queue_nodup
  · intro h
    simp only [hf]
    exact hi.queue h

/-- One process moves to a position with the same request and buffer. -/
theorem Inv.move (hi : Inv s) {p : ℕ} {call : Call} (hf : call.inFlight=(s.procs p).inFlight)
    (hb : call.buf=(s.procs p).buf) : Inv {s with procs := Function.update s.procs p call} := by
  apply hi.procs
  · intro q
    by_cases h : q=p
    · rw [h,Function.update_self,hf]
    · rw [Function.update_of_ne h]
  · intro q
    by_cases h : q=p
    · rw [h,Function.update_self,hb]
    · rw [Function.update_of_ne h]

/-- A chain keeps its links when its descriptors are kept. -/
theorem Linked.frame {desc desc' : ℕ → VQDesc} {idx : Chain} (h : Linked desc idx)
    (hd : ∀ i∈idx.toList,desc' i=desc i) : Linked desc' idx := by
  have h0 := hd idx.head (by simp [Chain.toList])
  have h1 := hd idx.data (by simp [Chain.toList])
  have h2 := hd idx.status (by simp [Chain.toList])
  constructor
  · rw [h0]
    exact h.head
  · rw [h1]
    exact h.data
  · rw [h2]
    exact h.status

/-- `rw` is called with a buffer nobody else has borrowed. -/
theorem Inv.call (hi : Inv s) {p : ℕ} {req : Request} (hp : s.procs p=.idle)
    (hb : req.buf∉s.borrowed) :
    Inv {s with procs := Function.update s.procs p (.want req),borrowed := req.buf::s.borrowed} := by
  have hf : ∀ q,(Function.update s.procs p (.want req) q).inFlight=(s.procs q).inFlight := by
    intro q
    by_cases h : q=p
    · rw [h,Function.update_self,hp]
      rfl
    · rw [Function.update_of_ne h]
  have hbuf : ∀ q b,(Function.update s.procs p (.want req) q).buf=some b →
      (q=p ∧ b=req.buf) ∨ (q≠p ∧ (s.procs q).buf=some b) := by
    intro q b h
    by_cases hq : q=p
    · rw [hq,Function.update_self] at h
      cases h
      exact .inl ⟨hq,rfl⟩
    · rw [Function.update_of_ne hq] at h
      exact .inr ⟨hq,h⟩
  have hc : ∀ q,(Function.update s.procs p (.want req) q).chain=(s.procs q).chain :=
    fun q => chain_congr (hf q)
  constructor
  · intro q i h
    dsimp only at h
    rw [hc] at h
    exact hi.lt q i h
  · constructor
    · intro i h
      simp only [hc]
      exact hi.owned.free_iff i h
    · intro q
      simp only [hc]
      exact hi.owned.nodup q
    · intro q r h
      simp only [hc]
      exact hi.owned.disjoint q r h
  · intro q r idx h
    dsimp only at h
    rw [hf] at h
    exact hi.linked q r idx h
  · intro q r idx h
    dsimp only at h
    rw [hf] at h
    exact hi.channel q r idx h
  · intro q r b h h'
    rcases hbuf q b h with ⟨hq,e⟩|⟨hq,h⟩ <;> rcases hbuf r b h' with ⟨hr,e'⟩|⟨hr,h'⟩
    · rw [hq,hr]
    · rw [e] at h'
      exact absurd (hi.borrowed r _ h') hb
    · rw [e'] at h
      exact absurd (hi.borrowed q _ h) hb
    · exact hi.bufs q r b h h'
  · intro q b h
    rcases hbuf q b h with ⟨-,e⟩|⟨-,h⟩
    · rw [e]
      exact List.mem_cons_self
    · exact List.mem_cons_of_mem _ (hi.borrowed q b h)
  · exact hi.queue_nodup
  · intro h
    simp only [hf]
    exact hi.queue h

/-- The state after a request is submitted and its caller waits. -/
def submitted (s : System) (p : ℕ) (req : Request) (idx : Chain) : System :=
  {s with
    free := fun i => s.free i && decide (i∉idx.toList)
    ops := Function.update s.ops idx.head
      ⟨if req.writing=true then .typeOut else .typeIn,req.blockno*(bsize/512)⟩
    desc := format s req idx
    info := Function.update s.info idx.head ⟨some req.buf,0xff,true⟩
    availRing := Function.update s.availRing (s.availIdx.toNat%num) idx.head
    availIdx := s.availIdx+1
    pending := idx.head::s.pending
    procs := Function.update s.procs p (.sleepBuf req idx)}

theorem format_of_notMem {req : Request} {idx : Chain} {i : ℕ} (h : i∉idx.toList) :
    format s req idx i=s.desc i := by
  simp only [Chain.toList,List.mem_cons,List.not_mem_nil,or_false,not_or] at h
  simp [format,h]

theorem linked_format {req : Request} {idx : Chain} (hn : idx.toList.Nodup) :
    Linked (format s req idx) idx := by
  simp only [Chain.toList,List.nodup_cons,List.mem_cons,List.not_mem_nil,or_false,not_or] at hn
  obtain ⟨⟨h1,h2⟩,h3,-⟩ := hn
  constructor
  · simp only [format,Function.update_of_ne h1,Function.update_of_ne h2,Function.update_self,and_true]
    decide
  · simp only [format,Function.update_of_ne h3,Function.update_self,and_true]
    split <;> decide
  · simp only [format,Function.update_self,and_true]
    decide

/-- The chain of a request that is submitted. -/
theorem submitted_chain (s : System) (p : ℕ) (req : Request) (idx : Chain) (q : ℕ) :
    (Function.update s.procs p (.sleepBuf req idx) q).chain=
      if q=p then idx.toList else (s.procs q).chain := by
  by_cases h : q=p
  · rw [h,Function.update_self,if_pos rfl]
    rfl
  · rw [Function.update_of_ne h,if_neg h]

/-- The descriptors of a request that is submitted are no longer free. -/
theorem Inv.owned_submitted (hi : Inv s) {p : ℕ} {req : Request} {idx : Chain}
    (hself : (s.procs p).chain=[]) (hn : idx.toList.Nodup)
    (hfree : ∀ i∈idx.toList,i<num ∧ s.free i=true) : Owned (submitted s p req idx) := by
  have hfresh : ∀ i∈idx.toList,∀ q,i∉(s.procs q).chain := fun i hm =>
    (hi.owned.free_iff i (hfree i hm).1).mp (hfree i hm).2
  have hchain := submitted_chain s p req idx
  constructor
  · intro i h
    simp only [VirtioDisk.submitted,hchain,Bool.and_eq_true,decide_eq_true_eq]
    rw [hi.owned.free_iff i h]
    constructor
    · intro h' q
      split
      · exact h'.2
      · exact h'.1 q
    · intro h'
      refine ⟨?_,by simpa using h' p⟩
      intro q
      by_cases hq : q=p
      · rw [hq,hself]
        exact List.not_mem_nil
      · simpa [hq] using h' q
  · intro q
    simp only [VirtioDisk.submitted,hchain]
    split
    · exact hn
    · exact hi.owned.nodup q
  · intro q r hqr
    simp only [VirtioDisk.submitted,hchain]
    intro i h1 h2
    split at h1 <;> split at h2
    · rename_i hq hr
      exact hqr (hq.trans hr.symm)
    · exact hfresh i h1 r h2
    · exact hfresh i h2 q h1
    · exact hi.owned.disjoint q r hqr h1 h2

/-- A submission keeps the invariant. -/
theorem Inv.submitted (hi : Inv s) {p : ℕ} {req : Request} {idx : Chain}
    (hp : s.procs p=.want req) (hn : idx.toList.Nodup)
    (hfree : ∀ i∈idx.toList,i<num ∧ s.free i=true) : Inv (submitted s p req idx) := by
  have hfresh : ∀ i∈idx.toList,∀ q,i∉(s.procs q).chain := fun i hm =>
    (hi.owned.free_iff i (hfree i hm).1).mp (hfree i hm).2
  have hself : (s.procs p).chain=[] := by
    rw [hp]
    rfl
  have hflight : ∀ q r i,(Function.update s.procs p (.sleepBuf req idx) q).inFlight=some (r,i) ↔
      (q=p ∧ r=req ∧ i=idx) ∨ (q≠p ∧ (s.procs q).inFlight=some (r,i)) := by
    intro q r i
    by_cases h : q=p
    · rw [h,Function.update_self]
      simp [Call.inFlight,eq_comm]
    · rw [Function.update_of_ne h]
      simp [h]
  have hbuf : ∀ q,(Function.update s.procs p (.sleepBuf req idx) q).buf=(s.procs q).buf := by
    intro q
    by_cases h : q=p
    · rw [h,Function.update_self,hp]
      rfl
    · rw [Function.update_of_ne h]
  have hhead : idx.head∈idx.toList := by simp [Chain.toList]
  have hother : ∀ q r i,(s.procs q).inFlight=some (r,i) → i.head≠idx.head := by
    intro q r i h e
    refine hfresh idx.head hhead q ?_
    rw [chain_of_inFlight h,←e]
    simp [Chain.toList]
  constructor
  · intro q i h
    simp only [VirtioDisk.submitted,submitted_chain] at h
    split at h
    · exact (hfree i h).1
    · exact hi.lt q i h
  · exact hi.owned_submitted hself hn hfree
  · intro q r i h
    rcases (hflight q r i).mp h with ⟨-,-,hidx⟩|⟨-,h⟩
    · rw [hidx]
      exact linked_format hn
    · apply (hi.linked q r i h).frame
      intro j hj
      refine format_of_notMem ?_
      intro hmem
      refine hfresh j hmem q ?_
      rw [chain_of_inFlight h]
      exact hj
  · intro q r i h
    rcases (hflight q r i).mp h with ⟨-,hr,hidx⟩|⟨-,h⟩
    · rw [hr,hidx]
      simp only [VirtioDisk.submitted,Function.update_self]
    · simp only [VirtioDisk.submitted,Function.update_of_ne (hother q r i h)]
      exact hi.channel q r i h
  · intro q r b h h'
    simp only [VirtioDisk.submitted,hbuf] at h h'
    exact hi.bufs q r b h h'
  · intro q b h
    simp only [VirtioDisk.submitted,hbuf] at h
    exact hi.borrowed q b h
  · change (idx.head::(s.pending++completed s)).Nodup
    rw [List.nodup_cons]
    refine ⟨?_,hi.queue_nodup⟩
    intro h
    obtain ⟨q,r,i,hf,he,-⟩ := (hi.queue _).mp h
    exact hother q r i hf he
  · intro h
    change h∈idx.head::(s.pending++completed s) ↔ _
    rw [List.mem_cons,hi.queue h]
    simp only [VirtioDisk.submitted,hflight]
    constructor
    · rintro (rfl|⟨q,r,i,hf,he,hd⟩)
      · exact ⟨p,req,idx,.inl ⟨rfl,rfl,rfl⟩,rfl,by rw [Function.update_self]⟩
      · have hne : q≠p := by
          intro e
          rw [e,hp] at hf
          cases hf
        refine ⟨q,r,i,.inr ⟨hne,hf⟩,he,?_⟩
        rw [←he,Function.update_of_ne (hother q r i hf),he]
        exact hd
    · rintro ⟨q,r,i,⟨-,-,hidx⟩|⟨-,hf⟩,he,hd⟩
      · rw [hidx] at he
        exact .inl he.symm
      · refine .inr ⟨q,r,i,hf,he,?_⟩
        rw [←he,Function.update_of_ne (hother q r i hf),he] at hd
        exact hd

theorem released_desc {i j : ℕ} (h : j≠i) : (released s i).desc j=s.desc j :=
  Function.update_of_ne h _ _

theorem released_free {i j : ℕ} (h : j≠i) : (released s i).free j=s.free j :=
  Function.update_of_ne h _ _

/-- A round of `free_chain` inside a chain. -/
theorem freeChain_next {i : ℕ} (rounds : ℕ) (hi : i<num) (hf : s.free i=false)
    (hx : (s.desc i).flags&&&descFNext≠0) :
    freeChain s i (rounds+1)=freeChain (released s i) (s.desc i).next rounds := by
  rw [freeChain,freeDesc,if_neg (by simp [hf,hi])]
  dsimp only [bind,Except.bind]
  rw [if_pos hx]

/-- The last round of `free_chain`. -/
theorem freeChain_last {i : ℕ} (rounds : ℕ) (hi : i<num) (hf : s.free i=false)
    (hx : (s.desc i).flags&&&descFNext=0) : freeChain s i (rounds+1)=.ok (released s i) := by
  rw [freeChain,freeDesc,if_neg (by simp [hf,hi])]
  dsimp only [bind,Except.bind]
  rw [if_neg (by simpa using hx)]

/-- `free_chain` of an intact chain frees exactly its three descriptors. -/
theorem freeChain_linked {idx : Chain} (hl : Linked s.desc idx)
    (hn : idx.toList.Nodup) (hlt : ∀ i∈idx.toList,i<num ∧ s.free i=false) :
    freeChain s idx.head num=
      .ok (released (released (released s idx.head) idx.data) idx.status) := by
  have h0 := hlt idx.head (by simp [Chain.toList])
  have h1 := hlt idx.data (by simp [Chain.toList])
  have h2 := hlt idx.status (by simp [Chain.toList])
  simp only [Chain.toList,List.nodup_cons,List.mem_cons,List.not_mem_nil,or_false,not_or] at hn
  obtain ⟨⟨n1,n2⟩,n3,-⟩ := hn
  have d1 : (released s idx.head).desc idx.data=s.desc idx.data := released_desc (Ne.symm n1)
  have d2 : (released (released s idx.head) idx.data).desc idx.status=s.desc idx.status := by
    rw [released_desc (Ne.symm n3),released_desc (Ne.symm n2)]
  have f1 : (released s idx.head).free idx.data=false := by rw [released_free (Ne.symm n1),h1.2]
  have f2 : (released (released s idx.head) idx.data).free idx.status=false := by
    rw [released_free (Ne.symm n3),released_free (Ne.symm n2),h2.2]
  rw [num,freeChain_next 7 h0.1 h0.2 hl.head.1,hl.head.2,
    freeChain_next 6 h1.1 f1 (by rw [d1]; exact hl.data.1),d1,hl.data.2,
    freeChain_last 5 h2.1 f2 (by rw [d2]; exact hl.status.1)]

/-- The state after a request is finished. -/
def finished (s : System) (p : ℕ) (req : Request) (idx : Chain) : System :=
  {s with
    desc := Function.update (Function.update (Function.update s.desc idx.head ⟨.null,0,0,0⟩)
      idx.data ⟨.null,0,0,0⟩) idx.status ⟨.null,0,0,0⟩
    free := fun i => s.free i || decide (i∈idx.toList)
    info := Function.update s.info idx.head {s.info idx.head with bufChannel := none}
    procs := Function.update (fun q => (s.procs q).wokenFree) p .idle
    borrowed := s.borrowed.erase req.buf}

/-- The descriptors of a request in flight are in range and in use. -/
theorem Inv.chain_busy (hi : Inv s) {p i : ℕ} (h : i∈(s.procs p).chain) :
    i<num ∧ s.free i=false := by
  refine ⟨hi.lt p i h,?_⟩
  rw [←Bool.not_eq_true,hi.owned.free_iff i (hi.lt p i h)]
  exact fun h' => h' p h

/-- A request that the disk has given back is taken down without a panic. -/
theorem Inv.finish_eq (hi : Inv s) {p : ℕ} {req : Request} {idx : Chain}
    (hp : (s.procs p).inFlight=some (req,idx)) :
    finish s p req idx=.ok (finished s p req idx) := by
  have hc := chain_of_inFlight hp
  have hn : idx.toList.Nodup := hc ▸ hi.owned.nodup p
  have hlt : ∀ i∈idx.toList,i<num ∧ s.free i=false := by
    intro i h
    rw [←hc] at h
    exact hi.chain_busy h
  have hfree : Function.update (Function.update (Function.update s.free idx.head true)
      idx.data true) idx.status true=fun i => s.free i || decide (i∈idx.toList) := by
    funext i
    by_cases a2 : i=idx.status
    · simp [a2,Chain.toList]
    · by_cases a1 : i=idx.data
      · simp [a1,Chain.toList,Function.update_apply]
      · by_cases a0 : i=idx.head
        · simp [a0,Chain.toList,Function.update_apply]
        · simp [a0,a1,a2,Chain.toList]
  have hchain := freeChain_linked (s:={s with
    info := Function.update s.info idx.head {s.info idx.head with bufChannel := none}})
    (hi.linked p req idx hp) hn hlt
  rw [finish,if_neg (by simpa using hi.channel p req idx hp),hchain]
  simp only [bind,Except.bind,released,hfree,wokenFree_wokenFree]
  rfl

/-- The chain of a request that returned is gone. -/
theorem finished_chain (s : System) (p q : ℕ) :
    (Function.update (fun q => (s.procs q).wokenFree) p .idle q).chain=
      if q=p then [] else (s.procs q).chain := by
  by_cases h : q=p
  · rw [h,Function.update_self,if_pos rfl]
    rfl
  · rw [Function.update_of_ne h,if_neg h,chain_congr (wokenFree_inFlight _)]

/-- Its descriptors are free. -/
theorem Inv.owned_finished (hi : Inv s) {p : ℕ} {req : Request} {idx : Chain}
    (hp : (s.procs p).inFlight=some (req,idx)) : Owned (finished s p req idx) := by
  have hc := chain_of_inFlight hp
  have hchain := finished_chain s p
  constructor
  · intro i h
    simp only [VirtioDisk.finished,hchain,Bool.or_eq_true,decide_eq_true_eq]
    rw [hi.owned.free_iff i h]
    constructor
    · intro h' q
      split
      · exact List.not_mem_nil
      · rename_i hq
        rcases h' with h'|h'
        · exact h' q
        · intro hm
          rw [←hc] at h'
          exact hq (hi.eq_of_shared hm h')
    · intro h'
      by_cases hm : i∈idx.toList
      · exact .inr hm
      · refine .inl ?_
        intro q
        by_cases hq : q=p
        · rw [hq,hc]
          exact hm
        · simpa [hq] using h' q
  · intro q
    simp only [VirtioDisk.finished,hchain]
    split
    · exact List.nodup_nil
    · exact hi.owned.nodup q
  · intro q r hqr
    simp only [VirtioDisk.finished,hchain]
    intro i h1 h2
    split at h1
    · cases h1
    · split at h2
      · cases h2
      · exact hi.owned.disjoint q r hqr h1 h2

/-- Taking a request down keeps the invariant. -/
theorem Inv.finished (hi : Inv s) {p : ℕ} {req : Request} {idx : Chain}
    (hp : (s.procs p).inFlight=some (req,idx)) (hd : (s.info idx.head).disk=false) :
    Inv (finished s p req idx) := by
  have hc := chain_of_inFlight hp
  have hflight : ∀ q r i,
      (Function.update (fun q => (s.procs q).wokenFree) p .idle q).inFlight=some (r,i) ↔
      q≠p ∧ (s.procs q).inFlight=some (r,i) := by
    intro q r i
    by_cases h : q=p
    · simp [h,Call.inFlight]
    · simp [h]
  have hbuf : ∀ q b,(Function.update (fun q => (s.procs q).wokenFree) p .idle q).buf=some b →
      q≠p ∧ (s.procs q).buf=some b := by
    intro q b h
    by_cases hq : q=p
    · rw [hq,Function.update_self] at h
      cases h
    · rw [Function.update_of_ne hq,wokenFree_buf] at h
      exact ⟨hq,h⟩
  have hother : ∀ q r i j,q≠p → (s.procs q).inFlight=some (r,i) → j∈i.toList → j∉idx.toList := by
    intro q r i j hq h hj hm
    rw [←chain_of_inFlight h] at hj
    rw [←hc] at hm
    exact hq (hi.eq_of_shared hj hm)
  have hhead : ∀ q r i,q≠p → (s.procs q).inFlight=some (r,i) → i.head≠idx.head := by
    intro q r i hq h e
    refine hother q r i i.head hq h (by simp [Chain.toList]) ?_
    rw [e]
    simp [Chain.toList]
  constructor
  · intro q i h
    simp only [VirtioDisk.finished,finished_chain] at h
    split at h
    · cases h
    · exact hi.lt q i h
  · exact hi.owned_finished hp
  · intro q r i h
    obtain ⟨hq,h⟩ := (hflight q r i).mp h
    apply (hi.linked q r i h).frame
    intro j hj
    have hm := hother q r i j hq h hj
    simp only [Chain.toList,List.mem_cons,List.not_mem_nil,or_false,not_or] at hm
    simp [VirtioDisk.finished,hm]
  · intro q r i h
    obtain ⟨hq,h⟩ := (hflight q r i).mp h
    simp only [VirtioDisk.finished,Function.update_of_ne (hhead q r i hq h)]
    exact hi.channel q r i h
  · intro q r b h h'
    exact hi.bufs q r b (hbuf q b h).2 (hbuf r b h').2
  · intro q b h
    obtain ⟨hq,h⟩ := hbuf q b h
    refine (List.mem_erase_of_ne ?_).mpr (hi.borrowed q b h)
    intro e
    rw [e] at h
    exact hq (hi.bufs q p _ h (buf_of_inFlight hp))
  · exact hi.queue_nodup
  · intro h
    refine (hi.queue h).trans ?_
    simp only [VirtioDisk.finished,hflight]
    constructor
    · rintro ⟨q,r,i,hf,he,hdisk⟩
      have hq : q≠p := by
        intro e
        rw [e,hp] at hf
        cases hf
        rw [←he,hd] at hdisk
        cases hdisk
      refine ⟨q,r,i,⟨hq,hf⟩,he,?_⟩
      rw [←he,Function.update_of_ne (hhead q r i hq hf),he]
      exact hdisk
    · rintro ⟨q,r,i,⟨hq,hf⟩,he,hdisk⟩
      refine ⟨q,r,i,hf,he,?_⟩
      rw [←he,Function.update_of_ne (hhead q r i hq hf),he] at hdisk
      exact hdisk

/-- A head that may be returned belongs to a request the disk owns. -/
theorem Inv.queue_lt (hi : Inv s) {h : ℕ} (hm : h∈s.pending++completed s) : h<num := by
  obtain ⟨p,req,idx,hf,he,-⟩ := (hi.queue h).mp hm
  refine hi.lt p h ?_
  rw [chain_of_inFlight hf,←he]
  simp [Chain.toList]

/-- The used ring never overflows: there are fewer entries than descriptors while a
head is still with the device. -/
theorem Inv.backlog_lt (hi : Inv s) {h : ℕ} (hm : h∈s.pending) : backlog s<num := by
  have hsub : s.pending++completed s ⊆ List.range num := by
    intro i h
    exact List.mem_range.mpr (hi.queue_lt h)
  have hle := (List.subperm_of_subset hi.queue_nodup hsub).length_le
  have hpos := List.length_pos_of_mem hm
  simp only [List.length_append,completed,List.length_map,List.length_range] at hle
  omega

theorem backlog_complete {h : ℕ} {status : UInt8} (hb : backlog s<num) :
    backlog (complete s h status)=backlog s+1 := by
  have hs : (complete s h status).deviceIdx=s.deviceIdx+1 := rfl
  have hu : (complete s h status).usedIdx=s.usedIdx := rfl
  rw [backlog,num] at hb
  rw [backlog,hs,hu,backlog]
  simp only [UInt16.toNat_sub,UInt16.toNat_add,UInt16.toNat_one] at hb ⊢
  have h1 := UInt16.toNat_lt s.deviceIdx
  have h2 := UInt16.toNat_lt s.usedIdx
  omega

/-- The device appends the head it returns to the entries not handled yet. -/
theorem completed_complete {h : ℕ} {status : UInt8} (hb : backlog s<num) :
    completed (complete s h status)=completed s++[h] := by
  have hs : (complete s h status).usedRing=
      Function.update s.usedRing (s.deviceIdx.toNat%num) h := rfl
  have hu : (complete s h status).usedIdx=s.usedIdx := rfl
  rw [completed,backlog_complete hb,List.range_succ,List.map_append,List.map_singleton,hs,hu]
  rw [backlog,num] at hb
  have h1 := UInt16.toNat_lt s.deviceIdx
  have h2 := UInt16.toNat_lt s.usedIdx
  congr 1
  · rw [completed]
    apply List.map_congr_left
    intro k hk
    rw [List.mem_range,backlog] at hk
    rw [Function.update_of_ne]
    simp only [UInt16.toNat_sub,UInt16.toNat_add,UInt16.toNat_ofNat',num] at hb hk ⊢
    omega
  · have hidx : s.usedIdx+UInt16.ofNat (backlog s)=s.deviceIdx := by
      rw [backlog,UInt16.ofNat_toNat]
      simp
    rw [hidx,Function.update_self]

/-- The status byte is all of `info` that the device changes. -/
theorem complete_info (h i : ℕ) (status : UInt8) :
    ((complete s h status).info i).disk=(s.info i).disk ∧
      ((complete s h status).info i).bufChannel=(s.info i).bufChannel := by
  simp only [complete]
  split
  · rename_i j hj
    by_cases e : i=j
    · rw [e,Function.update_self]
      exact ⟨rfl,rfl⟩
    · rw [Function.update_of_ne e]
      exact ⟨rfl,rfl⟩
  · exact ⟨rfl,rfl⟩

/-- A step of the device keeps the invariant. -/
theorem Inv.complete (hi : Inv s) {h : ℕ} {status : UInt8} (hm : h∈s.pending) :
    Inv (complete s h status) := by
  have hb := hi.backlog_lt hm
  have hperm : ((VirtioDisk.complete s h status).pending++
      completed (VirtioDisk.complete s h status)).Perm (s.pending++completed s) := by
    rw [completed_complete hb]
    change (s.pending.erase h++(completed s++[h])).Perm (s.pending++completed s)
    rw [←List.append_assoc]
    refine (List.perm_append_singleton h _).trans ?_
    rw [←List.cons_append]
    exact (List.perm_cons_erase hm).symm.append_right _
  constructor
  · exact hi.lt
  · exact ⟨hi.owned.free_iff,hi.owned.nodup,hi.owned.disjoint⟩
  · exact hi.linked
  · intro p req idx hf
    rw [(complete_info h idx.head status).2]
    exact hi.channel p req idx hf
  · exact hi.bufs
  · exact hi.borrowed
  · exact hperm.nodup_iff.mpr hi.queue_nodup
  · intro k
    rw [hperm.mem_iff,hi.queue k,(complete_info h k status).1]
    rfl

/-- The state after one round of `intr` for a head and its channel. -/
def handled (s : System) (id buf : ℕ) : System :=
  {s with
    info := Function.update s.info id {s.info id with disk := false}
    procs := fun proc => (s.procs proc).wokenBuf buf
    usedIdx := s.usedIdx+1}

/-- A round of `intr` takes the oldest entry. -/
theorem completed_handled {n : ℕ} (buf : ℕ) (hb : backlog s=n+1) :
    completed s=s.usedRing (s.usedIdx.toNat%num)::
      completed (handled s (s.usedRing (s.usedIdx.toNat%num)) buf) ∧
    backlog (handled s (s.usedRing (s.usedIdx.toNat%num)) buf)=n := by
  have h1 := UInt16.toNat_lt s.deviceIdx
  have h2 := UInt16.toNat_lt s.usedIdx
  have hn : backlog (handled s (s.usedRing (s.usedIdx.toNat%num)) buf)=n := by
    rw [backlog] at hb
    simp only [backlog,handled,UInt16.toNat_sub,UInt16.toNat_add,UInt16.toNat_one] at hb ⊢
    omega
  refine ⟨?_,hn⟩
  rw [completed,hb,completed,hn,List.range_succ_eq_map,List.map_cons,List.map_map]
  have h0 : s.usedIdx+UInt16.ofNat 0=s.usedIdx := by simp
  rw [h0]
  congr 1
  apply List.map_congr_left
  intro k _
  have hk : s.usedIdx+UInt16.ofNat (k+1)=s.usedIdx+1+UInt16.ofNat k := by
    apply UInt16.toNat_inj.mp
    simp only [UInt16.toNat_add,UInt16.toNat_ofNat',UInt16.toNat_one]
    omega
  simp only [Function.comp_apply,Nat.succ_eq_add_one,handled,hk]

/-- A round of `intr` handles the oldest entry or stops in a panic of its own. -/
theorem handleUsed_ok (h : handleUsed s=.ok t) :
    ∃ buf,(s.info (s.usedRing (s.usedIdx.toNat%num))).bufChannel=some buf ∧
      t=handled s (s.usedRing (s.usedIdx.toNat%num)) buf := by
  rw [handleUsed] at h
  dsimp only at h
  split at h
  · cases h
  · split at h
    · cases h
    · rename_i buf hc
      split at h
      · cases h
      · cases h
        exact ⟨buf,hc,rfl⟩

theorem handleUsed_ne_descIndex : handleUsed s≠.error .descIndex := by
  intro h
  rw [handleUsed] at h
  dsimp only at h
  split at h
  · cases h
  · split at h
    · cases h
    · split at h <;> cases h

/-- A round of `intr` keeps the invariant. -/
theorem Inv.handled (hi : Inv s) {n buf : ℕ} (hb : backlog s=n+1) :
    Inv (handled s (s.usedRing (s.usedIdx.toNat%num)) buf) := by
  obtain ⟨hc,-⟩ := completed_handled buf hb
  generalize s.usedRing (s.usedIdx.toNat%num)=id at hc ⊢
  have hi' := @Inv.procs _ hi (fun p => (s.procs p).wokenBuf buf)
    (fun p => wokenBuf_inFlight buf _) (fun p => wokenBuf_buf buf _)
  have hchan : ∀ k,((VirtioDisk.handled s id buf).info k).bufChannel=(s.info k).bufChannel := by
    intro k
    by_cases e : k=id
    · rw [e]
      simp [VirtioDisk.handled]
    · simp [VirtioDisk.handled,e]
  have hdisk : ∀ k,k≠id → ((VirtioDisk.handled s id buf).info k).disk=(s.info k).disk := by
    intro k e
    simp [VirtioDisk.handled,e]
  have hq := hi.queue_nodup
  rw [hc,List.nodup_middle,List.nodup_cons] at hq
  constructor
  · exact hi'.lt
  · exact ⟨hi'.owned.free_iff,hi'.owned.nodup,hi'.owned.disjoint⟩
  · exact hi'.linked
  · intro p req idx hf
    rw [hchan]
    exact hi'.channel p req idx hf
  · exact hi'.bufs
  · exact hi'.borrowed
  · exact hq.2
  · intro k
    have hk := hi'.queue k
    dsimp only at hk
    change k∈s.pending++completed s ↔ _ at hk
    rw [hc,List.mem_append,List.mem_cons] at hk
    change k∈s.pending++_ ↔ _
    rw [List.mem_append]
    by_cases e : k=id
    · have hno : ((VirtioDisk.handled s id buf).info k).disk=false := by
        rw [e]
        simp [VirtioDisk.handled]
      rw [←e,List.mem_append] at hq
      rw [hno]
      simp only [Bool.false_eq_true,and_false,exists_false,iff_false]
      exact hq.1
    · rw [hdisk k e,←or_iff_right (a:=k=id) (b:=k∈completed _) e]
      exact hk

/-- An attempt that finds no descriptor free puts its caller to sleep. -/
theorem start_none (p : ℕ) (req : Request) (hc : freeCount s=0) :
    start s p req=.ok {s with procs := Function.update s.procs p (.sleepFree req)} := by
  rw [start,alloc3Desc_none hc]
  rfl

/-- An attempt that finds enough of them submits the request, unless `avail.idx` is at
its last value. -/
theorem start_some (p : ℕ) (req : Request) (hc : 3≤freeCount s) :
    ∃ t idx,alloc3Desc s=.ok (t,some idx.toList) ∧
      start s p req=(if s.availIdx=65535 then .error .overflow
        else .ok (submitted s p req idx)) ∧ idx.toList.Nodup ∧
      ∀ i∈idx.toList,i<num ∧ s.free i=true := by
  obtain ⟨idx,ha,hn,hf⟩ := alloc3Desc_some hc
  refine ⟨_,idx,ha,?_,hn,hf⟩
  rw [start,ha]
  by_cases ho : s.availIdx=65535
  · rw [if_pos ho]
    simp only [bind,Except.bind,Chain.toList,submit,if_pos ho]
  · rw [if_neg ho]
    simp only [bind,Except.bind,Chain.toList,submit,if_neg ho,awaitDisk,Function.update_self]
    rfl

/-- What an attempt to take descriptors does when it finds none or enough. -/
theorem start_cases (p : ℕ) (req : Request) (hc : freeCount s=0 ∨ 3≤freeCount s) :
    start s p req=.ok {s with procs := Function.update s.procs p (.sleepFree req)} ∨
    start s p req=.error .overflow ∨
    ∃ idx,start s p req=.ok (submitted s p req idx) ∧ idx.toList.Nodup ∧
      ∀ i∈idx.toList,i<num ∧ s.free i=true := by
  rcases hc with hc|hc
  · exact .inl (start_none p req hc)
  · obtain ⟨-,idx,-,hs,hn,hf⟩ := start_some p req hc
    rw [hs]
    split
    · exact .inr (.inl rfl)
    · exact .inr (.inr ⟨idx,rfl,hn,hf⟩)

/-- Rounds of `intr` keep the invariant. -/
theorem Inv.intrLoop (hi : Inv s) {n : ℕ} (hb : backlog s=n) (h : intrLoop s n=.ok t) : Inv t := by
  induction n generalizing s with
  | zero => cases h; exact hi
  | succ n ih =>
    rw [VirtioDisk.intrLoop] at h
    cases hu : handleUsed s with
    | error e => rw [hu] at h; cases h
    | ok u =>
      rw [hu] at h
      obtain ⟨buf,-,rfl⟩ := handleUsed_ok hu
      exact ih (hi.handled hb) (completed_handled _ hb).2 h

theorem intrLoop_ne_descIndex (n : ℕ) : VirtioDisk.intrLoop s n≠.error .descIndex := by
  induction n generalizing s with
  | zero => intro h; cases h
  | succ n ih =>
    rw [VirtioDisk.intrLoop]
    cases hu : handleUsed s with
    | error e =>
      intro h
      cases h
      exact handleUsed_ne_descIndex hu
    | ok u => exact ih

theorem locked_next {r : Except Panic System} (h : locked r=.next t) : r=.ok t := by
  cases r with
  | ok u => cases h; rfl
  | error e => cases h

theorem locked_fault {r : Except Panic System} {e : Panic} (h : locked r=.fault e) :
    r=.error e := by
  cases r with
  | ok u => cases h
  | error e' => cases h; rfl

/-- A round of the waiting loop keeps the invariant. -/
theorem Inv.awaitDisk (hi : Inv s) {p : ℕ} {req : Request} {idx : Chain}
    (hp : s.procs p=.wait req idx) :
    ∃ u,awaitDisk s p req idx=.ok u ∧ Inv u := by
  have hf : (s.procs p).inFlight=some (req,idx) := by
    rw [hp]
    rfl
  rw [VirtioDisk.awaitDisk]
  split
  · refine ⟨_,rfl,hi.move ?_ ?_⟩
    · rw [hf]
      rfl
    · rw [buf_of_inFlight hf]
      rfl
  · rename_i hd
    exact ⟨_,hi.finish_eq hf,hi.finished hf (by simpa using hd)⟩

/-- Every step keeps the invariant as long as attempts to take descriptors find
none or enough. -/
theorem Inv.step (hi : Inv s) {a : Action} (hc : EnoughOrNone s a) (h : step s a=.next t) :
    Inv t := by
  cases a with
  | call p req =>
    rw [VirtioDisk.step] at h
    split at h
    · rename_i hg
      cases h
      exact hi.call hg.1 hg.2
    · cases h
  | start p =>
    rw [VirtioDisk.step] at h
    split at h
    · rename_i req hp
      have hs := locked_next h
      rcases start_cases p req hc with h1|h1|⟨idx,h1,hn,hf⟩
      · rw [h1] at hs
        cases hs
        refine hi.move ?_ ?_
        · rw [hp]
          rfl
        · rw [hp]
          rfl
      · rw [h1] at hs
        cases hs
      · rw [h1] at hs
        cases hs
        exact hi.submitted hp hn hf
    · cases h
  | resume p =>
    rw [VirtioDisk.step] at h
    split at h
    · rename_i req idx hp
      obtain ⟨u,hu,hinv⟩ := hi.awaitDisk hp
      have hs := locked_next h
      rw [hu] at hs
      cases hs
      exact hinv
    · cases h
  | kill p =>
    rw [VirtioDisk.step] at h
    split at h
    · rename_i req hp
      cases h
      refine hi.move ?_ ?_
      · rw [hp]
        rfl
      · rw [hp]
        rfl
    · rename_i req idx hp
      cases h
      refine hi.move ?_ ?_
      · rw [hp]
        rfl
      · rw [hp]
        rfl
    · cases h
  | complete head status =>
    rw [VirtioDisk.step] at h
    split at h
    · rename_i hm
      cases h
      exact hi.complete hm
    · cases h
  | intr =>
    rw [VirtioDisk.step] at h
    exact hi.intrLoop rfl (locked_next h)

/-- No step reaches the panic of `free_desc`. -/
theorem Inv.no_descIndex (hi : Inv s) {a : Action} (hc : EnoughOrNone s a) :
    VirtioDisk.step s a≠.fault .descIndex := by
  intro h
  cases a with
  | call p req =>
    rw [VirtioDisk.step] at h
    split at h <;> cases h
  | start p =>
    rw [VirtioDisk.step] at h
    split at h
    · rename_i req hp
      have hs := locked_fault h
      rcases start_cases p req hc with h1|h1|⟨idx,h1,-⟩ <;> rw [h1] at hs <;> cases hs
    · cases h
  | resume p =>
    rw [VirtioDisk.step] at h
    split at h
    · rename_i req idx hp
      obtain ⟨u,hu,-⟩ := hi.awaitDisk hp
      have hs := locked_fault h
      rw [hu] at hs
      cases hs
    · cases h
  | kill p =>
    rw [VirtioDisk.step] at h
    split at h <;> cases h
  | complete head status =>
    rw [VirtioDisk.step] at h
    split at h <;> cases h
  | intr => exact intrLoop_ne_descIndex _ (locked_fault h)

theorem inv_init : Inv init := by
  constructor
  · intro p i h
    cases h
  · constructor
    · intro i _
      constructor
      · intro _ p h
        cases h
      · intro _
        rfl
    · intro p
      exact List.nodup_nil
    · intro p q _ i h
      cases h
  · intro p req idx h
    cases h
  · intro p req idx h
    cases h
  · intro p q b h
    cases h
  · intro p b h
    cases h
  · exact List.nodup_nil
  · intro h
    constructor
    · intro h
      cases h
    · rintro ⟨p,req,idx,h,-⟩
      cases h

/-- The head handled by a round of `intr` belongs to a request in flight, whose
buffer is the channel that is woken. -/
theorem Inv.completed_owner (hi : Inv s) {h : ℕ} (hm : h∈completed s) :
    ∃ p req idx,(s.procs p).inFlight=some (req,idx) ∧ idx.head=h ∧
      (s.info h).bufChannel=some req.buf := by
  obtain ⟨p,req,idx,hf,he,-⟩ := (hi.queue h).mp (List.mem_append_right _ hm)
  refine ⟨p,req,idx,hf,he,?_⟩
  rw [←he]
  exact hi.channel p req idx hf

/-- The channel of a handled head wakes the caller of that request only. -/
theorem Inv.wokenBuf_eq (hi : Inv s) {p id buf : ℕ} {req : Request} {idx : Chain}
    (hm : id∈completed s) (hb : (s.info id).bufChannel=some buf)
    (hf : (s.procs p).inFlight=some (req,idx)) :
    (s.procs p).wokenBuf buf=if idx.head=id then .wait req idx else s.procs p := by
  obtain ⟨q,r,i,hq,hh,hc⟩ := hi.completed_owner hm
  have hbuf : buf=r.buf := Option.some.inj (hb.symm.trans hc)
  have hsame : r.buf=req.buf ↔ idx.head=id := by
    constructor
    · intro e
      have hpq := hi.bufs q p r.buf (buf_of_inFlight hq) (by rw [e]; exact buf_of_inFlight hf)
      rw [hpq,hf] at hq
      cases hq
      exact hh
    · intro e
      have hpq : p=q := by
        apply hi.eq_of_shared (i:=id)
        · rw [chain_of_inFlight hf,←e]
          simp [Chain.toList]
        · rw [chain_of_inFlight hq,←hh]
          simp [Chain.toList]
      rw [←hpq,hf] at hq
      cases hq
      rfl
  cases hp : s.procs p with
  | wait req' idx' =>
    rw [hp] at hf
    cases hf
    change Call.wait req idx=_
    split <;> rfl
  | sleepBuf req' idx' =>
    rw [hp] at hf
    cases hf
    rw [Call.wokenBuf,hbuf]
    by_cases e : idx.head=id
    · rw [if_pos e,if_pos (hsame.mpr e).symm]
    · rw [if_neg e,if_neg (fun h => e (hsame.mp h.symm))]
  | idle => rw [hp] at hf; cases hf
  | want req' => rw [hp] at hf; cases hf
  | sleepFree req' => rw [hp] at hf; cases hf

/-- `intr` gives back exactly the requests on the used ring, by induction on the
entries it handles. -/
theorem Inv.intrLoop_exact (hi : Inv s) {n : ℕ} (hb : backlog s=n)
    (h : VirtioDisk.intrLoop s n=.ok t) (p : ℕ) :
    match (s.procs p).inFlight with
    | none => t.procs p=s.procs p
    | some (req,idx) =>
      if idx.head∈completed s then (t.info idx.head).disk=false ∧ t.procs p=.wait req idx
      else (t.info idx.head).disk=(s.info idx.head).disk ∧ t.procs p=s.procs p := by
  induction n generalizing s with
  | zero =>
    have hnil : completed s=[] := by
      rw [completed,hb]
      rfl
    cases h
    rw [hnil]
    split
    · rfl
    · rw [if_neg List.not_mem_nil]
      exact ⟨rfl,rfl⟩
  | succ n ih =>
    rw [VirtioDisk.intrLoop] at h
    cases hu : handleUsed s with
    | error e => rw [hu] at h; cases h
    | ok u =>
      rw [hu] at h
      obtain ⟨buf,hc,rfl⟩ := handleUsed_ok hu
      obtain ⟨hq,hn⟩ := completed_handled buf hb
      have hrest := ih (hi.handled hb) hn h
      have hnd := hi.queue_nodup
      rw [List.nodup_append,hq] at hnd
      have hid : s.usedRing (s.usedIdx.toNat%num)∈completed s := by
        rw [hq]
        exact List.mem_cons_self
      rw [hq]
      generalize s.usedRing (s.usedIdx.toNat%num)=id at hc hrest hnd hid ⊢
      have hproc : (VirtioDisk.handled s id buf).procs p=(s.procs p).wokenBuf buf := rfl
      rw [hproc,wokenBuf_inFlight] at hrest
      cases hf : (s.procs p).inFlight with
      | none =>
        rw [hf] at hrest
        dsimp only at hrest ⊢
        rw [hrest]
        cases hp : s.procs p with
        | sleepBuf req idx => rw [hp] at hf; cases hf
        | _ => rfl
      | some pair =>
        obtain ⟨req,idx⟩ := pair
        rw [hf] at hrest
        dsimp only at hrest ⊢
        rw [hi.wokenBuf_eq hid hc hf] at hrest
        by_cases e : idx.head=id
        · have hout : idx.head∉completed (VirtioDisk.handled s id buf) := by
            rw [e]
            exact (List.nodup_cons.mp hnd.2.1).1
          rw [if_neg hout,if_pos e] at hrest
          rw [if_pos (by rw [e]; exact List.mem_cons_self)]
          refine ⟨?_,hrest.2⟩
          rw [hrest.1,e]
          simp [VirtioDisk.handled]
        · have hmem : idx.head∈id::completed (VirtioDisk.handled s id buf) ↔
              idx.head∈completed (VirtioDisk.handled s id buf) := by
            rw [List.mem_cons,or_iff_right e]
          have hdisk : ((VirtioDisk.handled s id buf).info idx.head).disk=(s.info idx.head).disk := by
            simp [VirtioDisk.handled,e]
          rw [if_neg e,hdisk] at hrest
          simp only [hmem]
          exact hrest

theorem Inv.intrExact (hi : Inv s) : IntrExact s := by
  refine ⟨fun head h => hi.completed_owner h,?_⟩
  intro t h p
  exact hi.intrLoop_exact rfl (locked_next h) p

end Preserve

/-- Descriptor ownership. As long as no attempt to take descriptors finds one or two
of them free, in every state reached a descriptor is free exactly when it belongs to
no request in flight, the chains of requests in flight are disjoint, an interrupt
gives back exactly the requests the device has returned, and the panic of
`free_desc` is not reachable. -/
theorem descriptors_owned {actions : List Action}
    (hg : Guarded step EnoughOrNone init actions) :
    run step init actions≠.fault .descIndex ∧
      ∀ t,run step init actions=.next t → Owned t ∧ IntrExact t := by
  refine ⟨run_no_fault (fun s a t hi hc h => hi.step hc h) (fun s a hi hc => hi.no_descIndex hc)
    inv_init hg,?_⟩
  intro t h
  have hi : Inv t := run_invariant (fun s a t hi hc h => hi.step hc h) inv_init hg h
  exact ⟨hi.owned,hi.intrExact⟩

/-- Two requests in flight at once, of which the second is returned first. -/
def twoRequests : List Action :=
  [.call 0 ⟨10,1,false⟩,.call 1 ⟨11,2,true⟩,.start 0,.start 1,.complete 3 0,.intr,.resume 1]

/-- Two requests in flight leave two descriptors free; nobody tries to take them. -/
theorem descriptors_owned_twoRequests :
    Guarded step EnoughOrNone init twoRequests ∧
      run step init twoRequests≠.fault .descIndex ∧
      ∀ t,run step init twoRequests=.next t → Owned t ∧ IntrExact t := by
  have hg : Guarded step EnoughOrNone init twoRequests := by decide +kernel
  exact ⟨hg,descriptors_owned hg⟩

/-- A third request while two are in flight. -/
def thirdRequest : List Action :=
  [.call 0 ⟨10,1,false⟩,.call 1 ⟨11,2,false⟩,.call 2 ⟨12,3,false⟩,.start 0,.start 1,.start 2]

/-- The same when the device is done with the first request before the third fails. -/
def thirdRequestLate : List Action :=
  [.call 0 ⟨10,1,false⟩,.call 1 ⟨11,2,false⟩,.call 2 ⟨12,3,false⟩,.start 0,.start 1,
    .complete 0 0,.start 2,.intr,.resume 0]

/-- The third request takes descriptors 6 and 7, fails, and frees 0 and 1, which
belong to the first request; when that request is finished the driver panics. -/
theorem descriptors_lost_by_failure :
    (∃ t,run step init thirdRequest=.next t ∧ ¬Owned t) ∧
      run step init thirdRequestLate=.fault .descIndex := by
  have hrun : ∃ t,run step init thirdRequest=.next t ∧ t.free 0=true ∧ 0∈(t.procs 0).chain :=
    ⟨_,rfl,rfl,by decide +kernel⟩
  obtain ⟨t,ht,hf,hc⟩ := hrun
  refine ⟨⟨t,ht,?_⟩,rfl⟩
  intro ho
  exact (ho.free_iff 0 (by decide)).mp hf 0 hc

end Xv6Rust.VirtioDisk

import Xv6Rust.FileContents
import Xv6Rust.Runs

/-!
# The offset of a file

`File::fread` and `File::fwrite` of `fs/file/mod.rs` on a regular file that many processes share.
The offset is read and added to under the lock of the inode; `fwrite` gives the lock up after each
batch. Between two batches other files may change the inode, and other processes the disk at any
time.
-/

namespace Xv6Rust.FileOffset

open Bytes DiskLayout InodeLayer FileContents Runs

/-- `MAXOPBLOCKS`. -/
def maxOpBlocks : ℕ := 10

/-- `((MAXOPBLOCKS-4)/2*BSIZE) as u32`. -/
def batchSize : ℕ := (maxOpBlocks-4)/2*bsize

/-- What is left to do in a call. -/
inductive Job where
  /-- `fread` of `count` bytes. -/
  | read (count : ℕ)
  /-- `fwrite` of `count` bytes, at `i`. -/
  | write (i count : ℕ)

/-- Where a process is in a call. -/
inductive Call where
  /-- Not in a call. -/
  | idle
  /-- Before `inode.lock()`. -/
  | waiting (job : Job)
  /-- With the lock. -/
  | locked (job : Job)
  /-- After `try_iread` or `try_iwrite` at `*offset`. -/
  | accessed (job : Job) (start : ℕ) (ret : Option ℕ)
  /-- After `*offset += n`. -/
  | advanced (job : Job) (ret : Option ℕ)

/-- A successful batch: where it starts and how many bytes it has. -/
structure Batch where
  /-- The offset that it is read or written at. -/
  start : ℕ
  /-- The bytes read or written. -/
  count : ℕ
  deriving DecidableEq

/-- A regular file and its inode. -/
structure System where
  /-- `readable`. -/
  readable : Bool
  /-- `writable`. -/
  writable : Bool
  /-- `offset`. -/
  offset : UInt32
  /-- Who has the lock of the inode through the file. -/
  lock : Option ℕ
  /-- Places of the processes. -/
  calls : ℕ → Call
  /-- The disk. -/
  disk : Disk
  /-- The inode. -/
  dinode : DiskInode
  /-- Successful batches, in the order of the lock. -/
  log : List Batch

/-- What a batch meets in user memory. -/
structure User where
  /-- Whether `copy_out` to a position succeeds. -/
  copyOut : ℕ → Bool
  /-- What `copy_in` gets from a position. -/
  source : Source

/-- Steps of the processes. -/
inductive Action where
  /-- Call `fread`. -/
  | fread (p count : ℕ)
  /-- Call `fwrite`. -/
  | fwrite (p count : ℕ)
  /-- `inode.lock()`. -/
  | lock (p : ℕ)
  /-- `try_iread` or `try_iwrite`. -/
  | access (p : ℕ) (user : User)
  /-- `*offset += n`. -/
  | advance (p : ℕ)
  /-- `drop(idata)`. -/
  | unlock (p : ℕ)
  /-- Another process changes the disk. -/
  | disk (d : Disk)
  /-- Somebody has the lock through another file, and changes the inode. -/
  | inode (di : DiskInode)

section Access

variable (sb : SuperBlock)

/-- The loop of `iread` into user memory: whether it succeeds. -/
def ireadLoop (copyOut : ℕ → Bool) : ℕ → Disk → DiskInode → ℕ → ℕ → ℕ → ℕ →
    Except Stop (Bool×Disk×DiskInode)
  | 0,d,di,_,_,_,_ => .ok (true,d,di)
  | fuel+1,d,di,blockBase,blockOffset,count,pos =>
    if count=0 then .ok (true,d,di)
    else do
      let (_,d,di) ← mapBlockno sb d di blockBase
      let readCount := min (bsize-blockOffset) count
      if copyOut pos=true then
        ireadLoop copyOut fuel d di (blockBase+1) 0 (count-readCount) (pos+readCount)
      else .ok (false,d,di)

/-- `iread` into user memory. -/
def iread (copyOut : ℕ → Bool) (d : Disk) (di : DiskInode) (offset count : ℕ) :
    Except Stop (Bool×Disk×DiskInode) :=
  if offset+count≥2^32 ∨ offset+count>di.size.toNat then .ok (false,d,di)
  else ireadLoop sb copyOut count d di (offset/bsize) (offset%bsize) count 0

/-- `try_iread` into user memory. -/
def tryIread (copyOut : ℕ → Bool) (d : Disk) (di : DiskInode) (offset count : ℕ) :
    Except Stop (Option ℕ×Disk×DiskInode) :=
  if offset>di.size.toNat then .ok (some 0,d,di)
  else if offset+count≥2^32 then .ok (none,d,di)
  else do
    let actual := if offset+count>di.size.toNat then di.size.toNat-offset else count
    let (ok,d,di) ← iread sb copyOut d di offset actual
    return (if ok=true then some actual else none,d,di)

/-- The batch of a call at an offset. -/
def Job.run (inum : ℕ) (user : User) (d : Disk) (di : DiskInode) (offset : ℕ) :
    Job → Except Stop (Option ℕ×Disk×DiskInode)
  | .read count => tryIread sb user.copyOut d di offset count
  | .write i count =>
    tryIwrite sb inum (fun pos n => user.source (i+pos) n) offset (min batchSize (count-i)) d di

end Access

/-- What follows a batch. -/
def Job.next (ret : Option ℕ) : Job → Call
  | .read _ => .idle
  | .write i count =>
    match ret with
    | some n =>
      if n=min batchSize (count-i) ∧ i+batchSize < count then .waiting (.write (i+batchSize) count)
      else .idle
    | none => .idle

/-- A process moves. -/
def System.goto (s : System) (p : ℕ) (call : Call) : System :=
  {s with calls := Function.update s.calls p call}

/-- A step, of processes that share the file of inode `inum`. -/
def step (sb : SuperBlock) (inum : ℕ) (s : System) : Action → Outcome Stop System
  | .fread p count =>
    match s.calls p with
    | .idle => .next (if s.readable=true then s.goto p (.waiting (.read count)) else s)
    | _ => .blocked
  | .fwrite p count =>
    match s.calls p with
    | .idle =>
      .next (if s.writable=true ∧ 0 < count then s.goto p (.waiting (.write 0 count)) else s)
    | _ => .blocked
  | .lock p =>
    match s.calls p with
    | .waiting job =>
      if s.lock=none then .next {s.goto p (.locked job) with lock := some p} else .blocked
    | _ => .blocked
  | .access p user =>
    match s.calls p with
    | .locked job =>
      match job.run sb inum user s.disk s.dinode s.offset.toNat with
      | .ok (ret,d,di) =>
        .next {s.goto p (.accessed job s.offset.toNat ret) with disk := d,dinode := di}
      | .error e => .fault e
    | _ => .blocked
  | .advance p =>
    match s.calls p with
    | .accessed job start ret =>
      match ret with
      | some n =>
        .next {s.goto p (.advanced job ret) with
          offset := s.offset+UInt32.ofNat n
          log := s.log++[⟨start,n⟩]}
      | none => .next (s.goto p (.advanced job ret))
    | _ => .blocked
  | .unlock p =>
    match s.calls p with
    | .advanced job ret => .next {s.goto p (job.next ret) with lock := none}
    | _ => .blocked
  | .disk d => .next {s with disk := d}
  | .inode di => if s.lock=none then .next {s with dinode := di} else .blocked

/-- A file as `File::open` makes it, of an inode and a disk. -/
def opened (readable writable : Bool) (d : Disk) (di : DiskInode) : System :=
  ⟨readable,writable,0,none,fun _ => .idle,d,di,[]⟩

section Bounds

variable {sb : SuperBlock} {d d' : Disk} {di di' : DiskInode} {offset count n : ℕ}

/-- What `try_iread` reads ends below `2^32`. -/
theorem tryIread_fits {copyOut : ℕ → Bool} (ho : offset < 2^32)
    (h : tryIread sb copyOut d di offset count=.ok (some n,d',di')) : offset+n < 2^32 := by
  rw [tryIread] at h
  split at h
  · cases h
    exact ho
  · split at h
    · cases h
    · cases hr : iread sb copyOut d di offset
          (if offset+count > di.size.toNat then di.size.toNat-offset else count) with
      | error e =>
        simp only [hr] at h
        cases h
      | ok x =>
        obtain ⟨ok,d₁,di₁⟩ := x
        simp only [hr] at h
        cases ok with
        | false => cases h
        | true =>
          cases h
          split
          · omega
          · omega

/-- What `try_iwrite` writes ends below `2^32`. -/
theorem tryIwrite_fits {inum : ℕ} {src : Source}
    (h : tryIwrite sb inum src offset count d di=.ok (some n,d',di')) : offset+n < 2^32 := by
  rw [tryIwrite] at h
  split at h
  · cases h
  · cases hw : writeLoop sb src count d di (offset/bsize) (offset%bsize) count 0 with
    | error e =>
      rw [hw] at h
      cases h
    | ok x =>
      obtain ⟨left,d₁,di₁⟩ := x
      rw [hw] at h
      dsimp only [Bind.bind,Except.bind] at h
      split at h
      · cases h
      · cases h
        omega

/-- The end of a batch is an offset. -/
theorem Job.run_fits {job : Job} {inum : ℕ} {user : User} (ho : offset < 2^32)
    (h : job.run sb inum user d di offset=.ok (some n,d',di')) : offset+n < 2^32 := by
  cases job with
  | read count => exact tryIread_fits ho h
  | write i count => exact tryIwrite_fits h

end Bounds

/-- The process has the lock of the inode. -/
def Call.Holds : Call → Prop
  | .locked _ => True
  | .accessed _ _ _ => True
  | .advanced _ _ => True
  | _ => False

/-- The offset accounts for the batches. -/
structure Accounts (s : System) : Prop where
  /-- Who has the lock. -/
  lock : ∀ p,s.lock=some p ↔ (s.calls p).Holds
  /-- A batch starts at the offset, and ends at one. -/
  start : ∀ p job start ret,s.calls p=.accessed job start ret →
    start=s.offset.toNat ∧ ∀ n,ret=some n → start+n < 2^32
  /-- The offset is the sum of the batches. -/
  sum : s.offset.toNat=(s.log.map Batch.count).sum
  /-- Batches start where those before them end. -/
  order : ∀ pre b post,s.log=pre++b::post → b.start=(pre.map Batch.count).sum

section Accounting

variable {sb : SuperBlock} {inum : ℕ} {s t : System} {p : ℕ} {call : Call}

/-- A process moves that has the lock neither before nor after. -/
theorem Accounts.move (h : Accounts s) (hold : ¬(s.calls p).Holds) (hnew : ¬call.Holds) :
    Accounts (s.goto p call) := by
  have hother : ∀ q,q≠p → (s.goto p call).calls q=s.calls q := fun q hq =>
    Function.update_of_ne hq ..
  have hself : (s.goto p call).calls p=call := Function.update_self ..
  refine ⟨fun q => ?_,fun q job start ret hq => ?_,h.sum,h.order⟩
  · by_cases e : q=p
    · rw [e,hself]
      exact iff_of_false (fun hl => hold ((h.lock p).mp hl)) hnew
    · rw [hother q e]
      exact h.lock q
  · by_cases e : q=p
    · rw [e,hself] at hq
      rw [hq] at hnew
      exact absurd trivial hnew
    · rw [hother q e] at hq
      exact h.start q job start ret hq

/-- The process with the lock moves; the others have no batch under way. -/
theorem Accounts.owner (h : Accounts s) (call : Call) (hp : (s.calls p).Holds)
    (hcalls : t.calls=Function.update s.calls p call) (hlock : ∀ q,t.lock=some q ↔ q=p ∧ call.Holds)
    (hstart : ∀ job start ret,call=.accessed job start ret →
      start=t.offset.toNat ∧ ∀ n,ret=some n → start+n < 2^32)
    (hsum : t.offset.toNat=(t.log.map Batch.count).sum)
    (horder : ∀ pre b post,t.log=pre++b::post → b.start=(pre.map Batch.count).sum) :
    Accounts t := by
  have hother : ∀ q,q≠p → t.calls q=s.calls q := fun q hq => by
    rw [hcalls,Function.update_of_ne hq]
  have hself : t.calls p=call := by rw [hcalls,Function.update_self]
  have hnot : ∀ q,q≠p → ¬(s.calls q).Holds := by
    intro q hq hh
    have e := (h.lock q).mpr hh
    rw [(h.lock p).mpr hp] at e
    cases e
    exact hq rfl
  refine ⟨fun q => ?_,fun q job start ret hq => ?_,hsum,horder⟩
  · rw [hlock q]
    by_cases e : q=p
    · rw [e,hself]
      exact and_iff_right rfl
    · rw [hother q e]
      exact iff_of_false (fun hc => e hc.1) (hnot q e)
  · by_cases e : q=p
    · rw [e,hself] at hq
      exact hstart job start ret hq
    · rw [hother q e] at hq
      have hn := hnot q e
      rw [hq] at hn
      exact absurd trivial hn

/-- A batch at the sum of those before it. -/
theorem order_append {log : List Batch} {batch : Batch}
    (horder : ∀ pre b post,log=pre++b::post → b.start=(pre.map Batch.count).sum)
    (hb : batch.start=(log.map Batch.count).sum) (pre : List Batch) (b : Batch) (post : List Batch)
    (h : log++[batch]=pre++b::post) : b.start=(pre.map Batch.count).sum := by
  obtain rfl | ⟨init,last,rfl⟩ := post.eq_nil_or_concat
  · obtain ⟨rfl,hlast⟩ := List.append_inj' h rfl
    cases hlast
    exact hb
  · rw [List.concat_eq_append,← List.cons_append,← List.append_assoc] at h
    exact horder pre b init (List.append_inj' h rfl).1

/-- A step keeps the account. -/
theorem Accounts.step {a : Action} (h : Accounts s) (ht : FileOffset.step sb inum s a=.next t) :
    Accounts t := by
  cases a with
  | fread p count =>
    rw [FileOffset.step] at ht
    split at ht
    · rename_i hp
      cases ht
      split
      · exact h.move (by rw [hp]; exact id) id
      · exact h
    · cases ht
  | fwrite p count =>
    rw [FileOffset.step] at ht
    split at ht
    · rename_i hp
      cases ht
      split
      · exact h.move (by rw [hp]; exact id) id
      · exact h
    · cases ht
  | lock p =>
    rw [FileOffset.step] at ht
    split at ht
    · rename_i job hp
      split at ht
      · rename_i hfree
        cases ht
        have hnone : ∀ q,¬(s.calls q).Holds := by
          intro q hq
          have e := (h.lock q).mpr hq
          rw [hfree] at e
          cases e
        refine ⟨fun q => ?_,fun q job' start ret hq => ?_,h.sum,h.order⟩
        · show some p=some q ↔ (Function.update s.calls p (.locked job) q).Holds
          by_cases e : q=p
          · rw [e,Function.update_self]
            exact iff_of_true rfl trivial
          · rw [Function.update_of_ne e]
            refine iff_of_false (fun hc => ?_) (hnone q)
            cases hc
            exact e rfl
        · change Function.update s.calls p (.locked job) q=_ at hq
          by_cases e : q=p
          · rw [e,Function.update_self] at hq
            cases hq
          · rw [Function.update_of_ne e] at hq
            exact h.start q job' start ret hq
      · cases ht
    · cases ht
  | access p user =>
    rw [FileOffset.step] at ht
    split at ht
    · rename_i job hp
      have hold : (s.calls p).Holds := by rw [hp]; trivial
      split at ht
      · rename_i ret d di hrun
        cases ht
        refine h.owner (.accessed job s.offset.toNat ret) hold rfl (fun q => ?_)
          (fun job' start ret' e => ?_) h.sum h.order
        · show s.lock=some q ↔ q=p ∧ True
          rw [(h.lock p).mpr hold,and_true]
          exact ⟨fun e => by cases e; rfl,fun e => by rw [e]⟩
        · cases e
          refine ⟨rfl,fun n hn => ?_⟩
          rw [hn] at hrun
          exact Job.run_fits s.offset.toNat_lt hrun
      · cases ht
    · cases ht
  | advance p =>
    rw [FileOffset.step] at ht
    split at ht
    · rename_i job start ret hp
      have hold : (s.calls p).Holds := by rw [hp]; trivial
      obtain ⟨hstart,hfits⟩ := h.start p job start ret hp
      have hlock : ∀ q,s.lock=some q ↔ q=p ∧ True := by
        intro q
        rw [(h.lock p).mpr hold,and_true]
        exact ⟨fun e => by cases e; rfl,fun e => by rw [e]⟩
      split at ht
      · rename_i n
        cases ht
        have hlt := hfits n rfl
        refine h.owner (.advanced job (some n)) hold rfl hlock nofun ?_
          (order_append h.order (hstart.trans h.sum))
        -- the sum of the offset and the batch does not wrap
        show (s.offset+UInt32.ofNat n).toNat=((s.log++[Batch.mk start n]).map Batch.count).sum
        rw [List.map_append,List.sum_append,← h.sum,UInt32.toNat_add,UInt32.toNat_ofNat',
          Nat.mod_eq_of_lt (show n < 2^32 by omega),Nat.mod_eq_of_lt (by omega)]
        rfl
      · cases ht
        exact h.owner (.advanced job none) hold rfl hlock nofun h.sum h.order
    · cases ht
  | unlock p =>
    rw [FileOffset.step] at ht
    split at ht
    · rename_i job ret hp
      have hold : (s.calls p).Holds := by rw [hp]; trivial
      have hnot : ¬(job.next ret).Holds ∧ ∀ job' start ret',job.next ret≠.accessed job' start ret' := by
        cases job with
        | read count => exact ⟨id,nofun⟩
        | write i count =>
          cases ret with
          | none => exact ⟨id,nofun⟩
          | some n =>
            rw [Job.next]
            split
            · exact ⟨id,nofun⟩
            · exact ⟨id,nofun⟩
      cases ht
      exact h.owner (job.next ret) hold rfl
        (fun q => iff_of_false nofun fun hc => hnot.1 hc.2)
        (fun job' start ret' e => absurd e (hnot.2 job' start ret')) h.sum h.order
    · cases ht
  | disk d =>
    cases ht
    exact ⟨h.lock,h.start,h.sum,h.order⟩
  | inode di =>
    rw [FileOffset.step] at ht
    split at ht
    · cases ht
      exact ⟨h.lock,h.start,h.sum,h.order⟩
    · cases ht

end Accounting

/-- In every run on a file that was just opened, the successful batches of all processes, in the
order of the lock, start at 0 and each where the one before it ends, and the offset is the sum of
their results. -/
theorem offset_accounts (sb : SuperBlock) (inum : ℕ) (readable writable : Bool) (d : Disk)
    (di : DiskInode) (as : List Action) (t : System)
    (h : run (step sb inum) (opened readable writable d di) as=.next t) :
    (∀ pre b post,t.log=pre++b::post → b.start=(pre.map Batch.count).sum) ∧
      t.offset.toNat=(t.log.map Batch.count).sum := by
  have hopen : Accounts (opened readable writable d di) :=
    ⟨fun p => iff_of_false nofun id,fun p job start ret hp => Call.noConfusion hp,rfl,
      fun pre b post hl => absurd hl.symm
        (List.append_ne_nil_of_right_ne_nil pre (List.cons_ne_nil b post))⟩
  have hstep : ∀ s a u,Accounts s → True → step sb inum s a=.next u → Accounts u :=
    fun _ _ _ h _ hu => h.step hu
  have ht : Accounts t :=
    run_invariant hstep hopen (guarded_of_forall (fun _ _ => trivial) _ _) h
  exact ⟨ht.order,ht.sum⟩

/-- Two processes read three and two bytes of a file of four, one while the other waits. -/
def twoReaders : List Action :=
  [.fread 0 3,.fread 1 2,.lock 0,.access 0 ⟨fun _ => true,fun _ n => (fun _ => 0,n)⟩,.advance 0,
    .unlock 0,.lock 1,.access 1 ⟨fun _ => true,fun _ n => (fun _ => 0,n)⟩,.advance 1,.unlock 1]

/-- An inode of four bytes in block 6. -/
def fourBytes : DiskInode := {DiskInode.new with size := 4,addrs := fun _ => 6}

theorem offset_accounts_twoReaders :
    ∃ t,run (step smallDevice 1) (opened true false blankDisk fourBytes) twoReaders=.next t ∧
      t.log=[⟨0,3⟩,⟨3,1⟩] ∧ t.offset.toNat=(t.log.map Batch.count).sum := by
  obtain ⟨t,ht,hlog⟩ := Outcome.exists_of_test
    (o:=run (step smallDevice 1) (opened true false blankDisk fourBytes) twoReaders)
    (p:=fun t : System => decide (t.log=[⟨0,3⟩,⟨3,1⟩])) (by decide +kernel)
  exact ⟨t,ht,of_decide_eq_true hlog,
    (offset_accounts smallDevice 1 true false blankDisk fourBytes twoReaders t ht).2⟩

end Xv6Rust.FileOffset

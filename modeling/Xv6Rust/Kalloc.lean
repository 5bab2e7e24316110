import Xv6Rust.IntrusiveList

/-!
# The buddy allocator of the kernel heap

`BuddySystem` of `mm/kalloc.rs` with the lists of `mm/list.rs`. Memory is split
by what is stored in it: the bits of the alloc and split slices, by bit
address, and the list nodes, by the address of the node. Slices are accessed
without bounds checks, as in the source, so an index beyond a slice reaches the
bits stored behind it. Addresses are natural numbers; a subtraction that would
wrap in the source is an error here.
-/

namespace Xv6Rust.Kalloc

open IntrusiveList

/-- `LEAF_SIZE`. -/
def leafSize : ℕ := 16

/-- `PAGE_SIZE`. -/
def pageSize : ℕ := 4096

/-- `size_of::<BuddyInfo>()`: a list head and two slice pointers. -/
def infoSize : ℕ := 48

/-- `round_up`, for `n` at least one. -/
def roundUp (n size : ℕ) : ℕ := ((n-1)/size+1)*size

/-- `round_down`. -/
def roundDown (n size : ℕ) : ℕ := n/size*size

/-- The loop of `log2`. -/
def log2Loop : ℕ → ℕ → ℕ → ℕ
  | 0,_,k => k
  | fuel+1,n,k => if n>1 then log2Loop fuel (n/2) (k+1) else k

/-- `log2`. -/
def log2 (n : ℕ) : ℕ := log2Loop n n 0

/-- `blk_size`. -/
def blkSize (k : ℕ) : ℕ := 2^k*leafSize

/-- `trailing_zeros` of a positive number. -/
def trailingZerosLoop : ℕ → ℕ → ℕ
  | 0,_ => 0
  | fuel+1,n => if n%2=0 then trailingZerosLoop fuel (n/2)+1 else 0

/-- `trailing_zeros`. -/
def trailingZeros (n : ℕ) : ℕ := trailingZerosLoop n n

/-- The doubling of `next_power_of_two`. -/
def nextPowerOfTwoLoop : ℕ → ℕ → ℕ → ℕ
  | 0,_,power => power
  | fuel+1,n,power => if power<n then nextPowerOfTwoLoop fuel n (2*power) else power

/-- `next_power_of_two`. -/
def nextPowerOfTwo (n : ℕ) : ℕ := nextPowerOfTwoLoop n n 1

/-- `BuddySystem` with the memory it manages. -/
structure BuddySystem where
  /-- Start of the managed range. -/
  base : ℕ
  /-- End of the managed range. -/
  actualEnd : ℕ
  /-- Number of levels. -/
  nsizes : ℕ
  /-- `init` has run. -/
  initialized : Bool
  /-- Addresses of the alloc slices, by level. -/
  alloc : ℕ → ℕ
  /-- Addresses of the split slices, by level. -/
  split : ℕ → ℕ
  /-- Bits of the slices, by bit address. -/
  bits : ℕ → Bool
  /-- List nodes, by address. -/
  links : Links ℕ

/-- `BuddySystem::uninit`, in memory with arbitrary list nodes and bits. -/
def uninit (bits : ℕ → Bool) (links : Links ℕ) : BuddySystem :=
  ⟨0,0,0,false,fun _ => 0,fun _ => 0,bits,links⟩

/-- The panics of the allocator. -/
inductive Panic where
  /-- `init twice`. -/
  | initTwice
  /-- A subtraction of `init` wraps. -/
  | underflow
  /-- An assertion of `mark` fails. -/
  | misaligned
  /-- The total of `init` does not add up. -/
  | total (metaBytes free unavail : ℕ)
  /-- `request layout alignment bigger than PGSIZE`. -/
  | alignment
  /-- `empty pop`. -/
  | emptyPop
  /-- `dealloc ptr out of range`. -/
  | outOfRange
  /-- `dealloc cannot recycle ptr`. -/
  | cannotRecycle
  /-- `layout > blk size`. -/
  | layoutTooLarge
  deriving DecidableEq

/-- `Layout`, whose alignment is a power of two. -/
structure Layout where
  /-- Size in bytes. -/
  size : ℕ
  /-- Alignment in bytes. -/
  align : ℕ
  /-- The alignment is a power of two. -/
  align_pow : ∃ k,align=2^k
  deriving DecidableEq

namespace BuddySystem

variable (s : BuddySystem)

/-- `max_size`. -/
def maxSize : ℕ := s.nsizes-1

/-- `n_blk`. -/
def nBlk (k : ℕ) : ℕ := 2^(s.maxSize-k)

/-- `blk_index`. -/
def blkIndex (k addr : ℕ) : ℕ := (addr-s.base)/blkSize k

/-- `blk_index_next`. -/
def blkIndexNext (k addr : ℕ) : ℕ :=
  if (addr-s.base)%blkSize k>0 then (addr-s.base)/blkSize k+1 else (addr-s.base)/blkSize k

/-- `blk_addr`. -/
def blkAddr (k bi : ℕ) : ℕ := s.base+bi*blkSize k

/-- Address of the list head in the `BuddyInfo` of a level. -/
def head (k : ℕ) : ℕ := s.base+infoSize*k

/-- `is_alloc_set`: bit `index%8` of byte `index/8`. -/
def isAllocSet (k index : ℕ) : Bool := s.bits (8*(s.alloc k+index/8)+index%8)

/-- `is_split_set`. -/
def isSplitSet (k index : ℕ) : Bool := s.bits (8*(s.split k+index/8)+index%8)

/-- `alloc_set`. -/
def allocSet (k index : ℕ) (set : Bool) : BuddySystem :=
  {s with bits := Function.update s.bits (8*(s.alloc k+index/8)+index%8) set}

/-- `split_set`. -/
def splitSet (k index : ℕ) (set : Bool) : BuddySystem :=
  {s with bits := Function.update s.bits (8*(s.split k+index/8)+index%8) set}

/-- `free.push` of a level. -/
def push (k addr : ℕ) : BuddySystem := {s with links := s.links.push (s.head k) addr}

/-- `remove` of a list node. -/
def remove (addr : ℕ) : BuddySystem := {s with links := s.links.remove addr}

/-- `free.is_empty` of a level. -/
def isEmpty (k : ℕ) : Bool := s.links.isEmpty (s.head k)

/-- `free.pop` of a level. -/
def pop (k : ℕ) : Except Panic (ℕ×BuddySystem) :=
  if s.isEmpty k=true then .error .emptyPop
  else .ok (s.links.next (s.head k),s.remove (s.links.next (s.head k)))

/-- Index of the buddy. -/
def buddyIndex (bi : ℕ) : ℕ := if bi%2=0 then bi+1 else bi-1

/-- The loop of `alloc` that looks for a level with a free block. -/
def findFree : ℕ → ℕ → ℕ
  | 0,sizei => sizei
  | fuel+1,sizei => if s.isEmpty sizei=true then findFree fuel (sizei+1) else sizei

/-- One pass of the splitting loop of `alloc`, from level `k+1` to level `k`. -/
def splitStep (k rawAddr : ℕ) : BuddySystem :=
  let s := s.splitSet (k+1) (s.blkIndex (k+1) rawAddr) true
  let s := s.allocSet k (s.blkIndex k rawAddr) true
  s.push k (rawAddr+blkSize k)

/-- The splitting loop of `alloc`, the given number of levels down to `smalli`. -/
def splitLoop (rawAddr smalli : ℕ) : BuddySystem → ℕ → BuddySystem
  | s,0 => s
  | s,d+1 => splitLoop rawAddr smalli (s.splitStep (smalli+d) rawAddr) d

/-- The smallest level that fits a size. -/
def levelOf (size : ℕ) : ℕ :=
  if size≤leafSize then 0 else trailingZeros (nextPowerOfTwo size/leafSize)

/-- `alloc`; the null pointer is `none`. -/
def allocate (layout : Layout) : Except Panic (Option ℕ×BuddySystem) :=
  if layout.size=0 then .ok (none,s)
  else if layout.align>pageSize then .error .alignment
  else
    let smalli := levelOf layout.size
    let sizei := s.findFree (s.nsizes-smalli) smalli
    if sizei≥s.nsizes then .ok (none,s)
    else
      match s.pop sizei with
      | .error e => .error e
      | .ok (rawAddr,s) =>
        let s := s.allocSet sizei (s.blkIndex sizei rawAddr) true
        .ok (some rawAddr,splitLoop rawAddr smalli s (sizei-smalli))

/-- The loop of `dealloc` that recovers the level of a pointer from the split bits. -/
def findSplit (rawAddr : ℕ) : ℕ → ℕ → ℕ
  | 0,_ => s.nsizes
  | fuel+1,i =>
    if s.isSplitSet (i+1) (s.blkIndex (i+1) rawAddr)=true then i else findSplit rawAddr fuel (i+1)

/-- The merging loop of `dealloc` and the final push, for the given number of levels up to the
maximal one. -/
def mergeLoop : ℕ → BuddySystem → ℕ → ℕ → BuddySystem
  | 0,s,sizei,rawAddr => s.push sizei rawAddr
  | fuel+1,s,sizei,rawAddr =>
    let bi := s.blkIndex sizei rawAddr
    let buddyi := buddyIndex bi
    let s := s.allocSet sizei bi false
    if s.isAllocSet sizei buddyi=true then s.push sizei rawAddr
    else
      let buddyAddr := s.blkAddr sizei buddyi
      let s := s.remove buddyAddr
      let rawAddr := if buddyi%2=0 then buddyAddr else rawAddr
      let s := s.splitSet (sizei+1) (s.blkIndex (sizei+1) rawAddr) false
      mergeLoop fuel s (sizei+1) rawAddr

/-- `dealloc`. -/
def dealloc (rawAddr : ℕ) (layout : Layout) : Except Panic BuddySystem :=
  if rawAddr < s.base ∨ rawAddr≥s.actualEnd then .error .outOfRange
  else
    let sizei := s.findSplit rawAddr s.maxSize 0
    if sizei=s.nsizes then .error .cannotRecycle
    else if layout.size>blkSize sizei then .error .layoutTooLarge
    else .ok (mergeLoop (s.maxSize-sizei) s sizei rawAddr)

/-- One pass of the inner loop of `mark`. -/
def markBlock (i bi : ℕ) : BuddySystem :=
  let s := s.allocSet i bi true
  if i>0 then s.splitSet i bi true else s

/-- The inner loop of `mark`, for blocks from `bi` up to `bj`. -/
def markLevel (i bi bj : ℕ) : BuddySystem :=
  (List.range' bi (bj-bi)).foldl (fun s b => s.markBlock i b) s

/-- The outer loop of `mark`. -/
def markLoop (left right : ℕ) : BuddySystem :=
  (List.range s.nsizes).foldl
    (fun s i => s.markLevel i (s.blkIndex i left) (s.blkIndexNext i right)) s

/-- `mark`. -/
def mark (left right : ℕ) : Except Panic BuddySystem :=
  if left%leafSize≠0 ∨ right%leafSize≠0 then .error .misaligned else .ok (s.markLoop left right)

/-- The block of a pair that `init_free_pair` pushes. -/
def pairTarget (sizei bi : ℕ) : Option ℕ :=
  if s.isAllocSet sizei bi≠s.isAllocSet sizei (buddyIndex bi) then
    some (if s.isAllocSet sizei bi=true then buddyIndex bi else bi)
  else none

/-- `init_free_pair`. -/
def initFreePair (sizei bi : ℕ) : ℕ×BuddySystem :=
  match s.pairTarget sizei bi with
  | some target => (blkSize sizei,s.push sizei (s.blkAddr sizei target))
  | none => (0,s)

/-- One pass of the loop of `init_free`. -/
def initFreeLevel (left : ℕ) (acc : ℕ×BuddySystem) (i : ℕ) : ℕ×BuddySystem :=
  let (free,s) := acc
  let lbi := s.blkIndexNext i left
  let rbi := s.blkIndex i s.actualEnd
  let (f,s) := s.initFreePair i lbi
  if left < s.actualEnd then
    let (f',s) := s.initFreePair i rbi
    (free+f+f',s)
  else (free+f,s)

/-- `init_free`. -/
def initFree (left : ℕ) : ℕ×BuddySystem :=
  (List.range s.maxSize).foldl (initFreeLevel left) (0,s)

/-- Bytes of a slice of one bit for every block of a level. -/
def sliceSize (k : ℕ) : ℕ := roundUp (s.nBlk k) 8/8

/-- The value of `cur` before pass `i` of the loop that places the alloc slices. -/
def allocCur : ℕ → ℕ
  | 0 => s.base+infoSize*s.nsizes
  | i+1 => allocCur i+s.sliceSize i

/-- The value of `cur` before pass `i` of the loop that places the split slices, which starts at
one. -/
def splitCur : ℕ → ℕ
  | 0 => s.allocCur s.nsizes
  | 1 => s.allocCur s.nsizes
  | i+2 => splitCur (i+1)+s.sliceSize (i+1)

/-- The end of the metadata. -/
def metaEnd : ℕ := roundUp (s.splitCur s.nsizes) leafSize

/-- The range, the number of levels and the placement of the metadata that `init` computes. The
slices are zeroed and the list heads initialised. -/
def place (start stop : ℕ) : BuddySystem :=
  let base := roundUp start (max leafSize pageSize)
  let actualEnd := roundDown stop (max leafSize pageSize)
  let n := log2 ((actualEnd-base)/leafSize)+1
  let n := if actualEnd-base>blkSize (n-1) then n+1 else n
  let s := {s with base := base,actualEnd := actualEnd,nsizes := n}
  {s with
    alloc := s.allocCur
    split := s.splitCur
    bits := fun i =>
      if 8*s.allocCur 0 ≤ i ∧ i<8*s.splitCur n then false else s.bits i
    links := (List.range n).foldl (fun l i => l.init (base+infoSize*i)) s.links}

/-- `init`. -/
def init (start stop : ℕ) : Except Panic BuddySystem :=
  if s.initialized=true then .error .initTwice
  else if start=0 then .error .underflow
  else
    let s := s.place start stop
    if s.actualEnd < s.base then .error .underflow
    else
      let cur := s.metaEnd
      let metaBytes := cur-s.base
      match s.mark s.base cur with
      | .error e => .error e
      | .ok s =>
        let unavail := blkSize s.maxSize-(s.actualEnd-s.base)
        match s.mark s.actualEnd (s.actualEnd+unavail) with
        | .error e => .error e
        | .ok s =>
          let (free,s) := s.initFree cur
          if blkSize s.maxSize < metaBytes+unavail then .error .underflow
          else if free≠blkSize s.maxSize-metaBytes-unavail then
            .error (.total metaBytes free unavail)
          else .ok {s with initialized := true}

end BuddySystem

end Xv6Rust.Kalloc

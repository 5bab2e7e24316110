import Xv6Rust.Runs
import Xv6Rust.Bytes
import Xv6Rust.RingWalk

/-!
# The allocator of user programs

`user/umalloc.c`. Free blocks begin with a header that has the address of the next free block and
the size; the last one leads back to `base`, a block without room. `malloc` looks for the first block
that is large enough, from where the search ended last; `free` looks for the place of a block among
the free ones and joins it with its neighbours. New memory comes from `sbrk` and is freed first.

A run is any calls of a program, which may write to the blocks that it has and move the break
itself.
-/

namespace Xv6Rust.Malloc

open Runs Bytes RingWalk

/-- Where the program has its memory: the address of `base`, the end of its data, and how far the
break can go. -/
structure Layout where
  base : ℕ
  lo : ℕ
  limit : ℕ
  base_pos : 0 < base
  base_lo : base+16≤lo
  lo_limit : lo≤limit
  /-- The size of a block is a `uint`. -/
  limit_le : limit≤2^36

/-- `s.ptr` -/
def ptr (mem : Buffer) (a : ℕ) : ℕ := getLE mem a 8

/-- `s.size` -/
def size (mem : Buffer) (a : ℕ) : ℕ := getLE mem (a+8) 4

/-- Write `s.ptr`. -/
def setPtr (mem : Buffer) (a p : ℕ) : Buffer := putLE mem a 8 p

/-- Write `s.size`. -/
def setSize (mem : Buffer) (a n : ℕ) : Buffer := putLE mem (a+8) 4 n

/-- The memory, `freep` and the break. -/
structure Heap where
  mem : Buffer
  freep : ℕ
  brk : ℕ

/-- The tests that end the loop of `free`. -/
def placed (mem : Buffer) (bp p : ℕ) : Bool :=
  decide (p < bp ∧ bp < ptr mem p ∨ ptr mem p≤p ∧ (p < bp ∨ bp < ptr mem p))

/-- `free` joins the block with the one above. -/
def joinUpper (mem : Buffer) (bp p : ℕ) : Buffer :=
  if bp+16*size mem bp=ptr mem p then
    let mem := setSize mem bp (size mem bp+size mem (ptr mem p))
    setPtr mem bp (ptr mem (ptr mem p))
  else setPtr mem bp (ptr mem p)

/-- `free` joins the block with the one below. -/
def joinLower (mem : Buffer) (bp p : ℕ) : Buffer :=
  if p+16*size mem p=bp then
    let mem := setSize mem p (size mem p+size mem bp)
    setPtr mem p (ptr mem bp)
  else setPtr mem p bp

/-- `free`; nothing where its loop does not end. -/
def free (L : Layout) (h : Heap) (ap : ℕ) : Option Heap :=
  let bp := ap-16
  (follow (placed h.mem bp) (ptr h.mem) L.limit h.freep).map fun p =>
    {h with mem := joinLower (joinUpper h.mem bp p) bp p,freep := p}

/-- `sbrk`, which may fail: the old break. -/
def sbrk (L : Layout) (grant : Bool) (h : Heap) (n : ℤ) : Option (ℕ × Heap) :=
  if grant=true ∧ h.brk+n≤L.limit then some (h.brk,{h with brk := (h.brk+n).toNat}) else none

/-- `morecore`: nothing where a loop does not end; no block where `sbrk` fails. -/
def morecore (L : Layout) (grant : Bool) (h : Heap) (nu : ℕ) : Option (Option Heap) :=
  let nu := if nu < 4096 then 4096 else nu
  match sbrk L grant h (Int.bmod (16*nu : ℕ) (2^32)) with
  | none => some none
  | some (hp,h) => (free L {h with mem := setSize h.mem hp nu} (hp+16)).map some

/-- `malloc` takes a block, whole or its end. -/
def take (h : Heap) (nunits prevp p : ℕ) : ℕ × Heap :=
  if size h.mem p=nunits then
    (p+16,{h with mem := setPtr h.mem prevp (ptr h.mem p),freep := prevp})
  else
    let mem := setSize h.mem p (size h.mem p-nunits)
    let p := p+16*size mem p
    (p+16,{h with mem := setSize mem p nunits,freep := prevp})

/-- The loop of `malloc`. -/
def search (L : Layout) (grant : Bool) (nunits : ℕ) : ℕ → Heap → ℕ → ℕ → Option (ℕ × Heap)
  | 0,_,_,_ => none
  | fuel+1,h,prevp,p =>
    if nunits ≤ size h.mem p then some (take h nunits prevp p)
    else if p=h.freep then
      match morecore L grant h nunits with
      | none => none
      | some none => some (0,h)
      | some (some h) => search L grant nunits fuel h h.freep (ptr h.mem h.freep)
    else search L grant nunits fuel h p (ptr h.mem p)

/-- `nunits` of `malloc`. -/
def units (nbytes : ℕ) : ℕ := (nbytes+15)/16+1

/-- `malloc`; nothing where a loop does not end. -/
def malloc (L : Layout) (grant : Bool) (h : Heap) (nbytes : ℕ) : Option (ℕ × Heap) :=
  let h := if h.freep=0 then
      {h with mem := setSize (setPtr h.mem L.base L.base) L.base 0,freep := L.base}
    else h
  search L grant (units nbytes) (2*L.limit+2) h h.freep (ptr h.mem h.freep)

section Headers

variable {mem mem' : Buffer} {a v i : ℕ}

theorem setPtr_apply (h : i < a ∨ a+8 ≤ i) : setPtr mem a v i=mem i := putLE_apply_of_outside h

theorem setSize_apply (h : i < a+8 ∨ a+12 ≤ i) : setSize mem a v i=mem i :=
  putLE_apply_of_outside (by omega)

/-- A header is its first twelve bytes. -/
theorem ptr_congr (h : ∀ i,a ≤ i → i < a+12 → mem' i=mem i) : ptr mem' a=ptr mem a :=
  getLE_congr fun i hi hi' => h i hi (by omega)

theorem size_congr (h : ∀ i,a ≤ i → i < a+12 → mem' i=mem i) : size mem' a=size mem a :=
  getLE_congr fun i hi hi' => h i (by omega) (by omega)

theorem ptr_setPtr (h : v < 2^64) : ptr (setPtr mem a v) a=v := getLE_putLE_self (by omega)

theorem size_setPtr : size (setPtr mem a v) a=size mem a :=
  getLE_putLE_of_apart (.inr (Nat.le_refl _))

theorem size_setSize (h : v < 2^32) : size (setSize mem a v) a=v := getLE_putLE_self (by omega)

theorem ptr_setSize : ptr (setSize mem a v) a=ptr mem a :=
  getLE_putLE_of_apart (.inl (Nat.le_refl _))

end Headers

/-- The address of the first block, or of what is behind. -/
def first : List (ℕ × ℕ) → ℕ → ℕ
  | [],e => e
  | b::_,_ => b.1

/-- Blocks with their sizes, each with the address of the next. -/
def Linked (mem : Buffer) : List (ℕ × ℕ) → ℕ → Prop
  | [],_ => True
  | b::bs,e => ptr mem b.1=first bs e ∧ size mem b.1=b.2 ∧ Linked mem bs e

/-- No byte is in both blocks. -/
def Apart (a b : ℕ × ℕ) : Prop := a.1+16*a.2≤b.1 ∨ b.1+16*b.2≤a.1

/-- A block of the heap. -/
structure InHeap (L : Layout) (brk : ℕ) (b : ℕ × ℕ) : Prop where
  lo : L.lo≤b.1
  pos : 0 < b.2
  hi : b.1+16*b.2≤brk

/-- The free blocks, with `base`: in the order of their addresses, with something between any two
of them. -/
structure FreeList (L : Layout) (h : Heap) (nodes : List (ℕ × ℕ)) : Prop where
  head : nodes.head?=some (L.base,0)
  linked : Linked h.mem nodes L.base
  sorted : nodes.Pairwise fun a b => a.1+16*a.2 < b.1
  bounds : ∀ b∈nodes,b=(L.base,0) ∨ InHeap L h.brk b
  start : h.freep∈nodes.map Prod.fst
  brk_le : h.brk≤L.limit

/-- Units in blocks. -/
def total (blocks : List (ℕ × ℕ)) : ℕ := (blocks.map Prod.snd).sum

section Lists

variable {mem mem' : Buffer} {l r bs : List (ℕ × ℕ)} {e a n : ℕ} {u : ℕ × ℕ}

theorem linked_append : Linked mem (l++r) e ↔ Linked mem l (first r e) ∧ Linked mem r e := by
  induction l with
  | nil => exact (iff_of_eq (true_and _)).symm
  | cons b l ih =>
    have hfirst : first (l++r) e=first l (first r e) := by
      cases l with
      | nil => rfl
      | cons c l => rfl
    rw [List.cons_append,Linked,Linked,ih,hfirst,and_assoc,and_assoc]

theorem Linked.congr (h : Linked mem bs e)
    (hsame : ∀ b∈bs,∀ i,b.1 ≤ i → i < b.1+12 → mem' i=mem i) : Linked mem' bs e := by
  induction bs with
  | nil => trivial
  | cons b bs ih =>
    have hb := hsame b (List.mem_cons_self ..)
    refine ⟨(ptr_congr hb).trans h.1,(size_congr hb).trans h.2.1,ih h.2.2 fun c hc => ?_⟩
    exact hsame c (List.mem_cons_of_mem _ hc)

theorem Linked.size_eq (h : Linked mem bs e) (hu : u∈bs) : size mem u.1=u.2 := by
  induction bs with
  | nil => cases hu
  | cons b bs ih =>
    obtain rfl | hu := List.mem_cons.mp hu
    · exact h.2.1
    · exact ih h.2.2 hu

theorem Linked.map_ptr (h : Linked mem (u::bs) e) :
    (u::bs).map (ptr mem ∘ Prod.fst)=bs.map Prod.fst++[e] := by
  induction bs generalizing u with
  | nil => exact congrArg (fun x => [x]) h.1
  | cons b bs ih =>
    rw [List.map_cons,ih h.2.2,List.map_cons,List.cons_append]
    exact congrArg (·::_) h.1

theorem total_append : total (l++r)=total l+total r := by
  rw [total,List.map_append,List.sum_append,total,total]

theorem total_cons : total (u::bs)=u.2+total bs := by
  rw [total,List.map_cons,List.sum_cons,total]

/-- A block that is apart from two that meet is apart from both together. -/
theorem apart_join {m : ℕ} (hu : 0 < u.2) (h1 : Apart u (a,n)) (h2 : Apart u (a+16*n,m)) :
    Apart u (a,n+m) := by
  simp only [Apart] at *
  omega

theorem outside {b c : ℕ × ℕ} {i : ℕ} (h : Apart b c) (hi : b.1 ≤ i) (hi' : i < b.1+16*b.2) :
    i < c.1 ∨ c.1+16*c.2 ≤ i := by
  simp only [Apart] at h
  omega

end Lists

section Nodes

variable {L : Layout} {h : Heap} {nodes : List (ℕ × ℕ)} {l r : List (ℕ × ℕ)} {b : ℕ × ℕ}

theorem InHeap.size_lt {brk : ℕ} (hb : InHeap L brk b) (hbrk : brk≤L.limit) : b.2 < 2^32 := by
  have := L.limit_le
  have := L.base_lo
  have := hb.lo
  have := hb.hi
  omega

theorem InHeap.addr_lt {brk : ℕ} (hb : InHeap L brk b) (hbrk : brk≤L.limit) : b.1 < 2^64 := by
  have := L.limit_le
  have := hb.hi
  omega

namespace FreeList

theorem eq_cons (hf : FreeList L h nodes) : ∃ bs,nodes=(L.base,0)::bs := by
  obtain ⟨bs,hbs⟩ := List.head?_eq_some_iff.mp hf.head
  exact ⟨bs,hbs⟩

theorem nodup (hf : FreeList L h nodes) : (nodes.map Prod.fst).Nodup := by
  rw [List.Nodup,List.pairwise_map]
  exact hf.sorted.imp fun hab => by omega

theorem ring (hf : FreeList L h nodes) : Ring (ptr h.mem) (nodes.map Prod.fst) := by
  refine ⟨hf.nodup,?_⟩
  obtain ⟨bs,rfl⟩ := hf.eq_cons
  rw [List.map_map,hf.linked.map_ptr,List.map_cons,List.rotate_cons_succ,List.rotate_zero]

/-- An address of a node is below the limit. -/
theorem addr_lt (hf : FreeList L h nodes) (hb : b∈nodes) : b.1 < L.limit := by
  have hbase := L.base_lo
  have hlo := L.lo_limit
  have hbrk := hf.brk_le
  obtain rfl | hheap := hf.bounds b hb
  · omega
  · have := hheap.hi
    have := hheap.pos
    omega

theorem length_le (hf : FreeList L h nodes) : (nodes.map Prod.fst).length≤L.limit := by
  have hsub : nodes.map Prod.fst⊆List.range L.limit := by
    intro a ha
    obtain ⟨b,hb,rfl⟩ := List.mem_map.mp ha
    exact List.mem_range.mpr (hf.addr_lt hb)
  exact (hf.nodup.subperm hsub).length_le.trans_eq List.length_range

theorem freep_ne (hf : FreeList L h nodes) : h.freep≠0 := by
  have := L.base_pos
  have := L.base_lo
  obtain ⟨c,hc,heq⟩ := List.mem_map.mp hf.start
  obtain rfl | hheap := hf.bounds c hc
  · simp only at heq
    omega
  · have := hheap.lo
    omega

/-- Headers are apart. -/
theorem headers (hf : FreeList L h nodes) : nodes.Pairwise fun a b => a.1+16≤b.1 := by
  refine hf.sorted.imp_of_mem fun ha hb hab => ?_
  have hbase := L.base_lo
  obtain rfl | hheap := hf.bounds _ ha
  · obtain rfl | hheap' := hf.bounds _ hb
    · omega
    · have := hheap'.lo
      omega
  · have := hheap.pos
    omega

theorem split (hf : FreeList L h (l++b::r)) :
    (∀ c∈l,c.1+16≤b.1 ∧ c.1+16*c.2 < b.1) ∧ (∀ c∈r,b.1+16 ≤ c.1 ∧ b.1+16*b.2 < c.1) ∧
      ptr h.mem b.1=first r L.base ∧ size h.mem b.1=b.2 ∧ Linked h.mem l b.1 ∧
        Linked h.mem r L.base := by
  obtain ⟨-,hh,hhl⟩ := List.pairwise_append.mp hf.headers
  obtain ⟨-,hs,hsl⟩ := List.pairwise_append.mp hf.sorted
  obtain ⟨hl,hp,hn,hr⟩ := linked_append.mp hf.linked
  have hb := List.mem_cons_self (a:=b) (l:=r)
  exact ⟨fun c hc => ⟨hhl c hc b hb,hsl c hc b hb⟩,
    fun c hc => ⟨(List.pairwise_cons.mp hh).1 c hc,(List.pairwise_cons.mp hs).1 c hc⟩,hp,hn,hl,hr⟩

/-- Other blocks from a node on. -/
theorem replace {p p' : ℕ × ℕ} {t : List (ℕ × ℕ)} {mem : Buffer}
    (hf : FreeList L h (l++p::r)) (hp : p'.1=p.1) (hbase : l=[] → p'.2=0)
    (hl : Linked mem l p.1) (ht : Linked mem (p'::t) L.base)
    (hs : (p'::t).Pairwise fun a b => a.1+16*a.2 < b.1)
    (hb : ∀ b∈p'::t,b=(L.base,0) ∨ InHeap L h.brk b) :
    FreeList L {h with mem := mem,freep := p.1} (l++p'::t) := by
  obtain ⟨hleft,-⟩ := hf.split
  refine ⟨?_,?_,?_,?_,?_,hf.brk_le⟩
  · cases l with
    | nil =>
      obtain rfl := Option.some.inj hf.head
      exact congrArg some (Prod.ext hp (hbase rfl))
    | cons c l => exact hf.head
  · exact linked_append.mpr ⟨by rw [first,hp]; exact hl,ht⟩
  · refine List.pairwise_append.mpr ⟨(List.pairwise_append.mp hf.sorted).1,hs,fun a ha b hb => ?_⟩
    have hlt := (hleft a ha).2
    obtain rfl | hb := List.mem_cons.mp hb
    · rwa [hp]
    · have := (List.pairwise_cons.mp hs).1 b hb
      omega
  · intro b hmem
    obtain hmem | hmem := List.mem_append.mp hmem
    · exact hf.bounds b (List.mem_append_left _ hmem)
    · exact hb b hmem
  · rw [List.map_append,List.map_cons,hp]
    exact List.mem_append_right _ (List.mem_cons_self ..)

end FreeList

end Nodes

section Freeing

variable {L : Layout} {h : Heap} {nodes l r bs : List (ℕ × ℕ)} {b p x : ℕ × ℕ} {bp : ℕ}

/-- The last node below an address. -/
theorem exists_below (hx : x.1 < bp) (hne : ∀ b∈bs,b.1≠bp)
    (hs : (x::bs).Pairwise fun a b => a.1+16≤b.1) :
    ∃ l p r,x::bs=l++p::r ∧ p.1 < bp ∧ ∀ b∈r,bp < b.1 := by
  induction bs generalizing x with
  | nil => exact ⟨[],x,[],rfl,hx,fun b hb => by cases hb⟩
  | cons y bs ih =>
    have htail := (List.pairwise_cons.mp hs).2
    by_cases hy : y.1 < bp
    · obtain ⟨l,p,r,heq,hp,hr⟩ := ih hy (fun b hb => hne b (List.mem_cons_of_mem _ hb)) htail
      exact ⟨x::l,p,r,by rw [heq,List.cons_append],hp,hr⟩
    · have hlt : bp < y.1 := Nat.lt_of_le_of_ne (Nat.le_of_not_lt hy) (hne y (List.mem_cons_self ..)).symm
      refine ⟨[],x,y::bs,rfl,hx,fun b hb => ?_⟩
      obtain rfl | hb := List.mem_cons.mp hb
      · exact hlt
      · have := (List.pairwise_cons.mp htail).1 b hb
        omega

theorem placed_iff (hf : FreeList L h (l++p::r)) (hlo : L.lo≤bp) :
    placed h.mem bp p.1=true ↔ p.1 < bp ∧ ∀ b∈r,bp < b.1 := by
  obtain ⟨-,habove,hptr,-⟩ := hf.split
  have hbase := L.base_lo
  rw [placed,decide_eq_true_iff,hptr]
  cases r with
  | nil =>
    have hp : L.base≤p.1 := by
      obtain rfl | hheap := hf.bounds p (List.mem_append_right _ (List.mem_cons_self ..))
      · exact Nat.le_refl _
      · exact (Nat.le_of_add_right_le hbase).trans hheap.lo
    simp only [first]
    constructor
    · intro h
      exact ⟨by omega,fun b hb => by cases hb⟩
    · rintro ⟨h,-⟩
      omega
  | cons q r =>
    have hq := (habove q (List.mem_cons_self ..)).1
    have hrest := (List.pairwise_cons.mp
      (List.pairwise_cons.mp (List.pairwise_append.mp hf.headers).2.1).2).1
    simp only [first]
    constructor
    · intro h
      refine ⟨by omega,fun b hb => ?_⟩
      obtain rfl | hb := List.mem_cons.mp hb
      · omega
      · have := hrest b hb
        omega
    · rintro ⟨h,hr⟩
      have := hr q (List.mem_cons_self ..)
      omega

/-- The loop of `free` finds the node below a block. -/
theorem seek_spec (hf : FreeList L h nodes) (hlo : L.lo≤bp) (hne : ∀ b∈nodes,b.1≠bp) :
    ∃ l p r,nodes=l++p::r ∧
      follow (placed h.mem bp) (ptr h.mem) L.limit h.freep=some p.1 ∧ p.1 < bp ∧
        ∀ b∈r,bp < b.1 := by
  have hbase := L.base_lo
  obtain ⟨bs,rfl⟩ := hf.eq_cons
  obtain ⟨l,p,r,heq,hp,hr⟩ := @exists_below bs (L.base,0) bp
    (show L.base < bp by omega) (fun b hb => hne b (List.mem_cons_of_mem _ hb)) hf.headers
  have hmem : p.1∈((L.base,0)::bs).map Prod.fst := by
    rw [heq]
    exact List.mem_map_of_mem (List.mem_append_right _ (List.mem_cons_self ..))
  have hplaced : placed h.mem bp p.1=true := by
    rw [heq] at hf
    exact (placed_iff hf hlo).mpr ⟨hp,hr⟩
  obtain ⟨z,hz,hfollow,hstop⟩ := hf.ring.follow_finds hf.length_le hf.start hmem hplaced
  obtain ⟨q,hq,rfl⟩ := List.mem_map.mp hz
  obtain ⟨l',r',heq'⟩ := List.append_of_mem hq
  rw [heq'] at hf
  obtain ⟨hlt,hr'⟩ := (placed_iff hf hlo).mp hstop
  exact ⟨l',q,r',heq',hfollow,hlt,hr'⟩

/-- What is free after the block above has been joined. -/
def upper (bp n : ℕ) : List (ℕ × ℕ) → (ℕ × ℕ) × List (ℕ × ℕ)
  | [] => ((bp,n),[])
  | q::r => if bp+16*n=q.1 then ((bp,n+q.2),r) else ((bp,n),q::r)

theorem joinUpper_spec {mem : Buffer} {n base a : ℕ} (hptr : ptr mem a=first r base)
    (hlink : Linked mem r base) (hsize : size mem bp=n) (hn : 0 < n) (hbase : base < bp)
    (hbp : bp < 2^64) (ha : a+12≤bp) (habove : ∀ b∈r,bp+16*n≤b.1 ∧ b.1 < 2^64)
    (hsum : ∀ b∈r,n+b.2 < 2^32) (hr : r.Pairwise fun a b => a.1+16≤b.1) :
    ptr (joinUpper mem bp a) bp=first (upper bp n r).2 base ∧
      size (joinUpper mem bp a) bp=(upper bp n r).1.2 ∧
      Linked (joinUpper mem bp a) (upper bp n r).2 base ∧
      ∀ i,i < bp ∨ bp+12 ≤ i → joinUpper mem bp a i=mem i := by
  cases r with
  | nil =>
    have hne : ¬bp+16*size mem bp=ptr mem a := by
      rw [hptr,first]
      omega
    rw [joinUpper,if_neg hne,hptr]
    refine ⟨ptr_setPtr (hbase.trans hbp),size_setPtr.trans hsize,trivial,fun i hi => ?_⟩
    exact setPtr_apply (by omega)
  | cons q r =>
    obtain ⟨hq,hq64⟩ := habove q (List.mem_cons_self ..)
    by_cases hmeet : bp+16*n=q.1
    · have hpq : ptr mem a=q.1 := hptr
      have hcond : bp+16*size mem bp=ptr mem a := by rw [hsize,hpq,hmeet]
      have hpa : ptr (setSize mem bp (n+q.2)) a=q.1 :=
        (ptr_congr fun i _ hi => setSize_apply (by omega)).trans hpq
      have hpnext : ptr (setSize mem bp (n+q.2)) q.1=first r base :=
        (ptr_congr fun i hi _ => setSize_apply (by omega)).trans hlink.1
      have heq : joinUpper mem bp a=setPtr (setSize mem bp (n+q.2)) bp (first r base) := by
        rw [joinUpper,if_pos hcond,hsize,hpq,hlink.2.1]
        simp only [hpa,hpnext]
      have hsame : ∀ i,i < bp ∨ bp+12 ≤ i →
          setPtr (setSize mem bp (n+q.2)) bp (first r base) i=mem i := by
        intro i hi
        rw [setPtr_apply (by omega),setSize_apply (by omega)]
      have hfirst : first r base < 2^64 := by
        cases r with
        | nil => exact hbase.trans hbp
        | cons c r => exact (habove c (by simp)).2
      rw [heq,upper,if_pos hmeet]
      refine ⟨ptr_setPtr hfirst,?_,hlink.2.2.congr fun b hb i hi _ => hsame i (.inr ?_),hsame⟩
      · rw [size_setPtr,size_setSize (hsum q (List.mem_cons_self ..))]
      · have := (habove b (List.mem_cons_of_mem _ hb)).1
        omega
    · have hpq : ptr mem a=q.1 := hptr
      have hcond : ¬bp+16*size mem bp=ptr mem a := by rwa [hsize,hpq]
      have hsame : ∀ i,i < bp ∨ bp+12 ≤ i → setPtr mem bp q.1 i=mem i :=
        fun i hi => setPtr_apply (by omega)
      rw [joinUpper,if_neg hcond,upper,if_neg hmeet,hpq]
      refine ⟨ptr_setPtr hq64,size_setPtr.trans hsize,hlink.congr fun b hb i hi _ =>
        hsame i (.inr ?_),hsame⟩
      have := (habove b hb).1
      omega

theorem joinLower_spec {mem : Buffer} {a n sp v : ℕ} (hsp : size mem a=sp) (hv : ptr mem bp=v)
    (hn : size mem bp=n) (hv64 : v < 2^64) (hbp : bp < 2^64) (hsum : sp+n < 2^32)
    (ha : a+12≤bp) :
    (ptr (joinLower mem bp a) a=if a+16*sp=bp then v else bp) ∧
      (size (joinLower mem bp a) a=if a+16*sp=bp then sp+n else sp) ∧
      ∀ i,i < a ∨ a+12 ≤ i → joinLower mem bp a i=mem i := by
  by_cases hmeet : a+16*sp=bp
  · have hcond : a+16*size mem a=bp := by rwa [hsp]
    have hpbp : ptr (setSize mem a (sp+n)) bp=v :=
      (ptr_congr fun i hi _ => setSize_apply (by omega)).trans hv
    have heq : joinLower mem bp a=setPtr (setSize mem a (sp+n)) a v := by
      rw [joinLower,if_pos hcond,hsp,hn]
      simp only [hpbp]
    rw [heq,if_pos hmeet,if_pos hmeet]
    refine ⟨ptr_setPtr hv64,?_,fun i hi => ?_⟩
    · rw [size_setPtr,size_setSize hsum]
    · rw [setPtr_apply (by omega),setSize_apply (by omega)]
  · have hcond : ¬a+16*size mem a=bp := by rwa [hsp]
    rw [joinLower,if_neg hcond,if_neg hmeet,if_neg hmeet]
    exact ⟨ptr_setPtr hbp,size_setPtr.trans hsp,fun i hi => setPtr_apply (by omega)⟩

/-- What is free after the block below has been joined. -/
def lower (p b : ℕ × ℕ) (r : List (ℕ × ℕ)) : List (ℕ × ℕ) :=
  if p.1+16*p.2=b.1 then (p.1,p.2+b.2)::r else p::b::r

/-- The block with the one above, and the blocks behind. -/
theorem upper_spec {n brk : ℕ} (hb : InHeap L brk (bp,n)) (hr : ∀ b∈r,InHeap L brk b)
    (habove : ∀ b∈r,bp+16*n≤b.1) (hs : r.Pairwise fun a b => a.1+16*a.2 < b.1) :
    (upper bp n r).1.1=bp ∧ n≤(upper bp n r).1.2 ∧ InHeap L brk (upper bp n r).1 ∧
      List.Sublist (upper bp n r).2 r ∧
      (∀ b∈(upper bp n r).2,bp+16*(upper bp n r).1.2 < b.1) ∧
      (upper bp n r).1.2+total (upper bp n r).2=n+total r ∧
      ∀ u : ℕ × ℕ,0 < u.2 → Apart u (bp,n) → (∀ b∈r,Apart u b) → Apart u (upper bp n r).1 := by
  cases r with
  | nil =>
    exact ⟨rfl,Nat.le_refl _,hb,List.Sublist.refl _,fun b hb => (by cases hb),rfl,
      fun u _ hu _ => hu⟩
  | cons q r =>
    have hq := hr q (List.mem_cons_self ..)
    have hbehind := (List.pairwise_cons.mp hs).1
    by_cases hmeet : bp+16*n=q.1
    · rw [upper,if_pos hmeet]
      refine ⟨rfl,Nat.le_add_right _ _,⟨hb.lo,Nat.add_pos_left hb.pos _,?_⟩,List.sublist_cons_self ..,
        fun c hc => ?_,?_,fun u hu h1 h2 => ?_⟩
      · have := hq.hi
        simp only
        omega
      · have := hbehind c hc
        simp only
        omega
      · rw [total_cons,Nat.add_assoc]
      · have hu2 := h2 q (List.mem_cons_self ..)
        exact apart_join hu h1 (by rw [hmeet]; exact hu2)
    · rw [upper,if_neg hmeet]
      refine ⟨rfl,Nat.le_refl _,hb,List.Sublist.refl _,fun c hc => ?_,rfl,fun u _ hu _ => hu⟩
      have hle := habove q (List.mem_cons_self ..)
      simp only
      obtain rfl | hc := List.mem_cons.mp hc
      · omega
      · have := hbehind c hc
        omega

/-- A block has become free. -/
structure Freed (L : Layout) (h h' : Heap) (nodes nodes' : List (ℕ × ℕ)) (b : ℕ × ℕ) : Prop where
  list : FreeList L h' nodes'
  brk : h'.brk=h.brk
  total : total nodes'=total nodes+b.2
  room : ∃ c∈nodes',b.2 ≤ c.2
  apart : ∀ u : ℕ × ℕ,0 < u.2 → Apart u b → (∀ c∈nodes,Apart u c) → ∀ c∈nodes',Apart u c
  frame : ∀ i,L.lo ≤ i → (∀ c∈nodes,i < c.1 ∨ c.1+16*c.2 ≤ i) → (i < b.1 ∨ b.1+16*b.2 ≤ i) →
    h'.mem i=h.mem i

/-- `free` ends, and the block is free, joined with the free blocks that it meets. -/
theorem free_spec {n : ℕ} (hf : FreeList L h nodes) (hb : InHeap L h.brk (bp,n))
    (hsize : size h.mem bp=n) (hapart : ∀ c∈nodes,Apart (bp,n) c) :
    ∃ h' nodes',free L h (bp+16)=some h' ∧ Freed L h h' nodes nodes' (bp,n) := by
  have hbase := L.base_lo
  have hlimit := L.limit_le
  have hbrk := hf.brk_le
  have hlo : L.lo≤bp := hb.lo
  have hpos : 0 < n := hb.pos
  have hhi : bp+16*n≤h.brk := hb.hi
  have hheap : ∀ c∈nodes,c.1≠L.base → InHeap L h.brk c := fun c hc hne =>
    (hf.bounds c hc).resolve_left fun heq => hne (by rw [heq])
  have hne : ∀ c∈nodes,c.1≠bp := by
    intro c hc heq
    have hc' := hheap c hc (by omega)
    have hap : bp+16*n ≤ c.1 ∨ c.1+16*c.2≤bp := hapart c hc
    have := hc'.pos
    omega
  obtain ⟨l,p,r,rfl,hfollow,hp,hr⟩ := seek_spec hf hlo hne
  obtain ⟨hleft,hright,hptr,hpsize,hlinkl,hlinkr⟩ := hf.split
  have hpmem : p∈l++p::r := List.mem_append_right _ (List.mem_cons_self ..)
  have hrmem : ∀ c∈r,c∈l++p::r := fun c hc => List.mem_append_right _ (List.mem_cons_of_mem _ hc)
  have hrheap : ∀ c∈r,InHeap L h.brk c := fun c hc => hheap c (hrmem c hc) (by
    have := hr c hc
    omega)
  have habove : ∀ c∈r,bp+16*n ≤ c.1 := by
    intro c hc
    have hap : bp+16*n ≤ c.1 ∨ c.1+16*c.2≤bp := hapart c (hrmem c hc)
    have := hr c hc
    omega
  -- The block begins behind the header of `p`, and behind `p` itself.
  have hple : p.1+16≤bp ∧ p.1+16*p.2≤bp := by
    obtain rfl | hpheap := hf.bounds p hpmem
    · simp only
      omega
    · have hap : bp+16*n≤p.1 ∨ p.1+16*p.2≤bp := hapart p hpmem
      have := hpheap.pos
      omega
  have hrsorted : r.Pairwise fun a b => a.1+16*a.2 < b.1 :=
    (List.pairwise_cons.mp (List.pairwise_append.mp hf.sorted).2.1).2
  have hrheaders : r.Pairwise fun a b => a.1+16≤b.1 :=
    (List.pairwise_cons.mp (List.pairwise_append.mp hf.headers).2.1).2
  obtain ⟨hu1,hu2,hu3,hu4,hu5,hu6,hu7⟩ := upper_spec hb hrheap habove hrsorted
  obtain ⟨hm1,hm2,hm3,hm4⟩ := @joinUpper_spec r bp h.mem n L.base p.1 hptr hlinkr hsize hpos
    (by omega) (by omega) (by omega)
    (fun c hc => ⟨habove c hc,(hrheap c hc).addr_lt hbrk⟩)
    (fun c hc => by
      have := (hrheap c hc).hi
      have := habove c hc
      omega) hrheaders
  generalize hx : upper bp n r=x at hu1 hu2 hu3 hu4 hu5 hu6 hu7 hm1 hm2 hm3
  generalize hmem1 : joinUpper h.mem bp p.1=mem1 at hm1 hm2 hm3 hm4
  obtain ⟨⟨xa,xn⟩,xr⟩ := x
  simp only at hu1 hu2 hu3 hu4 hu5 hu6 hm1 hm2 hm3
  subst hu1
  have hxmem : ∀ c∈xr,c∈l++p::r := fun c hc => hrmem c (hu4.subset hc)
  have hxfirst : first xr L.base < 2^64 := by
    cases xr with
    | nil => exact Nat.lt_of_le_of_lt (Nat.le_of_add_right_le hbase) (by have := L.lo_limit; omega)
    | cons c xr => exact (hrheap c (hu4.subset (List.mem_cons_self ..))).addr_lt hbrk
  have hpsize1 : size mem1 p.1=p.2 := by
    rw [← hpsize]
    exact size_congr fun i _ hi => hm4 i (.inl (by omega))
  have hppos : 0 < p.1 := by
    have := L.base_pos
    obtain rfl | hpheap := hf.bounds p hpmem
    · exact this
    · have := hpheap.lo
      omega
  have hsum : p.2+xn < 2^32 := by
    have hhi' : xa+16*xn≤h.brk := hu3.hi
    omega
  obtain ⟨hn1,hn2,hn3⟩ := @joinLower_spec xa mem1 p.1 xn p.2 _ hpsize1 hm1 hm2 hxfirst (by omega)
    hsum (by omega)
  have hfree : free L h (xa+16)=
      some {h with mem := joinLower mem1 xa p.1,freep := p.1} := by
    rw [free]
    simp only [Nat.add_sub_cancel,hfollow,Option.map_some,hmem1]
  generalize hmem2 : joinLower mem1 xa p.1=mem2 at hn1 hn2 hn3 hfree
  -- Headers other than those of `p` and the block are as before.
  have hother : ∀ i,(i < p.1 ∨ p.1+12 ≤ i) → (i < xa ∨ xa+12 ≤ i) → mem2 i=h.mem i :=
    fun i h1 h2 => (hn3 i h1).trans (hm4 i h2)
  have hlinkl2 : Linked mem2 l p.1 := hlinkl.congr fun c hc i _ hi => by
    have := (hleft c hc).1
    exact hother i (.inl (by omega)) (.inl (by omega))
  have hlinkr2 : Linked mem2 xr L.base := hm3.congr fun c hc i hi _ => by
    have := (hright c (hu4.subset hc)).1
    exact hn3 i (.inr (by omega))
  have hxr : xr.Pairwise fun a b => a.1+16*a.2 < b.1 := hrsorted.sublist hu4
  have hlsorted : l.Pairwise fun a b => a.1+16*a.2 < b.1 := (List.pairwise_append.mp hf.sorted).1
  have htotal : total (l++p::r)=total l+(p.2+total r) := by rw [total_append,total_cons]
  have hframe : ∀ i,L.lo ≤ i → (∀ c∈l++p::r,i < c.1 ∨ c.1+16*c.2 ≤ i) → (i < xa ∨ xa+16*n ≤ i) →
      mem2 i=h.mem i := by
    intro i hi hc hb
    refine hother i ?_ (by omega)
    obtain rfl | hpheap := hf.bounds p hpmem
    · simp only
      omega
    · have := hc p hpmem
      have := hpheap.pos
      omega
  by_cases hmeet : p.1+16*p.2=xa
  · rw [if_pos hmeet] at hn1 hn2
    have hpheap : InHeap L h.brk p := hheap p hpmem (by
      intro heq
      obtain rfl | hpheap := hf.bounds p hpmem
      · simp only at hmeet
        omega
      · have := hpheap.lo
        omega)
    have hlist : FreeList L {h with mem := mem2,freep := p.1} (l++(p.1,p.2+xn)::xr) := by
      refine hf.replace rfl (fun hl => ?_) hlinkl2 ⟨hn1,hn2,hlinkr2⟩
        (List.pairwise_cons.mpr ⟨fun c hc => ?_,hxr⟩) fun c hc => ?_
      · subst hl
        obtain rfl := Option.some.inj hf.head
        exact absurd hpheap.pos (Nat.lt_irrefl _)
      · have := hu5 c hc
        simp only
        omega
      · obtain rfl | hc := List.mem_cons.mp hc
        · refine .inr ⟨hpheap.lo,Nat.add_pos_left hpheap.pos _,?_⟩
          have hhi' : xa+16*xn≤h.brk := hu3.hi
          simp only
          omega
        · exact .inr (hrheap c (hu4.subset hc))
    refine ⟨_,_,hfree,hlist,rfl,?_,?_,fun u hu h1 h2 c hc => ?_,hframe⟩
    · rw [htotal,total_append,total_cons]
      simp only
      omega
    · exact ⟨_,List.mem_append_right _ (List.mem_cons_self ..),hu2.trans (Nat.le_add_left _ _)⟩
    · obtain hc | hc := List.mem_append.mp hc
      · exact h2 c (List.mem_append_left _ hc)
      · obtain rfl | hc := List.mem_cons.mp hc
        · have hx' := hu7 u hu h1 fun c hc => h2 c (hrmem c hc)
          exact apart_join hu (h2 p hpmem) (by rw [hmeet]; exact hx')
        · exact h2 c (hxmem c hc)
  · rw [if_neg hmeet] at hn1 hn2
    have hsize2 : size mem2 xa=xn :=
      (size_congr fun i hi _ => hn3 i (.inr (by omega))).trans hm2
    have hptr2 : ptr mem2 xa=first xr L.base :=
      (ptr_congr fun i hi _ => hn3 i (.inr (by omega))).trans hm1
    have hlist : FreeList L {h with mem := mem2,freep := p.1} (l++p::(xa,xn)::xr) := by
      refine hf.replace rfl (fun hl => ?_) hlinkl2 ⟨hn1,hn2,hptr2,hsize2,hlinkr2⟩
        (List.pairwise_cons.mpr ⟨fun c hc => ?_,List.pairwise_cons.mpr ⟨hu5,hxr⟩⟩) fun c hc => ?_
      · subst hl
        obtain rfl := Option.some.inj hf.head
        rfl
      · obtain rfl | hc := List.mem_cons.mp hc
        · simp only
          omega
        · exact (hright c (hu4.subset hc)).2
      · obtain rfl | hc := List.mem_cons.mp hc
        · exact hf.bounds c hpmem
        · obtain rfl | hc := List.mem_cons.mp hc
          · exact .inr hu3
          · exact .inr (hrheap c (hu4.subset hc))
    refine ⟨_,_,hfree,hlist,rfl,?_,?_,fun u hu h1 h2 c hc => ?_,hframe⟩
    · rw [htotal,total_append,total_cons,total_cons]
      simp only
      omega
    · exact ⟨(xa,xn),List.mem_append_right _ (by simp),hu2⟩
    · obtain hc | hc := List.mem_append.mp hc
      · exact h2 c (List.mem_append_left _ hc)
      · obtain rfl | hc := List.mem_cons.mp hc
        · exact h2 c hpmem
        · obtain rfl | hc := List.mem_cons.mp hc
          · exact hu7 u hu h1 fun c hc => h2 c (hrmem c hc)
          · exact h2 c (hxmem c hc)

end Freeing

/-- A block has been taken from the free ones. -/
structure Taken (L : Layout) (h h' : Heap) (nodes nodes' : List (ℕ × ℕ)) (b : ℕ × ℕ) : Prop where
  list : FreeList L h' nodes'
  brk : h'.brk=h.brk
  heap : InHeap L h.brk b
  size : size h'.mem b.1=b.2
  total : total nodes=total nodes'+b.2
  fresh : ∀ c∈nodes',Apart b c
  apart : ∀ u : ℕ × ℕ,(∀ c∈nodes,Apart u c) → Apart u b ∧ ∀ c∈nodes',Apart u c
  frame : ∀ i,L.lo ≤ i → (∀ c∈nodes,i < c.1 ∨ c.1+16*c.2 ≤ i) → h'.mem i=h.mem i

section Taking

variable {L : Layout} {h : Heap} {nodes l r : List (ℕ × ℕ)} {p q : ℕ × ℕ} {n prevp a : ℕ}

/-- A block that is large enough has a node before it. -/
theorem exists_split (hf : FreeList L h nodes) (hprev : prevp∈nodes.map Prod.fst)
    (ha : ptr h.mem prevp=a) (hn : 0 < n) (hfit : n ≤ size h.mem a) :
    ∃ l p q r,nodes=l++p::q::r ∧ p.1=prevp ∧ q.1=a := by
  have hamem : a∈nodes.map Prod.fst := by
    rw [← ha]
    exact hf.ring.iterate_mem 1 hprev
  obtain ⟨q,hq,rfl⟩ := List.mem_map.mp hamem
  obtain ⟨l,r,rfl⟩ := List.append_of_mem hq
  have hsize := hf.linked.size_eq hq
  obtain rfl | ⟨l,p,rfl⟩ := List.eq_nil_or_concat' l
  · obtain rfl := Option.some.inj hf.head
    simp only at hsize hfit
    omega
  · have heq : l++[p]++q::r=l++p::q::r := by rw [List.append_assoc,List.singleton_append]
    have hpmem : p.1∈(l++[p]++q::r).map Prod.fst := List.mem_map_of_mem (by simp)
    have hptr : ptr h.mem p.1=q.1 := by
      rw [heq] at hf
      exact hf.split.2.2.1
    exact ⟨l,p,q,r,heq,hf.ring.injective hpmem hprev (hptr.trans ha.symm),rfl⟩

/-- What is left of a block, and the blocks behind. -/
def remainder (q : ℕ × ℕ) (n : ℕ) (r : List (ℕ × ℕ)) : List (ℕ × ℕ) :=
  if q.2=n then r else (q.1,q.2-n)::r

theorem mem_remainder {c : ℕ × ℕ} (hn : n≤q.2) (hc : c∈remainder q n r) :
    c∈r ∨ n < q.2 ∧ c=(q.1,q.2-n) := by
  rw [remainder] at hc
  split at hc
  · exact .inl hc
  · obtain rfl | hc := List.mem_cons.mp hc
    · exact .inr ⟨by omega,rfl⟩
    · exact .inl hc

theorem total_remainder (hn : n≤q.2) : total (remainder q n r)+n=q.2+total r := by
  rw [remainder]
  split
  · omega
  · rw [total_cons]
    simp only
    omega

theorem take_spec (hf : FreeList L h nodes) (hprev : prevp∈nodes.map Prod.fst)
    (ha : ptr h.mem prevp=a) (hn : 0 < n) (hfit : n ≤ size h.mem a) :
    ∃ b h' nodes',take h n prevp a=(b+16,h') ∧ Taken L h h' nodes nodes' (b,n) := by
  obtain ⟨l,p,q,r,rfl,rfl,rfl⟩ := exists_split hf hprev ha hn hfit
  have hbase := L.base_lo
  have hlimit := L.limit_le
  have hbrk := hf.brk_le
  obtain ⟨hleft,hright,hpptr,hpsize,hlinkl,hqptr,hqsize,hlinkr⟩ := hf.split
  have hqmem : q∈l++p::q::r := by simp
  have hrmem : ∀ c∈r,c∈l++p::q::r := fun c hc => by simp [hc]
  have hpq := hright q (List.mem_cons_self ..)
  have hqheap : InHeap L h.brk q := by
    refine (hf.bounds q hqmem).resolve_left fun heq => ?_
    rw [hqsize,heq] at hfit
    omega
  have hsorted := (List.pairwise_append.mp hf.sorted).2.1
  have hqr := (List.pairwise_cons.mp (List.pairwise_cons.mp hsorted).2).1
  have hrsorted := (List.pairwise_cons.mp (List.pairwise_cons.mp hsorted).2).2
  have hrheap : ∀ c∈r,InHeap L h.brk c := fun c hc =>
    (hf.bounds c (hrmem c hc)).resolve_left fun heq => by
      have := hqr c hc
      have := hqheap.lo
      have := hqheap.pos
      rw [heq] at *
      omega
  have hpbase : l=[] → p.2=0 := by
    rintro rfl
    obtain rfl := Option.some.inj hf.head
    rfl
  have hpbounds := hf.bounds p (by simp)
  have hqpos := hqheap.pos
  have hqlo := hqheap.lo
  have hqhi := hqheap.hi
  have htotal : total (l++p::q::r)=total l+(p.2+(q.2+total r)) := by
    rw [total_append,total_cons,total_cons]
  have hr64 : first r L.base < 2^64 := by
    cases r with
    | nil => exact Nat.lt_of_le_of_lt (Nat.le_of_add_right_le hbase) (by omega)
    | cons c r => exact (hrheap c (List.mem_cons_self ..)).addr_lt hbrk
  have hframe : ∀ mem : Buffer,(∀ i,(i < p.1 ∨ p.1+12 ≤ i) → (i < q.1 ∨ q.1+16*q.2 ≤ i) →
      mem i=h.mem i) → ∀ i,L.lo ≤ i → (∀ c∈l++p::q::r,i < c.1 ∨ c.1+16*c.2 ≤ i) → mem i=h.mem i := by
    intro mem hmem i hi hout
    refine hmem i ?_ (hout q hqmem)
    obtain rfl | hpheap := hpbounds
    · simp only
      omega
    · have := hout p (by simp)
      have := hpheap.pos
      omega
  have hmain : ∃ h',take h n p.1 q.1=(q.1+16*(q.2-n)+16,h') ∧
      FreeList L h' (l++p::remainder q n r) ∧ h'.brk=h.brk ∧
      size h'.mem (q.1+16*(q.2-n))=n ∧
      ∀ i,L.lo ≤ i → (∀ c∈l++p::q::r,i < c.1 ∨ c.1+16*c.2 ≤ i) → h'.mem i=h.mem i := by
    by_cases hwhole : q.2=n
    · have hcond : size h.mem q.1=n := hqsize.trans hwhole
      have hsame : ∀ i,i < p.1 ∨ p.1+12 ≤ i → setPtr h.mem p.1 (first r L.base) i=h.mem i :=
        fun i hi => setPtr_apply (by omega)
      have hb : q.1+16*(q.2-n)=q.1 := by omega
      rw [take,if_pos hcond,hqptr,remainder,if_pos hwhole,hb]
      refine ⟨_,rfl,?_,rfl,?_,hframe _ fun i hi _ => hsame i hi⟩
      · refine hf.replace rfl hpbase (hlinkl.congr fun c hc i _ hi => ?_)
          ⟨ptr_setPtr hr64,size_setPtr.trans hpsize,hlinkr.congr fun c hc i hi _ => ?_⟩
          (List.pairwise_cons.mpr ⟨fun c hc => ?_,hrsorted⟩) fun c hc => ?_
        · have := (hleft c hc).1
          exact hsame i (.inl (by omega))
        · have := hqr c hc
          exact hsame i (.inr (by omega))
        · have := hqr c hc
          omega
        · obtain rfl | hc := List.mem_cons.mp hc
          · exact hpbounds
          · exact .inr (hrheap c hc)
      · exact (size_congr fun i hi _ => hsame i (.inr (by omega))).trans hcond
    · have hcond : ¬size h.mem q.1=n := by rwa [hqsize]
      have hlt : n < q.2 := by omega
      have hsize1 : size (setSize h.mem q.1 (q.2-n)) q.1=q.2-n :=
        size_setSize ((Nat.sub_le _ _).trans_lt (hqheap.size_lt hbrk))
      have hsame : ∀ i,(i < q.1 ∨ q.1+12 ≤ i) →
          (i < q.1+16*(q.2-n) ∨ q.1+16*(q.2-n)+12 ≤ i) →
          setSize (setSize h.mem q.1 (q.2-n)) (q.1+16*(q.2-n)) n i=h.mem i := by
        intro i h1 h2
        rw [setSize_apply (by omega),setSize_apply (by omega)]
      have htake : take h n p.1 q.1=(q.1+16*(q.2-n)+16,
          ⟨setSize (setSize h.mem q.1 (q.2-n)) (q.1+16*(q.2-n)) n,p.1,h.brk⟩) := by
        rw [take,if_neg hcond,hqsize]
        simp only [hsize1]
      rw [remainder,if_neg hwhole]
      refine ⟨_,htake,?_,rfl,?_,hframe _ fun i _ hi => hsame i (by omega) (by omega)⟩
      · refine hf.replace rfl hpbase (hlinkl.congr fun c hc i _ hi => ?_)
          ⟨?_,?_,?_,?_,hlinkr.congr fun c hc i hi _ => ?_⟩
          (List.pairwise_cons.mpr ⟨fun c hc => ?_,List.pairwise_cons.mpr ⟨fun c hc => ?_,hrsorted⟩⟩)
          fun c hc => ?_
        · have := (hleft c hc).1
          exact hsame i (.inl (by omega)) (.inl (by omega))
        · exact (ptr_congr fun i _ hi => hsame i (.inl (by omega)) (.inl (by omega))).trans hpptr
        · exact (size_congr fun i _ hi => hsame i (.inl (by omega)) (.inl (by omega))).trans hpsize
        · rw [← hqptr]
          refine (ptr_congr fun i hi hi' => ?_).trans (@ptr_setSize h.mem q.1 (q.2-n))
          exact setSize_apply (.inl (by omega))
        · exact (size_congr fun i _ hi => setSize_apply (.inl (by omega))).trans hsize1
        · have := hqr c hc
          exact hsame i (.inr (by omega)) (.inr (by omega))
        · obtain rfl | hc := List.mem_cons.mp hc
          · exact hpq.2
          · have := hqr c hc
            omega
        · have := hqr c hc
          simp only
          omega
        · obtain rfl | hc := List.mem_cons.mp hc
          · exact hpbounds
          · obtain rfl | hc := List.mem_cons.mp hc
            · exact .inr ⟨hqlo,Nat.sub_pos_of_lt hlt,by simp only; omega⟩
            · exact .inr (hrheap c hc)
      · exact size_setSize (Nat.lt_of_le_of_lt (Nat.le_of_lt hlt) (hqheap.size_lt hbrk))
  obtain ⟨h',htake,hlist,hsame_brk,hsize,hout⟩ := hmain
  have hnq : n≤q.2 := by rwa [hqsize] at hfit
  have hnodes : ∀ c∈l++p::remainder q n r,c∈l++[p] ∨ c∈r ∨ n < q.2 ∧ c=(q.1,q.2-n) := by
    intro c hc
    obtain hc | hc := List.mem_append.mp hc
    · exact .inl (List.mem_append_left _ hc)
    · obtain rfl | hc := List.mem_cons.mp hc
      · exact .inl (by simp)
      · exact .inr (mem_remainder hnq hc)
  have hbelow : ∀ c∈l++[p],c.1+16*c.2≤q.1 ∧ c∈l++p::q::r := by
    intro c hc
    obtain hc | hc := List.mem_append.mp hc
    · have := (hleft c hc).2
      exact ⟨by omega,by simp [hc]⟩
    · obtain rfl := List.mem_singleton.mp hc
      exact ⟨Nat.le_of_lt hpq.2,by simp⟩
  refine ⟨_,h',_,htake,hlist,hsame_brk,⟨?_,hn,?_⟩,hsize,?_,fun c hc => ?_,fun u hu => ?_,hout⟩
  · exact hqlo.trans (Nat.le_add_right _ _)
  · simp only
    omega
  · have hrest := @total_remainder r q n hnq
    rw [htotal,total_append,total_cons]
    simp only
    omega
  · obtain hc | hc | ⟨hlt,rfl⟩ := hnodes c hc
    · have := (hbelow c hc).1
      exact .inr (by simp only; omega)
    · have := hqr c hc
      exact .inl (by simp only; omega)
    · exact .inr (by simp only; omega)
  · have huq : u.1+16*u.2≤q.1 ∨ q.1+16*q.2≤u.1 := hu q hqmem
    refine ⟨huq.imp (fun h => by simp only; omega) fun h => by simp only; omega,fun c hc => ?_⟩
    obtain hc | hc | ⟨hlt,rfl⟩ := hnodes c hc
    · exact hu c (hbelow c hc).2
    · exact hu c (hrmem c hc)
    · exact huq.imp id fun h => by simp only; omega

end Taking

/-- There is more memory, and it is free. -/
structure Grown (L : Layout) (h h' : Heap) (nodes nodes' : List (ℕ × ℕ)) (m : ℕ) : Prop where
  list : FreeList L h' nodes'
  brk : h'.brk=h.brk+16*m
  total : total nodes'=total nodes+m
  room : ∃ c∈nodes',m ≤ c.2
  apart : ∀ u,InHeap L h.brk u → (∀ c∈nodes,Apart u c) → ∀ c∈nodes',Apart u c
  frame : ∀ u,InHeap L h.brk u → (∀ c∈nodes,Apart u c) →
    ∀ i,u.1 ≤ i → i < u.1+16*u.2 → h'.mem i=h.mem i

section Searching

variable {L : Layout} {h : Heap} {nodes : List (ℕ × ℕ)} {grant : Bool} {n fuel k x : ℕ}

theorem search_walk (hn : ∀ j < k,¬(n ≤ size h.mem ((ptr h.mem)^[j+1] x) ∨
    (ptr h.mem)^[j+1] x=h.freep)) :
    search L grant n (fuel+k) h x (ptr h.mem x)=
      search L grant n fuel h ((ptr h.mem)^[k] x) ((ptr h.mem)^[k+1] x) := by
  induction k generalizing x with
  | zero => rfl
  | succ k ih =>
    have h0 : ¬(n ≤ size h.mem (ptr h.mem x) ∨ ptr h.mem x=h.freep) := hn 0 (Nat.succ_pos k)
    rw [← Nat.add_assoc,search,if_neg fun hs => h0 (.inl hs),if_neg fun hs => h0 (.inr hs)]
    exact ih fun j hj => hn (j+1) (Nat.succ_lt_succ hj)

/-- The loop of `malloc` takes a block, or comes back to `freep` without having met one. -/
theorem search_spec (hf : FreeList L h nodes) (hn : 0 < n) (hfuel : nodes.length≤fuel) (m : ℕ) :
    (∃ b h' nodes',search L grant n (fuel+m) h h.freep (ptr h.mem h.freep)=some (b+16,h') ∧
      Taken L h h' nodes nodes' (b,n)) ∨
    (∀ c∈nodes,c.2 < n) ∧ ∃ fuel',m≤fuel' ∧
      search L grant n (fuel+m) h h.freep (ptr h.mem h.freep)=
        match morecore L grant h n with
        | none => none
        | some none => some (0,h)
        | some (some h') => search L grant n fuel' h' h'.freep (ptr h'.mem h'.freep) := by
  have hnext : ptr h.mem h.freep∈nodes.map Prod.fst := hf.ring.iterate_mem 1 hf.start
  obtain ⟨k,hk,hstop,hbefore⟩ := hf.ring.exists_first
    (fun y => n ≤ size h.mem y ∨ y=h.freep) hnext hf.start (.inr rfl)
  rw [List.length_map] at hk
  obtain ⟨f,hf'⟩ : ∃ f,fuel+m=f+1+k := ⟨fuel+m-1-k,by omega⟩
  have hwalk : search L grant n (fuel+m) h h.freep (ptr h.mem h.freep)=
      search L grant n (f+1) h ((ptr h.mem)^[k] h.freep) ((ptr h.mem)^[k+1] h.freep) := by
    rw [hf']
    exact search_walk hbefore
  rw [hwalk,search]
  by_cases hfit : n ≤ size h.mem ((ptr h.mem)^[k+1] h.freep)
  · rw [if_pos hfit]
    obtain ⟨b,h',nodes',htake,hspec⟩ := take_spec hf (hf.ring.iterate_mem k hf.start)
      (Function.iterate_succ_apply' ..).symm hn hfit
    exact .inl ⟨b,h',nodes',congrArg some htake,hspec⟩
  · have hback : (ptr h.mem)^[k+1] h.freep=h.freep := hstop.resolve_left hfit
    rw [if_neg hfit,if_pos hback]
    refine .inr ⟨fun c hc => ?_,f,by omega,rfl⟩
    -- The loop has been at every node.
    have hlen := hf.ring.length_le hf.start (Nat.succ_pos k) hback
    obtain ⟨j,hj,hat⟩ := hf.ring.reach hnext (List.mem_map_of_mem hc)
    have hsize := hf.linked.size_eq hc
    rw [List.length_map] at hlen hj
    have hsmall : ¬n ≤ size h.mem c.1 := by
      rw [← hat]
      obtain hlt | rfl := Nat.lt_or_eq_of_le (show j≤k by omega)
      · exact fun hle => hbefore j hlt (.inl hle)
      · exact hfit
    omega

/-- `morecore` gets memory and frees it, or `sbrk` has failed. -/
theorem morecore_spec (hf : FreeList L h nodes) (hlo : L.lo≤h.brk) (hn : 16*n < 2^31) :
    (morecore L grant h n=some none ∧ ¬(grant=true ∧ h.brk+16*max n 4096≤L.limit)) ∨
    ∃ h' nodes',morecore L grant h n=some (some h') ∧ Grown L h h' nodes nodes' (max n 4096) := by
  have hbase := L.base_lo
  have hnu : (if n < 4096 then 4096 else n)=max n 4096 := by
    split
    · rw [max_eq_right (by omega)]
    · rw [max_eq_left (by omega)]
  have hm : 16*max n 4096 < 2^31 := by omega
  have hint : Int.bmod ((16*max n 4096 : ℕ) : ℤ) (2^32)=(16*max n 4096 : ℕ) :=
    Int.bmod_eq_of_le (by omega) (by omega)
  rw [morecore]
  simp only [hnu,hint]
  by_cases hgrant : grant=true ∧ h.brk+16*max n 4096≤L.limit
  · have hcond : grant=true ∧ (h.brk : ℤ)+(16*max n 4096 : ℕ)≤L.limit := ⟨hgrant.1,by
      have := hgrant.2
      omega⟩
    have hbrk : ((h.brk : ℤ)+(16*max n 4096 : ℕ)).toNat=h.brk+16*max n 4096 := by omega
    have hsbrk : sbrk L grant h (16*max n 4096 : ℕ)=
        some (h.brk,{h with brk := h.brk+16*max n 4096}) := by rw [sbrk,if_pos hcond,hbrk]
    rw [hsbrk]
    have hlimit := L.limit_le
    have hsame : ∀ i,i < h.brk → setSize h.mem h.brk (max n 4096) i=h.mem i :=
      fun i hi => setSize_apply (.inl (by omega))
    have hwithin : ∀ c∈nodes,c.1+12≤h.brk ∧ c.1+16*c.2≤h.brk := by
      intro c hc
      obtain rfl | hheap := hf.bounds c hc
      · simp only
        omega
      · have := hheap.hi
        have := hheap.pos
        omega
    have hlist : FreeList L ⟨setSize h.mem h.brk (max n 4096),h.freep,h.brk+16*max n 4096⟩ nodes :=
      ⟨hf.head,hf.linked.congr fun c hc i _ hi => hsame i (by
        have := (hwithin c hc).1
        omega),hf.sorted,
        fun c hc => (hf.bounds c hc).imp_right fun hheap =>
          ⟨hheap.lo,hheap.pos,hheap.hi.trans (Nat.le_add_right _ _)⟩,hf.start,hgrant.2⟩
    have hsize : size (setSize h.mem h.brk (max n 4096)) h.brk=max n 4096 :=
      size_setSize (by omega)
    obtain ⟨h',nodes',hfree,hfreed⟩ := @free_spec L _ nodes h.brk _ hlist
      ⟨hlo,by omega,Nat.le_refl _⟩ hsize fun c hc => .inr (hwithin c hc).2
    refine .inr ⟨h',nodes',congrArg (Option.map some) hfree,hfreed.list,hfreed.brk,hfreed.total,
      hfreed.room,fun u hu hap => ?_,fun u hu hap i hi hi' => ?_⟩
    · exact hfreed.apart u hu.pos (.inl hu.hi) hap
    · have hlt : i < h.brk := Nat.lt_of_lt_of_le hi' hu.hi
      exact (hfreed.frame i (hu.lo.trans hi) (fun c hc => outside (hap c hc) hi hi') (.inl hlt)).trans
        (hsame i hlt)
  · have hcond : ¬(grant=true ∧ (h.brk : ℤ)+(16*max n 4096 : ℕ)≤L.limit) := fun hc =>
      hgrant ⟨hc.1,by
        have := hc.2
        omega⟩
    have hsbrk : sbrk L grant h (16*max n 4096 : ℕ)=none := by rw [sbrk,if_neg hcond]
    rw [hsbrk]
    exact .inl ⟨rfl,hgrant⟩

end Searching

/-- The free blocks, if there have been calls. -/
def Ready (L : Layout) (h : Heap) (nodes : List (ℕ × ℕ)) : Prop :=
  h.freep=0 ∧ nodes=[] ∧ h.brk≤L.limit ∨ FreeList L h nodes

/-- What a call of `malloc` does: it is null only where no free block is large enough and `sbrk`
fails. -/
structure Answered (L : Layout) (grant : Bool) (h h' : Heap) (nodes nodes' : List (ℕ × ℕ))
    (n p : ℕ) : Prop where
  list : FreeList L h' nodes'
  brk : h.brk≤h'.brk
  null : p=0 → (∀ c∈nodes,c.2 < n) ∧ ¬(grant=true ∧ h.brk+16*max n 4096≤L.limit)
  total : total nodes'+(if p=0 then 0 else n)=total nodes+(h'.brk-h.brk)/16
  block : p≠0 → InHeap L h'.brk (p-16,n) ∧ size h'.mem (p-16)=n ∧ 16≤p ∧
    ∀ c∈nodes',Apart (p-16,n) c
  apart : ∀ u,InHeap L h.brk u → (∀ c∈nodes,Apart u c) →
    (∀ c∈nodes',Apart u c) ∧ (p≠0 → Apart u (p-16,n))
  frame : ∀ u,InHeap L h.brk u → (∀ c∈nodes,Apart u c) →
    ∀ i,u.1 ≤ i → i < u.1+16*u.2 → h'.mem i=h.mem i

section Calls

variable {L : Layout} {h h' h1 : Heap} {nodes nodes1 nodes' : List (ℕ × ℕ)} {grant : Bool}
  {b n m nbytes : ℕ}

theorem Taken.answered (ht : Taken L h h' nodes nodes' (b,n)) :
    Answered L grant h h' nodes nodes' n (b+16) := by
  refine ⟨ht.list,ht.brk.ge,fun h0 => absurd h0 (Nat.succ_ne_zero _),?_,fun _ => ?_,
    fun u _ hap => ?_,fun u hu hap i hi hi' => ?_⟩
  · rw [if_neg (Nat.succ_ne_zero _),ht.brk,Nat.sub_self]
    exact ht.total.symm
  · rw [Nat.add_sub_cancel,ht.brk]
    exact ⟨ht.heap,ht.size,Nat.le_add_left _ _,ht.fresh⟩
  · rw [Nat.add_sub_cancel]
    exact ⟨(ht.apart u hap).2,fun _ => (ht.apart u hap).1⟩
  · exact ht.frame i (hu.lo.trans hi) fun c hc => outside (hap c hc) hi hi'

/-- A block is taken after there is more memory. -/
theorem Grown.answered (hg : Grown L h h1 nodes nodes1 m)
    (ht : Taken L h1 h' nodes1 nodes' (b,n)) : Answered L grant h h' nodes nodes' n (b+16) := by
  have ha : Answered L grant h1 h' nodes1 nodes' n (b+16) := ht.answered
  have hbrk := hg.brk
  have hheap : ∀ u,InHeap L h.brk u → InHeap L h1.brk u :=
    fun u hu => ⟨hu.lo,hu.pos,by have := hu.hi; omega⟩
  refine ⟨ht.list,by have := ha.brk; omega,fun h0 => absurd h0 (Nat.succ_ne_zero _),?_,ha.block,
    fun u hu hap => ha.apart u (hheap u hu) (hg.apart u hu hap),fun u hu hap i hi hi' => ?_⟩
  · have htotal := ht.total
    have hgrown := hg.total
    have hsame := ht.brk
    rw [if_neg (Nat.succ_ne_zero _)]
    simp only at htotal
    omega
  · exact (ha.frame u (hheap u hu) (hg.apart u hu hap) i hi hi').trans (hg.frame u hu hap i hi hi')

theorem units_pos : 0 < units nbytes := Nat.succ_pos _

/-- `malloc` ends. -/
theorem search_answered (hf : FreeList L h nodes) (hlo : L.lo≤h.brk) (hreq : nbytes+32≤2^31) :
    ∃ p h' nodes',
      search L grant (units nbytes) (2*L.limit+2) h h.freep (ptr h.mem h.freep)=some (p,h') ∧
        Answered L grant h h' nodes nodes' (units nbytes) p := by
  have hunits : 16*units nbytes < 2^31 := by
    rw [units]
    omega
  have hlen : ∀ {h : Heap} {nodes : List (ℕ × ℕ)},FreeList L h nodes → nodes.length≤L.limit :=
    fun hf => by
      have := hf.length_le
      rwa [List.length_map] at this
  have hfuel : 2*L.limit+2=L.limit+(L.limit+2) := by omega
  rw [hfuel]
  obtain ⟨b,h',nodes',hsearch,ht⟩ | ⟨hsmall,f,hf',hsearch⟩ :=
    @search_spec L h nodes grant _ _ hf units_pos (hlen hf) (L.limit+2)
  · exact ⟨b+16,h',nodes',hsearch,ht.answered⟩
  · obtain ⟨hmore,hfull⟩ | ⟨h1,nodes1,hmore,hg⟩ := @morecore_spec L h nodes grant _ hf hlo hunits
    · rw [hmore] at hsearch
      refine ⟨0,h,nodes,hsearch,hf,Nat.le_refl _,fun _ => ⟨hsmall,hfull⟩,?_,
        fun h0 => absurd rfl h0,fun u _ hap => ⟨hap,fun h0 => absurd rfl h0⟩,fun u _ _ i _ _ => rfl⟩
      rw [if_pos rfl,Nat.sub_self]
    · rw [hmore] at hsearch
      obtain ⟨f,rfl⟩ : ∃ f',f=L.limit+f' := ⟨f-L.limit,by omega⟩
      obtain ⟨b,h',nodes',hsearch',ht⟩ | ⟨hsmall1,-⟩ :=
        @search_spec L h1 nodes1 grant _ _ hg.list units_pos (hlen hg.list) f
      · exact ⟨b+16,h',nodes',hsearch.trans hsearch',hg.answered ht⟩
      · obtain ⟨c,hc,hroom⟩ := hg.room
        have := hsmall1 c hc
        omega

theorem malloc_spec (hr : Ready L h nodes) (hlo : L.lo≤h.brk) (hreq : nbytes+32≤2^31) :
    ∃ p h' nodes',malloc L grant h nbytes=some (p,h') ∧
      Answered L grant h h' nodes nodes' (units nbytes) p := by
  obtain ⟨h0,rfl,hbrk⟩ | hf := hr
  · have hbase := L.base_lo
    have hlimit := L.limit_le
    have hb64 : L.base < 2^64 := by
      have := L.lo_limit
      omega
    have hsame : ∀ i,L.lo ≤ i → setSize (setPtr h.mem L.base L.base) L.base 0 i=h.mem i :=
      fun i hi => by rw [setSize_apply (by omega),setPtr_apply (by omega)]
    have hlist : FreeList L ⟨setSize (setPtr h.mem L.base L.base) L.base 0,L.base,h.brk⟩
        [(L.base,0)] := by
      refine ⟨rfl,⟨ptr_setSize.trans (ptr_setPtr hb64),size_setSize (by decide),trivial⟩,
        List.pairwise_singleton ..,fun c hc => .inl (List.mem_singleton.mp hc),
        List.mem_singleton_self _,hbrk⟩
    obtain ⟨p,h',nodes',hsearch,ha⟩ := @search_answered L _ _ grant nbytes hlist hlo hreq
    have hap : ∀ u,InHeap L h.brk u → ∀ c∈[(L.base,0)],Apart u c := by
      intro u hu c hc
      obtain rfl := List.mem_singleton.mp hc
      have := hu.lo
      exact .inr (by simp only; omega)
    have hmalloc : malloc L grant h nbytes=some (p,h') := by
      rw [malloc,if_pos h0]
      exact hsearch
    refine ⟨p,h',nodes',hmalloc,ha.list,ha.brk,
      fun hp => ⟨fun c hc => (by cases hc),(ha.null hp).2⟩,
      ha.total,ha.block,fun u hu _ => ha.apart u hu (hap u hu),fun u hu _ i hi hi' => ?_⟩
    exact (ha.frame u hu (hap u hu) i hi hi').trans (hsame i (hu.lo.trans hi))
  · rw [malloc,if_neg hf.freep_ne]
    exact search_answered hf hlo hreq

end Calls

/-- What a program does. -/
inductive Action where
  /-- A call of `malloc`, and whether `sbrk` would succeed. -/
  | malloc (nbytes : ℕ) (grant : Bool)
  | free (ap : ℕ)
  /-- A byte is written to a block that the program has. -/
  | write (a : ℕ) (v : UInt8)
  /-- A call of `sbrk` of its own, which moves the break up. -/
  | sbrk (n : ℕ)

/-- The heap with the blocks that the program has, what it has written to them, and the units that
`malloc` has asked `sbrk` for. -/
structure State where
  heap : Heap
  used : List (ℕ × ℕ)
  written : ℕ → Option UInt8
  obtained : ℕ

/-- The program begins. -/
def start (L : Layout) (mem : Buffer) : State := ⟨⟨mem,0,L.lo⟩,[],fun _ => none,0⟩

/-- A step. A program asks for at most 2^31-32 bytes, frees what it has, writes there only, and
does not give memory back by a negative `sbrk`. -/
def step (L : Layout) (s : State) : Action → Outcome Unit State
  | .malloc nbytes grant =>
    if nbytes+32≤2^31 then
      match malloc L grant s.heap nbytes with
      | none => .fault ()
      | some (p,h) => .next ⟨h,if p=0 then s.used else (p-16,units nbytes)::s.used,s.written,
          s.obtained+(h.brk-s.heap.brk)/16⟩
    else .blocked
  | .free ap =>
    match s.used.find? fun b => decide (b.1+16=ap) with
    | none => .blocked
    | some b =>
      match free L s.heap ap with
      | none => .fault ()
      | some h => .next ⟨h,s.used.erase b,
          fun i => if b.1 ≤ i ∧ i < b.1+16*b.2 then none else s.written i,s.obtained⟩
  | .write a v =>
    if ∃ b∈s.used,b.1+16≤a ∧ a < b.1+16*b.2 then
      .next {s with
        heap := {s.heap with mem := Function.update s.heap.mem a v}
        written := Function.update s.written a (some v)}
    else .blocked
  | .sbrk n =>
    if s.heap.brk+n≤L.limit then .next {s with heap := {s.heap with brk := s.heap.brk+n}}
    else .blocked

/-- The heap is in order: no byte is in two blocks, nothing is lost, and what a program has written
to a block is there. -/
structure Safe (L : Layout) (s : State) (nodes : List (ℕ × ℕ)) : Prop where
  ready : Ready L s.heap nodes
  first : s.heap.freep=0 → s.used=[]
  lo : L.lo ≤ s.heap.brk
  heap : ∀ b∈s.used,InHeap L s.heap.brk b ∧ size s.heap.mem b.1=b.2
  apart : s.used.Pairwise Apart
  free : ∀ b∈s.used,∀ c∈nodes,Apart b c
  written : ∀ i v,s.written i=some v →
    s.heap.mem i=v ∧ ∃ b∈s.used,b.1+16 ≤ i ∧ i < b.1+16*b.2
  total : total nodes+total s.used=s.obtained

section Runs

variable {L : Layout} {s t : State} {nodes : List (ℕ × ℕ)}

/-- The free list depends on the headers of its nodes. -/
theorem FreeList.congr {h : Heap} {mem : Buffer} {brk : ℕ} (hf : FreeList L h nodes)
    (hsame : ∀ c∈nodes,∀ i,c.1 ≤ i → i < c.1+12 → mem i=h.mem i) (hbrk : h.brk≤brk)
    (hlimit : brk≤L.limit) : FreeList L ⟨mem,h.freep,brk⟩ nodes :=
  ⟨hf.head,hf.linked.congr hsame,hf.sorted,fun c hc => (hf.bounds c hc).imp_right fun hheap =>
    ⟨hheap.lo,hheap.pos,hheap.hi.trans hbrk⟩,hf.start,hlimit⟩

theorem Safe.start (mem : Buffer) : Safe L (start L mem) [] :=
  ⟨.inl ⟨rfl,rfl,L.lo_limit⟩,fun _ => rfl,Nat.le_refl _,fun b hb => (by cases hb),
    List.Pairwise.nil,fun b hb => (by cases hb),fun i v h => (by cases h),rfl⟩

theorem Safe.malloc {nbytes : ℕ} {grant : Bool} (hs : Safe L s nodes) (hreq : nbytes+32≤2^31) :
    ∃ p h nodes',malloc L grant s.heap nbytes=some (p,h) ∧
      Safe L ⟨h,if p=0 then s.used else (p-16,units nbytes)::s.used,s.written,
        s.obtained+(h.brk-s.heap.brk)/16⟩ nodes' := by
  obtain ⟨p,h,nodes',hmalloc,ha⟩ := @malloc_spec L s.heap nodes grant nbytes hs.ready hs.lo hreq
  have hold : ∀ b∈s.used,InHeap L h.brk b ∧ size h.mem b.1=b.2 ∧ ∀ c∈nodes',Apart b c := by
    intro b hb
    obtain ⟨hheap,hsize⟩ := hs.heap b hb
    have hpos := hheap.pos
    refine ⟨⟨hheap.lo,hpos,hheap.hi.trans ha.brk⟩,?_,(ha.apart b hheap (hs.free b hb)).1⟩
    rw [← hsize]
    exact size_congr fun i hi hi' => ha.frame b hheap (hs.free b hb) i hi (by omega)
  have hwritten : ∀ i v,s.written i=some v →
      h.mem i=v ∧ ∃ b∈s.used,b.1+16 ≤ i ∧ i < b.1+16*b.2 := by
    intro i v hv
    obtain ⟨hmem,b,hb,hi,hi'⟩ := hs.written i v hv
    refine ⟨?_,b,hb,hi,hi'⟩
    rw [← hmem]
    exact ha.frame b (hs.heap b hb).1 (hs.free b hb) i (by omega) hi'
  have htotal := ha.total
  have hsum := hs.total
  refine ⟨p,h,nodes',hmalloc,?_⟩
  by_cases hp : p=0
  · rw [if_pos hp] at htotal ⊢
    refine ⟨.inr ha.list,fun h0 => absurd h0 ha.list.freep_ne,hs.lo.trans ha.brk,fun b hb => ⟨(hold b hb).1,(hold b hb).2.1⟩,hs.apart,
      fun b hb => (hold b hb).2.2,hwritten,?_⟩
    simp only
    omega
  · rw [if_neg hp] at htotal ⊢
    obtain ⟨hheap,hsize,-,hfresh⟩ := ha.block hp
    refine ⟨.inr ha.list,fun h0 => absurd h0 ha.list.freep_ne,hs.lo.trans ha.brk,fun b hb => ?_,List.pairwise_cons.mpr ⟨fun b hb => ?_,
      hs.apart⟩,fun b hb => ?_,fun i v hv => ?_,?_⟩
    · obtain rfl | hb := List.mem_cons.mp hb
      · exact ⟨hheap,hsize⟩
      · exact ⟨(hold b hb).1,(hold b hb).2.1⟩
    · exact ((ha.apart b (hs.heap b hb).1 (hs.free b hb)).2 hp).symm
    · obtain rfl | hb := List.mem_cons.mp hb
      · exact hfresh
      · exact (hold b hb).2.2
    · obtain ⟨hmem,b,hb,hi⟩ := hwritten i v hv
      exact ⟨hmem,b,List.mem_cons_of_mem _ hb,hi⟩
    · rw [total_cons]
      simp only
      omega

theorem Safe.free_step {b : ℕ × ℕ} (hs : Safe L s nodes) (hb : b∈s.used) :
    ∃ h nodes',Malloc.free L s.heap (b.1+16)=some h ∧
      Safe L ⟨h,s.used.erase b,fun i => if b.1 ≤ i ∧ i < b.1+16*b.2 then none else s.written i,
        s.obtained⟩ nodes' := by
  obtain ⟨hheap,hsize⟩ := hs.heap b hb
  have hf : FreeList L s.heap nodes := hs.ready.resolve_left fun h0 => by
    rw [hs.first h0.1] at hb
    cases hb
  obtain ⟨h,nodes',hfree,hfreed⟩ := free_spec hf hheap hsize (hs.free b hb)
  have hperm : s.used.Perm (b::s.used.erase b) := List.perm_cons_erase hb
  have hpair : (b::s.used.erase b).Pairwise Apart :=
    (hperm.pairwise_iff fun hab => Or.symm hab).mp hs.apart
  have hb' : ∀ u∈s.used.erase b,Apart b u := (List.pairwise_cons.mp hpair).1
  have hmem : ∀ u∈s.used.erase b,u∈s.used := fun u hu => List.mem_of_mem_erase hu
  have hsame : ∀ u∈s.used.erase b,∀ i,u.1 ≤ i → i < u.1+16*u.2 → h.mem i=s.heap.mem i := by
    intro u hu i hi hi'
    exact hfreed.frame i ((hs.heap u (hmem u hu)).1.lo.trans hi)
      (fun c hc => outside (hs.free u (hmem u hu) c hc) hi hi') (outside (hb' u hu).symm hi hi')
  have hbrk := hfreed.brk
  refine ⟨h,nodes',hfree,.inr hfreed.list,fun h0 => absurd h0 hfreed.list.freep_ne,
    hbrk.symm ▸ hs.lo,fun u hu => ?_,(List.pairwise_cons.mp hpair).2,fun u hu => ?_,
    fun i v hv => ?_,?_⟩
  · obtain ⟨hu1,hu2⟩ := hs.heap u (hmem u hu)
    have hpos := hu1.pos
    refine ⟨⟨hu1.lo,hpos,hbrk.symm ▸ hu1.hi⟩,?_⟩
    rw [← hu2]
    exact size_congr fun i hi hi' => hsame u hu i hi (by omega)
  · exact hfreed.apart u (hs.heap u (hmem u hu)).1.pos (hb' u hu).symm (hs.free u (hmem u hu))
  · simp only at hv
    split at hv
    · cases hv
    · rename_i hout
      obtain ⟨hv',u,hu,hi,hi'⟩ := hs.written i v hv
      have hne : u≠b := by
        rintro rfl
        exact hout ⟨by omega,hi'⟩
      have hu' : u∈s.used.erase b := (List.mem_erase_of_ne hne).mpr hu
      exact ⟨(hsame u hu' i (by omega) hi').trans hv',u,hu',hi,hi'⟩
  · have hsum : Malloc.total s.used=b.2+Malloc.total (s.used.erase b) := by
      rw [← total_cons]
      exact (hperm.map Prod.snd).sum_eq
    have htotal := hfreed.total
    have hold := hs.total
    simp only at htotal ⊢
    omega

theorem Safe.write {a : ℕ} {v : UInt8} (hs : Safe L s nodes)
    (ha : ∃ b∈s.used,b.1+16≤a ∧ a < b.1+16*b.2) :
    Safe L {s with
      heap := {s.heap with mem := Function.update s.heap.mem a v}
      written := Function.update s.written a (some v)} nodes := by
  obtain ⟨b,hb,hlo,hhi⟩ := ha
  have hbheap := (hs.heap b hb).1
  have hother : ∀ i,i≠a → Function.update s.heap.mem a v i=s.heap.mem i :=
    fun i hi => Function.update_of_ne hi ..
  have hready : Ready L {s.heap with mem := Function.update s.heap.mem a v} nodes := by
    obtain h0 | hf := hs.ready
    · exact .inl h0
    · refine .inr (hf.congr (fun c hc i hi hi' => hother i ?_) (Nat.le_refl _) hf.brk_le)
      have hbc : b.1+16*b.2 ≤ c.1 ∨ c.1+16*c.2≤b.1 := hs.free b hb c hc
      have hbase := L.base_lo
      have hblo := hbheap.lo
      obtain rfl | hheap := hf.bounds c hc
      · simp only at hi'
        omega
      · have := hheap.pos
        omega
  refine ⟨hready,hs.first,hs.lo,fun u hu => ?_,hs.apart,hs.free,fun i w hw => ?_,hs.total⟩
  · obtain ⟨hu1,hu2⟩ := hs.heap u hu
    refine ⟨hu1,?_⟩
    rw [← hu2]
    have hpos := hu1.pos
    refine size_congr fun i hi hi' => hother i ?_
    by_cases hub : u=b
    · subst hub
      omega
    · have hperm : s.used.Perm (b::s.used.erase b) := List.perm_cons_erase hb
      have hpair := (hperm.pairwise_iff fun hab => Or.symm hab).mp hs.apart
      have hap : b.1+16*b.2≤u.1 ∨ u.1+16*u.2≤b.1 :=
        (List.pairwise_cons.mp hpair).1 u ((List.mem_erase_of_ne hub).mpr hu)
      omega
  · have hw' : Function.update s.written a (some v) i=some w := hw
    by_cases hi : i=a
    · subst hi
      rw [Function.update_self] at hw'
      exact ⟨(Function.update_self ..).trans (Option.some.inj hw'),b,hb,hlo,hhi⟩
    · rw [Function.update_of_ne hi] at hw'
      obtain ⟨hmem,hblock⟩ := hs.written i w hw'
      exact ⟨(hother i hi).trans hmem,hblock⟩

theorem Safe.sbrk {n : ℕ} (hs : Safe L s nodes) (hn : s.heap.brk+n≤L.limit) :
    Safe L {s with heap := {s.heap with brk := s.heap.brk+n}} nodes := by
  refine ⟨hs.ready.imp (fun h0 => ⟨h0.1,h0.2.1,hn⟩) fun hf => hf.congr (fun _ _ _ _ _ => rfl)
    (Nat.le_add_right _ _) hn,hs.first,hs.lo.trans (Nat.le_add_right _ _),fun u hu => ?_,hs.apart,
    hs.free,hs.written,hs.total⟩
  obtain ⟨hu1,hu2⟩ := hs.heap u hu
  exact ⟨⟨hu1.lo,hu1.pos,hu1.hi.trans (Nat.le_add_right _ _)⟩,hu2⟩

/-- A step of a program leaves the heap in order, and no loop goes on for ever. -/
theorem Safe.step (hs : Safe L s nodes) (a : Action) :
    step L s a≠.fault () ∧ ∀ t,step L s a=.next t → ∃ nodes',Safe L t nodes' := by
  cases a with
  | malloc nbytes grant =>
    rw [Malloc.step]
    split
    · rename_i hreq
      obtain ⟨p,h,nodes',hmalloc,hsafe⟩ := @Safe.malloc L s nodes nbytes grant hs hreq
      rw [hmalloc]
      exact Outcome.next_safe ⟨nodes',hsafe⟩
    · exact Outcome.blocked_safe
  | free ap =>
    rw [Malloc.step]
    split
    · exact Outcome.blocked_safe
    · rename_i b hfind
      have hap : b.1+16=ap := of_decide_eq_true (List.find?_some hfind :)
      subst hap
      obtain ⟨h,nodes',hfree,hsafe⟩ := hs.free_step (List.mem_of_find?_eq_some hfind)
      rw [hfree]
      exact Outcome.next_safe ⟨nodes',hsafe⟩
  | write a v =>
    rw [Malloc.step]
    split
    · exact Outcome.next_safe ⟨nodes,hs.write ‹_›⟩
    · exact Outcome.blocked_safe
  | sbrk n =>
    rw [Malloc.step]
    split
    · exact Outcome.next_safe ⟨nodes,hs.sbrk ‹_›⟩
    · exact Outcome.blocked_safe

end Runs

/-- In every run no loop of the allocator goes on for ever, the heap stays in order, and `malloc`
gives no block only where no free block is large enough and `sbrk` fails. -/
theorem heap_in_order (L : Layout) (mem : Buffer) (acts : List Action) :
    run (step L) (start L mem) acts≠.fault () ∧
      ∀ s,run (step L) (start L mem) acts=.next s → ∃ nodes,Safe L s nodes ∧
        ∀ nbytes grant h,nbytes+32≤2^31 → malloc L grant s.heap nbytes=some (0,h) →
          (∀ c∈nodes,c.2 < units nbytes) ∧
            ¬(grant=true ∧ s.heap.brk+16*max (units nbytes) 4096≤L.limit) := by
  have hstep : ∀ s a t,(∃ nodes,Safe L s nodes) → True → step L s a=.next t →
      ∃ nodes,Safe L t nodes := fun s a t ⟨nodes,hs⟩ _ h => (hs.step a).2 t h
  have hsafe : ∀ s a,(∃ nodes,Safe L s nodes) → True → step L s a≠.fault () :=
    fun s a ⟨nodes,hs⟩ _ => (hs.step a).1
  have hguard : Guarded (step L) (fun _ _ => True) (start L mem) acts :=
    guarded_of_forall (fun _ _ => trivial) _ _
  refine ⟨run_no_fault hstep hsafe ⟨[],Safe.start mem⟩ hguard,fun s hs => ?_⟩
  obtain ⟨nodes,hn⟩ := run_invariant hstep ⟨[],Safe.start mem⟩ hguard hs
  refine ⟨nodes,hn,fun nbytes grant h hreq hnull => ?_⟩
  obtain ⟨p,h',nodes',hmalloc,ha⟩ := @malloc_spec L s.heap nodes grant nbytes hn.ready hn.lo hreq
  rw [hnull] at hmalloc
  cases hmalloc
  exact ha.null rfl

/-- A heap of a mebibyte. -/
def mebibyte : Layout := ⟨8,32,2^20,by decide,by decide,by decide,by decide⟩

/-- Two blocks, the first of which is written to and freed, and a third that fits into it. -/
def reusing : List Action :=
  [.malloc 20 true,.malloc 8 true,.write 65504 7,.free 65536,.malloc 10 false]

theorem heap_in_order_reusing : ∃ s,run (step mebibyte) (start mebibyte fun _ => 0) reusing=.next s ∧
    s.used=[(65536,2),(65488,2)] ∧ s.heap.mem 65504=7 ∧ ∃ nodes,Safe mebibyte s nodes := by
  have htest : (run (step mebibyte) (start mebibyte fun _ => 0) reusing).test
      (fun s => decide (s.used=[(65536,2),(65488,2)] ∧ s.heap.mem 65504=7))=true := by
    decide +kernel
  obtain ⟨s,hrun,hs⟩ := Outcome.exists_of_test htest
  obtain ⟨nodes,hsafe,-⟩ := (heap_in_order mebibyte (fun _ => 0) reusing).2 s hrun
  obtain ⟨hused,hmem⟩ := of_decide_eq_true hs
  exact ⟨s,hrun,hused,hmem,nodes,hsafe⟩

end Xv6Rust.Malloc

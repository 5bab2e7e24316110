import Xv6Rust.InodeLayer

/-!
# Parsing of paths

`skip_path` of `fs/inode.rs` with the positions it reads: every index is checked
against the slice except in the copy to `name`, which goes through a raw pointer. The
elements of a path are the maximal non-empty runs of bytes other than a slash before
the first zero, which is what splitting at slashes gives when the empty pieces are
dropped. Calling `skip_path` from 0 on until it returns 0 finds them in order.
-/

namespace Xv6Rust.PathParse

open InodeLayer

/-- The slash. -/
def slash (c : UInt8) : Bool := decide (c=0x2f)

/-- A byte that belongs to an element. -/
def inElement (c : UInt8) : Bool := c≠0x2f && c≠0

theorem slash_eq : slash=fun c : UInt8 => decide (c=0x2f) := rfl

theorem inElement_eq : inElement=fun c : UInt8 => c≠0x2f && c≠0 := rfl

/-- A loop that goes on while the byte at the position passes a test, with the positions
read so far. It has no result where an index is past the slice. -/
def scan (p : UInt8 → Bool) (path : List UInt8) : ℕ → ℕ → List ℕ → Option (ℕ×List ℕ)
  | 0,_,_ => none
  | fuel+1,cur,seen => do
    let c ← path[cur]?
    if p c=true then scan p path fuel (cur+1) (seen++[cur]) else some (cur,seen++[cur])

/-- `skip_path` with the positions read. A loop takes at most one round for every byte of
the slice and one for the end. -/
def skipPathReads (path : List UInt8) (cur : ℕ) (name : Name) : Option ((ℕ×Name)×List ℕ) := do
  let (start,seen) ← scan slash path (path.length+1) cur []
  let c ← path[start]?
  let seen := seen++[start]
  if c=0 then some ((0,name),seen)
  else
    let (stop,seen) ← scan inElement path (path.length+1) start seen
    let count := if stop-start≥maxDirSize then maxDirSize-1 else stop-start
    let seen := seen++(List.range count).map fun k => start+k
    let name : Name := fun i =>
      if i.val < count then pathAt path (start+i) else if i.val=count then 0 else name i
    let (next,seen) ← scan slash path (path.length+1) stop seen
    some ((next,name),seen)

/-- Call `skip_path` until it returns 0; the results before that and the positions read. -/
def elements (path : List UInt8) : ℕ → ℕ → Name → Option (List (ℕ×Name)×List ℕ)
  | 0,_,_ => none
  | fuel+1,cur,name => do
    let (r,seen) ← skipPathReads path cur name
    if r.1=0 then some ([],seen)
    else
      let (rest,seen') ← elements path fuel r.1 r.2
      some (r::rest,seen++seen')

/-- The maximal non-empty runs of bytes other than a slash, in order. -/
def components (bytes : List UInt8) : List (List UInt8) :=
  (bytes.splitOn 0x2f).filter fun run => run≠[]

/-- The first zero of a path. -/
structure FirstZero (path : List UInt8) (nul : ℕ) : Prop where
  /-- It is there. -/
  here : path[nul]?=some 0
  /-- There is none before it. -/
  first : ∀ k<nul,path[k]?≠some 0

/-- The bytes from a position to the first zero. -/
def rest (path : List UInt8) (nul cur : ℕ) : List UInt8 := (path.take nul).drop cur

/-- A name has the bytes of an element, as many as fit, and a zero behind them. -/
def Written (name : Name) (run : List UInt8) : Prop :=
  ∀ i : Fin maxDirSize,
    (i.val < min run.length (maxDirSize-1) → run[i.val]?=some (name i)) ∧
    (i.val=min run.length (maxDirSize-1) → name i=0)

/-- What one call does from a position: it reads nothing behind the zero and finds the
next element, with the position where the search goes on; at that position is the zero
exactly when the element is the last one. -/
def Parses (path : List UInt8) (nul cur : ℕ) (name : Name) : Prop :=
  ∃ r seen,skipPathReads path cur name=some (r,seen) ∧ r=skipPath path cur name ∧
    (∀ k∈seen,k≤nul) ∧
    ((components (rest path nul cur)=[] ∧ r=(0,name)) ∨
      ∃ run runs,components (rest path nul cur)=run::runs ∧ Written r.2 run ∧
        (cur < r.1 ∧ r.1≤nul) ∧ components (rest path nul r.1)=runs ∧ (r.1=nul ↔ runs=[]))

section Components

variable {bytes run : List UInt8}

theorem components_nil : components []=[] := rfl

/-- A slash ends one element and is part of none. -/
theorem components_append (xs ys : List UInt8) :
    components (xs++0x2f::ys)=components xs++components ys := by
  rw [components,List.splitOn_append_cons_self,List.filter_append]
  rfl

theorem components_slash (ys : List UInt8) : components (0x2f::ys)=components ys :=
  components_append [] ys

/-- A run without a slash is one element. -/
theorem components_run (hne : run≠[]) (hs : 0x2f∉run) : components run=[run] := by
  rw [components,List.splitOn_eq_singleton hs,List.filter_singleton]
  simp [hne]

/-- Slashes in front are skipped. -/
theorem components_slashes {xs : List UInt8} (h : ∀ c∈xs,c=0x2f) :
    components (xs++bytes)=components bytes := by
  induction xs with
  | nil => rfl
  | cons x xs ih =>
    rw [h x List.mem_cons_self,List.cons_append,components_slash]
    exact ih fun c hc => h c (List.mem_cons_of_mem x hc)

/-- A run that ends with the bytes or before a slash is the first element. -/
theorem components_first (hne : run≠[]) (hs : 0x2f∉run)
    (hend : bytes=[] ∨ ∃ ys,bytes=0x2f::ys) : components (run++bytes)=run::components bytes := by
  rcases hend with rfl|⟨ys,rfl⟩
  · rw [List.append_nil,components_run hne hs,components_nil]
  · rw [components_append,components_run hne hs,components_slash]
    rfl

/-- There is an element where a byte is not a slash. -/
theorem components_ne_nil {c : UInt8} (hc : c≠0x2f) : components (c::bytes)≠[] := by
  obtain ⟨piece,pieces,hp⟩ := List.exists_cons_of_ne_nil (List.splitOn_ne_nil (0x2f : UInt8) bytes)
  have hfirst : c::piece∈(c::bytes).splitOn 0x2f := by
    rw [List.splitOn_cons_eq_if_modifyHead,if_neg (by simpa using hc),hp,List.modifyHead_cons]
    exact List.mem_cons_self
  have hmem : c::piece∈components (c::bytes) :=
    List.mem_filter.mpr ⟨hfirst,by simp⟩
  exact List.ne_nil_of_mem hmem

end Components

section Rest

variable {path : List UInt8} {nul cur stop : ℕ}

/-- The bytes up to a position and from it on. -/
theorem rest_split (h : cur ≤ stop) (hn : stop≤nul) :
    rest path nul cur=rest path stop cur++rest path nul stop := by
  have htake : (rest path nul cur).take (stop-cur)=rest path stop cur := by
    rw [rest,rest,List.take_drop,List.take_take]
    congr 2
    omega
  have hdrop : (rest path nul cur).drop (stop-cur)=rest path nul stop := by
    rw [rest,rest,List.drop_drop]
    congr 1
    omega
  rw [←htake,←hdrop,List.take_append_drop]

theorem rest_self : rest path nul nul=[] := by
  rw [rest,List.drop_eq_nil_iff]
  exact List.length_take_le nul path

theorem getElem?_rest (i : ℕ) :
    (rest path stop cur)[i]?=if cur+i < stop then path[cur+i]? else none := by
  rw [rest,List.getElem?_drop,List.getElem?_take]

theorem length_rest (h : stop≤path.length) : (rest path stop cur).length=stop-cur := by
  rw [rest,List.length_drop,List.length_take,Nat.min_eq_left h]

/-- The copy of an element to the name. -/
theorem written_copy {start count : ℕ} {name : Name} (h : stop≤path.length) (hlt : start ≤ stop)
    (hcount : count=min (stop-start) (maxDirSize-1)) :
    Written (fun i => if i.val < count then pathAt path (start+i)
      else if i.val=count then 0 else name i) (rest path stop start) := by
  intro i
  rw [length_rest h,←hcount]
  dsimp only
  constructor
  · intro hi
    have hpos : start+i.val<path.length := by omega
    rw [if_pos hi,getElem?_rest,if_pos (by omega),pathAt,List.getElem?_eq_getElem hpos,
      List.getD_eq_getElem _ _ hpos]
  · intro hi
    rw [if_neg (by omega),if_pos hi]

/-- A byte between two positions. -/
theorem mem_rest {c : UInt8} (h : c∈rest path stop cur) :
    ∃ k,cur≤k ∧ k < stop ∧ path[k]?=some c := by
  obtain ⟨i,hi⟩ := List.mem_iff_getElem?.mp h
  rw [getElem?_rest] at hi
  split at hi
  · rename_i hlt
    exact ⟨cur+i,Nat.le_add_right cur i,hlt,hi⟩
  · cases hi

theorem rest_cons {c : UInt8} (h : cur<nul) (hc : path[cur]?=some c) :
    rest path nul cur=c::rest path nul (cur+1) := by
  have hget : (path.take nul)[cur]?=some c := by
    rw [List.getElem?_take,if_pos h]
    exact hc
  obtain ⟨hlt,he⟩ := List.getElem?_eq_some_iff.mp hget
  rw [rest,List.drop_eq_getElem_cons hlt,he]
  rfl

end Rest

/-- A loop that stops at the zero at the latest reads nothing behind it. -/
theorem scan_spec {p : UInt8 → Bool} {path : List UInt8} {nul fuel cur : ℕ} {seen : List ℕ}
    (hz : path[nul]?=some 0) (hp : p 0=false) (hcur : cur≤nul) (hf : nul-cur<fuel)
    (hseen : ∀ k∈seen,k≤nul) :
    ∃ stop seen',scan p path fuel cur seen=some (stop,seen') ∧ (∀ k∈seen',k≤nul) ∧
      (cur ≤ stop ∧ stop≤nul) ∧ (∀ k,cur≤k → k < stop → ∃ c,path[k]?=some c ∧ p c=true) ∧
      ∃ c,path[stop]?=some c ∧ p c=false := by
  induction fuel generalizing cur seen with
  | zero => omega
  | succ fuel ih =>
    obtain ⟨hlen,-⟩ := List.getElem?_eq_some_iff.mp hz
    obtain ⟨c,hget⟩ : ∃ c,path[cur]?=some c :=
      ⟨_,List.getElem?_eq_getElem (lt_of_le_of_lt hcur hlen)⟩
    have hseen' : ∀ k∈seen++[cur],k≤nul := by
      intro k hk
      rcases List.mem_append.mp hk with hk|hk
      · exact hseen k hk
      · rw [List.mem_singleton.mp hk]
        exact hcur
    rw [scan,hget]
    dsimp only [bind,Option.bind]
    by_cases hc : p c=true
    · have hlt : cur<nul := by
        rcases Nat.lt_or_eq_of_le hcur with h|h
        · exact h
        · rw [h,hz] at hget
          rw [←Option.some_inj.mp hget,hp] at hc
          cases hc
      obtain ⟨stop,seen',h1,h2,⟨h3,h4⟩,h5,h6⟩ := @ih (cur+1) _ (by omega) (by omega) hseen'
      rw [if_pos hc]
      refine ⟨stop,seen',h1,h2,⟨by omega,h4⟩,?_,h6⟩
      intro k hk hks
      by_cases e : k=cur
      · rw [e]
        exact ⟨_,hget,hc⟩
      · exact h5 k (by omega) hks
    · rw [if_neg hc]
      exact ⟨cur,_,rfl,hseen',⟨le_rfl,hcur⟩,fun k h1 h2 => by omega,_,hget,by simpa using hc⟩

/-- Bytes are skipped up to one that is not of the kind. -/
theorem skipWhile_stop {p : UInt8 → Bool} {path : List UInt8} {fuel cur : ℕ} (n : ℕ) (hn : n ≤ fuel)
    (h : ∀ k,k < n → p (pathAt path (cur+k))=true) (hstop : p (pathAt path (cur+n))=false) :
    skipWhile p path fuel cur=cur+n := by
  induction n generalizing fuel cur with
  | zero =>
    cases fuel with
    | zero => rfl
    | succ fuel =>
      rw [Nat.add_zero] at hstop
      rw [skipWhile,if_neg (by rw [hstop]; exact Bool.false_ne_true)]
      rfl
  | succ n ih =>
    obtain ⟨fuel,rfl⟩ : ∃ f,fuel=f+1 := ⟨fuel-1,by omega⟩
    have hfirst := h 0 (Nat.succ_pos n)
    have hnext : skipWhile p path fuel (cur+1)=cur+1+n := ih (by omega) (fun k hk => by
      rw [Nat.add_assoc,Nat.add_comm 1 k]
      exact h (k+1) (by omega)) (by rwa [Nat.add_assoc,Nat.add_comm 1 n])
    rw [Nat.add_zero] at hfirst
    rw [skipWhile,if_pos hfirst,hnext]
    omega

theorem pathAt_of_getElem? {path : List UInt8} {k : ℕ} {c : UInt8} (h : path[k]?=some c) :
    pathAt path k=c := by
  rw [pathAt,List.getD_eq_getElem?_getD,h,Option.getD_some]

/-- The positions the loops stop at are those of the parser without reads. -/
theorem skipWhile_of_scan {p : UInt8 → Bool} {path : List UInt8} {cur stop : ℕ} (h : cur ≤ stop)
    (hall : ∀ k,cur≤k → k < stop → ∃ c,path[k]?=some c ∧ p c=true)
    (hstop : ∃ c,path[stop]?=some c ∧ p c=false) :
    skipWhile p path path.length cur=stop := by
  obtain ⟨c,hc,hp⟩ := hstop
  obtain ⟨hlen,-⟩ := List.getElem?_eq_some_iff.mp hc
  have hsum : cur+(stop-cur)=stop := by omega
  have hpass : ∀ k,k < stop-cur → p (pathAt path (cur+k))=true := by
    intro k hk
    obtain ⟨d,hd,hpd⟩ := hall (cur+k) (by omega) (by omega)
    rw [pathAt_of_getElem? hd]
    exact hpd
  have hlast : p (pathAt path (cur+(stop-cur)))=false := by
    rw [hsum,pathAt_of_getElem? hc]
    exact hp
  rw [skipWhile_stop (stop-cur) (by omega) hpass hlast,hsum]

section Call

variable {path : List UInt8} {nul cur : ℕ} {name : Name}

/-- The first zero is the only position up to it that holds one. -/
theorem FirstZero.eq_of_zero (h : FirstZero path nul) {k : ℕ} (hk : k≤nul)
    (hz : path[k]?=some 0) : k=nul := by
  by_contra hne
  exact h.first k (by omega) hz

/-- The loops over slashes lose no element and stop at a byte that is none. -/
theorem FirstZero.slashes (h : FirstZero path nul) (hcur : cur≤nul) {seen : List ℕ}
    (hseen : ∀ k∈seen,k≤nul) :
    ∃ next seen' c,scan slash path (path.length+1) cur seen=some (next,seen') ∧
      (∀ k∈seen',k≤nul) ∧ (cur≤next ∧ next≤nul) ∧
      components (rest path nul cur)=components (rest path nul next) ∧
      path[next]?=some c ∧ c≠0x2f ∧ next=skipWhile slash path path.length cur := by
  obtain ⟨hlen,-⟩ := List.getElem?_eq_some_iff.mp h.here
  obtain ⟨next,seen',h1,h2,⟨h3,h4⟩,h5,c,hc,h6⟩ :=
    @scan_spec slash path nul (path.length+1) cur seen h.here (by decide) hcur (by omega) hseen
  refine ⟨next,seen',c,h1,h2,⟨h3,h4⟩,?_,hc,of_decide_eq_false h6,
    (skipWhile_of_scan h3 h5 ⟨c,hc,h6⟩).symm⟩
  rw [rest_split h3 h4]
  refine components_slashes fun d hd => ?_
  obtain ⟨k,hk,hk',hget⟩ := mem_rest hd
  obtain ⟨e,he,hslash⟩ := h5 k hk hk'
  rw [he] at hget
  rw [←Option.some_inj.mp hget]
  exact of_decide_eq_true hslash

/-- The loop over an element runs to its end. -/
theorem FirstZero.element (h : FirstZero path nul) (hcur : cur≤nul) {c : UInt8}
    (hc : path[cur]?=some c) (hslash : c≠0x2f) (hzero : c≠0) {seen : List ℕ}
    (hseen : ∀ k∈seen,k≤nul) :
    ∃ stop seen',scan inElement path (path.length+1) cur seen=some (stop,seen') ∧
      (∀ k∈seen',k≤nul) ∧ (cur < stop ∧ stop≤nul) ∧
      components (rest path nul cur)=rest path stop cur::components (rest path nul stop) ∧
      stop=skipWhile inElement path path.length cur := by
  obtain ⟨hlen,-⟩ := List.getElem?_eq_some_iff.mp h.here
  obtain ⟨stop,seen',h1,h2,⟨h3,h4⟩,h5,d,hd,h6⟩ :=
    @scan_spec inElement path nul (path.length+1) cur seen h.here (by decide) hcur (by omega) hseen
  have hlt : cur < stop := by
    rcases Nat.lt_or_eq_of_le h3 with hlt|he
    · exact hlt
    · rw [←he,hc] at hd
      rw [←Option.some_inj.mp hd] at h6
      simp [inElement,hslash,hzero] at h6
  have hne : rest path stop cur≠[] := by
    rw [rest_cons hlt hc]
    exact List.cons_ne_nil _ _
  have hnot : (0x2f : UInt8)∉rest path stop cur := by
    intro hm
    obtain ⟨k,hk,hk',hget⟩ := mem_rest hm
    obtain ⟨e,he,hin⟩ := h5 k hk hk'
    rw [he] at hget
    rw [Option.some_inj.mp hget] at hin
    cases hin
  refine ⟨stop,seen',h1,h2,⟨hlt,h4⟩,?_,(skipWhile_of_scan h3 h5 ⟨d,hd,h6⟩).symm⟩
  rw [rest_split h3 h4]
  refine components_first hne hnot ?_
  by_cases e : stop=nul
  · left
    rw [e,rest_self]
  · right
    have hd0 : d≠0 := by
      intro e0
      rw [e0] at hd
      exact e (h.eq_of_zero h4 hd)
    have hd1 : d=0x2f := by
      by_contra hd1
      simp [inElement,hd0,hd1] at h6
    rw [hd1] at hd
    exact ⟨_,rest_cons (by omega) hd⟩

/-- Every call parses its part of the path. -/
theorem FirstZero.parses (h : FirstZero path nul) (hcur : cur≤nul) : Parses path nul cur name := by
  obtain ⟨start,seen,c,hscan,hseen,⟨hlo,hhi⟩,hcomp,hc,hslash,hskip⟩ :=
    @FirstZero.slashes path nul cur h hcur [] (by simp)
  have hseen1 : ∀ k∈seen++[start],k≤nul := by
    intro k hk
    rcases List.mem_append.mp hk with hk|hk
    · exact hseen k hk
    · rw [List.mem_singleton.mp hk]
      exact hhi
  by_cases hzero : c=0
  · -- Only slashes are left.
    rw [hzero] at hc
    refine ⟨(0,name),seen++[start],?_,?_,hseen1,.inl ⟨?_,rfl⟩⟩
    · rw [skipPathReads,hscan]
      dsimp only [bind,Option.bind]
      rw [hc]
      rfl
    · rw [skipPath]
      dsimp only
      rw [if_pos (by rw [←slash_eq,←hskip]; exact pathAt_of_getElem? hc)]
    · rw [hcomp,h.eq_of_zero hhi hc,rest_self,components_nil]
  · obtain ⟨hlen,-⟩ := List.getElem?_eq_some_iff.mp h.here
    obtain ⟨stop,seen2,hscan2,hseen2,⟨hlt,hstop⟩,hcomp2,hskip2⟩ := h.element hhi hc hslash hzero hseen1
    generalize hcount : (if stop-start≥maxDirSize then maxDirSize-1 else stop-start)=count
    have hmin : count=min (stop-start) (maxDirSize-1) := by
      rw [←hcount,maxDirSize]
      split <;> omega
    have hseen3 : ∀ k∈seen2++(List.range count).map (fun k => start+k),k≤nul := by
      intro k hk
      rcases List.mem_append.mp hk with hk|hk
      · exact hseen2 k hk
      · obtain ⟨i,hi,rfl⟩ := List.mem_map.mp hk
        rw [List.mem_range] at hi
        omega
    obtain ⟨next,seen4,d,hscan3,hseen4,⟨hlo3,hhi3⟩,hcomp3,hd,hdslash,hskip3⟩ :=
      h.slashes hstop hseen3
    refine ⟨(next,fun i => if i.val < count then pathAt path (start+i)
      else if i.val=count then 0 else name i),seen4,?_,?_,hseen4,
      .inr ⟨rest path stop start,components (rest path nul next),?_,?_,⟨?_,hhi3⟩,rfl,?_⟩⟩
    · rw [skipPathReads,hscan]
      dsimp only [bind,Option.bind]
      rw [hc]
      dsimp only
      rw [if_neg hzero,hscan2]
      dsimp only
      rw [hcount,hscan3]
    · rw [skipPath]
      dsimp only
      rw [if_neg (by rw [←slash_eq,←hskip,pathAt_of_getElem? hc]; exact hzero),←slash_eq,←hskip,
        ←inElement_eq,←hskip2,←hskip3,←hmin]
    · rw [hcomp,hcomp2,hcomp3]
    · exact written_copy (by omega) hlt.le hmin
    · dsimp only
      omega
    · dsimp only
      constructor
      · intro e
        rw [e,rest_self,components_nil]
      · intro hnil
        by_contra hne
        rw [rest_cons (by omega) hd] at hnil
        exact components_ne_nil hdslash hnil

/-- The calls from a position on find the elements that are left. -/
theorem FirstZero.iterates (h : FirstZero path nul) (hcur : cur≤nul) :
    ∃ fuel found seen,elements path fuel cur name=some (found,seen) ∧ (∀ k∈seen,k≤nul) ∧
      List.Forall₂ (fun r run => Written r.2 run) found (components (rest path nul cur)) ∧
      ∀ i (hi : i<found.length),found[i].1=nul ↔ i+1=found.length := by
  generalize hm : nul-cur=m
  induction m using Nat.strong_induction_on generalizing cur name with
  | _ m ih =>
    obtain ⟨r,seen,hr,-,hseen,hcase⟩ := @FirstZero.parses path nul cur name h hcur
    rcases hcase with ⟨hnil,rfl⟩|⟨run,runs,hcomp,hwritten,⟨hlt,hle⟩,hrest,hlast⟩
    · refine ⟨1,[],seen,?_,hseen,?_,fun i hi => absurd hi (Nat.not_lt_zero i)⟩
      · rw [elements,hr]
        rfl
      · rw [hnil]
        exact .nil
    · obtain ⟨fuel,found,seen',hf,hseen',hall,hpos⟩ :=
        @ih (nul-r.1) (by omega) r.1 r.2 hle rfl
      rw [hrest] at hall
      refine ⟨fuel+1,r::found,seen++seen',?_,?_,?_,?_⟩
      · rw [elements,hr]
        dsimp only [bind,Option.bind]
        rw [if_neg (by omega),hf]
      · intro k hk
        rcases List.mem_append.mp hk with hk|hk
        · exact hseen k hk
        · exact hseen' k hk
      · rw [hcomp]
        exact .cons hwritten hall
      · intro i hi
        cases i with
        | zero =>
          rw [List.getElem_cons_zero,hlast,←List.length_eq_zero_iff,←hall.length_eq,
            List.length_cons]
          omega
        | succ i =>
          rw [List.getElem_cons_succ,hpos i (by simpa using hi),List.length_cons]
          omega

end Call

/-- Parsing of paths. For a path with its first zero at a position, every call of
`skip_path` from a position up to there reads nothing behind the zero and finds the next
element, and the calls from 0 on until one returns 0 end, read nothing behind the zero
and give the elements of the path in order, each in a name as far as it fits and with a
zero behind it; the position returned is that of the zero after the last element only. -/
theorem skip_path_parses {path : List UInt8} {nul : ℕ} (h : FirstZero path nul) :
    (∀ cur≤nul,∀ name,Parses path nul cur name) ∧
      ∀ name,∃ fuel found seen,elements path fuel 0 name=some (found,seen) ∧
        (∀ k∈seen,k≤nul) ∧
        List.Forall₂ (fun r run => Written r.2 run) found (components (path.take nul)) ∧
        ∀ i (hi : i<found.length),found[i].1=nul ↔ i+1=found.length :=
  ⟨fun _ hcur _ => h.parses hcur,fun _ => h.iterates (Nat.zero_le nul)⟩

/-- The path `/a//bc/`. -/
def shortPath : List UInt8 := [0x2f,0x61,0x2f,0x2f,0x62,0x63,0x2f,0]

theorem skip_path_parses_shortPath :
    FirstZero shortPath 7 ∧ components (shortPath.take 7)=[[0x61],[0x62,0x63]] ∧
      ∃ fuel found seen,elements shortPath fuel 0 (fun _ => 0)=some (found,seen) ∧
        List.Forall₂ (fun r run => Written r.2 run) found (components (shortPath.take 7)) := by
  have h : FirstZero shortPath 7 := ⟨by decide,by decide⟩
  obtain ⟨fuel,found,seen,hf,-,hall,-⟩ := (skip_path_parses h).2 fun _ => 0
  exact ⟨h,by decide,fuel,found,seen,hf,hall⟩

end Xv6Rust.PathParse

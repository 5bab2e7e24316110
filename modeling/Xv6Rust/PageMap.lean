import Xv6Rust.PageWalk

/-!
# The finite map of a page table

Every page of a page table has one path of indices from the root, so an address
below `MAXVA` has one slot and pages have different slots. A page that is linked in
is zeroed and changes no binding, a leaf that is written changes one, and
`map_pages` binds the pages of its range one after the other.
-/

namespace Xv6Rust.PageMap

open Runs Paging PageWalk

/-- The indices of an address above level 0. -/
def indices (va : ℕ) : ℕ → List ℕ
  | 0 => []
  | level+1 => pageNum va (level+1)::indices va level

/-- Every page of the page table has a path of indices, and links lead to the page whose path is one
index longer. -/
structure Shape (s : Space) (path : Usize → Option (List ℕ)) : Prop where
  /-- The path of the root. -/
  root : path s.root=some []
  /-- The pages with a path. -/
  tables : ∀ t,t∈s.tables ↔ path t≠none
  /-- Links. -/
  link : ∀ t π i,path t=some π → π.length<2 → (s.get (t,i)).isValid=true →
    path (s.get (t,i)).asPageTable=some (π++[i])

/-- The walk of an address comes to a table. -/
inductive Reaches (s : Space) (va : ℕ) : ℕ → Usize → Prop where
  /-- It starts at the root. -/
  | root : Reaches s va 2 s.root
  /-- It goes through a valid entry. -/
  | down {level : ℕ} {t : Usize} (h : Reaches s va (level+1) t)
      (hv : (s.get (t,pageNum va (level+1))).isValid=true) :
      Reaches s va level (s.get (t,pageNum va (level+1))).asPageTable

/-- The entry of an address, zero when a table is missing. -/
def entry (s : Space) (va : ℕ) : PageTableEntry :=
  match s.findPte va with
  | none => PageTableEntry.zero
  | some slot => s.get slot

/-- Slots stay and entries are the same. -/
structure Extends (s s' : Space) : Prop where
  /-- Slots that were found are found again. -/
  found : ∀ va slot,s.findPte va=some slot → s'.findPte va=some slot
  /-- Entries. -/
  entries : ∀ va,entry s' va=entry s va

section Walks

variable {s s' : Space} {path : Usize → Option (List ℕ)} {va va' level i : ℕ} {t page : Usize}
  {π : List ℕ} {slot slot' : Slot} {pte : PageTableEntry}

/-- Indices are digits of the page number. -/
theorem pageNum_eq (va level : ℕ) : pageNum va level=va/2^(12+level*9)%512 := by
  have hm : pgMask=2^9-1 := rfl
  rw [pageNum,Nat.shiftRight_eq_div_pow,hm,Nat.and_two_pow_sub_one_eq_mod]
  rfl

/-- Addresses with the same indices are on the same page. -/
theorem page_eq_iff (h : va < maxva) (h' : va' < maxva) :
    va/pageSize=va'/pageSize ↔ indices va 2=indices va' 2 ∧ pageNum va 0=pageNum va' 0 := by
  simp only [indices,List.cons.injEq,pageNum_eq,pageSize,maxva,Nat.reduceAdd,Nat.reduceMul,
    Nat.reducePow,and_true] at h h' ⊢
  omega

theorem Extends.refl (s : Space) : Extends s s := ⟨fun _ _ h => h,fun _ => rfl⟩

theorem Extends.trans {s'' : Space} (h : Extends s s') (h' : Extends s' s'') : Extends s s'' :=
  ⟨fun va slot hs => h'.found va slot (h.found va slot hs),
    fun va => (h'.entries va).trans (h.entries va)⟩

/-- The lookup goes on from every table on the walk. -/
theorem findPte_of_reaches (h : Reaches s va level t) : s.findPte va=s.walk va level t := by
  induction h with
  | root => rfl
  | down h hv ih => rw [ih,Space.walk,if_pos hv]

/-- Tables on a walk have a path. -/
theorem path_of_reaches (hs : Shape s path) (h : Reaches s va level t) :
    ∃ π,path t=some π ∧ π.length+level=2 := by
  induction h with
  | root => exact ⟨[],hs.root,rfl⟩
  | down h hv ih =>
    obtain ⟨π,hp,hl⟩ := ih
    refine ⟨π++[_],hs.link _ π _ hp (by omega) hv,?_⟩
    rw [List.length_append,List.length_singleton]
    omega

/-- The slot that a walk finds has the indices of the address. -/
theorem walk_path (hs : Shape s path) (hp : path t=some π) (hl : π.length+level=2)
    (hw : s.walk va level t=some slot) :
    path slot.1=some (π++indices va level) ∧ slot.2=pageNum va 0 := by
  induction level generalizing t π with
  | zero =>
    cases hw
    rw [indices,List.append_nil]
    exact ⟨hp,rfl⟩
  | succ level ih =>
    rw [Space.walk] at hw
    split at hw
    · rename_i hv
      have hq := hs.link t π _ hp (by omega) hv
      have hlen : (π++[pageNum va (level+1)]).length+level=2 := by
        rw [List.length_append,List.length_singleton]
        omega
      have h := ih hq hlen hw
      rw [List.append_assoc] at h
      exact h
    · cases hw

theorem findPte_path (hs : Shape s path) (h : s.findPte va=some slot) :
    path slot.1=some (indices va 2) ∧ slot.2=pageNum va 0 := walk_path hs hs.root rfl h

/-- Walks depend on the indices only. -/
theorem walk_congr (h0 : pageNum va 0=pageNum va' 0) (h : indices va level=indices va' level) :
    s.walk va level t=s.walk va' level t := by
  induction level generalizing t with
  | zero => rw [Space.walk,Space.walk,h0]
  | succ level ih =>
    rw [indices,indices,List.cons.injEq] at h
    rw [Space.walk,Space.walk,h.1]
    split
    · exact ih h.2
    · rfl

/-- Two addresses have the same slot exactly when they are on the same page. -/
theorem slot_eq_iff (hs : Shape s path) (h : va < maxva) (h' : va' < maxva)
    (hf : s.findPte va=some slot) (hf' : s.findPte va'=some slot') :
    slot=slot' ↔ va/pageSize=va'/pageSize := by
  obtain ⟨hp,hi⟩ := findPte_path hs hf
  obtain ⟨hp',hi'⟩ := findPte_path hs hf'
  rw [page_eq_iff h h']
  constructor
  · rintro rfl
    rw [hp] at hp'
    exact ⟨Option.some.inj hp',hi.symm.trans hi'⟩
  · rintro ⟨h1,h2⟩
    have he : s.findPte va=s.findPte va' := walk_congr h2 h1
    rw [hf,hf'] at he
    exact Option.some.inj he

/-- Addresses on the same page are looked up alike. -/
theorem findPte_congr (h : va < maxva) (h' : va' < maxva) (he : va/pageSize=va'/pageSize) :
    s.findPte va=s.findPte va' :=
  walk_congr ((page_eq_iff h h').mp he).2 ((page_eq_iff h h').mp he).1

end Walks

section Changes

variable {s s' : Space} {path : Usize → Option (List ℕ)} {va va' level i : ℕ} {t page : Usize}
  {π : List ℕ} {slot slot' : Slot} {pte : PageTableEntry}

theorem get_set (q : Slot) : (s.set slot pte).get q=if q=slot then pte else s.get q := by
  rw [Space.get,Space.set]
  by_cases h : q=slot
  · rw [if_pos h,h]
    exact if_pos ⟨rfl,rfl⟩
  · rw [if_neg h]
    exact if_neg fun hq => h (Prod.ext hq.1 hq.2)

theorem get_attach (q : Slot) : (s.attach slot page).get q=
    if q=slot then PageTableEntry.write page
    else if q.1=page then PageTableEntry.zero else s.get q := by
  rw [Space.attach,get_set]
  rfl

/-- A leaf is written. -/
theorem set_shape (hs : Shape s path) (hp : path slot.1=some π) (hl : π.length=2) :
    Shape (s.set slot pte) path := by
  refine ⟨hs.root,hs.tables,fun q π' j hq hlen => ?_⟩
  have hne : (q,j)≠slot := by
    rintro rfl
    rw [hq] at hp
    cases hp
    omega
  rw [get_set,if_neg hne]
  exact hs.link q π' j hq hlen

/-- Writing a leaf changes no walk. -/
theorem walk_set {π' : List ℕ} (hs : Shape s path) (hp : path slot.1=some π) (hl : π.length=2)
    (ht : path t=some π') (hl' : π'.length+level=2) :
    (s.set slot pte).walk va level t=s.walk va level t := by
  induction level generalizing t π' with
  | zero => rfl
  | succ level ih =>
    have hne : (t,pageNum va (level+1))≠slot := by
      rintro rfl
      rw [ht] at hp
      cases hp
      omega
    rw [Space.walk,Space.walk,get_set,if_neg hne]
    split
    · rename_i hv
      refine ih (hs.link t π' _ ht (by omega) hv) ?_
      rw [List.length_append,List.length_singleton]
      omega
    · rfl

theorem findPte_set (hs : Shape s path) (hp : path slot.1=some π) (hl : π.length=2) :
    (s.set slot pte).findPte va=s.findPte va := walk_set hs hp hl hs.root rfl

/-- One entry is written. -/
theorem entry_set (hs : Shape s path) (hf : s.findPte va=some slot) (hb : va < maxva)
    (hb' : va' < maxva) : entry (s.set slot pte) va'=
      if va'/pageSize=va/pageSize then pte else entry s va' := by
  obtain ⟨hp,-⟩ := findPte_path hs hf
  rw [entry,entry,findPte_set hs hp rfl]
  by_cases he : va'/pageSize=va/pageSize
  · rw [if_pos he,findPte_congr hb' hb he,hf]
    dsimp only
    rw [get_set,if_pos rfl]
  · rw [if_neg he]
    cases hf' : s.findPte va' with
    | none => rfl
    | some slot' =>
      dsimp only
      rw [get_set,if_neg]
      intro h
      exact he ((slot_eq_iff hs hb' hb hf' hf).mp h)

/-- A zeroed page is linked in. -/
theorem attach_shape (hs : Shape s path) (hp : path t=some π) (hn : path page=none)
    (ha : Aligned page) :
    Shape (s.attach (t,i) page) (Function.update path page (some (π++[i]))) := by
  have hne : ∀ q π',path q=some π' → q≠page := by
    rintro q π' hq rfl
    rw [hn] at hq
    cases hq
  have hold : ∀ q π',path q=some π' →
      Function.update path page (some (π++[i])) q=some π' := fun q π' hq =>
    (Function.update_of_ne (hne q π' hq) ..).trans hq
  refine ⟨hold _ _ hs.root,fun q => ?_,fun q π' j hq hlen hv => ?_⟩
  · by_cases e : q=page
    · rw [e,Function.update_self]
      exact ⟨fun _ => Option.some_ne_none _,fun _ => List.mem_cons_self ..⟩
    · rw [Function.update_of_ne e,← hs.tables]
      exact ⟨fun h => (List.mem_cons.mp h).resolve_left e,fun h => List.mem_cons_of_mem _ h⟩
  · rw [get_attach] at hv ⊢
    by_cases e : (q,j)=(t,i)
    · cases e
      rw [hold t π hp] at hq
      cases hq
      rw [if_pos rfl,(write_roundtrip ha).1,Function.update_self]
    · rw [if_neg e] at hv ⊢
      by_cases e' : q=page
      · rw [if_pos e',zero_not_valid] at hv
        cases hv
      · rw [if_neg e'] at hv ⊢
        rw [Function.update_of_ne e'] at hq
        exact hold _ _ (hs.link q π' j hq hlen hv)

/-- Below a zeroed page every entry that is found is zero. -/
theorem walk_zeroed (hz : ∀ j,s.get (page,j)=PageTableEntry.zero)
    (hw : s.walk va level page=some slot) : s.get slot=PageTableEntry.zero := by
  cases level with
  | zero =>
    cases hw
    exact hz _
  | succ level =>
    rw [Space.walk,hz,zero_not_valid] at hw
    cases hw

/-- Walks from the tables there were. -/
theorem walk_attach {π' : List ℕ} (hs : Shape s path) (hp : path t=some π) (hl : π.length<2)
    (hn : path page=none) (hinv : (s.get (t,i)).isValid=false) (ha : Aligned page)
    {q : Usize} (hq : path q=some π') (hlen : π'.length+level=2) :
    (∀ slot,s.walk va level q=some slot →
      (s.attach (t,i) page).walk va level q=some slot ∧
        (s.attach (t,i) page).get slot=s.get slot) ∧
    (s.walk va level q=none → ∀ slot,(s.attach (t,i) page).walk va level q=some slot →
      (s.attach (t,i) page).get slot=PageTableEntry.zero) := by
  have hne : ∀ r π',path r=some π' → r≠page := by
    rintro r π' hr rfl
    rw [hn] at hr
    cases hr
  induction level generalizing q π' with
  | zero =>
    refine ⟨fun slot hw => ?_,fun hw => by cases hw⟩
    cases hw
    refine ⟨rfl,?_⟩
    have hqt : ((q,pageNum va 0) : Slot)≠(t,i) := by
      intro e
      cases e
      rw [hp] at hq
      cases hq
      omega
    rw [get_attach,if_neg hqt,if_neg (hne q π' hq)]
  | succ level ih =>
    by_cases e : ((q,pageNum va (level+1)) : Slot)=(t,i)
    · refine ⟨fun slot hw => ?_,fun _ slot hw => ?_⟩
      · rw [Space.walk,e,hinv] at hw
        cases hw
      · rw [Space.walk,get_attach,if_pos e,(write_roundtrip ha).2,if_pos rfl,
          (write_roundtrip ha).1] at hw
        refine walk_zeroed (fun j => ?_) hw
        have hpt : ((page,j) : Slot)≠(t,i) := fun h => hne t π hp (Prod.ext_iff.mp h).1.symm
        rw [get_attach,if_neg hpt,if_pos rfl]
    · rw [Space.walk,Space.walk,get_attach,if_neg e,if_neg (hne q π' hq)]
      split
      · rename_i hv
        refine ih (hs.link q π' _ hq (by omega) hv) ?_
        rw [List.length_append,List.length_singleton]
        omega
      · exact ⟨fun slot hw => (by cases hw),fun _ slot hw => (by cases hw)⟩

/-- Linking a page in changes no binding. -/
theorem attach_extends (hs : Shape s path) (hp : path t=some π) (hl : π.length<2)
    (hn : path page=none) (hinv : (s.get (t,i)).isValid=false) (ha : Aligned page) :
    Extends s (s.attach (t,i) page) := by
  have h := fun va => @walk_attach s path va 2 i t page π [] hs hp hl hn hinv ha s.root hs.root rfl
  refine ⟨fun va slot hf => ((h va).1 slot hf).1,fun va => ?_⟩
  cases hf : s.findPte va with
  | none =>
    rw [entry,entry,hf]
    split
    · rfl
    · rename_i slot hf'
      exact (h va).2 hf slot hf'
  | some slot =>
    have h1 := (h va).1 slot hf
    rw [entry,entry,hf]
    have hf' : (s.attach (t,i) page).findPte va=some slot := h1.1
    rw [hf']
    exact h1.2

/-- The walk still comes to the tables it came to. -/
theorem Reaches.attach (hs : Shape s path) (hn : path page=none)
    (hinv : (s.get (t,i)).isValid=false) {q : Usize} (h : Reaches s va level q) :
    Reaches (s.attach (t,i) page) va level q := by
  induction h with
  | root => exact Reaches.root
  | @down level q hr hv ih =>
    obtain ⟨π',hq,-⟩ := path_of_reaches hs hr
    have e1 : ((q,pageNum va (level+1)) : Slot)≠(t,i) := by
      intro e
      rw [e,hinv] at hv
      cases hv
    have e2 : q≠page := by
      rintro rfl
      rw [hn] at hq
      cases hq
    have hget : (s.attach (t,i) page).get (q,pageNum va (level+1))=
        s.get (q,pageNum va (level+1)) := by
      rw [get_attach,if_neg e1,if_neg e2]
    rw [← hget]
    refine Reaches.down ih ?_
    rw [hget]
    exact hv

end Changes

section Calls

variable {s s' : Space} {path : Usize → Option (List ℕ)} {va page n : ℕ} {pa : Usize}
  {perm : PteFlag} {answers : Answers}

/-- One level of `find_pte_create`. -/
theorem walkCreate_succ (level : ℕ) (t : Usize) :
    walkCreate va (level+1) t s answers=
      if (s.get (t,pageNum va (level+1))).isValid=true then
        walkCreate va level (s.get (t,pageNum va (level+1))).asPageTable s answers
      else
        match answers with
        | [] => .ok (s,[],none)
        | none::answers => .ok (s,answers,none)
        | some page::answers =>
          if IsPhysPage page then
            walkCreate va level page (s.attach (t,pageNum va (level+1)) page) answers
          else .error .notAligned := rfl

/-- `find_pte_create` from a table of the walk on: it ends without a panic, changes no binding, and
returns the slot that `find_pte` finds afterwards. -/
theorem walkCreate_spec {level : ℕ} {t : Usize} (hs : Shape s path) (hr : Reaches s va level t)
    (hf : FreshAnswers s answers) :
    ∃ s' answers' r path',walkCreate va level t s answers=.ok (s',answers',r) ∧ Shape s' path' ∧
      Extends s s' ∧ FreshAnswers s' answers' ∧ (∀ slot,r=some slot → s'.findPte va=some slot) := by
  induction level generalizing s path t answers with
  | zero =>
    refine ⟨s,answers,_,path,rfl,hs,Extends.refl s,hf,fun slot hslot => ?_⟩
    cases hslot
    exact findPte_of_reaches hr
  | succ level ih =>
    rw [walkCreate_succ]
    split
    · rename_i hv
      exact ih hs (Reaches.down hr hv) hf
    · rename_i hv
      have hinv := Bool.eq_false_iff.mpr hv
      split
      · exact ⟨s,[],none,path,rfl,hs,Extends.refl s,hf,fun slot hslot => (by cases hslot)⟩
      · rename_i answers
        exact ⟨s,answers,none,path,rfl,hs,Extends.refl s,hf,fun slot hslot => (by cases hslot)⟩
      · rename_i p answers
        have hred : List.reduceOption (some p::answers)=p::answers.reduceOption :=
          List.reduceOption_cons_of_some p answers
        obtain ⟨hnd,hall⟩ := hf
        rw [hred] at hnd hall
        obtain ⟨hnew,hphys⟩ := hall p (List.mem_cons_self ..)
        obtain ⟨hnot,hnd'⟩ := List.nodup_cons.mp hnd
        obtain ⟨π,hp,hl⟩ := path_of_reaches hs hr
        have hn : path p=none := by
          by_contra h
          exact hnew ((hs.tables p).mpr h)
        have hget : (s.attach (t,pageNum va (level+1)) p).get (t,pageNum va (level+1))=
            PageTableEntry.write p := by rw [get_attach,if_pos rfl]
        have hw := write_roundtrip hphys.1
        have hr' : Reaches (s.attach (t,pageNum va (level+1)) p) va level p := by
          have h := Reaches.down (Reaches.attach hs hn hinv hr) (by rw [hget]; exact hw.2)
          rw [hget,hw.1] at h
          exact h
        have hf' : FreshAnswers (s.attach (t,pageNum va (level+1)) p) answers := by
          refine ⟨hnd',fun q hq => ?_⟩
          obtain ⟨h1,h2⟩ := hall q (List.mem_cons_of_mem _ hq)
          refine ⟨fun hin => ?_,h2⟩
          obtain rfl | hin := List.mem_cons.mp hin
          · exact hnot hq
          · exact h1 hin
        rw [if_pos hphys]
        obtain ⟨s',answers',r,path',he,hs',hx,hf'',hslot⟩ :=
          ih (attach_shape hs hp hn hphys.1) hr' hf'
        exact ⟨s',answers',r,path',he,hs',
          (attach_extends hs hp (by omega) hn hinv hphys.1).trans hx,hf'',hslot⟩

/-- A fresh answer stays fresh when a leaf is written. -/
theorem freshAnswers_set {slot : Slot} {pte : PageTableEntry} (h : FreshAnswers s answers) :
    FreshAnswers (s.set slot pte) answers := h

theorem page_div (page : ℕ) : page*pageSize/pageSize=page := Nat.mul_div_cancel _ (by decide)

/-- Addresses of pages below `MAXVA`. -/
theorem page_lt (h : page < maxva/pageSize) : page*pageSize < maxva := by
  simp only [maxva,pageSize] at h ⊢
  omega

/-- The loop of `map_pages` binds pages one after the other, each only if it has no valid entry. -/
theorem mapLoop_spec {r : Except MapError Unit} (hs : Shape s path) (hf : FreshAnswers s answers)
    (hb : page+n ≤ maxva/pageSize)
    (hm : mapLoop s (page*pageSize) pa perm answers n=.ok (s',r)) :
    ∃ path' k,Shape s' path' ∧ k ≤ n ∧ (r=.ok () → k=n) ∧
      (∀ v,page ≤ v → v<page+k → (entry s (v*pageSize)).isValid=false) ∧
      ∀ v,v < maxva/pageSize → entry s' (v*pageSize)=
        if page ≤ v ∧ v<page+k then
          PageTableEntry.writePerm (pa+BitVec.ofNat 64 ((v-page)*pageSize)) perm
        else entry s (v*pageSize) := by
  induction n generalizing s path page pa answers with
  | zero =>
    cases hm
    refine ⟨path,0,hs,le_refl _,fun _ => rfl,fun v h1 h2 => ?_,fun v _ => ?_⟩
    · omega
    · rw [if_neg (by omega)]
  | succ n ih =>
    obtain ⟨s1,answers1,r1,path1,hc,hs1,hx,hf1,hslot⟩ := walkCreate_spec hs Reaches.root hf
    have hnone : ∃ path' k,Shape s1 path' ∧ k ≤ n+1 ∧ (r=.ok () → k=0) ∧
        (∀ v,page ≤ v → v<page+k → (entry s (v*pageSize)).isValid=false) ∧
        ∀ v,v < maxva/pageSize → entry s1 (v*pageSize)=
          if page ≤ v ∧ v<page+k then
            PageTableEntry.writePerm (pa+BitVec.ofNat 64 ((v-page)*pageSize)) perm
          else entry s (v*pageSize) := by
      refine ⟨path1,0,hs1,Nat.zero_le _,fun _ => rfl,fun v h1 h2 => ?_,fun v _ => ?_⟩
      · omega
      · rw [if_neg (by omega),hx.entries]
    rw [mapLoop,findPteCreate,hc] at hm
    cases r1 with
    | none =>
      cases hm
      obtain ⟨path',k,h1,h2,-,h4⟩ := hnone
      exact ⟨path',k,h1,h2,fun h => (by cases h),h4⟩
    | some slot =>
      dsimp only at hm
      have hfound := hslot slot rfl
      have hentry : entry s1 (page*pageSize)=s1.get slot := by rw [entry,hfound]
      split at hm
      · cases hm
        obtain ⟨path',k,h1,h2,-,h4⟩ := hnone
        exact ⟨path',k,h1,h2,fun h => (by cases h),h4⟩
      · rename_i hv
        split at hm
        · cases hm
        · have hlt : page*pageSize < maxva := page_lt (by omega)
          have hbefore : (entry s (page*pageSize)).isValid=false := by
            rw [← hx.entries,hentry]
            exact Bool.eq_false_iff.mpr hv
          obtain ⟨hp,-⟩ := findPte_path hs1 hfound
          have hset : ∀ v,v < maxva/pageSize →
              entry (s1.set slot (PageTableEntry.writePerm pa perm)) (v*pageSize)=
                if v=page then PageTableEntry.writePerm pa perm else entry s (v*pageSize) := by
            intro v hv
            rw [entry_set hs1 hfound hlt (page_lt hv),page_div,page_div,hx.entries]
          have hnext : page*pageSize+pageSize=(page+1)*pageSize := by rw [Nat.succ_mul]
          rw [hnext] at hm
          obtain ⟨path',k,h1,h2,h3,h4,h5⟩ :=
            ih (set_shape hs1 hp rfl) (freshAnswers_set hf1) (by omega) hm
          refine ⟨path',k+1,h1,by omega,fun h => by rw [h3 h],fun v hv1 hv2 => ?_,fun v hv => ?_⟩
          · by_cases e : v=page
            · rw [e]
              exact hbefore
            · have h := h4 v (by omega) (by omega)
              rw [hset v (by omega),if_neg e] at h
              exact h
          · rw [h5 v hv,hset v hv]
            by_cases e : v=page
            · rw [if_neg (by omega),if_pos e,if_pos (by omega),e,Nat.sub_self,Nat.zero_mul]
              exact congrArg (PageTableEntry.writePerm · perm) (BitVec.add_zero pa).symm
            · rw [if_neg e]
              by_cases hin : page+1 ≤ v ∧ v<page+1+k
              · rw [if_pos hin,if_pos (by omega)]
                refine congrArg (PageTableEntry.writePerm · perm) ?_
                have hsub : (v-page)*pageSize=pageSize+(v-(page+1))*pageSize := by
                  have h : v-page=v-(page+1)+1 := by omega
                  rw [h,Nat.succ_mul,Nat.add_comm]
                rw [hsub,BitVec.ofNat_add,BitVec.add_assoc]
              · rw [if_neg hin,if_neg (by omega)]

/-- The loop of `map_pages` finds a valid entry only where there was one. -/
theorem mapLoop_remap (hs : Shape s path) (hf : FreshAnswers s answers)
    (hb : page+n ≤ maxva/pageSize)
    (hm : mapLoop s (page*pageSize) pa perm answers n=.ok (s',.error .remap)) :
    ∃ v,page ≤ v ∧ v < page+n ∧ (entry s (v*pageSize)).isValid=true := by
  induction n generalizing s path page pa answers with
  | zero => cases hm
  | succ n ih =>
    obtain ⟨s1,answers1,r1,path1,hc,hs1,hx,hf1,hslot⟩ := walkCreate_spec hs Reaches.root hf
    rw [mapLoop,findPteCreate,hc] at hm
    cases r1 with
    | none => cases hm
    | some slot =>
      dsimp only at hm
      have hfound := hslot slot rfl
      have hentry : entry s1 (page*pageSize)=s1.get slot := by rw [entry,hfound]
      split at hm
      · rename_i hv
        refine ⟨page,Nat.le_refl _,Nat.lt_add_of_pos_right n.succ_pos,?_⟩
        rwa [← hx.entries,hentry]
      · split at hm
        · cases hm
        · have hlt : page*pageSize < maxva := page_lt (by omega)
          obtain ⟨hp,-⟩ := findPte_path hs1 hfound
          have hnext : page*pageSize+pageSize=(page+1)*pageSize := by rw [Nat.succ_mul]
          rw [hnext] at hm
          obtain ⟨v,h1,h2,hv⟩ :=
            ih (set_shape hs1 hp rfl) (freshAnswers_set hf1) (by omega) hm
          rw [entry_set hs1 hfound hlt (page_lt (by omega)),page_div,page_div,if_neg (by omega),
            hx.entries] at hv
          exact ⟨v,by omega,by omega,hv⟩

/-- The page meets the range of addresses. -/
def Meets (v va size : ℕ) : Prop := v*pageSize<va+size ∧ va<(v+1)*pageSize

instance (v va size : ℕ) : Decidable (Meets v va size) := inferInstanceAs (Decidable (_ ∧ _))

/-- The pages that `map_pages` goes through are those that meet the range. -/
theorem meets_iff {v size : ℕ} :
    Meets v va size ↔ va/pageSize ≤ v ∧
      v<va/pageSize+(pgRoundUp (va+size)-pgRoundDown va)/pageSize := by
  simp only [Meets,pgRoundUp,pgRoundDown,pageSize]
  omega

/-- They are below `MAXVA`, if the range ends there. -/
theorem pages_le {size : ℕ} (h : va+size ≤ maxva) :
    va/pageSize+(pgRoundUp (va+size)-va/pageSize*pageSize)/pageSize ≤ maxva/pageSize := by
  simp only [pgRoundUp,maxva,pageSize] at h ⊢
  omega

/-- `map_pages`. -/
theorem mapPages_spec {size : ℕ} {r : Except MapError Unit} (hs : Shape s path)
    (hf : FreshAnswers s answers)
    (hm : mapPages s va size pa perm answers=.ok (s',r)) :
    ∃ path',Shape s' path' ∧
      (r=.ok () → ∀ v,v < maxva/pageSize → entry s' (v*pageSize)=
        if Meets v va size then
          PageTableEntry.writePerm (pa+BitVec.ofNat 64 ((v-va/pageSize)*pageSize)) perm
        else entry s (v*pageSize)) ∧
      ∀ v,v < maxva/pageSize → (entry s (v*pageSize)).isValid=true → r≠.ok () →
        entry s' (v*pageSize)=entry s (v*pageSize) := by
  rw [mapPages] at hm
  split at hm
  · cases hm
  split at hm
  · cases hm
    exact ⟨path,hs,fun h => (by cases h),fun _ _ _ _ => rfl⟩
  · rename_i hmax
    have hround : pgRoundDown va=va/pageSize*pageSize := rfl
    rw [hround] at hm
    have hb := pages_le (not_lt.mp hmax)
    obtain ⟨path',k,h1,h2,h3,h4,h5⟩ := mapLoop_spec hs hf hb hm
    refine ⟨path',h1,fun hr v hv => ?_,fun v hv hvalid _ => ?_⟩
    · rw [h5 v hv,h3 hr,← hround]
      by_cases hmeets : Meets v va size
      · rw [if_pos hmeets,if_pos (meets_iff.mp hmeets)]
      · rw [if_neg hmeets,if_neg fun h => hmeets (meets_iff.mpr h)]
    · rw [h5 v hv]
      by_cases hin : va/pageSize ≤ v ∧ v<va/pageSize+k
      · rw [h4 v hin.1 hin.2] at hvalid
        cases hvalid
      · rw [if_neg hin]

/-- `map_pages` finds a valid entry only where there was one. -/
theorem mapPages_remap {size : ℕ} (hs : Shape s path) (hf : FreshAnswers s answers)
    (hm : mapPages s va size pa perm answers=.ok (s',.error .remap)) :
    ∃ v,v < maxva/pageSize ∧ Meets v va size ∧ (entry s (v*pageSize)).isValid=true := by
  rw [mapPages] at hm
  split at hm
  · cases hm
  split at hm
  · cases hm
  · rename_i hmax
    have hround : pgRoundDown va=va/pageSize*pageSize := rfl
    rw [hround] at hm
    have hb := pages_le (not_lt.mp hmax)
    obtain ⟨v,h1,h2,hv⟩ := mapLoop_remap hs hf hb hm
    exact ⟨v,by omega,meets_iff.mpr ⟨h1,h2⟩,hv⟩

end Calls

/-- A page table with a zeroed root has a shape. -/
theorem empty_shape (mem : Usize → ℕ → PageTableEntry) (root : Usize) :
    Shape (empty mem root) (Function.update (fun _ => none) root (some [])) := by
  have hpath : ∀ t π,Function.update (fun _ : Usize => (none : Option (List ℕ))) root (some []) t=
      some π → t=root := by
    intro t π h
    by_contra hne
    rw [Function.update_of_ne hne] at h
    cases h
  refine ⟨Function.update_self ..,fun t => ?_,fun t π i hp _ hv => ?_⟩
  · by_cases e : t=root
    · rw [e,Function.update_self]
      exact ⟨fun _ => Option.some_ne_none _,fun _ => List.mem_cons_self ..⟩
    · rw [Function.update_of_ne e]
      exact ⟨fun h => absurd (List.mem_singleton.mp h) e,fun h => absurd rfl h⟩
  · have hz : (empty mem root).get (t,i)=PageTableEntry.zero := by
      rw [hpath t π hp]
      exact if_pos rfl
    rw [hz,zero_not_valid] at hv
    cases hv

/-- The loop of `map_pages` keeps a shape, at any address. -/
theorem mapLoop_shape {s s' : Space} {path : Usize → Option (List ℕ)} {va n : ℕ} {pa : Usize}
    {perm : PteFlag} {answers : Answers} {r : Except MapError Unit} (hs : Shape s path)
    (hf : FreshAnswers s answers) (hm : mapLoop s va pa perm answers n=.ok (s',r)) :
    ∃ path',Shape s' path' := by
  induction n generalizing s path va pa answers with
  | zero =>
    cases hm
    exact ⟨path,hs⟩
  | succ n ih =>
    obtain ⟨s1,answers1,r1,path1,hc,hs1,-,hf1,hslot⟩ := walkCreate_spec hs Reaches.root hf
    rw [mapLoop,findPteCreate,hc] at hm
    cases r1 with
    | none =>
      cases hm
      exact ⟨path1,hs1⟩
    | some slot =>
      dsimp only at hm
      split at hm
      · cases hm
        exact ⟨path1,hs1⟩
      split at hm
      · cases hm
      · obtain ⟨hp,-⟩ := findPte_path hs1 (hslot slot rfl)
        exact ih (set_shape hs1 hp rfl) (freshAnswers_set hf1) hm

/-- A call keeps a shape. -/
theorem step_shape {s t : Space} {a : Label} (hs : ∃ path,Shape s path) (hc : Fresh s a)
    (h : step s a=.next t) : ∃ path,Shape t path := by
  obtain ⟨path,hs⟩ := hs
  cases a with
  | create va answers =>
    obtain ⟨s1,answers1,r1,path1,he,hs1,-⟩ := walkCreate_spec hs (@Reaches.root s va) hc
    rw [step,findPteCreate,he] at h
    cases h
    exact ⟨path1,hs1⟩
  | map va size pa perm answers =>
    rw [step,mapPages] at h
    split at h
    · cases h
    · rename_i r hm
      cases h
      split at hm
      · cases hm
      split at hm
      · cases hm
        exact ⟨path,hs⟩
      · exact mapLoop_shape hs hc hm
  | store va pte =>
    rw [step] at h
    split at h
    · cases h
    · rename_i slot hf
      cases h
      obtain ⟨hp,-⟩ := findPte_path hs hf
      exact ⟨path,set_shape hs hp rfl⟩

/-- The valid leaf of a page. -/
def binding (s : Space) (v : ℕ) : Option PageTableEntry :=
  if (entry s (v*pageSize)).isValid=true then some (entry s (v*pageSize)) else none

/-- Whole pages further on an address stays aligned. -/
theorem aligned_add {pa : Usize} (h : Aligned pa) (k : ℕ) :
    Aligned (pa+BitVec.ofNat 64 (k*pageSize)) := by
  have hmod : ∀ w : Usize,Aligned w ↔ w.toNat%4096=0 := by
    intro w
    have hand : (w&&&0xfff#64).toNat=w.toNat%4096 := by
      rw [BitVec.toNat_and]
      exact Nat.and_two_pow_sub_one_eq_mod w.toNat 12
    rw [← hand]
    exact ⟨fun h0 => congrArg BitVec.toNat h0,fun h0 => BitVec.eq_of_toNat_eq h0⟩
  rw [hmod] at h ⊢
  rw [BitVec.toNat_add,BitVec.toNat_ofNat,pageSize]
  omega

/-- A page table over fresh zeroed pages is a finite map from pages to leaves. The three lookups
agree on the slot of an address, which is that of its page and of no other; creating tables changes
no binding; `map_pages` binds the pages that meet its range to consecutive pages, with its flags, and
no other page, or it fails and overwrites no valid leaf; and a leaf reads back as it was written. -/
theorem table_refines_map {mem : Usize → ℕ → PageTableEntry} {root : Usize} {as : List Label}
    {s : Space} (hg : Guarded step Fresh (empty mem root) as)
    (hr : run step (empty mem root) as=.next s) :
    (∀ va va',va < maxva → va' < maxva →
      s.findPteMut va=s.findPte va ∧
      (va/pageSize=va'/pageSize → s.findPte va=s.findPte va') ∧
      ∀ slot slot',s.findPte va=some slot → s.findPte va'=some slot' →
        (slot=slot' ↔ va/pageSize=va'/pageSize)) ∧
    (∀ va answers,va < maxva → FreshAnswers s answers →
      ∃ s' answers' r,findPteCreate s va answers=.ok (s',answers',r) ∧
        (∀ v,binding s' v=binding s v) ∧
        ∀ slot,r=some slot → s'.findPte va=some slot ∧
          (∀ old,s.findPte va=some old → old=slot) ∧
          ∀ va' slot',va' < maxva → s'.findPte va'=some slot' →
            (slot=slot' ↔ va/pageSize=va'/pageSize)) ∧
    (∀ va size pa perm answers s' r,Aligned pa → FreshAnswers s answers →
      mapPages s va size pa perm answers=.ok (s',r) →
      (r=.ok () → ∀ v,v < maxva/pageSize →
        (Meets v va size → ∃ pte,binding s' v=some pte ∧
          pte=PageTableEntry.writePerm (pa+BitVec.ofNat 64 ((v-va/pageSize)*pageSize)) perm ∧
          pte.asPhysAddr=pa+BitVec.ofNat 64 ((v-va/pageSize)*pageSize) ∧
          pte.readPerm=perm|||flagV) ∧
        (¬Meets v va size → binding s' v=binding s v)) ∧
      ∀ v pte,v < maxva/pageSize → r≠.ok () → binding s v=some pte → binding s' v=some pte) := by
  have h0 : ∃ path,Shape (empty mem root) path := ⟨_,empty_shape mem root⟩
  obtain ⟨path,hs⟩ : ∃ path,Shape s path :=
    run_invariant (fun _ _ _ h hc hstep => step_shape h hc hstep) h0 hg hr
  refine ⟨fun va va' hva hva' => ?_,fun va answers hva hf => ?_,?_⟩
  · exact ⟨rfl,findPte_congr hva hva',fun slot slot' h h' => slot_eq_iff hs hva hva' h h'⟩
  · obtain ⟨s',answers',r,path',he,hs',hx,-,hslot⟩ := walkCreate_spec hs (@Reaches.root s va) hf
    refine ⟨s',answers',r,he,fun v => ?_,fun slot hr => ⟨hslot slot hr,fun old hold => ?_,?_⟩⟩
    · rw [binding,binding,hx.entries]
    · have hfound := hx.found va old hold
      rw [hslot slot hr] at hfound
      exact (Option.some.inj hfound).symm
    · intro va' slot' hva' h'
      exact slot_eq_iff hs' hva hva' (hslot slot hr) h'
  · intro va size pa perm answers s' r ha hf hm
    obtain ⟨path',-,hok,herr⟩ := mapPages_spec hs hf hm
    refine ⟨fun hr v hv => ⟨fun hmeets => ?_,fun hmeets => ?_⟩,fun v pte hv hr hb => ?_⟩
    · have he := hok hr v hv
      rw [if_pos hmeets] at he
      obtain ⟨hpa,hperm,hvalid⟩ := writePerm_roundtrip (aligned_add ha (v-va/pageSize)) perm
      refine ⟨_,?_,rfl,hpa,hperm⟩
      rw [binding,he,if_pos hvalid]
    · have he := hok hr v hv
      rw [if_neg hmeets] at he
      rw [binding,binding,he]
    · rw [binding] at hb ⊢
      split at hb
      · rename_i hvalid
        rw [herr v hv hvalid hr,if_pos hvalid]
        exact hb
      · cases hb

/-- Two pages are mapped with two fresh tables, one is taken out, and both are mapped again, which
fails at the second. -/
def mapTwice : List Label :=
  [.map 0x1000 0x2000 0x90000000 flagR [some 0x80001000,some 0x80002000],.store 0x1000 ⟨0⟩,
    .map 0x1000 0x2000 0x90000000 flagW []]

/-- The answers of the run are fresh. -/
theorem mapTwice_fresh :
    Guarded step Fresh (empty (fun _ _ => PageTableEntry.zero) 0x80000000) mapTwice := by
  decide +kernel

/-- The run ends. -/
theorem mapTwice_ends : ∃ s,
    run step (empty (fun _ _ => PageTableEntry.zero) 0x80000000) mapTwice=.next s := by
  have ht : (run step (empty (fun _ _ => PageTableEntry.zero) 0x80000000) mapTwice).test
      (fun _ => true)=true := by decide +kernel
  obtain ⟨s,hr,-⟩ := Outcome.exists_of_test ht
  exact ⟨s,hr⟩

/-- The theorem at a run with a failure in the middle of a range. -/
theorem table_refines_map_mapTwice :
    ∃ s,run step (empty (fun _ _ => PageTableEntry.zero) 0x80000000) mapTwice=.next s ∧
      s.findPteMut 0x1000=s.findPte 0x1000 := by
  obtain ⟨s,hr⟩ := mapTwice_ends
  have h1 : 0x1000 < maxva := by
    rw [maxva]
    omega
  exact ⟨s,hr,((table_refines_map mapTwice_fresh hr).1 0x1000 0x1000 h1 h1).1⟩

end Xv6Rust.PageMap

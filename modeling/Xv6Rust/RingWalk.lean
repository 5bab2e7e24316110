import Mathlib.Data.List.Rotate
import Mathlib.Data.Nat.Find

/-!
# Walks around a ring

A function that takes every node of a row to the one behind it, and the last to the first. From
every node it comes to every other, and it comes back only when it has been everywhere. A loop that
follows it finds a node where it may stop, if there is one.
-/

namespace Xv6Rust.RingWalk

variable {α : Type*}

/-- The function goes round the nodes. -/
structure Ring (next : α → α) (nodes : List α) : Prop where
  nodup : nodes.Nodup
  turn : nodes.map next=nodes.rotate 1

/-- A loop that goes on until it may stop. -/
def follow (stop : α → Bool) (next : α → α) : ℕ → α → Option α
  | 0,_ => none
  | n+1,x => if stop x=true then some x else follow stop next n (next x)

variable {next : α → α} {nodes : List α} {x y : α}

namespace Ring

/-- Steps turn the row. -/
theorem iterate (h : Ring next nodes) (k : ℕ) : nodes.map next^[k]=nodes.rotate k := by
  induction k with
  | zero => rw [Function.iterate_zero,List.map_id,List.rotate_zero]
  | succ k ih =>
    rw [Function.iterate_succ',← List.map_map,ih,List.map_rotate,h.turn,List.rotate_rotate,
      Nat.add_comm]

theorem iterate_get (h : Ring next nodes) (k : ℕ) {i : ℕ} (hi : i < nodes.length) :
    nodes[(i+k)%nodes.length]?=some (next^[k] nodes[i]) := by
  have hrot : (nodes.rotate k)[i]?=some (next^[k] nodes[i]) := by
    rw [← h.iterate k,List.getElem?_map,List.getElem?_eq_getElem hi,Option.map_some]
  rwa [List.getElem?_rotate hi] at hrot

theorem iterate_mem (h : Ring next nodes) (k : ℕ) (hx : x∈nodes) : next^[k] x∈nodes := by
  rw [← List.mem_rotate (n:=k),← h.iterate k]
  exact List.mem_map_of_mem hx

/-- Every node is reached. -/
theorem reach (h : Ring next nodes) (hx : x∈nodes) (hy : y∈nodes) :
    ∃ k < nodes.length,next^[k] x=y := by
  obtain ⟨i,hi,rfl⟩ := List.getElem_of_mem hx
  obtain ⟨j,hj,rfl⟩ := List.getElem_of_mem hy
  have hpos : 0 < nodes.length := Nat.zero_lt_of_lt hi
  refine ⟨(j+nodes.length-i)%nodes.length,Nat.mod_lt _ hpos,Option.some.inj ?_⟩
  have hsum : i+(j+nodes.length-i)=j+nodes.length := by omega
  rw [← h.iterate_get _ hi,Nat.add_mod_mod,hsum,Nat.add_mod_right,Nat.mod_eq_of_lt hj,
    List.getElem?_eq_getElem hj]

/-- No node is met twice before all are. -/
theorem length_le (h : Ring next nodes) (hx : x∈nodes) {k : ℕ} (hk : 0 < k)
    (hback : next^[k] x=x) : nodes.length≤k := by
  obtain ⟨i,hi,rfl⟩ := List.getElem_of_mem hx
  have hpos : 0 < nodes.length := Nat.zero_lt_of_lt hi
  have hat := h.iterate_get k hi
  rw [hback,List.getElem?_eq_getElem (Nat.mod_lt _ hpos),Option.some.injEq] at hat
  have hmod : (i+k)%nodes.length=i := (List.Nodup.getElem_inj_iff h.nodup).mp hat
  by_contra hlt
  have hk' : k < nodes.length := Nat.lt_of_not_le hlt
  by_cases hsum : i+k < nodes.length
  · rw [Nat.mod_eq_of_lt hsum] at hmod
    omega
  · rw [Nat.mod_eq_sub_mod (Nat.le_of_not_lt hsum),Nat.mod_eq_of_lt (by omega)] at hmod
    omega

/-- A node has one node before it. -/
theorem injective (h : Ring next nodes) (hx : x∈nodes) (hy : y∈nodes) (heq : next x=next y) :
    x=y := by
  have hnodup : (nodes.map next).Nodup := by
    rw [h.turn]
    exact List.nodup_rotate.mpr h.nodup
  exact List.inj_on_of_nodup_map hnodup hx hy heq

/-- The first of the nodes from one on where a loop may stop. -/
theorem exists_first (h : Ring next nodes) (stop : α → Prop) (hx : x∈nodes) (hy : y∈nodes)
    (hs : stop y) :
    ∃ k < nodes.length,stop (next^[k] x) ∧ ∀ j < k,¬stop (next^[j] x) := by
  classical
  obtain ⟨k,hk,rfl⟩ := h.reach hx hy
  have hex : ∃ k,stop (next^[k] x) := ⟨k,hs⟩
  exact ⟨Nat.find hex,(Nat.find_min' hex hs).trans_lt hk,Nat.find_spec hex,
    fun j hj => Nat.find_min hex hj⟩

end Ring

theorem follow_eq {stop : α → Bool} {fuel k : ℕ} (hk : k < fuel) (hs : stop (next^[k] x)=true)
    (hn : ∀ j < k,¬stop (next^[j] x)=true) : follow stop next fuel x=some (next^[k] x) := by
  induction k generalizing x fuel with
  | zero =>
    obtain ⟨fuel,rfl⟩ := Nat.exists_eq_succ_of_ne_zero (Nat.ne_of_gt hk)
    rw [follow]
    exact if_pos hs
  | succ k ih =>
    obtain ⟨fuel,rfl⟩ := Nat.exists_eq_succ_of_ne_zero (Nat.ne_of_gt (Nat.zero_lt_of_lt hk))
    have h0 : ¬stop x=true := hn 0 (Nat.succ_pos k)
    rw [follow,if_neg h0]
    exact ih (Nat.lt_of_succ_lt_succ hk) hs fun j hj => hn (j+1) (Nat.succ_lt_succ hj)

/-- A loop that may stop somewhere on the ring does. -/
theorem Ring.follow_finds (h : Ring next nodes) {stop : α → Bool} {fuel : ℕ}
    (hf : nodes.length≤fuel) (hx : x∈nodes) (hy : y∈nodes) (hs : stop y=true) :
    ∃ z∈nodes,follow stop next fuel x=some z ∧ stop z=true := by
  obtain ⟨k,hk,hstop,hbefore⟩ := h.exists_first (fun z => stop z=true) hx hy hs
  exact ⟨next^[k] x,h.iterate_mem k hx,follow_eq (hk.trans_le hf) hstop hbefore,hstop⟩

end Xv6Rust.RingWalk

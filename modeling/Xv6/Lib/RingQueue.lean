import Mathlib.Logic.Function.Basic
import Mathlib.Data.Nat.ModEq
import Mathlib.Data.Fintype.Card

/- A bounded FIFO in an array of `cap` cells: `front` is the oldest live cell and the live
   cells follow it modulo `cap`. Cells outside the live window keep stale values. The list
   `contents` is the queue the array stands for. -/
namespace RingQueue

structure Ring (α : Type) (cap : Nat) where
  front : Nat
  size : Nat
  cell : Fin cap → α

theorem room_of_nodup {cap : Nat} {q : List (Fin cap)} (distinct : q.Nodup) {p : Fin cap}
    (absent : p ∉ q) :
    q.length < cap := by
  have longer : (p :: q).Nodup := List.nodup_cons.mpr ⟨absent,distinct⟩
  have fits := longer.length_le_card
  simp only [List.length_cons, Fintype.card_fin] at fits
  omega

variable {α : Type} {cap : Nat} [NeZero cap]

def slot (cap : Nat) [NeZero cap] (k : Nat) : Fin cap :=
  ⟨k % cap,Nat.mod_lt k (Nat.pos_of_neZero cap)⟩

def Ring.push (r : Ring α cap) (x : α) : Ring α cap :=
  ⟨r.front, r.size + 1, Function.update r.cell (slot cap (r.front + r.size)) x⟩

def Ring.head (r : Ring α cap) : α := r.cell (slot cap r.front)

def Ring.pop (r : Ring α cap) : Ring α cap :=
  ⟨(r.front + 1) % cap, r.size - 1, r.cell⟩

def Ring.contents (r : Ring α cap) : List α :=
  (List.range r.size).map fun k => r.cell (slot cap (r.front + k))

theorem contents_length (r : Ring α cap) : r.contents.length = r.size := by
  simp [Ring.contents]

theorem slot_injective_in_window {front j k : Nat} (hj : j < cap) (hk : k < cap)
    (same : slot cap (front + j) = slot cap (front + k)) : j = k := by
  have mods : (front + j) % cap = (front + k) % cap := congrArg Fin.val same
  have inner : j % cap = k % cap := Nat.ModEq.add_left_cancel' front mods
  rwa [Nat.mod_eq_of_lt hj, Nat.mod_eq_of_lt hk] at inner

theorem slot_after_mod (front k : Nat) :
    slot cap ((front + 1) % cap + k) = slot cap (front + (k + 1)) := by
  apply Fin.ext
  simp only [slot, Nat.mod_add_mod]
  congr 1
  omega

theorem contents_push {r : Ring α cap} (room : r.size < cap) (x : α) :
    (r.push x).contents = r.contents ++ [x] := by
  simp only [Ring.contents, Ring.push, List.range_succ, List.map_append, List.map_cons,
    List.map_nil, Function.update_self]
  congr 1
  apply List.map_congr_left
  intro k hk
  have below : k < r.size := List.mem_range.mp hk
  apply Function.update_of_ne
  intro same
  have := slot_injective_in_window (by omega) room same
  omega

theorem contents_pop {r : Ring α cap} (live : 0 < r.size) :
    r.contents = r.head :: r.pop.contents := by
  obtain ⟨n,hn⟩ : ∃ n, r.size = n + 1 := ⟨r.size - 1, by omega⟩
  simp only [Ring.contents, Ring.pop, Ring.head, hn, List.range_succ_eq_map, List.map_cons,
    List.map_map, Nat.add_zero, Nat.add_sub_cancel]
  congr 1
  apply List.map_congr_left
  intro k _
  simp only [Function.comp, Nat.succ_eq_add_one]
  rw [slot_after_mod]

end RingQueue

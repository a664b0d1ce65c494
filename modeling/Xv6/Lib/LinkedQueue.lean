import Mathlib.Data.List.Nodup
import Mathlib.Logic.Function.Basic

/- A queue kept as a chain of pointers: the head and, for each node, the node after it. The list
   it stands for is read off the chain. -/
namespace LinkedQueue
variable {α : Type} {next : α → Option α} {head : Option α} {l : List α} {a b : α}

def Linked (next : α → Option α) : Option α → List α → Prop
  | head, [] => head = none
  | head, a :: l => head = some a ∧ Linked next (next a) l

/-- The node with an empty pointer. No value means that `fuel` nodes were not enough. -/
def last (next : α → Option α) : Nat → α → Option α
  | 0, _ => none
  | fuel + 1, a => match next a with
    | none => some a
    | some b => last next fuel b

def append [DecidableEq α] (fuel : Nat) (next : α → Option α) (head : Option α) (b : α) :
    Option (Option α × (α → Option α)) :=
  match head with
  | none => some (some b, next)
  | some a => (last next fuel a).map fun z => (some a, Function.update next z (some b))

theorem linked_congr {next' : α → Option α} (linked : Linked next head l)
    (same : ∀ a ∈ l, next' a = next a) : Linked next' head l := by
  induction l generalizing head with
  | nil => exact linked
  | cons a l ih =>
    refine ⟨linked.1, ?_⟩
    rw [same a (by simp)]
    exact ih linked.2 fun b mem => same b (List.mem_cons_of_mem a mem)

theorem linked_head (linked : Linked next head l) : head = l.head? := by
  cases l with
  | nil => exact linked
  | cons a l => exact linked.1

theorem last_linked {fuel : Nat} (linked : Linked next (some a) (a :: l))
    (enough : l.length < fuel) :
    last next fuel a = some ((a :: l).getLast (List.cons_ne_nil a l)) := by
  induction l generalizing a fuel with
  | nil =>
    obtain ⟨fuel,rfl⟩ := Nat.exists_eq_add_one_of_ne_zero (Nat.pos_iff_ne_zero.mp enough)
    have ends : next a = none := linked.2
    rw [last, ends, List.getLast_singleton]
  | cons b l ih =>
    obtain ⟨fuel,rfl⟩ := Nat.exists_eq_add_one_of_ne_zero (Nat.ne_of_gt (Nat.zero_lt_of_lt enough))
    have step : next a = some b := linked.2.1
    rw [last, step, List.getLast_cons (List.cons_ne_nil b l)]
    exact ih ⟨rfl, linked.2.2⟩ (by simpa using enough)

theorem linked_snoc [DecidableEq α] (linked : Linked next head (a :: l)) (distinct : (a :: l).Nodup)
    (new : b ∉ a :: l) (ends : next b = none) :
    Linked (Function.update next ((a :: l).getLast (List.cons_ne_nil a l)) (some b)) head
      (a :: l ++ [b]) := by
  induction l generalizing head a with
  | nil =>
    have apart : b ≠ a := by simpa using new
    refine ⟨linked.1, ?_⟩
    rw [List.getLast_singleton, Function.update_self]
    refine ⟨rfl, ?_⟩
    rw [Function.update_of_ne apart, ends]
    rfl
  | cons c l ih =>
    refine ⟨linked.1, ?_⟩
    rw [List.getLast_cons (List.cons_ne_nil c l)]
    have apart : a ≠ (c :: l).getLast (List.cons_ne_nil c l) := by
      intro same
      exact (List.nodup_cons.mp distinct).1 (same ▸ List.getLast_mem (List.cons_ne_nil c l))
    rw [Function.update_of_ne apart]
    exact ih linked.2 (List.nodup_cons.mp distinct).2 fun mem => new (List.mem_cons_of_mem a mem)

theorem append_linked [DecidableEq α] {fuel : Nat} (linked : Linked next head l)
    (distinct : l.Nodup)
    (new : b ∉ l) (ends : next b = none) (enough : l.length ≤ fuel) :
    ∃ next', append fuel next head b = some ((l ++ [b]).head?, next') ∧
      Linked next' (l ++ [b]).head? (l ++ [b]) := by
  cases l with
  | nil =>
    obtain rfl : head = none := linked
    exact ⟨next, rfl, rfl, ends⟩
  | cons a l =>
    obtain rfl : head = some a := linked.1
    refine ⟨_, ?_, linked_snoc linked distinct new ends⟩
    rw [append, last_linked linked enough, Option.map_some]
    rfl

end LinkedQueue

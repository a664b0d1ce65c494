import Xv6.Lib.Bytes

/- Functions of ulib.c on the memory of a process. -/
namespace Ulib
open Bytes

def strchr (m : Nat → UInt8) (c : UInt8) : Nat → Nat → Option Nat
  | 0, _ => none
  | n + 1, s => if m s = 0 then none else if m s = c then some s else strchr m c n (s + 1)

def memmove (m : Nat → UInt8) (dst src : Nat) : Nat → Nat → UInt8
  | 0 => m
  | n + 1 => memmove (Function.update m dst (m src)) (dst + 1) (src + 1) n

variable {m : Nat → UInt8} {c : UInt8} {n s k : Nat}

theorem strchr_none (none_ : c ∉ load m s k) (ends : m (s + k) = 0) : strchr m c n s = none := by
  induction n generalizing s k with
  | zero => rfl
  | succ n ih =>
    rw [strchr]
    cases k with
    | zero =>
      rw [Nat.add_zero] at ends
      rw [if_pos ends]
    | succ k =>
      have split : load m s (k + 1) = m s :: load m (s + 1) k := by
        rw [Nat.add_comm, load_append]
        rfl
      rw [split, List.mem_cons, not_or] at none_
      split
      · rfl
      · rw [if_neg (Ne.symm none_.1)]
        exact ih none_.2 (by rw [← ends]; congr 1; omega)

theorem strchr_some (none_ : c ∉ load m s k) (string : 0 ∉ load m s k) (here : m (s + k) = c)
    (notNul : c ≠ 0) (enough : k < n) :
    strchr m c n s = some (s + k) := by
  induction n generalizing s k with
  | zero => cases enough
  | succ n ih =>
    rw [strchr]
    cases k with
    | zero =>
      rw [Nat.add_zero] at here
      rw [Nat.add_zero, if_neg (by rw [here]; exact notNul), if_pos here]
      rfl
    | succ k =>
      have split : load m s (k + 1) = m s :: load m (s + 1) k := by
        rw [Nat.add_comm, load_append]
        rfl
      rw [split, List.mem_cons, not_or] at none_ string
      rw [if_neg (Ne.symm string.1), if_neg (Ne.symm none_.1),
        ih none_.2 string.2 (by rw [← here]; congr 1; omega) (by omega)]
      congr 1
      omega

theorem memmove_down {dst src : Nat} (down : dst ≤ src) (x : Nat) :
    memmove m dst src n x = if dst ≤ x ∧ x < dst + n then m (x - dst + src) else m x := by
  induction n generalizing m dst src with
  | zero =>
    rw [memmove, if_neg (by omega)]
  | succ n ih =>
    rw [memmove, ih (by omega)]
    by_cases first : x = dst
    · subst first
      rw [if_neg (by omega), Function.update_self, if_pos (by omega), Nat.sub_self, Nat.zero_add]
    · by_cases later : dst + 1 ≤ x ∧ x < dst + 1 + n
      · have away : x - (dst + 1) + (src + 1) ≠ dst := by omega
        rw [if_pos later, if_pos (by omega), Function.update_of_ne away]
        congr 1
        omega
      · rw [if_neg later, if_neg (by omega), Function.update_of_ne first]

end Ulib

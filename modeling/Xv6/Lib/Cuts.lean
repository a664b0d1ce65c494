import Mathlib.Data.List.Basic

/- A list cut at a separator: the parts that one ends, without it, and what comes behind the last
   one. -/
namespace Cuts
variable {α : Type} [DecidableEq α] {sep : α} {l m : List α}

def add (sep a : α) : List (List α) × List α → List (List α) × List α
  | (parts, rest) =>
    if a = sep then ([] :: parts, rest)
    else match parts with
      | [] => ([], a :: rest)
      | first :: parts => ((a :: first) :: parts, rest)

def cut (sep : α) (l : List α) : List (List α) × List α := l.foldr (add sep) ([], [])

def join (sep : α) (parts : List (List α)) : List α := parts.flatMap (· ++ [sep])

theorem cut_cons (a : α) (l : List α) : cut sep (a :: l) = add sep a (cut sep l) := rfl

theorem cut_of_notMem (none_ : sep ∉ l) : cut sep l = ([], l) := by
  induction l with
  | nil => rfl
  | cons a l ih =>
    obtain ⟨other,none_⟩ : a ≠ sep ∧ sep ∉ l := by
      rw [List.mem_cons, not_or] at none_
      exact ⟨Ne.symm none_.1, none_.2⟩
    rw [cut_cons, ih none_]
    simp only [add, if_neg other]

theorem cut_line (line rest : List α) (none_ : sep ∉ line) :
    cut sep (line ++ sep :: rest) = (line :: (cut sep rest).1, (cut sep rest).2) := by
  induction line with
  | nil =>
    rw [List.nil_append, cut_cons]
    simp only [add, if_true]
  | cons a line ih =>
    obtain ⟨other,none_⟩ : a ≠ sep ∧ sep ∉ line := by
      rw [List.mem_cons, not_or] at none_
      exact ⟨Ne.symm none_.1, none_.2⟩
    rw [List.cons_append, cut_cons, ih none_]
    simp only [add, if_neg other]

theorem parts_induction (sep : α) {P : List α → Prop} (last : ∀ l, sep ∉ l → P l)
    (line : ∀ line rest, sep ∉ line → P rest → P (line ++ sep :: rest))
    (l : List α) : P l := by
  induction size : l.length using Nat.strongRecOn generalizing l with
  | _ n ih =>
    by_cases mem : sep ∈ l
    · obtain ⟨first,rest,rfl,none_⟩ := List.eq_append_cons_of_mem mem
      rw [List.length_append, List.length_cons] at size
      exact line first rest none_ (ih rest.length (by omega) rest rfl)
    · exact last l mem

theorem rest_notMem (sep : α) (l : List α) : sep ∉ (cut sep l).2 := by
  induction l using parts_induction sep with
  | last l none_ => rwa [cut_of_notMem none_]
  | line line rest none_ ih => rwa [cut_line line rest none_]

omit [DecidableEq α] in
theorem join_append (p q : List (List α)) : join sep (p ++ q) = join sep p ++ join sep q :=
  List.flatMap_append ..

theorem join_cut (sep : α) (l : List α) : join sep (cut sep l).1 ++ (cut sep l).2 = l := by
  induction l using parts_induction sep with
  | last l none_ => rw [cut_of_notMem none_]; rfl
  | line line rest none_ ih =>
    rw [cut_line line rest none_]
    show (line ++ [sep]) ++ join sep (cut sep rest).1 ++ (cut sep rest).2 = _
    rw [List.append_assoc, ih, List.append_assoc]
    rfl

theorem cut_append (l m : List α) :
    cut sep (l ++ m) = ((cut sep l).1 ++ (cut sep ((cut sep l).2 ++ m)).1,
      (cut sep ((cut sep l).2 ++ m)).2) := by
  induction l using parts_induction sep with
  | last l none_ => rw [cut_of_notMem none_]; rfl
  | line line rest none_ ih =>
    rw [List.append_assoc, List.cons_append, cut_line line (rest ++ m) none_,
      cut_line line rest none_, ih]
    rfl

end Cuts

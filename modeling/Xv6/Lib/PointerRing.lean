import Mathlib.Data.List.Nodup
import Mathlib.Logic.Function.Basic

/- Circular lists with one pointer per node: paths along the pointers, the loop that follows them
   to a node with a given property, and what redirecting one pointer does to a path. -/
namespace PointerRing
variable {V : Type} {next : V → V} {x y z : V} {l r : List V}

def Path (next : V → V) : V → List V → V → Prop
  | x, [], y => next x = y
  | x, a :: l, y => next x = a ∧ Path next a l y

/-- Following the pointers from a node to the first one that passes the test. No value means
    that `fuel` nodes were not enough. -/
def find (next : V → V) (test : V → Bool) : Nat → V → Option V
  | 0, _ => none
  | fuel + 1, x => if test x then some x else find next test fuel (next x)

theorem path_append {a : V} : Path next x (l ++ a :: r) y ↔ Path next x l a ∧ Path next a r y := by
  induction l generalizing x with
  | nil => rfl
  | cons b l ih => simp only [List.cons_append, Path, ih, and_assoc]

theorem path_congr {next' : V → V} (path : Path next x l y)
    (same : ∀ a ∈ x :: l, next' a = next a) :
    Path next' x l y := by
  induction l generalizing x with
  | nil =>
    rw [Path, same x (by simp)]
    exact path
  | cons a l ih =>
    refine ⟨?_, ih path.2 fun b mem => same b (List.mem_cons_of_mem x mem)⟩
    rw [same x (by simp)]
    exact path.1

def entry (r : List V) (y : V) : V := r.headD y

theorem path_entry (path : Path next x l y) : next x = entry l y := by
  cases l with
  | nil => exact path
  | cons a l => exact path.1

def Segment (next : V → V) : List V → V → Prop
  | [], _ => True
  | a :: r, y => Path next a r y

theorem path_split : Path next x (l ++ r) y ↔ Path next x l (entry r y) ∧ Segment next r y := by
  cases r with
  | nil => simp [entry, Segment]
  | cons a r => exact path_append

theorem segment_congr {next' : V → V} (segment : Segment next r y)
    (same : ∀ a ∈ r, next' a = next a) :
    Segment next' r y := by
  cases r with
  | nil => trivial
  | cons a r => exact path_congr segment same

theorem segment_of_path (path : Path next x l y) : Segment next l y := by
  cases l with
  | nil => trivial
  | cons a l => exact path.2

theorem path_of_segment (first : next x = entry r y) (segment : Segment next r y) :
    Path next x r y := by
  cases r with
  | nil => exact first
  | cons a r => exact ⟨first, segment⟩

theorem segment_suffix {r' : List V} (segment : Segment next r y) (tail : r' <:+ r) :
    Segment next r' y := by
  obtain ⟨l,rfl⟩ := tail
  cases l with
  | nil => exact segment
  | cons a l => exact (path_split.mp (show Path next a (l ++ r') y from segment)).2

def final (x : V) (l : List V) : V := l.getLastD x

theorem final_mem (x : V) (l : List V) : final x l ∈ x :: l := List.getLastD_mem_cons

theorem final_cons (x a : V) (l : List V) : final x (a :: l) = final a l := List.getLastD_cons

theorem final_append (x a : V) (l : List V) : final x (l ++ [a]) = a := by
  simp [final]

theorem path_final (path : Path next x l y) : next (final x l) = y := by
  induction l generalizing x with
  | nil => exact path
  | cons a l ih =>
    rw [final_cons]
    exact ih path.2

theorem path_retarget [DecidableEq V] (path : Path next x l y) (distinct : (x :: l).Nodup) (z : V) :
    Path (Function.update next (final x l) z) x l z := by
  induction l generalizing x with
  | nil => exact Function.update_self ..
  | cons a l ih =>
    rw [final_cons]
    have apart : x ≠ final a l := by
      intro same
      exact (List.nodup_cons.mp distinct).1 (same ▸ final_mem a l)
    refine ⟨?_, ih path.2 (List.nodup_cons.mp distinct).2⟩
    rw [Function.update_of_ne apart]
    exact path.1

theorem ring_rotate {h f : V} (ring : Path next h l h) (mem : f ∈ h :: l) :
    ∃ r, Path next f r f ∧ (f :: r).Perm (h :: l) := by
  rcases List.mem_cons.mp mem with rfl | inside
  · exact ⟨l, ring, .refl _⟩
  · obtain ⟨before,after,rfl⟩ := List.append_of_mem inside
    obtain ⟨first,second⟩ := path_append.mp ring
    refine ⟨after ++ h :: before, path_append.mpr ⟨second, first⟩, ?_⟩
    rw [← List.cons_append, ← List.cons_append]
    exact List.perm_append_comm

theorem find_path {test : V → Bool} {fuel : Nat} (path : Path next x l y)
    (some_ : ∃ a ∈ x :: l, test a = true) (enough : l.length < fuel) :
    ∃ a ∈ x :: l, test a = true ∧ find next test fuel x = some a := by
  induction l generalizing x fuel with
  | nil =>
    obtain ⟨fuel,rfl⟩ : ∃ n, fuel = n + 1 := Nat.exists_eq_add_one_of_ne_zero (Nat.ne_of_gt enough)
    obtain ⟨a,mem,passes⟩ := some_
    obtain rfl : a = x := by simpa using mem
    exact ⟨a, mem, passes, by rw [find, if_pos passes]⟩
  | cons b l ih =>
    obtain ⟨fuel,rfl⟩ : ∃ n, fuel = n + 1 :=
      Nat.exists_eq_add_one_of_ne_zero (Nat.ne_of_gt (Nat.zero_lt_of_lt enough))
    by_cases here : test x = true
    · exact ⟨x, by simp, here, by rw [find, if_pos here]⟩
    · have later : ∃ a ∈ b :: l, test a = true := by
        obtain ⟨a,mem,passes⟩ := some_
        rcases List.mem_cons.mp mem with rfl | inside
        · exact absurd passes here
        · exact ⟨a, inside, passes⟩
      obtain ⟨a,mem,passes,found⟩ := ih path.2 later (by simpa using enough)
      refine ⟨a, List.mem_cons_of_mem x mem, passes, ?_⟩
      rw [find, if_neg here, path.1, found]

theorem find_ring {h f : V} {test : V → Bool} {fuel : Nat} (ring : Path next h l h)
    (start : f ∈ h :: l)
    (some_ : ∃ a ∈ h :: l, test a = true) (enough : l.length < fuel) :
    ∃ a ∈ h :: l, test a = true ∧ find next test fuel f = some a := by
  obtain ⟨r,path,perm⟩ := ring_rotate ring start
  have size : r.length = l.length := by simpa using perm.length_eq
  obtain ⟨b,mem,passes⟩ := some_
  obtain ⟨a,inside,good,found⟩ :=
    find_path path ⟨b, perm.mem_iff.mpr mem, passes⟩ (size.symm ▸ enough)
  exact ⟨a, perm.mem_iff.mp inside, good, found⟩

/-- A search that also stops before it would come back to where the path ends. -/
theorem find_until [DecidableEq V] {f : V} {good : V → Bool} {fuel : Nat} (path : Path next x l f)
    (fresh : f ∉ l)
    (some_ : ∃ a ∈ x :: l, good a = true) (enough : l.length < fuel) :
    ∃ a ∈ x :: l, good a = true ∧
      find next (fun p => good p || decide (next p = f)) fuel x = some a := by
  induction l generalizing x fuel with
  | nil =>
    obtain ⟨fuel,rfl⟩ : ∃ n, fuel = n + 1 := Nat.exists_eq_add_one_of_ne_zero (Nat.ne_of_gt enough)
    obtain ⟨a,mem,passes⟩ := some_
    obtain rfl : a = x := by simpa using mem
    exact ⟨a, mem, passes, by simp [find, passes]⟩
  | cons b l ih =>
    obtain ⟨fuel,rfl⟩ : ∃ n, fuel = n + 1 :=
      Nat.exists_eq_add_one_of_ne_zero (Nat.ne_of_gt (Nat.lt_of_le_of_lt (Nat.zero_le _) enough))
    by_cases here : good x = true
    · exact ⟨x, by simp, here, by simp [find, here]⟩
    · have onward : b ≠ f := fun eq => fresh (by simp [eq])
      have later : ∃ a ∈ b :: l, good a = true := by
        obtain ⟨a,mem,passes⟩ := some_
        refine ⟨a, (List.mem_cons.mp mem).resolve_left fun eq => here (eq ▸ passes), passes⟩
      obtain ⟨a,mem,passes,found⟩ :=
        ih path.2 (fun mem => fresh (by simp [mem])) later (by simpa using enough)
      exact ⟨a, by simp [mem], passes, by simpa [find, here, onward, path.1] using found⟩

theorem find_ring_until [DecidableEq V] {h f : V} {good : V → Bool} {fuel : Nat}
    (ring : Path next h l h)
    (distinct : (h :: l).Nodup) (start : f ∈ h :: l) (some_ : ∃ a ∈ h :: l, good a = true)
    (enough : l.length < fuel) :
    ∃ a ∈ h :: l, good a = true ∧
      find next (fun p => good p || decide (next p = f)) fuel f = some a := by
  obtain ⟨r,path,perm⟩ := ring_rotate ring start
  have size : r.length = l.length := by simpa using perm.length_eq
  have fresh := (List.nodup_cons.mp (perm.nodup_iff.mpr distinct)).1
  obtain ⟨b,mem,passes⟩ := some_
  obtain ⟨a,inside,good,found⟩ :=
    find_until path fresh ⟨b, perm.mem_iff.mpr mem, passes⟩ (size.symm ▸ enough)
  exact ⟨a, perm.mem_iff.mp inside, good, found⟩

theorem ring_before {h f : V} (ring : Path next h l h) (mem : f ∈ h :: l) :
    ∃ a ∈ h :: l, next a = f := by
  obtain ⟨r,path,perm⟩ := ring_rotate ring mem
  exact ⟨final f r, perm.mem_iff.mp (final_mem f r), path_final path⟩

end PointerRing

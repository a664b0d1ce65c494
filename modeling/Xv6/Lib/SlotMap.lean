import Mathlib.Data.List.Basic

/- A map kept in a table of slots: a slot is empty or has a key and a value. A key is looked up
   from the front, a new one goes to the first empty slot or behind the last one, and a removed
   one leaves its slot empty. -/
namespace SlotMap
variable {κ ν : Type} [DecidableEq κ]

abbrev Table (κ ν : Type) := List (Option (κ × ν))

def find : Table κ ν → κ → Option (Nat × ν)
  | [], _ => none
  | none :: l, key => (find l key).map fun r => (r.1 + 1, r.2)
  | some (k, v) :: l, key =>
    if k = key then some (0, v) else (find l key).map fun r => (r.1 + 1, r.2)

def vacancy : Table κ ν → Nat
  | [] => 0
  | none :: _ => 0
  | some _ :: l => vacancy l + 1

def put : Table κ ν → Nat → Option (κ × ν) → Table κ ν
  | [], _, r => [r]
  | _ :: l, 0, r => r :: l
  | x :: l, i + 1, r => x :: put l i r

def Unique : Table κ ν → Prop
  | [] => True
  | none :: l => Unique l
  | some (k, _) :: l => find l k = none ∧ Unique l

variable {l : Table κ ν} {key : κ} {v : ν} {i : Nat}

omit [DecidableEq κ] in
theorem vacancy_le (l : Table κ ν) : vacancy l ≤ l.length := by
  induction l with
  | nil => exact Nat.le_refl 0
  | cons x l ih =>
    cases x with
    | none => exact Nat.zero_le _
    | some r => exact Nat.succ_le_succ ih

theorem find_lt {r : Nat × ν} (found : find l key = some r) : r.1 < l.length := by
  induction l generalizing r with
  | nil => cases found
  | cons x l ih =>
    cases x with
    | none =>
      obtain ⟨q,later,rfl⟩ := Option.map_eq_some_iff.mp found
      exact Nat.succ_lt_succ (ih later)
    | some p =>
      obtain ⟨k,u⟩ := p
      simp only [find] at found
      split at found
      · cases found
        exact Nat.succ_pos _
      · obtain ⟨q,later,rfl⟩ := Option.map_eq_some_iff.mp found
        exact Nat.succ_lt_succ (ih later)

omit [DecidableEq κ] in
theorem getElem?_put (r : Option (κ × ν)) (inside : i ≤ l.length) (n : Nat) :
    (put l i r)[n]? = if n = i then some r else l[n]? := by
  induction l generalizing i n with
  | nil =>
    obtain rfl : i = 0 := by simpa using inside
    cases n <;> rfl
  | cons x l ih =>
    cases i with
    | zero => cases n <;> rfl
    | succ i =>
      cases n with
      | zero => rfl
      | succ n =>
        simp only [put, List.getElem?_cons_succ, ih (Nat.le_of_succ_le_succ inside),
          Nat.add_right_cancel_iff]

theorem find_of_slot {n : Nat} (slot : l[n]? = some (some (key, v))) :
    ∃ r, find l key = some r := by
  induction l generalizing n with
  | nil => cases slot
  | cons x l ih =>
    cases n with
    | zero =>
      obtain rfl : x = some (key, v) := Option.some.inj slot
      exact ⟨(0, v), if_pos rfl⟩
    | succ n =>
      obtain ⟨r,found⟩ := ih slot
      cases x with
      | none => exact ⟨(r.1 + 1, r.2), by simp only [find, found, Option.map_some]⟩
      | some p =>
        obtain ⟨k,u⟩ := p
        simp only [find, found, Option.map_some]
        split
        · exact ⟨_, rfl⟩
        · exact ⟨_, rfl⟩

theorem unique_slots {m n : Nat} {u : ν} (unique : Unique l) (first : l[m]? = some (some (key, u)))
    (second : l[n]? = some (some (key, v))) :
    m = n := by
  induction l generalizing m n with
  | nil => cases first
  | cons x l ih =>
    cases m with
    | zero =>
      obtain rfl : x = some (key, u) := Option.some.inj first
      cases n with
      | zero => rfl
      | succ n =>
        have later : l[n]? = some (some (key, v)) := second
        obtain ⟨r,found⟩ := find_of_slot later
        rw [unique.1] at found
        cases found
    | succ m =>
      have rest : Unique l := by
        cases x with
        | none => exact unique
        | some p => exact unique.2
      cases n with
      | zero =>
        obtain rfl : x = some (key, v) := Option.some.inj second
        have later : l[m]? = some (some (key, u)) := first
        obtain ⟨r,found⟩ := find_of_slot later
        rw [unique.1] at found
        cases found
      | succ n => rw [ih rest first second]

theorem find_put_vacancy (fresh : find l key = none) (other : κ) :
    find (put l (vacancy l) (some (key, v))) other = if other = key then some (vacancy l, v)
      else find l other := by
  induction l with
  | nil => simp only [put, find, eq_comm, Option.map_none]; rfl
  | cons x l ih =>
    cases x with
    | none =>
      have later : find l key = none := by simpa [find] using fresh
      simp only [vacancy, put, find, eq_comm]
    | some p =>
      obtain ⟨k,u⟩ := p
      simp only [find] at fresh
      split at fresh
      · cases fresh
      next differs =>
        have rest := ih (by simpa using fresh)
        simp only [vacancy, put, find, rest]
        by_cases mine : other = key
        · subst mine
          simp [differs]
        · simp only [if_neg mine]

theorem unique_put_vacancy (unique : Unique l) (fresh : find l key = none) :
    Unique (put l (vacancy l) (some (key, v))) := by
  induction l with
  | nil => exact ⟨rfl, trivial⟩
  | cons x l ih =>
    cases x with
    | none =>
      have later : find l key = none := by simpa [find] using fresh
      exact ⟨later, unique⟩
    | some p =>
      obtain ⟨k,u⟩ := p
      simp only [find] at fresh
      split at fresh
      · cases fresh
      next differs =>
        have fresh : find l key = none := by simpa using fresh
        refine ⟨?_, ih unique.2 fresh⟩
        rw [find_put_vacancy fresh, if_neg differs]
        exact unique.1

theorem find_put_none {r : Nat × ν} (unique : Unique l) (found : find l key = some r) (other : κ) :
    find (put l r.1 none) other = if other = key then none else find l other := by
  induction l generalizing r with
  | nil => cases found
  | cons x l ih =>
    cases x with
    | none =>
      obtain ⟨q,later,rfl⟩ := Option.map_eq_some_iff.mp found
      simp only [put, find, ih unique later]
      split <;> rfl
    | some p =>
      obtain ⟨k,u⟩ := p
      simp only [find] at found
      split at found
      · next mine =>
        cases found
        subst mine
        simp only [put, find]
        by_cases same : other = k
        · subst same
          simp [unique.1]
        · simp [same, Ne.symm same]
      next differs =>
        obtain ⟨q,later,rfl⟩ := Option.map_eq_some_iff.mp found
        simp only [put, find, ih unique.2 later]
        by_cases same : other = key
        · subst same
          simp [differs]
        · simp only [if_neg same]

theorem unique_put_none {r : Nat × ν} (unique : Unique l) (found : find l key = some r) :
    Unique (put l r.1 none) := by
  induction l generalizing r with
  | nil => cases found
  | cons x l ih =>
    cases x with
    | none =>
      obtain ⟨q,later,rfl⟩ := Option.map_eq_some_iff.mp found
      exact ih unique later
    | some p =>
      obtain ⟨k,u⟩ := p
      simp only [find] at found
      split at found
      · cases found
        exact unique.2
      next differs =>
        obtain ⟨q,later,rfl⟩ := Option.map_eq_some_iff.mp found
        refine ⟨?_, ih unique.2 later⟩
        rw [find_put_none unique.2 later]
        split
        · rfl
        · exact unique.1

end SlotMap

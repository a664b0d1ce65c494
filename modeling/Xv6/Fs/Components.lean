import Mathlib.Data.List.Basic
import Xv6.Fs.Directory

/- The elements of a path: the runs between slashes that are not empty, cut to DIRSIZ bytes. -/
namespace FsPaths
open FsDisk FsDirectory

def components (path : List UInt8) : List (List UInt8) :=
  ((path.splitOnP (· = slash)).filter (· ≠ [])).map (·.take dirsiz)

def elements : Nat → List UInt8 → List (List UInt8)
  | 0, _ => []
  | fuel + 1, path =>
    match skipelem path with
    | none => []
    | some (rest, name) => name :: elements fuel rest

variable {path rest name : List UInt8}

theorem components_slash (path : List UInt8) : components (slash :: path) = components path := by
  rw [components, List.splitOnP_cons_eq_if_modifyHead, if_pos (by simp)]
  simp [components]

theorem components_cons {c : UInt8} (plain : c ≠ slash) (path : List UInt8) :
    components (c :: path) ≠ [] := by
  rw [components, List.splitOnP_cons_eq_if_modifyHead, if_neg (by simpa using plain)]
  cases parts : path.splitOnP (· = slash) with
  | nil => exact absurd parts (List.splitOnP_ne_nil _ _)
  | cons first others => simp

theorem components_dropWhile (path : List UInt8) :
    components (path.dropWhile (· = slash)) = components path := by
  induction path with
  | nil => rfl
  | cons c path ih =>
    by_cases sep : c = slash
    · rw [List.dropWhile_cons_of_pos (by simpa using sep), ih, sep, components_slash]
    · rw [List.dropWhile_cons_of_neg (by simpa using sep)]

theorem components_run {run after : List UInt8} (some_ : run ≠ []) (plain : ∀ c ∈ run, c ≠ slash)
    (ends : after.headD slash = slash) :
    components (run ++ after) = run.take dirsiz :: components after := by
  have inside : ∀ c ∈ run, decide (c = slash) = false := fun c mem => by simpa using plain c mem
  cases after with
  | nil =>
    rw [List.append_nil, components, List.splitOnP_eq_singleton inside]
    simp [components, some_]
  | cons c after =>
    obtain rfl : c = slash := ends
    rw [components_slash, components,
      List.splitOnP_append_cons_of_forall_mem inside slash (by simp)]
    simp [components, some_]

/-- skipelem takes a run of the path behind the slashes and goes on behind the slashes that
    follow. -/
theorem skipelem_cut (cut : skipelem path = some (rest, name)) :
    ∃ run after, path.dropWhile (· = slash) = run ++ after ∧ run ≠ [] ∧
      (∀ c ∈ run, c ≠ slash ∧ c ≠ 0) ∧
      (after.headD 0 = slash ∨ after.headD 0 = 0) ∧ rest = after.dropWhile (· = slash) ∧
        name = run.take dirsiz := by
  unfold skipelem at cut
  generalize left : path.dropWhile (· = slash) = s at cut
  dsimp only at cut
  split at cut
  · cases cut
  next starts =>
    cases cut
    have parts :=
      List.takeWhile_append_dropWhile (p := fun c : UInt8 => decide (c ≠ slash ∧ c ≠ 0)) (l := s)
    have after : s.drop (s.takeWhile fun c => c ≠ slash ∧ c ≠ 0).length = s.dropWhile fun c =>
        c ≠ slash ∧ c ≠ 0 := by
          have cut : (s.takeWhile (fun c => decide (c ≠ slash ∧ c ≠ 0)) ++ s.dropWhile fun c =>
            decide (c ≠ slash ∧ c ≠ 0)).drop
              (s.takeWhile fun c => c ≠ slash ∧ c ≠ 0).length = s.dropWhile fun c => c ≠ slash ∧
                c ≠ 0 := List.drop_left
          rwa [parts] at cut
    refine ⟨s.takeWhile fun c => c ≠ slash ∧ c ≠ 0, s.dropWhile fun c => c ≠ slash ∧
      c ≠ 0, parts.symm, ?_, fun c mem => ?_, ?_, by rw [after], rfl⟩
    · cases s with
      | nil => exact absurd rfl starts
      | cons c s =>
        have here : c ≠ slash := by
          have := List.head?_dropWhile_not (p := fun c : UInt8 => decide (c = slash)) (l := path)
          rw [left] at this
          simpa using this
        have ends : c ≠ 0 := starts
        simp [here, ends]
    · have all := List.all_takeWhile (p := fun c : UInt8 => decide (c ≠ slash ∧ c ≠ 0)) (l := s)
      simpa using List.all_eq_true.mp all c mem
    · have stops :=
        List.head?_dropWhile_not (p := fun c : UInt8 => decide (c ≠ slash ∧ c ≠ 0)) (l := s)
      cases rest : s.dropWhile fun c => decide (c ≠ slash ∧ c ≠ 0) with
      | nil => exact .inr rfl
      | cons c tail =>
        rw [rest] at stops
        have : ¬ (c ≠ slash ∧ c ≠ 0) := by simpa using stops
        by_cases sep : c = slash
        · exact .inl sep
        · exact .inr (Classical.not_not.mp fun ne => this ⟨sep, ne⟩)

theorem skipelem_shorter (cut : skipelem path = some (rest, name)) : rest.length < path.length := by
  obtain ⟨run,after,eq,some_,-,-,rfl,-⟩ := skipelem_cut cut
  have shorter := (List.dropWhile_sublist (l := path) fun c => decide (c = slash)).length_le
  have less := (List.dropWhile_sublist (l := after) fun c => decide (c = slash)).length_le
  have positive := List.length_pos_iff.mpr some_
  rw [eq, List.length_append] at shorter
  omega

theorem skipelem_none (string : 0 ∉ path) (stops : skipelem path = none) :
    components path = [] := by
  unfold skipelem at stops
  dsimp only at stops
  split at stops
  next ends =>
    rw [← components_dropWhile]
    cases left : path.dropWhile fun c => decide (c = slash) with
    | nil => rfl
    | cons c s =>
      rw [left] at ends
      have mem : c ∈ path := (List.dropWhile_sublist _).subset (left ▸ List.mem_cons_self)
      exact absurd (ends ▸ mem : (0 : UInt8) ∈ path) string
  · cases stops

theorem skipelem_some (string : 0 ∉ path) (cut : skipelem path = some (rest, name)) :
    components path = name :: components rest ∧ 0 ∉ rest ∧
      (rest.headD 0 = 0 ↔ components rest = []) := by
  obtain ⟨run,after,eq,some_,plain,ends,rfl,rfl⟩ := skipelem_cut cut
  have inPath : ∀ c ∈ after, c ∈ path := fun c mem =>
    (List.dropWhile_sublist fun c => decide (c = slash)).subset (eq ▸ List.mem_append_right run mem)
  have inAfter : ∀ c ∈ after.dropWhile fun c => decide (c = slash), c ∈ after :=
    fun c mem => (List.dropWhile_sublist _).subset mem
  have string' : 0 ∉ after.dropWhile fun c => decide (c = slash) :=
    fun mem => string (inPath 0 (inAfter 0 mem))
  refine ⟨?_, string', ?_⟩
  · have ends' : after.headD slash = slash := by
      cases after with
      | nil => rfl
      | cons c after =>
        rcases ends with sep | zero
        · exact sep
        · exact absurd (inPath 0 (zero ▸ List.mem_cons_self)) string
    rw [← components_dropWhile, eq, components_run some_ (fun c mem => (plain c mem).1) ends',
      components_dropWhile]
  · have front := List.head?_dropWhile_not (p := fun c : UInt8 => decide (c = slash)) (l := after)
    cases left : after.dropWhile fun c => decide (c = slash) with
    | nil => simp [components, List.splitOnP_nil]
    | cons c tail =>
      rw [left] at front string'
      have plain' : c ≠ slash := by simpa using front
      have zero : c ≠ 0 := fun zero => string' (zero ▸ List.mem_cons_self)
      simp [zero, components_cons plain' tail]

theorem elements_eq (string : 0 ∉ path) {fuel : Nat} (enough : path.length < fuel) :
    elements fuel path = components path := by
  induction fuel generalizing path with
  | zero => exact absurd enough (Nat.not_lt_zero _)
  | succ fuel ih =>
    rw [elements]
    cases cut : skipelem path with
    | none => exact (skipelem_none string cut).symm
    | some pair =>
      obtain ⟨rest,name⟩ := pair
      obtain ⟨all,string',-⟩ := skipelem_some string cut
      have shorter := skipelem_shorter cut
      rw [all, ← ih string' (by omega)]

end FsPaths

import Mathlib.Data.List.Basic

/- A single pass over a list that keeps the best eligible element seen so far, starting from
   a bound that the first choice has to beat. -/
namespace RunningBest
variable {α K : Type} (eligible : α → Prop) [DecidablePred eligible] (key : α → K)
  (better : K → K → Bool)

def scan : K → Option α → List α → Option α
  | _, best, [] => best
  | bound, best, x :: xs =>
    if eligible x ∧ better (key x) bound then scan (key x) (some x) xs else scan bound best xs

variable {eligible key better}
variable {bound : K} {xs : List α}

theorem scan_some_isSome {b : α} :
    scan eligible key better bound (some b) xs ≠ none := by
  induction xs generalizing bound b with
  | nil => simp [scan]
  | cons x xs ih =>
    unfold scan
    split
    · exact ih
    · exact ih

theorem scan_eq_none_iff :
    scan eligible key better bound none xs = none ↔
      ∀ x ∈ xs, eligible x → ¬ better (key x) bound := by
  induction xs with
  | nil => simp [scan]
  | cons x xs ih =>
    unfold scan
    split
    · rename_i beats
      constructor
      · intro nothing
        exact absurd nothing scan_some_isSome
      · intro never
        exact absurd beats.2 (never x List.mem_cons_self beats.1)
    · rename_i fails
      rw [ih, List.forall_mem_cons]
      constructor
      · intro rest
        exact ⟨fun may beats => fails ⟨may,beats⟩,rest⟩
      · exact And.right

variable {best : Option α}

theorem scan_picks {p : α}
    (picked : scan eligible key better bound best xs = some p) :
    best = some p ∨ p ∈ xs ∧ eligible p := by
  induction xs generalizing bound best with
  | nil => exact Or.inl picked
  | cons x xs ih =>
    unfold scan at picked
    split at picked
    · rename_i beats
      rcases ih picked with same | ⟨mem,may⟩
      · simp only [Option.some.injEq] at same
        subst x
        exact Or.inr ⟨List.mem_cons_self,beats.1⟩
      · exact Or.inr ⟨List.mem_cons_of_mem x mem,may⟩
    · rcases ih picked with same | ⟨mem,may⟩
      · exact Or.inl same
      · exact Or.inr ⟨List.mem_cons_of_mem x mem,may⟩

/-- The choice beats the bound and everything eligible before it, and nothing behind it beats it. -/
theorem scan_splits (trans : ∀ a b c, better a b → better b c → better a c)
    (steady : ∀ a b c, ¬ better a b → better c b → better c a) {p : α}
    (picked : scan eligible key better bound best xs = some p) :
    best = some p ∧ (∀ x ∈ xs, eligible x → ¬ better (key x) bound) ∨
      ∃ us vs, xs = us ++ p :: vs ∧ eligible p ∧ better (key p) bound ∧
        (∀ x ∈ us, eligible x → better (key p) (key x)) ∧
        ∀ x ∈ vs, eligible x → ¬ better (key x) (key p) := by
  induction xs generalizing bound best with
  | nil => exact Or.inl ⟨picked, by simp⟩
  | cons x xs ih =>
    unfold scan at picked
    split at picked
    · rename_i beats
      rcases ih picked with ⟨same,rest⟩ | ⟨us,vs,cut,may,more,before,after⟩
      · simp only [Option.some.injEq] at same
        subst x
        exact Or.inr ⟨[], xs, rfl, beats.1, beats.2, by simp, rest⟩
      · refine Or.inr ⟨x :: us, vs, by rw [cut]; rfl, may, trans _ _ _ more beats.2, ?_, after⟩
        exact List.forall_mem_cons.mpr ⟨fun _ => more, before⟩
    · rename_i fails
      rcases ih picked with ⟨same,rest⟩ | ⟨us,vs,cut,may,more,before,after⟩
      · exact Or.inl ⟨same, List.forall_mem_cons.mpr ⟨fun ok beats => fails ⟨ok,beats⟩, rest⟩⟩
      · refine Or.inr ⟨x :: us, vs, by rw [cut]; rfl, may, more, ?_, after⟩
        exact List.forall_mem_cons.mpr
          ⟨fun ok => steady _ _ _ (fun beats => fails ⟨ok,beats⟩) more, before⟩

theorem scan_best (irrefl : ∀ a, ¬ better a a)
    (trans : ∀ a b c, better a b → better b c → better a c)
    (steady : ∀ a b c, ¬ better a b → better c b → better c a) {p : α}
    (picked : scan eligible key better bound best xs = some p) :
    best = some p ∧ (∀ x ∈ xs, eligible x → ¬ better (key x) bound) ∨
      p ∈ xs ∧ eligible p ∧ better (key p) bound ∧ ∀ x ∈ xs, eligible x →
        ¬ better (key x) (key p) := by
  rcases scan_splits trans steady picked with kept | ⟨us,vs,cut,may,more,before,after⟩
  · exact Or.inl kept
  · refine Or.inr ⟨by simp [cut], may, more, fun x mem ok => ?_⟩
    rw [cut, List.mem_append, List.mem_cons] at mem
    rcases mem with first | same | last
    · exact fun beats => irrefl _ (trans _ _ _ beats (before x first ok))
    · rw [same]
      exact irrefl _
    · exact after x last ok

end RunningBest

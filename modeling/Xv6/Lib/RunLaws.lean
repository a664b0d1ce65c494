import Mathlib.Logic.Basic

/- Runs of a labelled machine. A machine is a partial step function; a list of events is a
   run when each event is enabled in the state the events before it lead to. Nothing here
   names a particular system. -/
namespace RunLaws
variable {State Event : Type}

def exec (step : State → Event → Option State) : State → List Event → Option State
  | s, [] => some s
  | s, e :: es => (step s e).bind fun t => exec step t es

/-- Every event of the run meets `ok` in the state it starts from. -/
def Along (step : State → Event → Option State) (ok : State → Event → Prop) :
    State → List Event → Prop
  | _, [] => True
  | s, e :: es => ok s e ∧ match step s e with
    | some t => Along step ok t es
    | none => True

variable {step : State → Event → Option State} {ok : State → Event → Prop}

instance decidableAlong [∀ s e, Decidable (ok s e)] : ∀ s es, Decidable (Along step ok s es)
  | _, [] => isTrue trivial
  | s, e :: es =>
    have : Decidable (match step s e with
        | some t => Along step ok t es
        | none => True) :=
      match step s e with
      | some t => decidableAlong t es
      | none => isTrue trivial
    inferInstanceAs (Decidable (_ ∧ _))

variable {s : State} {e : Event} {es : List Event}

theorem along_tail {t : State}
    (along : Along step ok s (e :: es)) (move : step s e = some t) : Along step ok t es := by
  have rest := along.2
  rw [move] at rest
  exact rest

theorem along_cons (first : ok s e)
    (rest : ∀ t, step s e = some t → Along step ok t es) : Along step ok s (e :: es) := by
  refine ⟨first, ?_⟩
  cases move : step s e with
  | none => trivial
  | some t => exact rest t move

theorem exec_cons_iff {u : State} :
    exec step s (e :: es) = some u ↔ ∃ t, step s e = some t ∧ exec step t es = some u := by
  simp only [exec, Option.bind_eq_some_iff]

theorem exec_append {fs : List Event} :
    exec step s (es ++ fs) = (exec step s es).bind fun t => exec step t fs := by
  induction es generalizing s with
  | nil => rfl
  | cons e es ih =>
    simp only [List.cons_append, exec, Option.bind_assoc]
    congr 1
    funext t
    exact ih

/-- The induction every safety result of the development uses: what one admitted step
    keeps, a whole run keeps. -/
theorem exec_invariant (Inv : State → Prop)
    (keep : ∀ s e t, Inv s → ok s e → step s e = some t → Inv t)
    {t : State} (start : Inv s) (along : Along step ok s es)
    (run : exec step s es = some t) : Inv t := by
  induction es generalizing s with
  | nil => cases run; exact start
  | cons e es ih =>
    obtain ⟨u,move,rest⟩ := exec_cons_iff.mp run
    exact ih (keep s e u start along.1 move) (along_tail along move) rest

theorem along_mono {weaker : State → Event → Prop} (weaken : ∀ s e, ok s e → weaker s e)
    (along : Along step ok s es) : Along step weaker s es := by
  induction es generalizing s with
  | nil => trivial
  | cons e es ih =>
    exact along_cons (weaken s e along.1) fun t move => ih (along_tail along move)

theorem along_snoc_iff :
    Along step ok s (es ++ [e]) ↔
      Along step ok s es ∧ ∀ t, exec step s es = some t → ok t e := by
  induction es generalizing s with
  | nil =>
    constructor
    · intro along
      exact ⟨trivial,fun t run => Option.some.inj run ▸ along.1⟩
    · intro along
      exact along_cons (along.2 s rfl) fun _ _ => trivial
  | cons d es ih =>
    constructor
    · intro along
      refine ⟨along_cons along.1 fun t move => (ih.mp (along_tail along move)).1, ?_⟩
      intro t run
      obtain ⟨u,move,rest⟩ := exec_cons_iff.mp run
      exact (ih.mp (along_tail along move)).2 t rest
    · rintro ⟨along,last⟩
      refine along_cons along.1 fun t move => ih.mpr ⟨along_tail along move, fun u run => ?_⟩
      exact last u (exec_cons_iff.mpr ⟨t,move,run⟩)

theorem along_trivial (s : State) (es : List Event) : Along step (fun _ _ => True) s es := by
  induction es generalizing s with
  | nil => trivial
  | cons e es ih => exact along_cons trivial fun t _ => ih t

theorem along_and {more : State → Event → Prop}
    (left : Along step ok s es) (right : Along step more s es) :
    Along step (fun s e => ok s e ∧ more s e) s es := by
  induction es generalizing s with
  | nil => trivial
  | cons e es ih =>
    exact along_cons ⟨left.1,right.1⟩ fun t move =>
      ih (along_tail left move) (along_tail right move)

theorem along_of_forall (all : ∀ e ∈ es, ∀ t, ok t e) :
    Along step ok s es := by
  induction es generalizing s with
  | nil => trivial
  | cons e es ih =>
    exact along_cons (all e (by simp) s) fun t _ =>
      ih fun e' mem => all e' (List.mem_cons_of_mem e mem)

theorem along_congr {other : State → Event → Prop} (Inv : State → Prop)
    (agree : ∀ s e, Inv s → (ok s e ↔ other s e))
    (keep : ∀ s e t, Inv s → other s e → step s e = some t → Inv t)
    (start : Inv s) (es : List Event) : Along step ok s es ↔ Along step other s es := by
  induction es generalizing s with
  | nil => exact Iff.rfl
  | cons e es ih =>
    constructor
    · intro along
      have first := (agree s e start).mp along.1
      exact along_cons first fun t move =>
        (ih (keep s e t start first move)).mp (along_tail along move)
    · intro along
      exact along_cons ((agree s e start).mpr along.1) fun t move =>
        (ih (keep s e t start along.1 move)).mpr (along_tail along move)

/-- A machine that follows another one as long as `ok` holds and stops where it does not: over a
    run of the other machine the two agree exactly when `ok` holds all along. -/
theorem exec_map_iff {Other : Type} {other : Other → Event → Option Other} {view : State → Other}
    {basic : Event → Prop} (Inv : State → Prop)
    (follow : ∀ s e b, Inv s → basic e → other (view s) e = some b →
      (ok s e → ∃ t, step s e = some t ∧ view t = b ∧ Inv t) ∧ (¬ ok s e → step s e = none))
    (start : Inv s) (all : ∀ e ∈ es, basic e)
    (legal : (exec other (view s) es).isSome) :
    (exec step s es).map view = exec other (view s) es ↔ Along step ok s es := by
  induction es generalizing s with
  | nil => exact ⟨fun _ => trivial, fun _ => rfl⟩
  | cons e es ih =>
    obtain ⟨c,run⟩ := Option.isSome_iff_exists.mp legal
    obtain ⟨b,first,rest⟩ := exec_cons_iff.mp run
    obtain ⟨good,bad⟩ := follow s e b start (all e (by simp)) first
    by_cases here : ok s e
    · obtain ⟨t,move,rfl,next⟩ := good here
      have later := ih next (fun e mem => all e (by simp [mem])) (by rw [rest]; rfl)
      simp only [exec, move, first, Option.bind_some, Along, here, true_and]
      exact later
    · have stuck := bad here
      have first_ : exec step s (e :: es) = none := by simp only [exec, stuck, Option.bind_none]
      simp only [first_, run, Option.map_none, Along, here, false_and, iff_false]
      exact fun same => (by cases same)

end RunLaws

import Mathlib.Logic.Basic

/- Exclusive ownership of resources. A map records which of them are in use; places hold them.
   The map is exact when the resources in use are the reserved ones and those held at a place,
   and no resource is held at two places. Taking a free resource to an empty place and giving
   one back keep it exact. -/
namespace Ownership
variable {Place Resource : Type} {reserved used used' : Resource → Prop}
  {held held' : Place → Option Resource}

structure Exact (reserved used : Resource → Prop) (held : Place → Option Resource) : Prop where
  used_iff : ∀ r, used r ↔ reserved r ∨ ∃ p, held p = some r
  once : ∀ p q r, held p = some r → held q = some r → p = q
  open_ : ∀ p r, held p = some r → ¬ reserved r

theorem exact_used (exact : Exact reserved used held) {p : Place} {r : Resource}
    (at_ : held p = some r) : used r :=
  (exact.used_iff r).mpr (.inr ⟨p, at_⟩)

theorem exact_congr (exact : Exact reserved used held) (same : ∀ r, used' r ↔ used r)
    (places : ∀ p, held' p = held p) : Exact reserved used' held' := by
  obtain rfl : used' = used := funext fun r => propext (same r)
  obtain rfl : held' = held := funext places
  exact exact

theorem exact_alloc (exact : Exact reserved used held) {p : Place} {r : Resource} (free : ¬ used r)
    (empty : held p = none) (taken : ∀ x, used' x ↔ used x ∨ x = r) (here : held' p = some r)
    (rest : ∀ q, q ≠ p → held' q = held q) : Exact reserved used' held' := by
  have elsewhere : ∀ {q x}, held' q = some x → q ≠ p → held q = some x ∧ x ≠ r := by
    intro q x at_ other
    rw [rest q other] at at_
    refine ⟨at_, ?_⟩
    rintro rfl
    exact free (exact_used exact at_)
  refine ⟨fun x => ?_, fun q q' x at_ at' => ?_, fun q x at_ => ?_⟩
  · rw [taken, exact.used_iff]
    constructor
    · rintro ((low | ⟨q,at_⟩) | rfl)
      · exact .inl low
      · have other : q ≠ p := by
          rintro rfl
          rw [empty] at at_
          cases at_
        exact .inr ⟨q, (rest q other).trans at_⟩
      · exact .inr ⟨p, here⟩
    · rintro (low | ⟨q,at_⟩)
      · exact .inl (.inl low)
      · by_cases mine : q = p
        · rw [mine, here] at at_
          exact .inr (Option.some.inj at_).symm
        · exact .inl (.inr ⟨q, (elsewhere at_ mine).1⟩)
  · by_cases mine : q = p <;> by_cases mine' : q' = p
    · exact mine.trans mine'.symm
    · rw [mine, here] at at_
      exact absurd (Option.some.inj at_).symm (elsewhere at' mine').2
    · rw [mine', here] at at'
      exact absurd (Option.some.inj at').symm (elsewhere at_ mine).2
    · exact exact.once q q' x (elsewhere at_ mine).1 (elsewhere at' mine').1
  · by_cases mine : q = p
    · rw [mine, here] at at_
      cases at_
      exact fun low => free ((exact.used_iff r).mpr (.inl low))
    · exact exact.open_ q x (elsewhere at_ mine).1

theorem exact_free (exact : Exact reserved used held) {p : Place} {r : Resource}
    (at_ : held p = some r) (left : ∀ x, used' x ↔ used x ∧ x ≠ r) (gone : held' p = none)
    (rest : ∀ q, q ≠ p → held' q = held q) : Exact reserved used' held' := by
  have before : ∀ {q x}, held' q = some x → q ≠ p ∧ held q = some x := by
    intro q x now
    have other : q ≠ p := by
      rintro rfl
      rw [gone] at now
      cases now
    exact ⟨other, (rest q other).symm.trans now⟩
  refine ⟨fun x => ?_, fun q q' x now now' => ?_, fun q x now => ?_⟩
  · rw [left, exact.used_iff]
    constructor
    · rintro ⟨low | ⟨q,there⟩, ne⟩
      · exact .inl low
      · have other : q ≠ p := by
          rintro rfl
          exact ne (Option.some.inj (there.symm.trans at_))
        exact .inr ⟨q, (rest q other).trans there⟩
    · rintro (low | ⟨q,now⟩)
      · refine ⟨.inl low, ?_⟩
        rintro rfl
        exact exact.open_ p x at_ low
      · obtain ⟨other,there⟩ := before now
        refine ⟨.inr ⟨q, there⟩, ?_⟩
        rintro rfl
        exact other (exact.once q p x there at_)
  · exact exact.once q q' x (before now).2 (before now').2
  · exact exact.open_ q x (before now).2

theorem exact_rename (exact : Exact reserved used held) (σ : Place → Place)
    (twice : ∀ p, σ (σ p) = p)
    (moved : ∀ p, held' p = held (σ p)) : Exact reserved used held' := by
  refine ⟨fun r => ?_, fun p q r at_ at' => ?_, fun p r at_ =>
    exact.open_ (σ p) r ((moved p).symm.trans at_)⟩
  · rw [exact.used_iff]
    refine or_congr_right ⟨fun ⟨p,at_⟩ => ⟨σ p, ?_⟩, fun ⟨p,at_⟩ => ⟨σ p, (moved p).symm.trans at_⟩⟩
    rw [moved, twice, at_]
  · have same := exact.once _ _ r ((moved p).symm.trans at_) ((moved q).symm.trans at')
    rw [← twice p, ← twice q, same]

theorem exact_move [DecidableEq Place] (exact : Exact reserved used held) {p q : Place}
    (empty : held q = none)
    (gone : held' p = none) (here : held' q = held p)
    (rest : ∀ x, x ≠ p → x ≠ q → held' x = held x) :
    Exact reserved used held' := by
  refine exact_rename exact (fun x => if x = p then q else if x = q then p
    else x) (fun x => ?_) fun x => ?_
  · by_cases first : x = p
    · by_cases same : q = p <;> simp [first, same]
    · by_cases second : x = q <;> simp [first, second]
  · by_cases first : x = p
    · simp [first, gone, empty]
    · by_cases second : x = q
      · simp only [if_neg first, if_pos second]
        rw [second, here]
      · simp only [if_neg first, if_neg second]
        exact rest x first second

/-- Places seen through other names: a name stands for at most one place, every place that holds
    something has a name and no two names share one. -/
theorem exact_through {Name : Type} (exact : Exact reserved used held)
    {named : Name → Option Resource} (spot : Name → Option Place)
    (seen : ∀ u, named u = (spot u).bind held)
    (own : ∀ u u' p, spot u = some p → spot u' = some p → u = u')
    (every : ∀ p r, held p = some r → ∃ u, spot u = some p) : Exact reserved used named := by
  have stands : ∀ {u r}, named u = some r → ∃ p, spot u = some p ∧ held p = some r := by
    intro u r at_
    rw [seen] at at_
    exact Option.bind_eq_some_iff.mp at_
  refine ⟨fun r => ?_, fun u u' r at_ at' => ?_, fun u r at_ => ?_⟩
  · rw [exact.used_iff]
    refine or_congr_right ⟨fun ⟨p,at_⟩ => ?_, fun ⟨u,at_⟩ => ?_⟩
    · obtain ⟨u,name⟩ := every p r at_
      exact ⟨u, by rw [seen, name]; exact at_⟩
    · obtain ⟨p,-,there⟩ := stands at_
      exact ⟨p, there⟩
  · obtain ⟨p,name,there⟩ := stands at_
    obtain ⟨p',name',there'⟩ := stands at'
    rw [exact.once p p' r there there'] at name
    exact own u u' p' name name'
  · obtain ⟨p,-,there⟩ := stands at_
    exact exact.open_ p r there

end Ownership

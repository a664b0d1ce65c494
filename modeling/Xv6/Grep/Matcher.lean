import Mathlib.Computability.Language

/- The matcher of grep.c. A string is the list of its bytes; it ends at a NUL or at the end of
   the list. What a pattern means is a language: a product of items, each one character or any
   number of them. -/
namespace Grep

def caret : UInt8 := 94
def dollar : UInt8 := 36
def dot : UInt8 := 46
def star : UInt8 := 42
def newline : UInt8 := 10

/-- The loop of matchstar; `here` is matchhere with the rest of the pattern. -/
def matchstar (c : UInt8) (here : List UInt8 → Bool) : List UInt8 → Bool
  | [] => here []
  | t :: text => here (t :: text) || (t != 0 && (t == c || c == dot) && matchstar c here text)

def matchhere : List UInt8 → List UInt8 → Bool
  | [], _ => true
  | [c], text =>
    if c = 0 then true
    else if c = dollar then text.headD 0 == 0
    else text.headD 0 != 0 && (c == dot || c == text.headD 0)
  | c :: d :: re, text =>
    if c = 0 then true
    else if d = star then matchstar c (matchhere re) text
    else if c = dollar ∧ d = 0 then text.headD 0 == 0
    else text.headD 0 != 0 && (c == dot || c == text.headD 0) && matchhere (d :: re) text.tail

def matchFrom (re : List UInt8) : List UInt8 → Bool
  | [] => matchhere re []
  | t :: text => matchhere re (t :: text) || (t != 0 && matchFrom re text)

def match_ (re text : List UInt8) : Bool :=
  if re.headD 0 = caret then matchhere re.tail text else matchFrom re text

inductive Item where
  | one (c : UInt8)
  | many (c : UInt8)
  deriving DecidableEq, Repr

/-- The items of a pattern behind its '^', and whether a '$' ends it. -/
def items : List UInt8 → List Item × Bool
  | [] => ([], false)
  | [c] => if c = dollar then ([], true) else ([.one c], false)
  | c :: d :: re =>
    if d = star then ((.many c) :: (items re).1, (items re).2)
    else ((.one c) :: (items (d :: re)).1, (items (d :: re)).2)

def single (c : UInt8) : Language UInt8 := { w | ∃ x, (c = dot ∨ x = c) ∧ w = [x] }

open Computability in
def Item.language : Item → Language UInt8
  | .one c => single c
  | .many c => (single c)∗

def language (l : List Item) : Language UInt8 := (l.map Item.language).prod

/-- The text has a part in the language of the pattern: at its start if the pattern begins with
    '^', at its end if it ends with '$'. -/
def Matches (re text : List UInt8) : Prop :=
  let rest := if re.headD 0 = caret then re.tail else re
  ∃ before part after, text = before ++ part ++ after ∧ part ∈ language (items rest).1 ∧
    (re.headD 0 = caret → before = []) ∧ ((items rest).2 = true → after = [])

def Starts (p : List Item × Bool) (text : List UInt8) : Prop :=
  ∃ part after, text = part ++ after ∧ part ∈ language p.1 ∧ (p.2 = true → after = [])

variable {c d x : UInt8} {re text part : List UInt8} {l : List Item} {ends : Bool}

theorem starts_nil : Starts ([], ends) text ↔ (ends = true → text = []) := by
  constructor
  · rintro ⟨part,after,rfl,inside,last⟩ here
    rw [(Language.mem_one part).mp inside, last here]
    rfl
  · intro last
    exact ⟨[], text, rfl, (Language.mem_one []).mpr rfl, last⟩

theorem starts_cons (i : Item) : Starts (i :: l, ends) text ↔ ∃ u v, text = u ++ v ∧
    u ∈ i.language ∧ Starts (l, ends) v := by
  have product : language (i :: l) = i.language * language l := List.prod_cons
  constructor
  · rintro ⟨part,after,rfl,inside,last⟩
    rw [product] at inside
    obtain ⟨u,first,v,rest,rfl⟩ := Language.mem_mul.mp inside
    exact ⟨u, v ++ after, List.append_assoc .., first, v, after, rfl, rest, last⟩
  · rintro ⟨u,v,rfl,first,part,after,rfl,rest,last⟩
    refine ⟨u ++ part, after, (List.append_assoc ..).symm, ?_, last⟩
    rw [product]
    exact Language.append_mem_mul first rest

theorem starts_one : Starts (.one c :: l, ends) text ↔ ∃ x rest, text = x :: rest ∧
    (c = dot ∨ x = c) ∧ Starts (l, ends) rest := by
  rw [starts_cons]
  constructor
  · rintro ⟨u,v,rfl,⟨x,fits,rfl⟩,rest⟩
    exact ⟨x, v, rfl, fits, rest⟩
  · rintro ⟨x,rest,rfl,fits,starts⟩
    exact ⟨[x], rest, rfl, ⟨x, fits, rfl⟩, starts⟩

theorem mem_many {w : List UInt8} : w ∈ (Item.many c).language ↔ ∀ x ∈ w, c = dot ∨ x = c := by
  constructor
  · intro inside x mem
    obtain ⟨parts,rfl,all⟩ := Language.mem_kstar.mp inside
    obtain ⟨p,part,mem⟩ := List.mem_flatten.mp mem
    obtain ⟨y,fits,rfl⟩ := all p part
    rw [List.mem_singleton.mp mem]
    exact fits
  · intro all
    refine Language.mem_kstar.mpr ⟨w.map fun x => [x],
      by rw [← List.flatMap_def, List.flatMap_singleton'], fun p part => ?_⟩
    obtain ⟨x,mem,rfl⟩ := List.mem_map.mp part
    exact ⟨x, all x mem, rfl⟩

theorem matchstar_iff {here : List UInt8 → Bool} {P : List UInt8 → Prop} (string : 0 ∉ text)
    (rest : ∀ t, 0 ∉ t → (here t = true ↔ P t)) :
    matchstar c here text = true ↔ ∃ u v, text = u ++ v ∧ (∀ x ∈ u, c = dot ∨ x = c) ∧ P v := by
  induction text with
  | nil =>
    rw [matchstar, rest [] string]
    constructor
    · exact fun now => ⟨[], [], rfl, by simp, now⟩
    · rintro ⟨u,v,eq,-,now⟩
      rw [(List.nil_eq_append_iff.mp eq).2] at now
      exact now
  | cons t text ih =>
    obtain ⟨notNul,string'⟩ : t ≠ 0 ∧ 0 ∉ text := by
      rw [List.mem_cons, not_or] at string
      exact ⟨Ne.symm string.1, string.2⟩
    simp only [matchstar, Bool.or_eq_true, Bool.and_eq_true, bne_iff_ne, beq_iff_eq, ih string',
      rest _ string]
    constructor
    · rintro (now | ⟨⟨-,fits⟩,u,v,rfl,all,later⟩)
      · exact ⟨[], t :: text, rfl, by simp, now⟩
      · refine ⟨t :: u, v, rfl, fun x mem => ?_, later⟩
        rcases List.mem_cons.mp mem with rfl | mem
        · exact fits.symm
        · exact all x mem
    · rintro ⟨u,v,eq,all,now⟩
      cases u with
      | nil =>
        rw [List.nil_append] at eq
        rw [← eq] at now
        exact .inl now
      | cons y u =>
        obtain ⟨rfl,rfl⟩ := List.cons.inj eq
        exact .inr ⟨⟨notNul, (all t List.mem_cons_self).symm⟩, u, v, rfl, fun x mem =>
          all x (List.mem_cons_of_mem _ mem), now⟩

theorem first_fits (notNul : 0 ∉ text) :
    (text.headD 0 != 0 && (c == dot || c == text.headD 0)) = true ↔ ∃ x rest, text = x :: rest ∧
      (c = dot ∨ x = c) := by
  cases text with
  | nil => simp
  | cons t text =>
    have here : t ≠ 0 := fun zero => notNul (by simp [zero])
    simp only [List.headD_cons, Bool.and_eq_true, bne_iff_ne, here, ne_eq, not_false_eq_true,
      true_and, Bool.or_eq_true, beq_iff_eq]
    constructor
    · exact fun fits => ⟨t, text, rfl, fits.imp_right Eq.symm⟩
    · rintro ⟨x,rest,eq,fits⟩
      rw [(List.cons.inj eq).1]
      exact fits.imp_right Eq.symm

theorem at_end (notNul : 0 ∉ text) : (text.headD 0 == 0) = true ↔ text = [] := by
  cases text with
  | nil => simp
  | cons t text =>
    have here : t ≠ 0 := fun zero => notNul (by simp [zero])
    simp [here]

theorem matchhere_iff (pattern : 0 ∉ re) (string : 0 ∉ text) :
    matchhere re text = true ↔ Starts (items re) text := by
  induction re using List.twoStepInduction generalizing text with
  | nil => simp [matchhere, items, starts_nil]
  | singleton c =>
    have notNul : ¬ c = 0 := fun zero => pattern (by simp [zero])
    rw [matchhere, if_neg notNul, items]
    by_cases last : c = dollar
    · rw [if_pos last, if_pos last, starts_nil, at_end string]
      simp
    · rw [if_neg last, if_neg last, starts_one, first_fits string]
      simp [starts_nil]
  | cons_cons c d re star_ next =>
    obtain ⟨first,rest⟩ : ¬ c = 0 ∧ 0 ∉ d :: re := by
      rw [List.mem_cons, not_or] at pattern
      exact ⟨Ne.symm pattern.1, pattern.2⟩
    obtain ⟨second,rest'⟩ : ¬ d = 0 ∧ 0 ∉ re := by
      rw [List.mem_cons, not_or] at rest
      exact ⟨Ne.symm rest.1, rest.2⟩
    rw [matchhere, if_neg first, items]
    by_cases many : d = star
    · rw [if_pos many, if_pos many, starts_cons]
      simp only [mem_many]
      exact matchstar_iff string fun t string => star_ rest' string
    · rw [if_neg many, if_neg many, if_neg fun both => second both.2, starts_one, Bool.and_eq_true,
        first_fits string]
      constructor
      · rintro ⟨⟨x,tail,rfl,fits⟩,later⟩
        exact ⟨x, tail, rfl, fits, (next d rest fun mem =>
          string (List.mem_cons_of_mem _ mem)).mp later⟩
      · rintro ⟨x,tail,rfl,fits,later⟩
        exact ⟨⟨x, tail, rfl, fits⟩,
          (next d rest fun mem => string (List.mem_cons_of_mem _ mem)).mpr later⟩

theorem matchFrom_iff (pattern : 0 ∉ re) (string : 0 ∉ text) :
    matchFrom re text = true ↔ ∃ before after, text = before ++ after ∧
      Starts (items re) after := by
  induction text with
  | nil =>
    rw [matchFrom, matchhere_iff pattern string]
    constructor
    · exact fun now => ⟨[], [], rfl, now⟩
    · rintro ⟨before,after,eq,now⟩
      rw [(List.nil_eq_append_iff.mp eq).2] at now
      exact now
  | cons t text ih =>
    obtain ⟨notNul,string'⟩ : t ≠ 0 ∧ 0 ∉ text := by
      rw [List.mem_cons, not_or] at string
      exact ⟨Ne.symm string.1, string.2⟩
    simp only [matchFrom, Bool.or_eq_true, Bool.and_eq_true, bne_iff_ne, ne_eq, notNul,
      not_false_eq_true, true_and, ih string',
      matchhere_iff pattern string]
    constructor
    · rintro (now | ⟨before,after,rfl,later⟩)
      · exact ⟨[], _, rfl, now⟩
      · exact ⟨t :: before, after, rfl, later⟩
    · rintro ⟨before,after,eq,now⟩
      cases before with
      | nil =>
        rw [List.nil_append] at eq
        rw [← eq] at now
        exact .inl now
      | cons y before =>
        obtain ⟨-,rfl⟩ := List.cons.inj eq
        exact .inr ⟨before, after, rfl, now⟩

theorem match_decides (re text : List UInt8) (pattern : 0 ∉ re) (string : 0 ∉ text) :
    match_ re text = true ↔ Matches re text := by
  unfold match_ Matches
  by_cases anchored : re.headD 0 = caret
  · have rest : 0 ∉ re.tail := fun mem => pattern (List.mem_of_mem_tail mem)
    rw [if_pos anchored, matchhere_iff rest string]
    simp only [anchored, if_true, forall_const]
    constructor
    · rintro ⟨part,after,rfl,inside,last⟩
      exact ⟨[], part, after, rfl, inside, rfl, last⟩
    · rintro ⟨before,part,after,rfl,inside,rfl,last⟩
      exact ⟨part, after, rfl, inside, last⟩
  · rw [if_neg anchored, matchFrom_iff pattern string]
    simp only [anchored, if_false, false_implies, true_and]
    constructor
    · rintro ⟨before,-,rfl,part,after,rfl,inside,last⟩
      exact ⟨before, part, after, (List.append_assoc ..).symm, inside, last⟩
    · rintro ⟨before,part,after,rfl,inside,last⟩
      exact ⟨before, part ++ after, List.append_assoc .., part, after, rfl, inside, last⟩

theorem match_decides_whole : match_ [94, 97, 46, 42, 36] [97, 98, 99] = true ∧
    Matches [94, 97, 46, 42, 36] [97, 98, 99] := by
  have yes : match_ [94, 97, 46, 42, 36] [97, 98, 99] = true := by decide
  exact ⟨yes, (match_decides _ _ (by decide) (by decide)).mp yes⟩

end Grep

import Mathlib.Data.Finset.Card
import Xv6.Console.Reverse

/- The command history. update_history copies the string at `input.buf + input.w` into the row that
   `command_num` names, and `command_num` is advanced there and once more by its caller. -/
namespace ConsoleInput
open RingQueue RunLaws

def Ordinary (c : UInt8) : Prop := c ≠ 16 ∧ c ≠ 21 ∧ (c ≠ 8 ∧ c ≠ 127) ∧ c ≠ 14 ∧ c ≠ 18 ∧ c ≠ 9

instance (c : UInt8) : Decidable (Ordinary c) := inferInstanceAs (Decidable (_ ∧ _))

def commits (s : State) : Event → Option (List UInt8)
  | .key _ c =>
    if Ordinary c ∧ Commits s.con.input c then some (s.con.input.pending ++ [enter c]) else none
  | _ => none

def recording (g : State × List (List UInt8)) (e : Event) : Option (State × List (List UInt8)) :=
  (next g.1 e).map fun t => (t, g.2 ++ (commits g.1 e).toList)

def Row (command : Nat → UInt8) (i : Nat) (l : List UInt8) : Prop :=
  Spelled (fun k => some (command k)) l (128 * i) ∧ l.length < 128

/-- Each of the last 30 lines has a row of its own, and the other rows are empty. -/
def Remembers (s : Console) (lines : List (List UInt8)) : Prop :=
  ∃ place : Nat → Nat,
    (∀ j < min lines.length 30, place j < 30) ∧
    (∀ j < min lines.length 30, ∀ k < min lines.length 30, place j = place k → j = k) ∧
    (∀ j < min lines.length 30, ∃ l, lines[lines.length - 1 - j]? = some l ∧
      Row s.command (place j) l) ∧
    ∀ i < 30, (∀ j < min lines.length 30, place j ≠ i) → Row s.command i []

def InSlot (s t : Console) : Prop :=
  ∀ k, ¬ (128 * (s.commandNum % 30) ≤ k ∧ k < 128 * (s.commandNum % 30) + 128) →
    t.command k = s.command k

/-- A line is committed when the string at `input.buf + input.w`, with the key stored, is the
    line, and fits a row. -/
def Recordable (s : State) : Event → Prop
  | .key env c => Ordinary c → Commits s.con.input c →
      Spelled (memory env (s.con.input.typed (enter c)))
        (s.con.input.pending ++ [enter c]) s.con.input.w.toNat ∧
      s.con.input.pending.length + 1 < 128
  | _ => True

instance decidableSpelled (fetch : Nat → Option UInt8) : ∀ l k, Decidable (Spelled fetch l k)
  | [], k => inferInstanceAs (Decidable (fetch k = some 0))
  | _ :: l, k => have := decidableSpelled fetch l (k + 1); inferInstanceAs (Decidable (_ ∧ _ ∧ _))

instance (s : State) : ∀ e, Decidable (Recordable s e)
  | .key _ _ => inferInstanceAs (Decidable (_ → _ → _ ∧ _))
  | .output _ => isTrue trivial
  | .read _ _ _ => isTrue trivial
  | .resume _ _ => isTrue trivial
  | .rouse _ => isTrue trivial

structure SameHistory (s t : Console) : Prop where
  command : t.command = s.command
  num : t.commandNum = s.commandNum
  size : t.sizeCommand = s.sizeCommand

namespace SameHistory

theorem refl (s : Console) : SameHistory s s := ⟨rfl, rfl, rfl⟩

theorem trans {s t u : Console} (first : SameHistory s t) (second : SameHistory t u) :
    SameHistory s u :=
  ⟨second.command.trans first.command, second.num.trans first.num, second.size.trans first.size⟩

end SameHistory

section Frames
variable {env : Env} {s t : Console} {n : Nat}

theorem consputc_history {c : Option UInt8} (put : consputc c s = .ok t) : SameHistory s t := by
  obtain ⟨p,-,rfl⟩ := map_ok put
  exact ⟨rfl, rfl, rfl⟩

theorem shiftLeft_history {x : UInt32} (moved : shiftLeft env n x s = .ok t) : SameHistory s t := by
  induction n generalizing x s with
  | zero =>
    cases moved
    exact .refl _
  | succ n ih =>
    obtain ⟨after,-,storing⟩ := bind_ok moved
    obtain ⟨i,-,putting⟩ := bind_ok storing
    obtain ⟨u,echo,rest⟩ := bind_ok putting
    obtain ⟨command,num,size⟩ := consputc_history echo
    exact .trans ⟨command, num, size⟩ (ih rest)

theorem erase_history (erased : erase env s = .ok t) : SameHistory s t := by
  obtain ⟨u,echo,rest⟩ := bind_ok erased
  obtain ⟨v,shifted,rfl⟩ := map_ok rest
  obtain ⟨x,looped,more⟩ := bind_ok shifted
  obtain ⟨y,blank,rfl⟩ := map_ok more
  obtain ⟨command,num,size⟩ :=
    ((consputc_history echo).trans (shiftLeft_history looped)).trans (consputc_history blank)
  exact ⟨command, num, size⟩

theorem killLoop_history (killed : killLoop env n s = .ok t) : SameHistory s t := by
  induction n generalizing s with
  | zero =>
    cases killed
    exact .refl _
  | succ n ih =>
    rw [killLoop] at killed
    split at killed
    · obtain ⟨u,erased,rest⟩ := bind_ok killed
      exact (erase_history erased).trans (ih rest)
    · cases killed
      exact .refl _

theorem printAll_history {l : List UInt8} (printed : printAll l s = .ok t) : SameHistory s t := by
  induction l generalizing s with
  | nil =>
    cases printed
    exact .refl _
  | cons c l ih =>
    obtain ⟨u,echo,rest⟩ := bind_ok printed
    obtain ⟨command,num,size⟩ := consputc_history echo
    obtain ⟨command',num',size'⟩ := ih rest
    exact .trans ⟨command, num, size⟩ ⟨command', num', size'⟩

theorem word_history {l : List UInt8} (printed : (killLine env s).bind (printAll l) = .ok t) :
    SameHistory s t := by
  obtain ⟨u,killed,rest⟩ := bind_ok printed
  exact (killLoop_history killed).trans (printAll_history rest)

theorem deleteLoop_history (done : deleteLoop env n s = .ok t) : SameHistory s t := by
  induction n generalizing s with
  | zero =>
    cases done
    exact .refl _
  | succ n ih =>
    rw [deleteLoop] at done
    split at done
    · split at done
      · obtain ⟨u,erased,rest⟩ := bind_ok done
        obtain ⟨command,num,size⟩ := erase_history erased
        exact .trans ⟨command, num, size⟩ (ih rest)
      · obtain ⟨u,echo,rest⟩ := bind_ok done
        obtain ⟨command,num,size⟩ := ih rest
        exact (consputc_history echo).trans ⟨command, num, size⟩
    · cases done
      exact .refl _

theorem output_history {l : List UInt8} (done : outputAll l s = .ok t) : SameHistory s t := by
  induction l generalizing s with
  | nil =>
    cases done
    exact .refl _
  | cons c l ih =>
    obtain ⟨u,echo,rest⟩ := bind_ok done
    exact (consputc_history echo).trans (ih rest)

theorem special_history {c : UInt8} {woken : Bool} (special : ¬ Ordinary c)
    (done : consoleintr env c s = .ok (t, woken)) :
    SameHistory s t := by
  unfold consoleintr at done
  split at done
  · cases done
    exact .refl _
  split at done
  · obtain ⟨u,killed,eq⟩ := map_ok done
    cases eq
    exact killLoop_history killed
  split at done
  · obtain ⟨u,erased,eq⟩ := map_ok done
    cases eq
    unfold backSpace at erased
    split at erased
    · exact erase_history erased
    · cases erased
      exact .refl _
  split at done
  · obtain ⟨u,deleted,eq⟩ := map_ok done
    cases eq
    obtain ⟨command,num,size⟩ := deleteLoop_history deleted
    exact ⟨command, num, size⟩
  split at done
  · obtain ⟨u,reversed,eq⟩ := map_ok done
    cases eq
    obtain ⟨word,-,rest⟩ := bind_ok reversed
    exact word_history rest
  split at done
  · obtain ⟨u,predicted,eq⟩ := map_ok done
    cases eq
    obtain ⟨index,-,rest⟩ := bind_ok predicted
    cases index with
    | none =>
      cases rest
      exact .refl _
    | some i =>
      obtain ⟨word,-,rest⟩ := bind_ok rest
      exact word_history rest
  · next p u h n r tab => exact absurd ⟨p, u, not_or.mp h, n, r, tab⟩ special

theorem typed_history {c : UInt8} (steady : Steady s.input) (done : typed env c s = .ok t) :
    t.input = s.input.typed c ∧ SameHistory s t := by
  refine ⟨typed_input steady done, ?_⟩
  unfold typed at done
  split at done
  · cases done
    exact ⟨rfl, rfl, rfl⟩
  · obtain ⟨u,shifted,rfl⟩ := map_ok done
    obtain ⟨v,looped,rfl⟩ := map_ok shifted
    simp only [steady.ends, Nat.sub_self, shiftRight, Except.ok.injEq] at looped
    rw [← looped]
    exact ⟨rfl, rfl, rfl⟩

theorem ordinary_history {c : UInt8} {woken : Bool} (steady : Steady s.input)
    (done : ordinary env c s = .ok (t, woken)) :
    (¬ Commits s.input c ∧ SameHistory s t) ∨
    (Commits s.input c ∧ ∃ v, v.input = s.input.typed (enter c) ∧ SameHistory s v ∧
      commit env v = .ok t) := by
  have shape := ordinary_input steady done
  unfold ordinary at done
  by_cases room : c ≠ 0 ∧ s.input.e - s.input.r < 128
  · rw [if_pos room] at done
    obtain ⟨u,type_,more⟩ := bind_ok done
    obtain ⟨v,echo,rest⟩ := bind_ok more
    obtain ⟨input,same⟩ := typed_history steady type_
    have both := same.trans (consputc_history echo)
    have input' : v.input = s.input.typed (enter c) := (consputc_input echo).trans input
    obtain ⟨refused,-⟩ | ⟨⟨key,space⟩,woke,-⟩ := shape
    · exact absurd room refused
    · split at rest
      · obtain ⟨x,committed,eq⟩ := map_ok rest
        cases eq
        exact .inr ⟨⟨key, space, of_decide_eq_true woke.symm⟩, v, input', both, committed⟩
      · cases rest
        exact .inl ⟨fun commits => of_decide_eq_false woke.symm commits.2.2, both⟩
  · left
    rw [if_neg room] at done
    cases done
    exact ⟨fun commits => room ⟨commits.1, UInt32.lt_iff_toNat_lt.mpr commits.2.1⟩, .refl _⟩

end Frames

section Rows
variable {fetch other : Nat → Option UInt8} {l m : List UInt8} {k : Nat}

theorem spelled_unique (first : Spelled fetch l k) (second : Spelled fetch m k) : l = m := by
  induction l generalizing m k with
  | nil =>
    cases m with
    | nil => rfl
    | cons d m => exact absurd (Option.some.inj (second.1.symm.trans first)) second.2.1
  | cons c l ih =>
    cases m with
    | nil => exact absurd (Option.some.inj (first.1.symm.trans second)) first.2.1
    | cons d m =>
      rw [Option.some.inj (first.1.symm.trans second.1), ih first.2.2 second.2.2]

theorem spelled_congr (same : ∀ y, k ≤ y → y ≤ k + l.length → other y = fetch y)
    (spelled : Spelled fetch l k) :
    Spelled other l k := by
  induction l generalizing k with
  | nil => exact (same k (Nat.le_refl _) (Nat.le_add_right ..)).trans spelled
  | cons c l ih =>
    rw [List.length_cons] at same
    exact ⟨(same k (Nat.le_refl _) (by omega)).trans spelled.1, spelled.2.1,
      ih (fun y low high => same y (by omega) (by omega)) spelled.2.2⟩

theorem spelled_written (nonzero : 0 ∉ l)
    (bytes : ∀ y, k ≤ y → y ≤ k + l.length → fetch y = some (l.getD (y - k) 0)) :
    Spelled fetch l k := by
  induction l generalizing k with
  | nil =>
    have first := bytes k (Nat.le_refl _) (Nat.le_add_right ..)
    rwa [Nat.sub_self] at first
  | cons c l ih =>
    rw [List.length_cons] at bytes
    rw [List.mem_cons, not_or] at nonzero
    have first := bytes k (Nat.le_refl _) (by omega)
    rw [Nat.sub_self] at first
    refine ⟨first, fun zero => nonzero.1 zero.symm, ih nonzero.2 fun y low high => ?_⟩
    rw [bytes y (by omega) (by omega), show y - k = y - (k + 1) + 1 by omega]
    rfl

theorem row_congr {command command' : Nat → UInt8} {i : Nat}
    (same : ∀ y, 128 * i ≤ y → y < 128 * i + 128 → command' y = command y) (row : Row command i l) :
    Row command' i l := by
  refine ⟨spelled_congr (fun y low high => ?_) row.1, row.2⟩
  have short := row.2
  rw [same y low (by omega)]

end Rows

theorem commit_history {env : Env} {v t : Console} {line : List UInt8} (done : commit env v = .ok t)
    (spelled : Spelled (memory env v.input) line v.input.w.toNat) (short : line.length < 128) :
    Row t.command (v.commandNum % 30) line ∧ InSlot v t ∧ t.commandNum = v.commandNum + 2 ∧
      t.sizeCommand = v.sizeCommand + 1 := by
  obtain ⟨u,history,more⟩ := bind_ok done
  obtain ⟨size,sized,rest⟩ := bind_ok more
  obtain ⟨num,counted,rfl⟩ := map_ok rest
  obtain ⟨⟨l,ended⟩,copied,written⟩ := bind_ok history
  cases ended with
  | false => cases written
  | true =>
    obtain rfl := spelled_unique (cstring_spelled.mp copied).1 spelled
    obtain ⟨n,bumped,rfl⟩ := map_ok written
    have up : ∀ {a b : Nat}, bump a = .ok b → b = a + 1 := by
      intro a b bumped
      unfold bump at bumped
      split at bumped
      · exact (Except.ok.inj bumped).symm
      · cases bumped
    have n' := up bumped
    have num' := up counted
    have size' := up sized
    simp only at num' size'
    refine ⟨⟨spelled_written (spelled_nonzero spelled) fun y low high => ?_, short⟩,
      fun k outside => ?_, by simp only; omega, size'⟩
    · simp only
      rw [if_pos ⟨low, high⟩]
    · simp only
      rw [if_neg (by omega)]

/-- Only the even rows are used, one after the other. -/
structure HistoryHolds (s : Console) (lines : List (List UInt8)) : Prop where
  num : s.commandNum = 2 * lines.length
  nonempty : ∀ l ∈ lines, l ≠ []
  held : ∀ m l, lines[m]? = some l → lines.length ≤ m + 15 → Row s.command (2 * (m % 15)) l
  free : ∀ j < 15, lines.length ≤ j → Row s.command (2 * j) []
  odd : ∀ j < 15, Row s.command (2 * j + 1) []

section Filing
variable {s t : Console} {lines : List (List UInt8)}

theorem historyHolds_same (history : HistoryHolds s lines) (same : SameHistory s t) :
    HistoryHolds t lines := by
  obtain ⟨num,nonempty,held,free,odd⟩ := history
  refine ⟨same.num.trans num, nonempty, ?_, ?_, ?_⟩ <;> rw [same.command] <;> assumption

theorem historyHolds_commit {line : List UInt8} (history : HistoryHolds s lines) (some_ : line ≠ [])
    (row : Row t.command (s.commandNum % 30) line) (slot_ : InSlot s t)
    (num : t.commandNum = s.commandNum + 2) :
    HistoryHolds t (lines ++ [line]) := by
  have place : s.commandNum % 30 = 2 * (lines.length % 15) := by
    rw [history.num]
    omega
  rw [place] at row
  -- the other rows stay
  have stays : ∀ {i : Nat} {l : List UInt8}, i ≠ 2 * (lines.length % 15) → Row s.command i l →
      Row t.command i l := by
    intro i l other old
    refine row_congr (fun y low high => slot_ y ?_) old
    rw [place]
    omega
  refine ⟨?_, ?_, ?_, ?_, ?_⟩
  · rw [num, history.num, List.length_append, List.length_singleton]
    omega
  · intro l mem
    rcases List.mem_append.mp mem with old | new
    · exact history.nonempty l old
    · exact List.mem_singleton.mp new ▸ some_
  · intro m l at_ recent
    rw [List.length_append, List.length_singleton] at recent
    rcases Nat.lt_or_ge m lines.length with old | new
    · rw [List.getElem?_append_left old] at at_
      exact stays (by omega) (history.held m l at_ (by omega))
    · rw [List.getElem?_append_right new] at at_
      cases gap : m - lines.length with
      | zero =>
        rw [gap] at at_
        obtain rfl := Option.some.inj at_
        obtain rfl : m = lines.length := by omega
        exact row
      | succ k =>
        rw [gap] at at_
        cases at_
  · intro j small past
    rw [List.length_append, List.length_singleton] at past
    exact stays (by omega) (history.free j small (by omega))
  · intro j small
    exact stays (by omega) (history.odd j small)

theorem historyHolds_remembers (history : HistoryHolds s lines) (few : lines.length ≤ 15) :
    Remembers s lines := by
  have count : min lines.length 30 = lines.length := Nat.min_eq_left (by omega)
  rw [Remembers, count]
  refine ⟨fun j => 2 * (lines.length - 1 - j), fun j below => ?_, fun j first k second same => ?_,
    fun j below => ?_,
    fun i small unused => ?_⟩
  · simp only
    omega
  · simp only at same
    omega
  · have inside : lines.length - 1 - j < lines.length := by omega
    refine ⟨lines.get ⟨lines.length - 1 - j, inside⟩, ?_, ?_⟩
    · rw [List.getElem?_eq_getElem inside]
      rfl
    · have held :=
        history.held (lines.length - 1 - j) _ (List.getElem?_eq_getElem inside) (by omega)
      rwa [Nat.mod_eq_of_lt (by omega)] at held
  · obtain ⟨j,even | odd⟩ : ∃ j, i = 2 * j ∨ i = 2 * j + 1 := ⟨i / 2, by omega⟩
    · subst even
      refine history.free j (by omega) (Nat.le_of_not_lt fun inside => ?_)
      exact unused (lines.length - 1 - j) (by omega) (by simp only; omega)
    · subst odd
      exact history.odd j (by omega)

theorem remembers_few (history : HistoryHolds s lines) (remembers : Remembers s lines) :
    lines.length ≤ 15 := by
  obtain ⟨place,low,distinct,holds,-⟩ := remembers
  by_contra many
  have enough : 16 ≤ min lines.length 30 := by omega
  have even : ∀ j < 16, place j % 2 = 0 := by
    intro j below
    obtain ⟨l,at_,row⟩ := holds j (by omega)
    have small := low j (by omega)
    have some_ := history.nonempty l (List.mem_of_getElem? at_)
    by_contra other
    have empty := history.odd (place j / 2) (by omega)
    rw [show 2 * (place j / 2) + 1 = place j by omega] at empty
    exact some_ (spelled_unique row.1 empty.1)
  have fewer : (Finset.range 15).card < (Finset.range 16).card := by decide
  obtain ⟨j,first,k,second,other,same⟩ :=
    Finset.exists_ne_map_eq_of_card_lt_of_maps_to (f := fun j => place j / 2) fewer
    (fun j mem => by
      have below := Finset.mem_range.mp mem
      have small := low j (by omega)
      exact Finset.mem_range.mpr (show place j / 2 < 15 by omega))
  have first := Finset.mem_range.mp first
  have second := Finset.mem_range.mp second
  have halves := even j first
  have halves' := even k second
  exact other (distinct j (by omega) k (by omega) (by omega))

end Filing

section Runs
variable {s t : State} {lines : List (List UInt8)}

theorem key_historyHolds {env : Env} {c : UInt8} {con : Console} {woken : Bool}
    (steady : Steady s.con.input)
    (history : HistoryHolds s.con lines) (recordable : Recordable s (.key env c))
    (done : consoleintr env c s.con = .ok (con, woken)) :
    HistoryHolds con (lines ++ (commits s (.key env c)).toList) ∧ InSlot s.con con := by
  have keeps : ∀ {con : Console}, SameHistory s.con con → commits s (.key env c) = none →
      HistoryHolds con (lines ++ (commits s (.key env c)).toList) ∧ InSlot s.con con := by
    intro con same none_
    rw [none_]
    refine ⟨?_, fun k _ => by rw [same.command]⟩
    simpa using historyHolds_same history same
  by_cases ordinary_ : Ordinary c
  · have unfold_ : consoleintr env c s.con = ordinary env c s.con := by
      obtain ⟨p,u,⟨h,d⟩,n,r,tab⟩ := ordinary_
      simp only [consoleintr, p, u, h, d, n, r, tab, or_self, if_false]
    rcases ordinary_history steady (unfold_.symm.trans done)
      with ⟨stays,same⟩ | ⟨goes,v,input,same,committed⟩
    · exact keeps same (if_neg fun both => stays both.2)
    · obtain ⟨spelled,short⟩ := recordable ordinary_ goes
      have w : v.input.w = s.con.input.w := by
        rw [input]
        rfl
      rw [← input, ← w] at spelled
      obtain ⟨row,slot_,num,-⟩ := commit_history committed spelled (by
        rw [List.length_append, List.length_singleton]
        exact short)
      have line : commits s (.key env c) = some (s.con.input.pending ++ [enter c]) :=
        if_pos ⟨ordinary_, goes⟩
      have here : InSlot s.con con := by
        intro k outside
        rw [← same.num] at outside
        exact (slot_ k outside).trans (by rw [same.command])
      rw [same.num] at row num
      rw [line]
      exact ⟨historyHolds_commit history (by simp) row here num, here⟩
  · exact keeps (special_history ordinary_ done) (if_neg fun both => ordinary_ both.1)

theorem next_historyHolds {e : Event} (steady : Steady s.con.input)
    (history : HistoryHolds s.con lines) (recordable : Recordable s e)
    (move : next s e = some t) : HistoryHolds t.con (lines ++ (commits s e).toList) ∧
      InSlot s.con t.con := by
  have move := next_ok move
  have keeps : SameHistory s.con t.con → commits s e = none →
      HistoryHolds t.con (lines ++ (commits s e).toList) ∧ InSlot s.con t.con := by
    intro same none_
    rw [none_]
    refine ⟨?_, fun k _ => by rw [same.command]⟩
    simpa using historyHolds_same history same
  cases e with
  | key env c =>
    obtain ⟨⟨con,woken⟩,done,eq⟩ := map_ok move
    cases eq
    exact key_historyHolds steady history recordable done
  | output l =>
    obtain ⟨con,done,eq⟩ := map_ok move
    cases eq
    exact keeps (output_history done) rfl
  | read p n killed =>
    simp only [step, Except.ok.injEq] at move
    split at move
    · cases move
      exact keeps ⟨rfl, rfl, rfl⟩ rfl
    · cases move
  | resume p killed =>
    simp only [step, Except.ok.injEq] at move
    split at move
    · cases move
      exact keeps ⟨rfl, rfl, rfl⟩ rfl
    · cases move
  | rouse p =>
    simp only [step, Except.ok.injEq] at move
    split at move
    · cases move
      exact keeps ⟨rfl, rfl, rfl⟩ rfl
    · cases move

theorem run_historyHolds {pos : Nat} {es : List Event}
    (recorded : Along recording (fun g e => Careful g.1 e ∧ Recordable g.1 e) (start pos, []) es)
    (run : exec recording (start pos, []) es = some (s, lines)) :
    Steady s.con.input ∧ HistoryHolds s.con lines := by
  refine exec_invariant (fun g => Steady g.1.con.input ∧ HistoryHolds g.1.con g.2)
    (fun g e h inv ok move => ?_)
    ⟨steady_start pos, ?_⟩ recorded run
  · obtain ⟨t,moved,rfl⟩ := Option.map_eq_some_iff.mp move
    exact ⟨(next_steady inv.1 ok.1 moved).1, (next_historyHolds inv.1 inv.2 ok.2 moved).1⟩
  · refine ⟨rfl, by simp, by simp, fun j _ _ => ⟨rfl, by decide⟩, fun j _ => ⟨rfl, by decide⟩⟩

/-- The table holds the last lines while no more than 15 were committed. -/
theorem history_remembered_iff {pos : Nat} {es : List Event}
    (recorded : Along recording (fun g e => Careful g.1 e ∧ Recordable g.1 e) (start pos, []) es)
    (run : exec recording (start pos, []) es = some (s, lines)) :
    (Remembers s.con lines ↔ lines.length ≤ 15) ∧
      ∀ e t, Careful s e → Recordable s e → next s e = some t → InSlot s.con t.con := by
  obtain ⟨steady,history⟩ := run_historyHolds recorded run
  exact ⟨⟨remembers_few history, historyHolds_remembers history⟩, fun e t _ recordable move =>
    (next_historyHolds steady history recordable move).2⟩

end Runs

def commands (l : List UInt8) : List Event := keys (l.flatMap fun c => [c, 10])

theorem history_remembered_iff_two :
    ∃ s, exec recording (start 2, []) (commands [97, 98]) = some (s, [[97, 10], [98, 10]]) ∧
      Remembers s.con [[97, 10], [98, 10]] := by
  have shape : (exec recording (start 2, []) (commands [97, 98])).map Prod.snd = some [[97, 10],
      [98, 10]] := by
    decide +kernel
  obtain ⟨⟨s,lines⟩,run,eq⟩ := Option.map_eq_some_iff.mp shape
  cases eq
  have recorded : Along recording (fun g e => Careful g.1 e ∧ Recordable g.1 e) (start 2, [])
      (commands [97, 98]) := by
    decide +kernel
  exact ⟨s, run, (history_remembered_iff recorded run).1.mpr (by decide)⟩

/-- The command a is the sixteenth from the end and in no row. -/
theorem sixteenth_command_lost :
    ∃ s lines, exec recording (start 2, [])
        (commands [97, 98, 99, 100, 101, 102, 103, 104, 105, 106, 107, 108, 109, 110, 111, 112]) =
          some (s, lines) ∧
      lines.length = 16 ∧ lines[0]? = some [97, 10] ∧ (∀ i < 30, ¬ Row s.con.command i [97, 10]) ∧
        ¬ Remembers s.con lines := by
  have shape : (exec recording (start 2, [])
      (commands [97, 98, 99, 100, 101, 102, 103, 104, 105, 106, 107, 108, 109, 110, 111, 112])).map
      (fun g => (g.2.length, g.2[0]?, (List.range 30).all fun i =>
        g.1.con.command (128 * i) != 97)) =
      some (16, some [97, 10], true) := by decide +kernel
  obtain ⟨⟨s,lines⟩,run,eq⟩ := Option.map_eq_some_iff.mp shape
  simp only [Prod.mk.injEq, List.all_eq_true, List.mem_range, bne_iff_ne] at eq
  obtain ⟨count,oldest,absent⟩ := eq
  have nowhere : ∀ i < 30, ¬ Row s.con.command i [97, 10] := by
    intro i small row
    exact absent i small (Option.some.inj row.1.1)
  refine ⟨s, lines, run, count, oldest, nowhere, ?_⟩
  rintro ⟨place,low,-,holds,-⟩
  obtain ⟨l,at_,row⟩ := holds 15 (by omega)
  rw [count, oldest] at at_
  obtain rfl := Option.some.inj at_
  exact nowhere _ (low 15 (by omega)) row

/- Tab. -/
section Prediction
variable {s : Console} {key : List UInt8}

def Begins (command : Nat → UInt8) (key : List UInt8) (i : Nat) : Prop :=
  ∀ x < key.length, key[x]? = some (command (128 * i + x))

/-- A row that starts with the key if there is one, and no row if there is none. -/
def Found (command : Nat → UInt8) (key : List UInt8) : Option Nat → Prop
  | some i => i < 30 ∧ Begins command key i
  | none => ∀ i < 30, ¬ Begins command key i

theorem startsWith_iff {command : Nat → UInt8} {k : Nat} :
    startsWith command key k ↔ ∀ x < key.length, key[x]? = some (command (k + x)) := by
  induction key generalizing k with
  | nil => simp [startsWith]
  | cons c key ih =>
    simp only [startsWith, Bool.and_eq_true, beq_iff_eq, ih, List.length_cons]
    refine ⟨?_, fun all => ⟨?_, fun x below => ?_⟩⟩
    · rintro ⟨first,rest⟩ x below
      cases x with
      | zero => simp [first]
      | succ x =>
        rw [List.getElem?_cons_succ, rest x (by omega), Nat.add_right_comm, Nat.add_assoc]
    · have first := all 0 (by omega)
      simpa using first.symm
    · have later := all (x + 1) (by omega)
      rwa [List.getElem?_cons_succ, ← Nat.add_assoc, Nat.add_right_comm] at later

theorem scan_spec (match_ : Nat → Bool) (row : Nat → Nat) (ks : List Nat) (index : Option Nat) :
    (∀ j, ks.foldl (fun index k => if match_ (row k) then some (row k) else index) index = some j →
      (∃ k ∈ ks, row k = j ∧ match_ j) ∨ index = some j) ∧
    (ks.foldl (fun index k => if match_ (row k) then some (row k) else index) index = none →
      index = none ∧ ∀ k ∈ ks, ¬ match_ (row k)) := by
  induction ks generalizing index with
  | nil => exact ⟨fun j found => .inr found, fun none_ => ⟨none_, by simp⟩⟩
  | cons k ks ih =>
    obtain ⟨found,missed⟩ := ih (if match_ (row k) then some (row k) else index)
    rw [List.foldl_cons]
    refine ⟨fun j result => ?_, fun result => ?_⟩
    · rcases found j result with ⟨k',mem,here⟩ | before
      · exact .inl ⟨k', List.mem_cons_of_mem _ mem, here⟩
      · split at before
        · next here =>
          obtain rfl := Option.some.inj before
          exact .inl ⟨k, List.mem_cons_self .., rfl, here⟩
        · exact .inr before
    · obtain ⟨before,rest⟩ := missed result
      split at before
      · cases before
      · next here =>
        refine ⟨before, fun k' mem => ?_⟩
        rcases List.mem_cons.mp mem with rfl | later
        · exact here
        · exact rest k' later

theorem scanCommands_spec (index : Option Nat)
    (before : ∀ j, index = some j → j < 30 ∧ Begins s.command key j) :
    Found s.command key (scanCommands s key index) := by
  obtain ⟨found,missed⟩ := scan_spec (fun i => startsWith s.command key (128 * i))
    (fun k => (s.commandNum + k) % 30) (List.range 30) index
  cases result : scanCommands s key index with
  | some j =>
    rcases found j result with ⟨k,-,place,here⟩ | old
    · exact ⟨by omega, startsWith_iff.mp here⟩
    · exact before j old
  | none =>
    intro i small begins
    obtain ⟨-,rest⟩ := missed result
    -- every row comes up in the ring
    refine rest ((i + 30 - s.commandNum % 30) % 30)
      (List.mem_range.mpr (Nat.mod_lt _ (by decide))) ?_
    rw [show (s.commandNum + (i + 30 - s.commandNum % 30) % 30) % 30 = i by omega]
    exact startsWith_iff.mpr begins

/-- The loop with its inner search: the last round alone decides. -/
theorem predict_spec (rows : List Nat) (small : ∀ i ∈ rows, i < 30) (index : Option Nat)
    (before : ∀ j, index = some j → j < 30 ∧ Begins s.command key j) (some_ : rows ≠ []) :
    Found s.command key
      (rows.foldl (fun index i => if startsWith s.command key (128 * i) then some i
        else scanCommands s key index) index) := by
  induction rows generalizing index with
  | nil => exact absurd rfl some_
  | cons i rows ih =>
    have round : Found s.command key (if startsWith s.command key (128 * i) then some i
      else scanCommands s key index) := by
        split
        · next here => exact ⟨small i (List.mem_cons_self ..), startsWith_iff.mp here⟩
        · exact scanCommands_spec index before
    rw [List.foldl_cons]
    cases rows with
    | nil => exact round
    | cons j rows =>
      refine ih (fun k mem => small k (List.mem_cons_of_mem _ mem)) _ (fun k eq => ?_) (by simp)
      rw [eq] at round
      exact round

/-- Where the string at `input.buf + input.w` is the pending line, the search for it is right
    below 30 commands; from then on it finds nothing. -/
theorem prediction_right_iff (env : Env) (s : Console)
    (spelled : Spelled (memory env s.input) s.input.pending s.input.w.toNat) :
    (∃ index, predictInCommandList env s = .ok index ∧
      Found s.command s.input.pending index) ↔
      (s.sizeCommand < 30 ∨ ∀ i < 30, ¬ Begins s.command s.input.pending i) := by
  unfold predictInCommandList
  by_cases few : s.sizeCommand < 30
  · have short : s.input.pending.length < 4294967296 := by
      rw [line_length]
      exact UInt32.toNat_lt _
    have whole : wholeString (memory env s.input) s.input.w.toNat = .ok s.input.pending := by
      rw [wholeString, cstring_spelled.mpr ⟨spelled, short⟩]
      rfl
    rw [if_pos few, whole]
    refine ⟨fun _ => .inl few, fun _ => ⟨_, rfl, ?_⟩⟩
    refine predict_spec _ (fun i mem => ?_) none (fun j impossible => by cases impossible) (by simp)
    rw [List.mem_reverse, List.mem_range] at mem
    omega
  · rw [if_neg few]
    refine ⟨?_, ?_⟩
    · rintro ⟨index,done,found⟩
      cases done
      exact .inr found
    · rintro (less | none_)
      · exact absurd less few
      · exact ⟨none, rfl, none_⟩

end Prediction

theorem prediction_right_iff_two :
    ∃ s index, exec next (start 2) (commands [97, 98] ++ keys [98]) = some s ∧
      s.con.input.pending = [98] ∧ predictInCommandList blank s.con = .ok index ∧
        Found s.con.command s.con.input.pending index := by
  have shape : (exec next (start 2) (commands [97, 98] ++ keys [98])).map
      (fun s => (decide (Spelled (memory blank s.con.input) [98] s.con.input.w.toNat),
        s.con.input.pending, s.con.sizeCommand)) = some (true, [98], 2) := by decide +kernel
  obtain ⟨s,run,eq⟩ := Option.map_eq_some_iff.mp shape
  simp only [Prod.mk.injEq, decide_eq_true_eq] at eq
  obtain ⟨spelled,line,size⟩ := eq
  obtain ⟨index,done,found⟩ :=
    (prediction_right_iff blank s.con (line.symm ▸ spelled)).mpr (.inl (by omega))
  exact ⟨s, index, run, line, done, found⟩

def thirty : List Event := commands (List.replicate 30 97) ++ keys [97]

theorem nothing_found_after_thirty :
    ∃ s, exec next (start 2) thirty = some s ∧ s.con.input.pending = [97] ∧
      Spelled (memory blank s.con.input) [97] s.con.input.w.toNat ∧
      Begins s.con.command [97] 0 ∧ predictInCommandList blank s.con = .ok none := by
  have shape : (exec next (start 2) thirty).map
      (fun s => (s.con.input.pending,
        decide (Spelled (memory blank s.con.input) [97] s.con.input.w.toNat),
        startsWith s.con.command [97] 0, s.con.sizeCommand)) = some ([97], true, true, 30) := by
    decide +kernel
  obtain ⟨s,run,eq⟩ := Option.map_eq_some_iff.mp shape
  simp only [Prod.mk.injEq, decide_eq_true_eq] at eq
  obtain ⟨line,spelled,begins,size⟩ := eq
  refine ⟨s, run, line, spelled, startsWith_iff.mp begins, ?_⟩
  rw [predictInCommandList, if_neg (by omega)]

end ConsoleInput

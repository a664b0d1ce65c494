import Xv6.Grep.Matcher
import Xv6.Lib.Cuts
import Xv6.Ulib

/- grep's loop over its input. `buf` has 1024 bytes; a read adds to the `m` bytes that are in it.
   What is left behind the last newline moves to the front, and if there is no newline in the
   buffer nothing is left. -/
namespace Grep
open Bytes Ulib Cuts

def sizeofBuf : Nat := 1024

def string (buf : Nat → UInt8) (p : Nat) : List UInt8 :=
  (load buf p (sizeofBuf - p)).takeWhile (· ≠ 0)

/-- The loop over the lines in the buffer: the buffer and `p` behind it, and what it has written.
    Every pass takes a byte at least. -/
def scan (pattern : List UInt8) : Nat → (Nat → UInt8) → Nat → (Nat → UInt8) × Nat × List UInt8
  | 0, buf, p => (buf, p, [])
  | n + 1, buf, p =>
    match strchr buf newline (sizeofBuf - p) p with
    | none => (buf, p, [])
    | some q =>
      let cleared := Function.update buf q 0
      if match_ pattern (string cleared p) then
        let restored := Function.update cleared q newline
        let (after, end_, out) := scan pattern n restored (q + 1)
        (after, end_, load restored p (q + 1 - p) ++ out)
      else scan pattern n cleared (q + 1)

def pass (pattern c : List UInt8) (buf : Nat → UInt8) (m : Nat) :
    (Nat → UInt8) × Nat × List UInt8 :=
  let buf := store buf m c
  let m := m + c.length
  let (buf, p, out) := scan pattern sizeofBuf (Function.update buf m 0) 0
  let m := if p = 0 then 0 else m
  if m > 0 then (memmove buf 0 p (m - p), m - p, out) else (buf, m, out)

/-- The chunks are what the calls of read return, one after the other, before one returns 0. No
    value if there are more bytes in one than were asked for. -/
def grepLoop (pattern : List UInt8) : List (List UInt8) → (Nat → UInt8) → Nat → Option (List UInt8)
  | [], _, _ => some []
  | c :: chunks, buf, m =>
    if c.length ≤ sizeofBuf - m - 1 then
      let (buf, m, out) := pass pattern c buf m
      (grepLoop pattern chunks buf m).map (out ++ ·)
    else none

def grep (pattern : List UInt8) (chunks : List (List UInt8)) : Option (List UInt8) :=
  grepLoop pattern chunks (fun _ => 0) 0

/-- read may return these chunks: none is empty, and none is larger than what it is asked for. -/
def Served (chunks : List (List UInt8)) : Prop :=
  (∀ c ∈ chunks, c ≠ []) ∧ ∀ pattern, (grep pattern chunks).isSome

def chosen (pattern : List UInt8) (lines : List (List UInt8)) : List UInt8 :=
  join newline (lines.filter (match_ pattern))

def expected (pattern stream : List UInt8) : List UInt8 := chosen pattern (cut newline stream).1

def seen : List UInt8 → List (List UInt8) → List (List UInt8)
  | _, [] => []
  | r, c :: chunks =>
    if newline ∈ c then (cut newline (r ++ c)).1 ++ seen (cut newline (r ++ c)).2 chunks
    else seen [] chunks

variable {pattern c r b : List UInt8} {buf : Nat → UInt8} {m n p : Nat} {chunks : List (List UInt8)}

theorem load_split {x y : List UInt8} (bytes : load buf p (x ++ y).length = x ++ y) :
    load buf p x.length = x ∧ load buf (p + x.length) y.length = y := by
  rw [List.length_append, load_append] at bytes
  exact List.append_inj bytes (length_load ..)

theorem string_line {line : List UInt8} (nul : 0 ∉ line) (bytes : load buf p line.length = line)
    (ends : buf (p + line.length) = 0)
    (room : p + line.length < sizeofBuf) : string buf p = line := by
  have more : sizeofBuf - p = line.length + (1 + (sizeofBuf - p - line.length - 1)) := by omega
  have zero : load buf (p + line.length) 1 = [0] := by rw [← ends]; rfl
  rw [string, more, load_append, load_append, bytes, zero, List.takeWhile_append_of_pos]
  · simp
  · intro x mem
    have other : x ≠ 0 := fun eq => nul (eq ▸ mem)
    simpa using other

variable (pattern) in
theorem scan_spec (enough : b.length ≤ n) (nul : 0 ∉ b) (bytes : load buf p b.length = b)
    (ends : buf (p + b.length) = 0)
    (room : p + b.length < sizeofBuf) :
    (scan pattern n buf p).2.1 = p + (join newline (cut newline b).1).length ∧
    (scan pattern n buf p).2.2 = chosen pattern (cut newline b).1 ∧
    ∀ x, p + (join newline (cut newline b).1).length ≤ x → (scan pattern n buf p).1 x = buf x := by
  induction b using parts_induction newline generalizing n buf p with
  | last b none_ =>
    have stays : scan pattern n buf p = (buf, p, []) := by
      cases n with
      | zero => rfl
      | succ n =>
        have nothing : strchr buf newline (sizeofBuf - p) p = none :=
          strchr_none (by rwa [bytes]) ends
        rw [scan, nothing]
    rw [stays, cut_of_notMem none_]
    exact ⟨rfl, rfl, fun _ _ => rfl⟩
  | line line rest none_ ih =>
    cases n with
    | zero =>
      rw [List.length_append, List.length_cons] at enough
      omega
    | succ n =>
      obtain ⟨front,back⟩ := load_split bytes
      have back : load buf (p + line.length) ([newline] ++ rest).length = [newline] ++ rest := back
      obtain ⟨here,tail⟩ := load_split back
      have here : buf (p + line.length) = newline := List.head_eq_of_cons_eq here
      have tail : load buf (p + line.length + 1) rest.length = rest := tail
      rw [List.length_append, List.length_cons] at enough ends room
      rw [List.mem_append, List.mem_cons, not_or, not_or] at nul
      obtain ⟨nulLine,-,nulRest⟩ := nul
      have found : strchr buf newline (sizeofBuf - p) p = some (p + line.length) :=
        strchr_some (by rwa [front]) (by rwa [front]) here (by decide) (by omega)
      have below : ∀ (f : Nat → UInt8) (y : UInt8),
        load (Function.update f (p + line.length) y) p line.length = load f p line.length :=
          fun f y => load_congr fun x low high => Function.update_of_ne (by omega) ..
      have above : ∀ (f : Nat → UInt8) (y : UInt8) (x : Nat), p + line.length + 1 ≤ x →
        Function.update f (p + line.length) y x = f x :=
          fun f y x high => Function.update_of_ne (by omega) ..
      have text : string (Function.update buf (p + line.length) 0) p = line :=
        string_line nulLine (by rw [below, front]) (Function.update_self ..) (by omega)
      have later : ∀ f : Nat → UInt8, (∀ x, p + line.length + 1 ≤ x → f x = buf x) →
          (scan pattern n f (p + line.length + 1)).2.1 = p + line.length + 1 +
            (join newline (cut newline rest).1).length ∧
          (scan pattern n f (p + line.length + 1)).2.2 = chosen pattern (cut newline rest).1 ∧
          ∀ x, p + line.length + 1 + (join newline (cut newline rest).1).length ≤ x →
            (scan pattern n f (p + line.length + 1)).1 x = f x := by
        intro f same
        refine ih (by omega) nulRest ?_ ?_ (by omega)
        · rw [load_congr fun x low _ => same x low, tail]
        · rw [same _ (by omega), ← ends]
          congr 1
          omega
      have length : (join newline (line :: (cut newline rest).1)).length = line.length + 1 +
          (join newline (cut newline rest).1).length := by
        show ((line ++ [newline]) ++ join newline (cut newline rest).1).length = _
        rw [List.length_append, List.length_append]
        rfl
      rw [scan, found, cut_line line rest none_]
      simp only [text, length]
      split
      · next yes =>
        obtain ⟨stop_,out,kept⟩ := later (Function.update (Function.update buf (p + line.length) 0)
          (p + line.length) newline) fun x high => by
            rw [above _ _ _ high, above _ _ _ high]
        refine ⟨by rw [stop_]; omega, ?_, fun x high => ?_⟩
        · have whole : load (Function.update (Function.update buf (p + line.length) 0)
            (p + line.length) newline) p
              (p + line.length + 1 - p) = line ++ [newline] := by
            have count : p + line.length + 1 - p = line.length + 1 := by omega
            rw [count, load_append, below, below, front]
            congr 1
            show [Function.update _ _ _ _] = _
            rw [Nat.add_zero, Function.update_self]
          rw [out, whole, chosen, chosen, List.filter_cons_of_pos yes]
          rfl
        · rw [kept x (by omega), above _ _ _ (by omega), above _ _ _ (by omega)]
      · next no =>
        obtain ⟨stop_,out,kept⟩ :=
          later (Function.update buf (p + line.length) 0) fun x high => above _ _ _ high
        refine ⟨by rw [stop_]; omega, ?_, fun x high => ?_⟩
        · rw [out, chosen, chosen, List.filter_cons_of_neg no]
        · rw [kept x (by omega), above _ _ _ (by omega)]

structure Holds (buf : Nat → UInt8) (m : Nat) (r : List UInt8) : Prop where
  room : m < sizeofBuf
  length : r.length = m
  bytes : load buf 0 m = r
  nul : 0 ∉ r
  open_ : newline ∉ r

theorem holds_start : Holds (fun _ => 0) 0 [] := ⟨by decide, rfl, rfl, by simp, by simp⟩

variable (pattern) in
theorem pass_spec (holds : Holds buf m r) (nul : 0 ∉ c) (room : m + c.length < sizeofBuf) :
    (pass pattern c buf m).2.2 =
      (if newline ∈ c then chosen pattern (cut newline (r ++ c)).1 else []) ∧
    Holds (pass pattern c buf m).1 (pass pattern c buf m).2.1
      (if newline ∈ c then (cut newline (r ++ c)).2 else []) := by
  have size : (r ++ c).length = m + c.length := by rw [List.length_append, holds.length]
  have bytes : load (Function.update (store buf m c) (m + c.length) 0) 0 (r ++ c).length =
      r ++ c := by
    have same : load (Function.update (store buf m c) (m + c.length) 0) 0 (m + c.length) =
        load (store buf m c) 0 (m + c.length) :=
      load_congr fun x _ high => Function.update_of_ne (by omega) ..
    rw [size, same, load_append, load_store_outside (by omega), holds.bytes, Nat.zero_add,
      load_store_same]
  have nulAll : 0 ∉ r ++ c := by
    rw [List.mem_append, not_or]
    exact ⟨holds.nul, nul⟩
  obtain ⟨stop_,out,kept⟩ := scan_spec pattern (n := sizeofBuf) (by omega) nulAll bytes
    (by rw [size, Nat.zero_add, Function.update_self]) (by omega)
  rw [Nat.zero_add] at stop_ kept
  have whole := join_cut newline (r ++ c)
  have parts : (join newline (cut newline (r ++ c)).1).length + (cut newline (r ++ c)).2.length =
      m + c.length := by
    rw [← List.length_append, whole, size]
  simp only [pass]
  rw [stop_, out]
  by_cases line : newline ∈ c
  · have some_ : (join newline (cut newline (r ++ c)).1).length ≠ 0 := by
      intro zero
      have all : (cut newline (r ++ c)).2 = r ++ c := by
        rw [List.length_eq_zero_iff.mp zero] at whole
        exact whole
      have none_ := rest_notMem newline (r ++ c)
      rw [all, List.mem_append, not_or] at none_
      exact none_.2 line
    rw [if_neg some_, if_pos (by omega), if_pos line, if_pos line]
    refine ⟨rfl, by dsimp only; omega, by dsimp only; omega, ?_, fun mem => nulAll ?_,
      rest_notMem newline _⟩
    · dsimp only
      have moved :
        load
          (memmove (scan pattern sizeofBuf (Function.update (store buf m c) (m + c.length) 0) 0).1 0
          (join newline (cut newline (r ++ c)).1).length
            (m + c.length - (join newline (cut newline (r ++ c)).1).length)) 0
          (m + c.length - (join newline (cut newline (r ++ c)).1).length) =
          load (Function.update (store buf m c) (m + c.length) 0)
            (join newline (cut newline (r ++ c)).1).length
            (cut newline (r ++ c)).2.length := by
        have count : m + c.length - (join newline (cut newline (r ++ c)).1).length =
            (cut newline (r ++ c)).2.length := by omega
        rw [count, load, load]
        refine List.map_congr_left fun i mem => ?_
        have small := List.mem_range.mp mem
        rw [memmove_down (Nat.zero_le _), if_pos (by omega), kept _ (by omega)]
        congr 1
        omega
      rw [moved]
      have last := (load_split (x := join newline (cut newline (r ++ c)).1)
        (y := (cut newline (r ++ c)).2) (by rw [whole]; exact bytes)).2
      rwa [Nat.zero_add] at last
    · rw [← whole]
      exact List.mem_append_right _ mem
  · have none_ : newline ∉ r ++ c := by
      rw [List.mem_append, not_or]
      exact ⟨holds.open_, line⟩
    have nothing : join newline (cut newline (r ++ c)).1 = [] := by
      rw [cut_of_notMem none_]
      rfl
    rw [nothing, if_neg line, if_neg line, cut_of_notMem none_]
    exact ⟨rfl, show 0 < sizeofBuf by decide, rfl, rfl, by simp, by simp⟩

theorem chosen_append (p q : List (List UInt8)) :
    chosen pattern (p ++ q) = chosen pattern p ++ chosen pattern q := by
  rw [chosen, List.filter_append, join_append]
  rfl

theorem grepLoop_cons (fits : c.length ≤ sizeofBuf - m - 1) : grepLoop pattern (c :: chunks) buf m =
    (grepLoop pattern chunks (pass pattern c buf m).1 (pass pattern c buf m).2.1).map
      ((pass pattern c buf m).2.2 ++ ·) := by
  rw [grepLoop, if_pos fits]

theorem grepLoop_seen {out : List UInt8} (holds : Holds buf m r) (nul : ∀ c ∈ chunks, 0 ∉ c)
    (done : grepLoop pattern chunks buf m = some out) :
    out = chosen pattern (seen r chunks) := by
  induction chunks generalizing buf m r out with
  | nil =>
    cases done
    rfl
  | cons c chunks ih =>
    by_cases fits : c.length ≤ sizeofBuf - m - 1
    · have room := holds.room
      obtain ⟨first,holds'⟩ := pass_spec pattern holds (nul c List.mem_cons_self) (by omega)
      rw [grepLoop_cons fits] at done
      obtain ⟨rest,loop,eq⟩ := Option.map_eq_some_iff.mp done
      rw [← eq, ih holds' (fun d mem => nul d (List.mem_cons_of_mem _ mem)) loop, first, seen]
      split
      · rw [chosen_append]
      · rfl
    · rw [grepLoop, if_neg fits] at done
      cases done

/-- No chunk without a newline is followed by one with a newline. -/
def Whole (chunks : List (List UInt8)) : Prop := chunks.Pairwise fun c d => newline ∉ c →
    newline ∉ d

instance : DecidablePred Whole := fun _ => inferInstanceAs (Decidable (List.Pairwise _ _))

theorem notMem_flatten (none_ : ∀ d ∈ chunks, newline ∉ d) : newline ∉ chunks.flatten :=
  fun mem => by
  obtain ⟨d,inside,here⟩ := List.mem_flatten.mp mem
  exact none_ d inside here

theorem seen_nothing (none_ : ∀ d ∈ chunks, newline ∉ d) : seen r chunks = [] := by
  induction chunks generalizing r with
  | nil => rfl
  | cons c chunks ih =>
    rw [seen, if_neg (none_ c List.mem_cons_self)]
    exact ih fun d mem => none_ d (List.mem_cons_of_mem _ mem)

theorem seen_whole (open_ : newline ∉ r) (whole : Whole chunks) :
    seen r chunks = (cut newline (r ++ chunks.flatten)).1 := by
  induction chunks generalizing r with
  | nil =>
    rw [List.flatten_nil, List.append_nil, cut_of_notMem open_]
    rfl
  | cons c chunks ih =>
    obtain ⟨first,rest⟩ := List.pairwise_cons.mp whole
    rw [seen, List.flatten_cons, ← List.append_assoc]
    by_cases line : newline ∈ c
    · rw [if_pos line, cut_append (r ++ c) chunks.flatten, ih (rest_notMem newline _) rest]
    · have none_ : newline ∉ r ++ c ++ chunks.flatten := by
        rw [List.mem_append, List.mem_append, not_or, not_or]
        exact ⟨⟨open_, line⟩, notMem_flatten fun d mem => first d mem line⟩
      rw [if_neg line, seen_nothing fun d mem => first d mem line, cut_of_notMem none_]

theorem seen_length (open_ : newline ∉ r) (some_ : ∀ c ∈ chunks, c ≠ []) :
    (join newline (seen r chunks)).length ≤
      (join newline (cut newline (r ++ chunks.flatten)).1).length ∧
    (¬ Whole chunks → (join newline (seen r chunks)).length <
      (join newline (cut newline (r ++ chunks.flatten)).1).length) := by
  induction chunks generalizing r with
  | nil => exact ⟨Nat.zero_le _, fun broken => absurd List.Pairwise.nil broken⟩
  | cons c chunks ih =>
    have rest : ∀ d ∈ chunks, d ≠ [] := fun d mem => some_ d (List.mem_cons_of_mem _ mem)
    rw [seen, List.flatten_cons, ← List.append_assoc]
    by_cases line : newline ∈ c
    · obtain ⟨most,fewer⟩ := ih (rest_notMem newline (r ++ c)) rest
      rw [if_pos line, cut_append (r ++ c) chunks.flatten, join_append, join_append,
        List.length_append, List.length_append]
      refine ⟨by omega, fun broken => ?_⟩
      have := fewer fun whole => broken
        (List.pairwise_cons.mpr ⟨fun d _ none_ => absurd line none_, whole⟩)
      omega
    · rw [if_neg line]
      by_cases more : ∃ d ∈ chunks, newline ∈ d
      · -- the bytes before this newline are lost
        obtain ⟨most,-⟩ := ih (r := []) (by simp) rest
        obtain ⟨d,mem,here⟩ := more
        obtain ⟨first,tail,split,none_⟩ :=
          List.eq_append_cons_of_mem (List.mem_flatten.mpr ⟨d, mem, here⟩)
        have none' : newline ∉ r ++ c ++ first := by
          rw [List.mem_append, List.mem_append, not_or, not_or]
          exact ⟨⟨open_, line⟩, none_⟩
        have bytes : 0 < c.length := List.length_pos_iff.mpr (some_ c List.mem_cons_self)
        rw [List.nil_append, split, cut_line first tail none_] at most
        rw [split, ← List.append_assoc, cut_line _ tail none']
        simp only [join, List.flatMap_cons, List.length_append] at most ⊢
        exact ⟨by omega, fun _ => by omega⟩
      · have none_ : ∀ d ∈ chunks, newline ∉ d := fun d mem here => more ⟨d, mem, here⟩
        rw [seen_nothing none_]
        refine ⟨Nat.zero_le _, fun broken =>
          absurd (List.pairwise_cons.mpr ⟨fun d mem _ => none_ d mem, ?_⟩) broken⟩
        exact List.pairwise_of_forall_mem_list fun a memA d memD _ => none_ d memD

theorem match_nil (text : List UInt8) : match_ [] text = true := by
  cases text with
  | nil => rfl
  | cons t text =>
    show matchFrom [] (t :: text) = true
    rw [matchFrom, matchhere, Bool.true_or]

theorem grep_eq (nul : ∀ c ∈ chunks, 0 ∉ c) (served : Served chunks) (pattern : List UInt8) :
    grep pattern chunks = some (chosen pattern (seen [] chunks)) := by
  obtain ⟨out,done⟩ := Option.isSome_iff_exists.mp (served.2 pattern)
  rw [done, grepLoop_seen holds_start nul done]

theorem grepLoop_small (holds : Holds buf m r) (nul : ∀ c ∈ chunks, 0 ∉ c)
    (small : m + chunks.flatten.length < sizeofBuf) (pattern : List UInt8) :
    (grepLoop pattern chunks buf m).isSome := by
  induction chunks generalizing buf m r with
  | nil => rfl
  | cons c chunks ih =>
    rw [List.flatten_cons, List.length_append] at small
    obtain ⟨-,next⟩ := pass_spec pattern holds (nul c List.mem_cons_self) (by omega)
    have less : (pass pattern c buf m).2.1 ≤ m + c.length := by
      rw [← next.length]
      split
      · have parts := congrArg List.length (join_cut newline (r ++ c))
        rw [List.length_append, List.length_append, holds.length] at parts
        omega
      · exact Nat.zero_le _
    rw [grepLoop_cons (by omega), Option.isSome_map]
    exact ih next (fun d mem => nul d (List.mem_cons_of_mem _ mem)) (by omega)

theorem served_small (some_ : ∀ c ∈ chunks, c ≠ []) (nul : ∀ c ∈ chunks, 0 ∉ c)
    (small : chunks.flatten.length < sizeofBuf) : Served chunks :=
  ⟨some_, grepLoop_small holds_start nul (by rwa [Nat.zero_add])⟩

theorem grep_expected_iff {stream : List UInt8} (nul : 0 ∉ stream) (all : chunks.flatten = stream)
    (served : Served chunks) :
    (∀ pattern, 0 ∉ pattern → grep pattern chunks = some (expected pattern stream)) ↔
      Whole chunks := by
  have nuls : ∀ c ∈ chunks, 0 ∉ c :=
    fun c mem zero => nul (all ▸ List.mem_flatten.mpr ⟨c, mem, zero⟩)
  constructor
  · intro right
    by_contra broken
    have same := (grep_eq nuls served []).symm.trans (right [] (by simp))
    have every : ∀ lines : List (List UInt8), chosen [] lines = join newline lines :=
      fun lines => by
        rw [chosen, List.filter_eq_self.mpr fun line _ => match_nil line]
    rw [expected, every, every, Option.some.injEq] at same
    have fewer := (seen_length (r := []) (by simp) served.1).2 broken
    rw [List.nil_append, all, same] at fewer
    exact Nat.lt_irrefl _ fewer
  · intro whole pattern _
    rw [grep_eq nuls served, expected, seen_whole (by simp) whole, List.nil_append, all]

/-- Two ways in which the same input arrives give the same output for every pattern, the lines that
    match, iff neither has a chunk without a newline before one with a newline. -/
theorem grep_output_iff (stream : List UInt8) (nul : 0 ∉ stream) (a b : List (List UInt8))
    (allA : a.flatten = stream)
    (allB : b.flatten = stream) (servedA : Served a) (servedB : Served b) :
    (∀ pattern, 0 ∉ pattern → grep pattern a = some (expected pattern stream) ∧
      grep pattern b = some (expected pattern stream)) ↔
      Whole a ∧ Whole b := by
  rw [← grep_expected_iff nul allA servedA, ← grep_expected_iff nul allB servedB]
  constructor
  · exact fun both => ⟨fun pattern string => (both pattern string).1, fun pattern string =>
      (both pattern string).2⟩
  · exact fun both pattern string => ⟨both.1 pattern string, both.2 pattern string⟩

theorem grep_output_iff_two :
    grep [98] [[97, 98, 10, 99, 10]] = some (expected [98] [97, 98, 10, 99, 10]) ∧
    grep [98] [[97, 98, 10], [99, 10]] = some (expected [98] [97, 98, 10, 99, 10]) :=
  (grep_output_iff [97, 98, 10, 99, 10] (by decide) [[97, 98, 10, 99, 10]] [[97, 98, 10],
    [99, 10]] rfl rfl
    (served_small (by decide) (by decide) (by decide))
      (served_small (by decide) (by decide) (by decide))).mpr
    ⟨by decide, by decide⟩ [98] (by decide)

/-- The line "ab" in two parts is seen as "b". -/
theorem first_part_lost : Served [[97], [98, 10]] ∧ grep [97] [[97], [98, 10]] = some [] ∧
    grep [97] [[97, 98, 10]] = some [97, 98, 10] ∧
    expected [97] [97, 98, 10] = [97, 98, 10] := by
  refine ⟨served_small (by decide) (by decide) (by decide), ?_, ?_, ?_⟩
  all_goals decide +kernel

end Grep

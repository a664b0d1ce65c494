import Xv6.Console.Digits

/- ^R. reverse_line takes the C string that starts at `input.buf + input.w` for the line. -/
namespace ConsoleInput
open RingQueue RunLaws

def Spelled (fetch : Nat → Option UInt8) : List UInt8 → Nat → Prop
  | [], k => fetch k = some 0
  | c :: l, k => fetch k = some c ∧ c ≠ 0 ∧ Spelled fetch l (k + 1)

section Strings
variable {fetch : Nat → Option UInt8} {l : List UInt8} {n k : Nat}

theorem cstring_spelled : cstring fetch n k = .ok (l, true) ↔ Spelled fetch l k ∧ l.length < n := by
  induction n generalizing k l with
  | zero => simp [cstring]
  | succ n ih =>
    rw [cstring]
    cases byte : fetch k with
    | none => cases l <;> simp [Spelled, byte]
    | some c =>
      by_cases zero : c = 0
      · subst zero
        cases l <;> simp [Spelled, byte]
        rintro rfl
        simp
      · simp only [if_neg zero]
        cases l with
        | nil =>
          simp only [Spelled, byte, Option.some.injEq, zero, false_and, iff_false]
          intro read
          obtain ⟨a,-,eq⟩ := map_ok read
          cases eq
        | cons d l =>
          simp only [Spelled, byte, Option.some.injEq, List.length_cons, Nat.add_lt_add_iff_right]
          refine ⟨fun read => ?_, fun spelled => ?_⟩
          · obtain ⟨⟨more,ended⟩,rest,eq⟩ := map_ok read
            cases eq
            obtain ⟨spelled,short⟩ := ih.mp rest
            exact ⟨⟨rfl, zero, spelled⟩, short⟩
          · obtain ⟨⟨rfl,-,spelled⟩,short⟩ := spelled
            rw [ih.mpr ⟨spelled, short⟩]
            rfl

theorem spelled_nonzero (spelled : Spelled fetch l k) : 0 ∉ l := by
  induction l generalizing k with
  | nil => simp
  | cons c l ih =>
    rw [List.mem_cons, not_or]
    exact ⟨fun zero => spelled.2.1 zero.symm, ih spelled.2.2⟩

theorem spelled_byte (spelled : Spelled fetch l k) :
    ∀ y, k ≤ y → y < k + l.length → fetch y ≠ some 0 := by
  induction l generalizing k with
  | nil =>
    intro y low high
    simp only [List.length_nil] at high
    omega
  | cons c l ih =>
    intro y low high
    rw [List.length_cons] at high
    rcases Nat.eq_or_lt_of_le low with rfl | above
    · rw [spelled.1]
      exact fun zero => spelled.2.1 (Option.some.inj zero)
    · exact ih spelled.2.2 y above (by omega)

theorem spelled_end (spelled : Spelled fetch l k) : fetch (k + l.length) = some 0 := by
  induction l generalizing k with
  | nil => exact spelled
  | cons c l ih =>
    rw [List.length_cons, ← Nat.add_assoc, Nat.add_right_comm]
    exact ih spelled.2.2

theorem memory_inside (env : Env) (i : Input) (inside : k < inputBuf) :
    memory env i k = some (i.buf (slot inputBuf k)) := by
  have small : k % 4294967296 = k := Nat.mod_eq_of_lt (by simp only [inputBuf] at inside; omega)
  have here : slot inputBuf k = ⟨k, inside⟩ := Fin.ext (Nat.mod_eq_of_lt inside)
  simp only [memory, small, dif_pos inside, here]

theorem spelled_inside (env : Env) (i : Input) (inside : k + l.length < inputBuf) :
    Spelled (memory env i) l k ↔
      text i.buf l.length k = l ∧ 0 ∉ l ∧ i.buf (slot inputBuf (k + l.length)) = 0 := by
  induction l generalizing k with
  | nil =>
    have here := memory_inside env i (k := k) inside
    simp [Spelled, here, text]
  | cons c l ih =>
    rw [List.length_cons] at inside
    have behind : k + 1 + l.length = k + (l.length + 1) := by omega
    rw [Spelled, memory_inside env i (by omega), ih (by omega), behind]
    simp only [text, List.length_cons, List.cons.injEq, List.mem_cons, not_or, Option.some.injEq]
    refine ⟨?_, ?_⟩
    · rintro ⟨first,nonzero,rest,more,last⟩
      exact ⟨⟨first, rest⟩, ⟨fun zero => nonzero zero.symm, more⟩, last⟩
    · rintro ⟨⟨first,rest⟩,⟨nonzero,more⟩,last⟩
      exact ⟨first, fun zero => nonzero zero.symm, rest, more, last⟩

end Strings

theorem input_ends {i : Input} (ends : i.end_ = i.e) : ({ i with end_ := i.e } : Input) = i := by
  cases i
  simp only at ends
  rw [ends]

section Erasing
variable (env : Env) {s : Console} {a n : Nat}

theorem erase_last (screen : s.pos < 2000) (ends : s.input.end_ = s.input.e)
    (index : s.input.e.toNat = a + 1)
    (low : a + 1 < 2147483648) :
    ∃ b p, p < 2000 ∧ erase env s =
      .ok { s with input := { s.input
        with buf := b, e := s.input.e - 1, end_ := s.input.e - 1 }, pos := p } ∧
      ∀ k, k ≠ slot inputBuf a → b k = s.input.buf k := by
  have before : (s.input.e - 1).toNat = a := by
    simp only [UInt32.toNat_sub, UInt32.reduceToNat]
    omega
  have rounds : s.input.e.toNat - (s.input.e - 1).toNat = 0 + 1 := by omega
  obtain ⟨p,bound,echo⟩ := consputc_total none screen
  obtain ⟨b,q,high,looped,shifted⟩ :=
    (shiftLeft_closes env (m := 0) (s := { s with pos := p }) bound before (by omega)
    (by simp only [inputBuf]; omega)).1 (.inl low)
  obtain ⟨q',-,blank⟩ :=
    consputc_total (s := { s with input := { s.input with buf := b }, pos := q }) (some 32) high
  simp only [ends] at blank
  simp only [erase, echo, Except.bind, shiftInputLeft, ends, rounds, looped, blank, Except.map,
    changePos]
  refine ⟨b, p % 65536, by omega, rfl, fun k other => shifted.rest k fun y above below => ?_⟩
  obtain rfl : y = a := by omega
  exact other

theorem killLoop_clears (screen : s.pos < 2000) (ends : s.input.end_ = s.input.e)
    (line : s.input.w.toNat + n = s.input.e.toNat)
    (low : s.input.e.toNat < 2147483648) (short : n < inputBuf)
    (plain : 10 ∉ text s.input.buf n s.input.w.toNat) :
    ∃ b p, p < 2000 ∧ killLoop env n s =
      .ok
        { s with input := { s.input with buf := b, e := s.input.w, end_ := s.input.w }, pos := p } ∧
      ∀ k, (∀ y, s.input.w.toNat ≤ y → y < s.input.w.toNat + n → k ≠ slot inputBuf y) →
        b k = s.input.buf k := by
  induction n generalizing s with
  | zero =>
    have empty : s.input.e = s.input.w := UInt32.toNat_inj.mp line.symm
    refine ⟨s.input.buf, s.pos, screen, ?_, fun _ _ => rfl⟩
    rw [killLoop, ← empty]
    simp only [input_ends ends]
  | succ n ih =>
    obtain ⟨b,p,bound,erased,rest⟩ :=
      erase_last env (a := s.input.w.toNat + n) screen ends (by omega) (by omega)
    have before : (s.input.e - 1).toNat = s.input.w.toNat + n := by
      simp only [UInt32.toNat_sub, UInt32.reduceToNat]
      omega
    have pending : s.input.e ≠ s.input.w := by
      intro same
      rw [same] at line
      omega
    have parts := text_append (b := s.input.buf) (n := n) (m := 1) (a := s.input.w.toNat)
    rw [parts, List.mem_append, not_or] at plain
    have letter : s.input.get (s.input.e - 1) ≠ 10 := by
      rw [Input.get, before]
      intro newline
      exact plain.2 (by simp [text, newline])
    have same : text b n s.input.w.toNat = text s.input.buf n s.input.w.toNat :=
      text_congr fun y above below => rest _ (slot_ne (by omega) (by omega))
    obtain ⟨b',q,high,looped,rest'⟩ := ih
      (s :=
        { s with
          input := { s.input with buf := b, e := s.input.e - 1, end_ := s.input.e - 1 }, pos := p })
      bound rfl before.symm (by simp only; omega) (by omega) (by rw [same]; exact plain.1)
    refine ⟨b', q, high, ?_, fun k outside => ?_⟩
    · rw [killLoop, if_pos ⟨pending, letter⟩, erased]
      exact looped
    · rw [rest' k fun y above below => outside y above (by simp only at below; omega)]
      exact rest k (outside _ (by omega) (by omega))

theorem printAll_spells {l : List UInt8} (screen : s.pos < 2000) (ends : s.input.end_ = s.input.e)
    (index : s.input.e.toNat = a) (low : a + l.length < 4294967296) (short : l.length ≤ inputBuf) :
    ∃ b p, p < 2000 ∧ printAll l s =
      .ok { s with
        input := { s.input with
          buf := b
          e := UInt32.ofNat (a + l.length)
          end_ := UInt32.ofNat (a + l.length) }
        pos := p } ∧
      text b l.length a = l ∧
      ∀ k, (∀ y, a ≤ y → y < a + l.length → k ≠ slot inputBuf y) → b k = s.input.buf k := by
  induction l generalizing s a with
  | nil =>
    refine ⟨s.input.buf, s.pos, screen, ?_, rfl, fun _ _ => rfl⟩
    have same : UInt32.ofNat (a + ([] : List UInt8).length) = s.input.e := by
      rw [List.length_nil, Nat.add_zero, ← index]
      exact UInt32.ofNat_toNat
    rw [printAll, same]
    simp only [input_ends ends]
  | cons c l ih =>
    rw [List.length_cons] at low short
    have value : (s.input.e + 1).toNat = a + 1 := by
      simp only [UInt32.toNat_add, UInt32.reduceToNat]
      omega
    obtain ⟨p,bound,echo⟩ :=
      consputc_total (s := { s with input := s.input.put s.input.e c }) (some c) screen
    obtain ⟨b,q,high,printed,spelled,rest⟩ := ih (a := a + 1)
      (s := { s with
        input := { s.input.put s.input.e c with e := s.input.e + 1, end_ := s.input.end_ + 1 }
        pos := p })
      bound (by simp only [ends]) value (by omega) (by omega)
    have sum : a + 1 + l.length = a + (l.length + 1) := by omega
    rw [sum] at printed rest
    refine ⟨b, q, high, ?_, ?_, fun k outside => ?_⟩
    · rw [printAll, echo]
      exact printed
    · rw [List.length_cons, text, spelled]
      congr 1
      rw [rest _ fun y above below => slot_ne (by omega) (by omega)]
      simp only [Input.put, index, Function.update_self]
    · rw [List.length_cons] at outside
      rw [rest k fun y above below => outside y (by omega) below]
      simp only [Input.put, index]
      exact Function.update_of_ne (outside a (Nat.le_refl _) (by omega)) ..

end Erasing

structure Reversed (s t : Console) : Prop where
  line : t.input.pending = s.input.pending.reverse
  same : t = { s with input := { s.input with buf := t.input.buf }, pos := t.pos }
  rest : ∀ k, (∀ y, s.input.w.toNat ≤ y → y < s.input.w.toNat + s.input.pending.length →
    k ≠ slot inputBuf y) →
    t.input.buf k = s.input.buf k

def Reads (env : Env) (s : Console) (k : Nat) : Prop :=
  (s.input.w.toNat ≤ k ∧ k < s.input.w.toNat + inputBuf) ∧
    ∀ y, s.input.w.toNat ≤ y → y < k → memory env s.input y ≠ some 0

/-- The line and a zero byte lie in the array where `input.buf + input.w` points, and ^U would
    take the whole line. -/
def Legible (s : Console) : Prop :=
  s.input.w.toNat + s.input.pending.length < inputBuf ∧
  s.input.buf (slot inputBuf (s.input.w.toNat + s.input.pending.length)) = 0 ∧
  0 ∉ s.input.pending ∧ 10 ∉ s.input.pending

instance (s : Console) : Decidable (Legible s) := inferInstanceAs (Decidable (_ ∧ _ ∧ _ ∧ _))

/-- Whatever lies around `input`, ^R reverses the line, a second ^R brings it back, and only
    bytes of the array are read. -/
def Reverses (s : Console) : Prop := ∀ env,
  (∃ t, consoleintr env 18 s = .ok (t, false) ∧ Reversed s t ∧
    ∀ env', ∃ u, consoleintr env' 18 t = .ok (u, false) ∧ u.input = s.input) ∧
  ∀ k, Reads env s k → k < inputBuf

section Reversing
variable {s t : Console}

theorem legible_ends (legible : Legible s) :
    s.input.w.toNat + s.input.pending.length = s.input.e.toNat := by
  have base := line_start s.input
  have he := s.input.e.toNat_lt
  have inside := legible.1
  rw [line_length] at inside ⊢
  simp only [inputBuf] at inside
  omega

theorem legible_spelled (env : Env) (legible : Legible s) :
    Spelled (memory env s.input) s.input.pending s.input.w.toNat := by
  obtain ⟨inside,last,nonzero,-⟩ := legible
  refine (spelled_inside env s.input inside).mpr ⟨?_, nonzero, last⟩
  rw [line_length]
  exact (pending_text s.input).symm

theorem reverseLine_legible (env : Env) (steady : Steady s.input) (screen : s.pos < 2000)
    (legible : Legible s) :
    ∃ t, reverseLine env s = .ok t ∧ Reversed s t ∧ t.pos < 2000 := by
  have ends := legible_ends legible
  have inside := legible.1
  have small : s.input.pending.length < inputBuf := by omega
  have word : temp env (memory env s.input) s.input.w.toNat = .ok s.input.pending := by
    rw [temp, cstring_spelled.mpr ⟨legible_spelled env legible, small⟩]
    rfl
  have line : text s.input.buf s.input.pending.length s.input.w.toNat = s.input.pending := by
    rw [line_length]
    exact (pending_text s.input).symm
  obtain ⟨b,p,low,killed,rest⟩ :=
    killLoop_clears env screen steady.ends ends (by simp only [inputBuf] at inside; omega) small
    (by rw [line]; exact legible.2.2.2)
  obtain ⟨b',q,high,printed,spelled,rest'⟩ :=
    printAll_spells (a := s.input.w.toNat) (l := s.input.pending.reverse)
    (s :=
      { s with input := { s.input with buf := b, e := s.input.w, end_ := s.input.w }, pos := p })
    low rfl rfl (by rw [List.length_reverse]; simp only [inputBuf] at inside; omega)
    (by rw [List.length_reverse]; omega)
  rw [List.length_reverse] at printed spelled rest'
  have back : UInt32.ofNat (s.input.w.toNat + s.input.pending.length) = s.input.e := by
    rw [ends]
    exact UInt32.ofNat_toNat
  have kill : killLine env s = killLoop env s.input.pending.length s := by
    rw [line_length]
    rfl
  refine ⟨{ s with input := { s.input with buf := b' }, pos := q }, ?_,
    ⟨?_, rfl, fun k outside => ?_⟩, high⟩
  · rw [reverseLine, printWordReverse, word]
    simp only [Except.bind, kill, killed, printed, back, ← steady.ends]
  · rw [pending_text]
    rw [line_length] at spelled
    exact spelled
  · exact (rest' k outside).trans (rest k outside)

theorem legible_reversed (legible : Legible s) (reversed : Reversed s t) : Legible t := by
  obtain ⟨inside,last,nonzero,plain⟩ := legible
  have w : t.input.w = s.input.w := by rw [reversed.same]
  rw [Legible, reversed.line, List.length_reverse, w, List.mem_reverse, List.mem_reverse]
  refine ⟨inside, ?_, nonzero, plain⟩
  rw [reversed.rest _ fun y above below => (slot_ne below (by omega)).symm]
  exact last

theorem steady_reversed (steady : Steady s.input) (reversed : Reversed s t) : Steady t.input := by
  obtain ⟨ends,order,room⟩ := steady
  rw [reversed.same]
  exact ⟨ends, order, room⟩

theorem reversed_twice {u : Console} (first : Reversed s t) (second : Reversed t u) :
    u.input = s.input := by
  have w : t.input.w = s.input.w := by rw [first.same]
  have e : t.input.e = s.input.e := by rw [first.same]
  have shape : u.input = { s.input with buf := u.input.buf } := by
    rw [second.same, first.same]
  have line : u.input.pending = s.input.pending := by
    rw [second.line, first.line, List.reverse_reverse]
  have bytes : u.input.buf = s.input.buf := by
    funext k
    by_cases met : ∃ y, s.input.w.toNat ≤ y ∧ y < s.input.w.toNat + s.input.pending.length ∧
      k = slot inputBuf y
    · obtain ⟨y,above,below,rfl⟩ := met
      rw [pending_text, pending_text, shape] at line
      rw [line_length] at below
      exact text_inj line y above below
    · have outside : ∀ y, s.input.w.toNat ≤ y → y < s.input.w.toNat + s.input.pending.length →
        k ≠ slot inputBuf y :=
          fun y above below eq => met ⟨y, above, below, eq⟩
      rw [second.rest k (by rw [w, first.line, List.length_reverse]; exact outside),
        first.rest k outside]
  rw [shape, bytes]

theorem key_reverse (env : Env) :
    consoleintr env 18 s = (reverseLine env s).map fun t => (t, false) := rfl

theorem legible_reverses (steady : Steady s.input) (screen : s.pos < 2000) (legible : Legible s) :
    Reverses s := by
  intro env
  obtain ⟨t,done,reversed,low⟩ := reverseLine_legible env steady screen legible
  refine ⟨⟨t, by rw [key_reverse, done]; rfl, reversed, fun env' => ?_⟩, ?_⟩
  · obtain ⟨u,again,back,-⟩ := reverseLine_legible env' (steady_reversed steady reversed) low
      (legible_reversed legible reversed)
    exact ⟨u, by rw [key_reverse, again]; rfl, reversed_twice reversed back⟩
  · rintro k ⟨-,nonzero⟩
    by_contra outside
    have inside := legible.1
    exact nonzero _ (Nat.le_add_right ..) (by omega) (spelled_end (legible_spelled env legible))

theorem kept_zero {i : Input} {n : Nat} (none_ : i.kept n = 0) :
    ∀ x < n, i.cell (dist i.r i.w + x) ≠ 10 := by
  induction n with
  | zero =>
    intro x below
    omega
  | succ n ih =>
    rw [Input.kept] at none_
    split at none_
    · omega
    · next letter =>
      intro x below
      rcases Nat.lt_succ_iff_lt_or_eq.mp below with less | rfl
      · exact ih none_ x less
      · exact letter

theorem kept_newline {i : Input} {n k : Nat} (some_ : i.kept n = k + 1) :
    i.cell (dist i.r i.w + k) = 10 := by
  induction n with
  | zero => cases some_
  | succ n ih =>
    rw [Input.kept] at some_
    split at some_
    · next newline =>
      obtain rfl : n = k := Nat.succ.inj some_
      exact newline
    · exact ih some_

theorem dist_add {r a : UInt32} {n : Nat} (small : dist r a + n < 4294967296) :
    dist r (a + UInt32.ofNat n) = dist r a + n := by
  have hr := r.toNat_lt
  have ha := a.toNat_lt
  simp only [dist, UInt32.toNat_sub, UInt32.toNat_add, UInt32.toNat_ofNat'] at small ⊢
  omega

theorem printAll_moves {l : List UInt8} (printed : printAll l s = .ok t) :
    t.input.r = s.input.r ∧ t.input.w = s.input.w ∧ t.input.e = s.input.e + UInt32.ofNat l.length ∧
      (dist s.input.r s.input.e + l.length ≤ inputBuf → ∀ x < dist s.input.r s.input.e,
        t.input.cell x = s.input.cell x) := by
  induction l generalizing s with
  | nil =>
    cases printed
    exact ⟨rfl, rfl, (UInt32.add_zero _).symm, fun _ _ _ => rfl⟩
  | cons c l ih =>
    obtain ⟨u,echo,rest⟩ := bind_ok printed
    have same := consputc_input echo
    rw [same] at rest
    obtain ⟨r,w,e,cells⟩ := ih rest
    refine ⟨r, w, ?_, fun room x below => ?_⟩
    · rw [e, List.length_cons, UInt32.add_assoc]
      congr 1
      apply UInt32.toNat_inj.mp
      simp only [UInt32.toNat_add, UInt32.toNat_ofNat', UInt32.reduceToNat]
      omega
    · rw [List.length_cons] at room
      have longer : dist s.input.r (s.input.e + 1) = dist s.input.r s.input.e + 1 :=
        dist_succ (by simp only [inputBuf] at room; omega)
      have later : t.input.cell x = (s.input.put s.input.e c).cell x :=
        cells (show dist s.input.r (s.input.e + 1) + l.length ≤ inputBuf by omega) x
          (show x < dist s.input.r (s.input.e + 1) by omega)
      have inside : dist s.input.r s.input.e < inputBuf := by omega
      rw [later, put_cell inside (by omega), if_neg (by omega)]

theorem pending_at (i : Input) {x : Nat} (below : x < i.pending.length) :
    i.pending[x]? = some (i.cell (dist i.r i.w + x)) := by
  rw [line_length] at below
  rw [Input.pending, List.getElem?_map, List.getElem?_range below]
  rfl

def bare : Env := ⟨fun _ => 0, fun _ => none, fun _ => none⟩

theorem word_inside (word : List UInt8)
    (read : temp bare (memory bare s.input) s.input.w.toNat = .ok word)
    (inside : ∀ k, Reads bare s k → k < inputBuf) :
    s.input.w.toNat + word.length < inputBuf ∧
    Spelled (memory bare s.input) word s.input.w.toNat := by
  obtain ⟨⟨l,ended⟩,copied,rest⟩ := bind_ok read
  cases ended with
  | false => cases rest
  | true =>
    cases rest
    obtain ⟨spelled,short⟩ := cstring_spelled.mp copied
    simp only at inside ⊢
    exact ⟨inside _ ⟨⟨Nat.le_add_right .., by omega⟩, spelled_byte spelled⟩, spelled⟩

theorem reverses_legible (steady : Steady s.input) (reverses : Reverses s) : Legible s := by
  obtain ⟨⟨t,key,reversed,-⟩,inside⟩ := reverses bare
  rw [key_reverse] at key
  obtain ⟨t,done,eq⟩ := map_ok key
  cases eq
  obtain ⟨word,read,more⟩ := bind_ok done
  obtain ⟨u,killed,printed⟩ := bind_ok more
  obtain ⟨fits,spelled⟩ := word_inside word read inside
  obtain ⟨bytes,nonzero,last⟩ := (spelled_inside bare s.input fits).mp spelled
  obtain ⟨keeps,next,ends,cells⟩ := killLine_steady steady killed
  obtain ⟨r,w,e,front⟩ := printAll_moves printed
  rw [List.length_reverse] at e front
  have gap := dist_between steady.order
  have order := steady.order
  have room := steady.room
  have few := kept_le s.input (dist s.input.w s.input.e)
  have length := line_length s.input
  -- the edit index is where it was, so that what ^U left and the word are as long as the line
  have sum : s.input.kept (dist s.input.w s.input.e) + word.length = dist s.input.w s.input.e := by
    have place : dist s.input.r t.input.e = dist s.input.r s.input.e := by rw [reversed.same]
    rw [keeps.r] at ends
    rw [e, dist_add (by simp only [inputBuf] at *; omega), ends] at place
    omega
  cases left : s.input.kept (dist s.input.w s.input.e) with
  | zero =>
    rw [left, Nat.zero_add] at sum
    have line : word = s.input.pending := by rw [pending_text, ← sum, bytes]
    subst line
    refine ⟨fits, last, nonzero, fun newline => ?_⟩
    obtain ⟨x,mem,eq⟩ := List.mem_map.mp newline
    exact kept_zero left x (List.mem_range.mp mem) eq
  | succ k =>
    -- the newline that ^U left stands where the reversed line has the zero byte behind the word
    exfalso
    have newline : t.input.pending[k]? = some 10 := by
      have long : k < t.input.pending.length := by
        rw [reversed.line, List.length_reverse]
        omega
      rw [pending_at _ long, r, w, keeps.r, keeps.w,
        front (by rw [ends]; omega) _ (by rw [ends]; omega),
        cells _ (by omega), kept_newline left]
    have zero : s.input.pending[word.length]? = some 0 := by
      rw [pending_at _ (by omega), Input.cell, ← slot_dist, last]
    rw [reversed.line, List.getElem?_reverse (by omega),
      show s.input.pending.length - 1 - k = word.length by omega, zero] at newline
    exact absurd newline (by decide)

end Reversing

/- In a careful run the cursor stays on the screen. -/
section Screen
variable {env : Env} {s t : Console}

theorem consputc_screen {c : Option UInt8} (put : consputc c s = .ok t) : t.pos < 2000 := by
  obtain ⟨p,moved,rfl⟩ := map_ok put
  simp only [cgaputc] at moved
  split at moved
  · cases moved
  · split at moved
    · cases moved
      simp only
      omega
    · cases moved
      simp only
      omega

theorem erase_screen (erased : erase env s = .ok t) : t.pos < 2000 := by
  obtain ⟨u,echo,rest⟩ := bind_ok erased
  obtain ⟨v,shifted,rfl⟩ := map_ok rest
  obtain ⟨x,-,more⟩ := bind_ok shifted
  obtain ⟨y,-,rfl⟩ := map_ok more
  have low := consputc_screen echo
  simp only [changePos]
  omega

theorem killLoop_screen {n : Nat} (screen : s.pos < 2000) (killed : killLoop env n s = .ok t) :
    t.pos < 2000 := by
  induction n generalizing s with
  | zero =>
    cases killed
    exact screen
  | succ n ih =>
    rw [killLoop] at killed
    split at killed
    · obtain ⟨u,erased,rest⟩ := bind_ok killed
      exact ih (erase_screen erased) rest
    · cases killed
      exact screen

theorem printAll_screen {l : List UInt8} (screen : s.pos < 2000) (printed : printAll l s = .ok t) :
    t.pos < 2000 := by
  induction l generalizing s with
  | nil =>
    cases printed
    exact screen
  | cons c l ih =>
    obtain ⟨u,echo,rest⟩ := bind_ok printed
    have low := consputc_screen echo
    exact ih (by simpa using low) rest

theorem word_screen {l : List UInt8} (screen : s.pos < 2000)
    (printed : (killLine env s).bind (printAll l) = .ok t) :
    t.pos < 2000 := by
  obtain ⟨u,killed,rest⟩ := bind_ok printed
  exact printAll_screen (killLoop_screen screen killed) rest

theorem deleteNumOfLine_screen (steady : Steady s.input) (screen : s.pos < 2000) (here : OnLine s)
    (done : deleteNumOfLine env s = .ok t) : t.pos < 2000 := by
  obtain ⟨good,bad⟩ :=
    deleteNumOfLine_runs env steady screen ⟨here.1, Nat.le_trans (Nat.le_add_left ..) here.2⟩
  by_cases removable : Removable s.input.e.toNat
    (text s.input.buf (back s) (s.input.e.toNat - back s))
  · obtain ⟨u,done',low,-⟩ := good removable
    rw [done] at done'
    cases done'
    exact low
  · obtain ⟨stop,failed⟩ := bad removable
    rw [failed] at done
    cases done

theorem commit_screen (done : commit env s = .ok t) : t.pos = s.pos := by
  obtain ⟨u,history,more⟩ := bind_ok done
  obtain ⟨size,-,rest⟩ := bind_ok more
  obtain ⟨num,-,rfl⟩ := map_ok rest
  obtain ⟨l,-,written⟩ := bind_ok history
  split at written
  · obtain ⟨n,-,rfl⟩ := map_ok written
    rfl
  · cases written

theorem ordinary_screen {c : UInt8} {woken : Bool} (screen : s.pos < 2000)
    (done : ordinary env c s = .ok (t, woken)) :
    t.pos < 2000 := by
  unfold ordinary at done
  split at done
  · obtain ⟨u,-,more⟩ := bind_ok done
    obtain ⟨v,echo,rest⟩ := bind_ok more
    have low := consputc_screen echo
    split at rest
    · obtain ⟨x,committed,eq⟩ := map_ok rest
      cases eq
      rw [commit_screen committed]
      exact low
    · cases rest
      exact low
  · cases done
    exact screen

theorem key_screen {c : UInt8} {woken : Bool} (steady : Steady s.input) (screen : s.pos < 2000)
    (line : c = 14 → OnLine s)
    (done : consoleintr env c s = .ok (t, woken)) : t.pos < 2000 := by
  unfold consoleintr at done
  split at done
  · cases done
    exact screen
  split at done
  · obtain ⟨u,killed,eq⟩ := map_ok done
    cases eq
    exact killLoop_screen screen killed
  split at done
  · obtain ⟨u,erased,eq⟩ := map_ok done
    cases eq
    unfold backSpace at erased
    split at erased
    · exact erase_screen erased
    · cases erased
      exact screen
  split at done
  · next key =>
    obtain ⟨u,deleted,eq⟩ := map_ok done
    cases eq
    exact deleteNumOfLine_screen steady screen (line key) deleted
  split at done
  · obtain ⟨u,reversed,eq⟩ := map_ok done
    cases eq
    obtain ⟨word,-,rest⟩ := bind_ok reversed
    exact word_screen screen rest
  split at done
  · obtain ⟨u,predicted,eq⟩ := map_ok done
    cases eq
    obtain ⟨index,-,rest⟩ := bind_ok predicted
    cases index with
    | none =>
      cases rest
      exact screen
    | some i =>
      obtain ⟨word,-,rest⟩ := bind_ok rest
      exact word_screen screen rest
  · exact ordinary_screen screen done

theorem output_screen {l : List UInt8} (screen : s.pos < 2000) (done : outputAll l s = .ok t) :
    t.pos < 2000 := by
  obtain ⟨p,low,written⟩ := outputAll_total (l := l) screen
  rw [written] at done
  cases done
  exact low

end Screen

def SteadyOnScreen (s : State) : Prop := Steady s.con.input ∧ s.con.pos < 2000

theorem next_steadyOnScreen {s t : State} {e : Event} (steady : SteadyOnScreen s)
    (careful : Careful s e) (move : next s e = some t) : SteadyOnScreen t := by
  refine ⟨(next_steady steady.1 careful move).1, ?_⟩
  have move := next_ok move
  cases e with
  | key env c =>
    obtain ⟨⟨con,woken⟩,done,eq⟩ := map_ok move
    cases eq
    exact key_screen steady.1 steady.2 careful.1 done
  | output l =>
    obtain ⟨con,done,eq⟩ := map_ok move
    cases eq
    exact output_screen steady.2 done
  | read p n killed =>
    simp only [step, Except.ok.injEq] at move
    split at move
    · cases move
      exact steady.2
    · cases move
  | resume p killed =>
    simp only [step, Except.ok.injEq] at move
    split at move
    · cases move
      exact steady.2
    · cases move
  | rouse p =>
    simp only [step, Except.ok.injEq] at move
    split at move
    · cases move
      exact steady.2
    · cases move

theorem run_steadyOnScreen {pos : Nat} {es : List Event} {s : State} (screen : pos < 2000)
    (careful : Along next Careful (start pos) es)
    (run : exec next (start pos) es = some s) : SteadyOnScreen s :=
  exec_invariant SteadyOnScreen (fun _ _ _ steady ok move => next_steadyOnScreen steady ok move)
    ⟨steady_start pos, screen⟩ careful run

/-- ^R reverses the line exactly while the line and a zero byte behind it lie in the array as
    they are written, without the ring's wrap-around. -/
theorem line_reversed_iff {pos : Nat} {es : List Event} {s : State} (screen : pos < 2000)
    (careful : Along next Careful (start pos) es) (run : exec next (start pos) es = some s) :
    Reverses s.con ↔ Legible s.con := by
  obtain ⟨steady,low⟩ := run_steadyOnScreen screen careful run
  exact ⟨reverses_legible steady, legible_reverses steady low⟩

theorem line_reversed_iff_typed :
    ∃ s, exec next (start 2) (keys [108, 115, 10, 97, 98, 99]) = some s ∧
      s.con.input.pending = [97, 98, 99] ∧
      Reverses s.con := by
  have shape : (exec next (start 2) (keys [108, 115, 10, 97, 98, 99])).map
      (fun s => (s.con.input.pending, decide (Legible s.con))) = some ([97, 98, 99], true) := by
    decide +kernel
  obtain ⟨s,run,eq⟩ := Option.map_eq_some_iff.mp shape
  simp only [Prod.mk.injEq, decide_eq_true_eq] at eq
  have careful : Along next Careful (start 2) (keys [108, 115, 10, 97, 98, 99]) := by decide +kernel
  exact ⟨s, run, eq.1, (line_reversed_iff (by decide) careful run).mpr eq.2⟩

/-- 128 characters are committed and read, and one more is typed. The string at `input.buf + 128`
    is the read index. -/
def full : List Event := keys (List.replicate 128 97) ++ [.read 0 128 false, .key blank 97]

theorem index_taken_for_line :
    ∃ s t, exec next (start 2) full = some s ∧ s.con.input.pending = [97] ∧
      exec next (start 2) (full ++ [.key blank 18]) = some t ∧ t.con.input.pending = [128] := by
  have before : (exec next (start 2) full).map (fun s => s.con.input.pending) = some [97] := by
    decide +kernel
  have after : (exec next (start 2) (full ++ [.key blank 18])).map (fun t => t.con.input.pending) =
      some [128] := by
    decide +kernel
  obtain ⟨s,run,line⟩ := Option.map_eq_some_iff.mp before
  obtain ⟨t,longer,other⟩ := Option.map_eq_some_iff.mp after
  exact ⟨s, t, run, line, longer, other⟩

end ConsoleInput

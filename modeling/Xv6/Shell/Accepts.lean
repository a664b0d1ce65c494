import Mathlib.Data.List.GetD
import Xv6.Shell.Grammar

/- The parser accepts what the grammar derives, with the tree of the derivation. First the
   pointer functions are read on the list of tokens that is left; the rest of the proof speaks of
   tokens only. -/
namespace ShellParser

variable {buf : List UInt8} {s : Nat}
variable {p : UInt8 → Bool} {fuel : Nat}

theorem scan_eq (enough : buf.length ≤ s + fuel) :
    scan buf p fuel s = s + ((buf.drop s).takeWhile p).length := by
  induction fuel generalizing s with
  | zero =>
    rw [scan, List.drop_of_length_le (by omega)]
    rfl
  | succ fuel ih =>
    rw [scan]
    by_cases inside : s < buf.length
    · rw [List.drop_eq_getElem_cons inside, List.takeWhile_cons, List.getD_eq_getElem _ _ inside]
      by_cases more : p buf[s] = true
      · rw [if_pos ⟨inside, more⟩, if_pos more, ih (by omega), List.length_cons]
        omega
      · rw [if_neg fun both => more both.2, if_neg more]
        rfl
    · rw [if_neg fun both => inside both.1, List.drop_of_length_le (by omega)]
      rfl

theorem drop_scan (enough : buf.length ≤ s + fuel) :
    buf.drop (scan buf p fuel s) = (buf.drop s).dropWhile p := by
  have left : ((buf.drop s).takeWhile p ++ (buf.drop s).dropWhile p).drop
    ((buf.drop s).takeWhile p).length =
      (buf.drop s).dropWhile p := List.drop_left
  rw [List.takeWhile_append_dropWhile, List.drop_drop] at left
  rw [scan_eq enough, left]

theorem scan_bounds (enough : buf.length ≤ s + fuel) (inside : s ≤ buf.length) :
    s ≤ scan buf p fuel s ∧ scan buf p fuel s ≤ buf.length := by
  have short := (List.takeWhile_prefix p (l := buf.drop s)).length_le
  rw [List.length_drop] at short
  rw [scan_eq enough]
  omega

theorem fetch_eq (inside : s ≤ buf.length) : fetch buf s = .ok ((buf.drop s).headD 0) := by
  rw [fetch]
  by_cases within : s < buf.length
  · rw [if_pos within, List.drop_eq_getElem_cons within, List.getD_eq_getElem _ _ within,
      List.headD_cons]
  · rw [if_neg within, if_pos (by omega), List.drop_of_length_le (by omega)]
    rfl

theorem tokens_skip (p : Nat) (l : List UInt8) :
    tokens (p + (l.takeWhile isBlank).length) (l.dropWhile isBlank) = tokens p l := by
  induction l generalizing p with
  | nil => rfl
  | cons c cs ih =>
    by_cases blank : isBlank c = true
    · rw [List.takeWhile_cons_of_pos blank, List.dropWhile_cons_of_pos blank, List.length_cons,
        tokens, if_pos blank,
        ← ih (p + 1)]
      congr 1
      omega
    · rw [List.takeWhile_cons_of_neg blank, List.dropWhile_cons_of_neg blank]
      rfl

def toks (buf : List UInt8) (s : Nat) : List Token := tokens s (buf.drop s)

theorem toks_skip (s : Nat) : toks buf (skip buf s) = toks buf s := by
  rw [toks, skip, drop_scan (Nat.le_add_left ..), scan_eq (Nat.le_add_left ..), tokens_skip, toks]

theorem skip_bounds (inside : s ≤ buf.length) : s ≤ skip buf s ∧ skip buf s ≤ buf.length :=
  scan_bounds (Nat.le_add_left ..) inside

theorem skip_stops (inside : s ≤ buf.length) : skip buf s = buf.length ∨
    ∃ c cs, buf.drop (skip buf s) = c :: cs ∧ isBlank c = false := by
  have rest : buf.drop (skip buf s) = (buf.drop s).dropWhile isBlank :=
    drop_scan (Nat.le_add_left ..)
  cases left : buf.drop (skip buf s) with
  | nil =>
    have bound := (skip_bounds inside).2
    have := List.drop_eq_nil_iff.mp left
    exact .inl (by omega)
  | cons c cs =>
    refine .inr ⟨c, cs, rfl, ?_⟩
    rw [left] at rest
    have stops := List.head?_dropWhile_not isBlank (buf.drop s)
    rw [← rest] at stops
    simpa using stops

def Token.code : Token → UInt8
  | .bar => 124
  | .lpar => 40
  | .rpar => 41
  | .semi => 59
  | .amp => 38
  | .less => 60
  | .greater => 62
  | .append => 43
  | .word .. => 97

variable {c : UInt8} {t : Token}

theorem symbol_code (found : symbol c = some t) :
    t.code = c ∧ (c = 124 ∨ c = 40 ∨ c = 41 ∨ c = 59 ∨ c = 38 ∨ c = 60) ∧ ∀ q eq,
      t ≠ .word q eq := by
  simp only [symbol] at found
  split_ifs at found <;> cases found <;> simp_all [Token.code]

theorem symbol_none (blank : isBlank c = false) (other : c ≠ 62) (none : symbol c = none) :
    ¬ (c = 124 ∨ c = 40 ∨ c = 41 ∨ c = 59 ∨ c = 38 ∨ c = 60) ∧ isWord c = true := by
  simp only [symbol] at none
  split_ifs at none
  simp_all [isWord, isBlank, symbols]

structure TokenTaken (buf : List UInt8) (s : Nat) (t : Token) (x : Lexed) : Prop where
  code : x.ret = t.code
  place : ∀ q eq, t = .word q eq → x.q = q ∧ x.eq = eq
  rest : toks buf s = t :: toks buf x.s
  inside : x.s ≤ buf.length

theorem lexeme_spec (clean : 0 ∉ buf) {q : Nat} {cs : List UInt8} (here : buf.drop q = c :: cs)
    (blank : isBlank c = false) :
    ∃ t eq, lexeme buf q c = .ok (t.code, eq) ∧ toks buf q = t :: toks buf eq ∧ eq ≤ buf.length ∧
      ∀ x y, t = .word x y → x = q ∧ y = eq := by
  have inside : q < buf.length := by
    by_contra beyond
    rw [List.drop_of_length_le (by omega)] at here
    cases here
  have next : buf.drop (q + 1) = cs := by rw [← List.drop_drop, here, List.drop_one, List.tail_cons]
  have real : c ≠ 0 := by
    intro zero
    exact clean (List.mem_of_mem_drop (by rw [here, zero]; exact List.mem_cons_self))
  rw [toks, here, tokens, if_neg (by simp [blank]), lexeme, if_neg real]
  by_cases greater : c = 62
  · subst greater
    rw [if_neg (by decide), if_pos rfl, if_pos rfl, fetch_eq inside, next]
    cases cs with
    | nil => exact ⟨.greater, q + 1, rfl, by simp [toks, next], inside, fun _ _ is => by cases is⟩
    | cons d ds =>
      have second : q + 1 < buf.length := by
        by_contra beyond
        rw [List.drop_of_length_le (by omega)] at next
        cases next
      by_cases twice : d = 62
      · subst twice
        refine ⟨.append, q + 2, rfl, ?_, second, fun _ _ is => by cases is⟩
        have after : buf.drop (q + 1 + 1) = ds := by
          rw [← List.drop_drop, next, List.drop_one, List.tail_cons]
        simp only [toks, after, List.head?_cons, List.tail_cons, if_true]
      · refine ⟨.greater, q + 1, ?_, by simp [toks, next, twice], inside, fun _ _ is => by cases is⟩
        simp [Except.map, twice, Token.code]
  · rw [if_neg greater, if_neg greater]
    cases found : symbol c with
    | some t =>
      obtain ⟨code,one,word⟩ := symbol_code found
      exact ⟨t, q + 1, by rw [if_pos one, code], by simp [toks, next], inside, fun x y eq =>
        absurd eq (word x y)⟩
    | none =>
      obtain ⟨one,word⟩ := symbol_none blank greater found
      have ends := scan_eq (s := q) (p := isWord) (Nat.le_add_left buf.length q)
      have left := drop_scan (s := q) (p := isWord) (Nat.le_add_left buf.length q)
      rw [here, List.takeWhile_cons_of_pos word, List.length_cons] at ends
      rw [here, List.dropWhile_cons_of_pos word] at left
      refine ⟨.word q (scan buf isWord buf.length q), _, by rw [if_neg one]; rfl, ?_,
        (scan_bounds (Nat.le_add_left ..) (Nat.le_of_lt inside)).2, fun x y eq => ?_⟩
      · have same : q + ((List.takeWhile isWord cs).length + 1) = q + 1 +
            (List.takeWhile isWord cs).length := by omega
        rw [ends, same] at left
        simp only [toks, ends, same, left]
      · cases eq
        exact ⟨rfl, rfl⟩

theorem toks_end : toks buf buf.length = [] := by
  rw [toks, List.drop_length, tokens]

theorem gettoken_end (atEnd : skip buf s = buf.length) :
    gettoken buf s = .ok ⟨0, buf.length, buf.length, buf.length⟩ := by
  have again : skip buf buf.length = buf.length :=
    Nat.le_antisymm (skip_bounds (Nat.le_refl _)).2 (skip_bounds (Nat.le_refl _)).1
  rw [gettoken]
  simp only [atEnd, fetch_eq (Nat.le_refl _), List.drop_length]
  simp only [bind, Except.bind, List.headD_nil, lexeme, if_true, again]

theorem gettoken_takes (clean : 0 ∉ buf) (inside : s ≤ buf.length) {cs : List UInt8}
    (here : buf.drop (skip buf s) = c :: cs) (blank : isBlank c = false) :
    ∃ t x, gettoken buf s = .ok x ∧ TokenTaken buf s t x := by
  obtain ⟨t,eq,lexed,first,bound,word⟩ := lexeme_spec clean here blank
  refine ⟨t, ⟨t.code, skip buf s, eq, skip buf eq⟩, ?_, rfl, fun x y is => ?_, ?_,
    (skip_bounds bound).2⟩
  · rw [gettoken]
    simp only [fetch_eq (skip_bounds inside).2, here]
    simp only [bind, Except.bind, List.headD_cons, lexed]
  · obtain ⟨rfl,rfl⟩ := word x y is
    exact ⟨rfl, rfl⟩
  · rw [toks_skip, ← toks_skip s, first]

theorem gettoken_spec (clean : 0 ∉ buf) (inside : s ≤ buf.length) :
    (toks buf s = [] ∧ ∃ x, gettoken buf s = .ok x ∧ x.ret = 0 ∧ toks buf x.s = [] ∧
      x.s ≤ buf.length) ∨
      ∃ t x, gettoken buf s = .ok x ∧ TokenTaken buf s t x := by
  rcases skip_stops inside with atEnd | ⟨c,cs,here,blank⟩
  · refine .inl ⟨?_, _, gettoken_end atEnd, rfl, toks_end, Nat.le_refl _⟩
    rw [← toks_skip, atEnd, toks_end]
  · exact .inr (gettoken_takes clean inside here blank)

def Token.starts (set : List UInt8) : Token → Bool
  | .append => set.contains 62
  | .word .. => false
  | t => set.contains t.code

variable {set : List UInt8}

theorem tokens_head (blank : isBlank c = false) (p : Nat) (cs : List UInt8)
    (only : ∀ c ∈ set, c ∈ symbols) :
    ∃ t ts, tokens p (c :: cs) = t :: ts ∧ t.starts set = set.contains c := by
  rw [tokens, if_neg (by simp [blank])]
  by_cases greater : c = 62
  · rw [if_pos greater, greater]
    split
    · exact ⟨_, _, rfl, rfl⟩
    · exact ⟨_, _, rfl, rfl⟩
  · rw [if_neg greater]
    cases found : symbol c with
    | some t =>
      refine ⟨t, _, rfl, ?_⟩
      simp only [symbol] at found
      split_ifs at found with h1 h2 h3 h4 h5 h6
      all_goals
        cases found
        simp only [Token.starts, Token.code, *]
    | none =>
      have word := (symbol_none blank greater found).2
      refine ⟨_, _, rfl, ?_⟩
      simp only [isWord, Bool.and_eq_true, Bool.not_eq_true', List.contains_eq_mem,
        decide_eq_false_iff_not] at word
      simp only [Token.starts, List.contains_eq_mem, Bool.false_eq, decide_eq_false_iff_not]
      exact fun mem => word.2 (only c mem)

def first (set : List UInt8) (ts : List Token) : Bool :=
  (ts.head?.map (Token.starts set)).getD false

theorem peek_spec (set : List UInt8) (clean : 0 ∉ buf) (inside : s ≤ buf.length)
    (only : set.all symbols.contains = true) :
    ∃ s', peek buf s set = .ok (first set (toks buf s), s') ∧
      toks buf s' = toks buf s ∧ s' ≤ buf.length := by
  have only : ∀ c ∈ set, c ∈ symbols := by simpa using only
  refine ⟨skip buf s, ?_, toks_skip s, (skip_bounds inside).2⟩
  rw [peek, fetch_eq (skip_bounds inside).2, ← toks_skip s]
  rcases skip_stops inside with atEnd | ⟨c,cs,here,blank⟩
  · rw [atEnd, toks_end, List.drop_length]
    rfl
  · obtain ⟨t,ts,first,starts⟩ := tokens_head blank (skip buf s) cs only
    have real : c ≠ 0 := by
      intro zero
      exact clean (List.mem_of_mem_drop (by rw [here, zero]; exact List.mem_cons_self))
    rw [toks, here, first]
    simp [bind, Except.bind, ShellParser.first, starts, real]

theorem gettoken_first (clean : 0 ∉ buf) (inside : s ≤ buf.length)
    (seen : first set (toks buf s) = true) :
    ∃ t x, gettoken buf s = .ok x ∧ TokenTaken buf s t x ∧ t.starts set = true := by
  rcases gettoken_spec clean inside with ⟨none,-⟩ | ⟨t,x,got,took⟩
  · rw [none] at seen
    cases seen
  · refine ⟨t, x, got, took, ?_⟩
    rw [took.rest] at seen
    exact seen

theorem code_word (code : t.code = 97) : ∃ q eq, t = .word q eq := by
  cases t with
  | word q eq => exact ⟨q, eq, rfl⟩
  | _ => exact absurd code (by decide)

theorem code_ne_zero (t : Token) : t.code ≠ 0 := by
  cases t with
  | word => exact (by decide : (97 : UInt8) ≠ 0)
  | _ => decide

theorem starts_single {u : Token} (plain : u ∈ [Token.bar, .lpar, .rpar, .semi, .amp])
    (starts : t.starts [u.code] = true) : t = u := by
  have both : ∀ u ∈ [Token.bar, .lpar, .rpar, .semi, .amp],
    ∀ t ∈ [Token.bar, .lpar, .rpar, .semi, .amp, .less,
      .greater, .append], t.starts [u.code] = true → t = u := by decide
  cases t with
  | word => cases starts
  | _ => exact both u plain _ (by decide) starts

theorem redirection_target (op : t.starts [60, 62] = true) (q eq : Nat) :
    ∃ r, target q eq t = some r ∧ redirection t.code q eq = [r] := by
  cases t with
  | less => exact ⟨_, rfl, rfl⟩
  | greater => exact ⟨_, rfl, rfl⟩
  | append => exact ⟨_, rfl, rfl⟩
  | word => cases op
  | _ => exact absurd op (by decide)

/-- A parser function that stopped at a panic, or took tokens `ts` with a result as `Q` says. -/
def Sound {α : Type} (buf : List UInt8) (s : Nat) (Q : List Token → α → Prop) :
    Except Stop (α × Nat) → Prop
  | .ok (a, s') => s' ≤ buf.length ∧ ∃ ts, toks buf s = ts ++ toks buf s' ∧ Q ts a
  | .error (.panic _) => True
  | .error _ => False

theorem ok_bind {α β : Type} (a : α) (f : α → Except Stop β) : (Except.ok a >>= f) = f a := rfl

variable {α β : Type} {Q : List Token → α → Prop} {R : List Token → β → Prop}
variable {r : Except Stop (α × Nat)}

theorem sound_bind {f : α × Nat → Except Stop (β × Nat)} (before : Sound buf s Q r)
    (after : ∀ a s' ts, s' ≤ buf.length → toks buf s = ts ++ toks buf s' → Q ts a →
      Sound buf s R (f (a, s'))) :
    Sound buf s R (r >>= f) := by
  cases r with
  | error stop => cases stop <;> exact before
  | ok x =>
    obtain ⟨inside,ts,left,holds⟩ := before
    exact after x.1 x.2 ts inside left holds

variable {us : List Token}

theorem sound_from {s' : Nat} (left : toks buf s = us ++ toks buf s')
    (later : Sound buf s' (fun ts a => Q (us ++ ts) a) r) : Sound buf s Q r := by
  cases r with
  | error stop => cases stop <;> exact later
  | ok x =>
    obtain ⟨inside,ts,more,holds⟩ := later
    exact ⟨inside, us ++ ts, by rw [left, more, List.append_assoc], holds⟩

theorem sound_mono {R : List Token → α → Prop} (weaken : ∀ ts a, Q ts a → R ts a)
    (sound : Sound buf s Q r) : Sound buf s R r := by
  cases r with
  | error stop => cases stop <;> exact sound
  | ok x =>
    obtain ⟨inside,ts,left,holds⟩ := sound
    exact ⟨inside, ts, left, weaken ts x.1 holds⟩

theorem gettoken_single (clean : 0 ∉ buf) {s1 : Nat} (same : toks buf s1 = toks buf s)
    (inside : s1 ≤ buf.length)
    {u : Token} (plain : u ∈ [Token.bar, .lpar, .rpar, .semi, .amp])
    (seen : first [u.code] (toks buf s) = true) :
    ∃ x, gettoken buf s1 = .ok x ∧ toks buf s = [u] ++ toks buf x.s ∧ x.s ≤ buf.length := by
  obtain ⟨t,x,got,took,starts⟩ := gettoken_first clean inside (same.symm ▸ seen)
  obtain rfl := starts_single plain starts
  exact ⟨x, got, by rw [← same, took.rest]; rfl, took.inside⟩

theorem parseredirs_sound (clean : 0 ∉ buf) (inside : s ≤ buf.length)
    (enough : (toks buf s).length < fuel) : Sound buf s Redirs (parseredirs buf fuel s) := by
  induction fuel generalizing s with
  | zero => exact absurd enough (Nat.not_lt_zero _)
  | succ fuel ih =>
    obtain ⟨s1,peeked,same,inside1⟩ := peek_spec [60, 62] clean inside (by decide)
    rw [parseredirs, peeked, ok_bind]
    cases more : first [60, 62] (toks buf s) with
    | false => exact ⟨inside1, [], same.symm, .nil⟩
    | true =>
      obtain ⟨t,x,got,took,op⟩ := gettoken_first clean inside1 (same.symm ▸ more)
      simp only [if_true, got, ok_bind]
      rcases gettoken_spec clean took.inside with ⟨-,y,got',zero,-⟩ | ⟨u,y,got',took'⟩
      · simp only [got', ok_bind, zero]
        trivial
      · simp only [got', ok_bind]
        by_cases word : y.ret = 97
        · rw [if_neg (not_not.mpr word)]
          obtain ⟨q,eq,rfl⟩ := code_word (took'.code.symm.trans word)
          obtain ⟨rfl,rfl⟩ := took'.place q eq rfl
          obtain ⟨r,goes,one⟩ := redirection_target op y.q y.eq
          have split : toks buf s = [t, .word y.q y.eq] ++ toks buf y.s := by
            rw [← same, took.rest, took'.rest]
            rfl
          rw [split, List.length_append, List.length_cons] at enough
          refine sound_from split (sound_bind (ih took'.inside (by omega))
            fun outs s' ts inside2 left redirs => ?_)
          refine ⟨inside2, ts, left, ?_⟩
          rw [took.code, one]
          exact .cons goes redirs
        · rw [if_pos word]
          trivial

theorem parseargs_sound (clean : 0 ∉ buf) {argc : Nat} (inside : s ≤ buf.length)
    (few : argc ≤ maxargs - 1)
    (enough : (toks buf s).length < fuel) :
    Sound buf s (fun ts x => Args ts x.1 x.2 ∧ argc + x.1.length ≤ maxargs - 1)
      (parseargs buf fuel argc s) := by
  induction fuel generalizing s argc with
  | zero => exact absurd enough (Nat.not_lt_zero _)
  | succ fuel ih =>
    obtain ⟨s1,peeked,same,inside1⟩ := peek_spec [124, 41, 38, 59] clean inside (by decide)
    rw [parseargs, peeked, ok_bind]
    cases stop : first [124, 41, 38, 59] (toks buf s) with
    | true => exact ⟨inside1, [], same.symm, .nil, few⟩
    | false =>
      rcases gettoken_spec clean inside1 with ⟨none,x,got,zero,left,inside2⟩ | ⟨t,x,got,took⟩
      · simp only [Bool.false_eq_true, if_false, got, ok_bind, zero, if_true]
        exact ⟨inside2, [], by rw [left, ← same, none]; rfl, .nil, few⟩
      · have real : x.ret ≠ 0 := took.code ▸ code_ne_zero t
        simp only [Bool.false_eq_true, if_false, got, ok_bind, real]
        by_cases word : x.ret = 97
        · rw [if_neg (not_not.mpr word)]
          by_cases many : argc + 1 ≥ maxargs
          · rw [if_pos many]
            trivial
          · obtain ⟨q,eq,rfl⟩ := code_word (took.code.symm.trans word)
            obtain ⟨rfl,rfl⟩ := took.place q eq rfl
            have split : toks buf s = [.word x.q x.eq] ++ toks buf x.s := by
              rw [← same, took.rest]
              rfl
            rw [split, List.length_append, List.length_singleton] at enough
            rw [if_neg many]
            refine sound_from split (sound_bind (parseredirs_sound clean took.inside (by omega))
              fun outs s2 ts inside2 left redirs => ?_)
            have shorter := congrArg List.length left
            rw [List.length_append] at shorter
            refine sound_from left (sound_bind (ih inside2 (by omega) (by omega))
              fun x' s3 us inside3 left' both => ?_)
            have words : Args (.word x.q x.eq :: (ts ++ us)) ((x.q, x.eq) :: x'.1) (outs ++ x'.2) :=
              .cons redirs both.1
            refine ⟨inside3, us, left', words, ?_⟩
            simp only [List.length_cons]
            omega
        · rw [if_pos word]
          trivial

theorem parsebacks_sound (clean : 0 ∉ buf) {c : Cmd} (inside : s ≤ buf.length)
    (enough : (toks buf s).length < fuel) :
    Sound buf s (fun ts d => ∃ n, ts = List.replicate n .amp ∧
      d = backs n c) (parsebacks buf fuel c s) := by
  induction fuel generalizing s c with
  | zero => exact absurd enough (Nat.not_lt_zero _)
  | succ fuel ih =>
    obtain ⟨s1,peeked,same,inside1⟩ := peek_spec [38] clean inside (by decide)
    rw [parsebacks, peeked, ok_bind]
    cases more : first [38] (toks buf s) with
    | false => exact ⟨inside1, [], same.symm, 0, rfl, rfl⟩
    | true =>
      obtain ⟨x,got,split,inside2⟩ :=
        gettoken_single (u := .amp) clean same inside1 (by decide) more
      simp only [if_true, got, ok_bind]
      rw [split, List.length_append, List.length_singleton] at enough
      refine sound_from split (sound_mono (fun ts d both => ?_) (ih inside2 (by omega)))
      obtain ⟨n,rfl,rfl⟩ := both
      exact ⟨n + 1, rfl, rfl⟩

/-- The functions of the mutual recursion, with fuel for the tokens that are left. -/
def partParser (buf : List UInt8) : Part → Nat → Nat → Except Stop (Cmd × Nat)
  | .line => parseline buf
  | .pipe => parsepipe buf
  | .exec => parseexec buf

def need : Part → Nat
  | .line => 4
  | .pipe => 3
  | .exec => 2

theorem parseblock_sound (clean : 0 ∉ buf) (inside : s ≤ buf.length)
    (block : first [40] (toks buf s) = true)
    (line : ∀ s, s ≤ buf.length → 4 * (toks buf s).length + 4 ≤ fuel →
      Sound buf s (Derives .line) (parseline buf fuel s))
    (room : 4 * (toks buf s).length ≤ fuel) :
    Sound buf s (Derives .exec) (parseblock buf (fuel + 1) s) := by
  obtain ⟨s1,peeked,same,inside1⟩ := peek_spec [40] clean inside (by decide)
  obtain ⟨x,got,split,inside2⟩ := gettoken_single (u := .lpar) clean same inside1 (by decide) block
  rw [parseblock, peeked, ok_bind]
  simp only [block, Bool.true_eq_false, if_false, got, ok_bind]
  rw [split, List.length_append, List.length_singleton] at room
  refine sound_from split (sound_bind (line x.s inside2 (by omega))
    fun c s2 ts inside3 left derives => ?_)
  obtain ⟨s3,peeked',same',inside4⟩ := peek_spec [41] clean inside3 (by decide)
  rw [peeked', ok_bind]
  cases close : first [41] (toks buf s2) with
  | false => trivial
  | true =>
    obtain ⟨y,got',split',inside5⟩ :=
      gettoken_single (u := .rpar) clean same' inside4 (by decide) close
    simp only [Bool.true_eq_false, if_false, got', ok_bind]
    have shorter := congrArg List.length left
    rw [split', List.length_append, List.length_append] at shorter
    refine sound_from left (sound_from split'
      (sound_bind (parseredirs_sound clean inside5 (by omega))
      fun outs s4 us inside6 left' redirs => ?_))
    exact ⟨inside6, us, left', .block derives redirs⟩

theorem parser_sound (clean : 0 ∉ buf) (fuel : Nat) : ∀ part s, s ≤ buf.length →
    4 * (toks buf s).length + need part ≤ fuel →
      Sound buf s (Derives part) (partParser buf part fuel s) := by
  induction fuel using Nat.strong_induction_on with
  | h fuel ih =>
    intro part s inside enough
    obtain ⟨fuel,rfl⟩ : ∃ n, fuel = n + 1 :=
      Nat.exists_eq_add_one_of_ne_zero (by cases part <;> simp only [need] at enough <;> omega)
    cases part with
    | line =>
      simp only [need] at enough
      simp only [partParser, parseline]
      refine sound_bind (ih fuel (by omega) .pipe s inside (by simp only [need]; omega)) ?_
      intro c s1 ts inside1 left pipe
      have shorter := congrArg List.length left
      rw [List.length_append] at shorter
      refine sound_from left (sound_bind (parsebacks_sound clean inside1 (by omega)) ?_)
      rintro d s2 us inside2 left' ⟨n,rfl,rfl⟩
      have shorter' := congrArg List.length left'
      rw [List.length_append] at shorter'
      obtain ⟨s3,peeked,same,inside3⟩ := peek_spec [59] clean inside2 (by decide)
      rw [peeked, ok_bind]
      cases more : first [59] (toks buf s2) with
      | false =>
        refine ⟨inside3, List.replicate n .amp, by rw [left', same], ?_⟩
        exact .last n pipe
      | true =>
        obtain ⟨x,got,split,inside4⟩ :=
          gettoken_single (u := .semi) clean same inside3 (by decide) more
        simp only [if_true, got, ok_bind]
        have shorter'' := congrArg List.length split
        rw [List.length_append, List.length_singleton] at shorter''
        refine sound_from left' (sound_from split (sound_bind
          (ih fuel (by omega) .line x.s inside4 (by simp only [need]; omega)) ?_))
        intro e s4 vs inside5 left'' line
        have derived := Derives.then_ n pipe line
        rw [List.append_assoc] at derived
        exact ⟨inside5, vs, left'', derived⟩
    | pipe =>
      simp only [need] at enough
      simp only [partParser, parsepipe]
      refine sound_bind (ih fuel (by omega) .exec s inside (by simp only [need]; omega)) ?_
      intro c s1 ts inside1 left exec
      have shorter := congrArg List.length left
      rw [List.length_append] at shorter
      obtain ⟨s2,peeked,same,inside2⟩ := peek_spec [124] clean inside1 (by decide)
      rw [peeked, ok_bind]
      cases more : first [124] (toks buf s1) with
      | false => exact ⟨inside2, ts, by rw [left, same], .single exec⟩
      | true =>
        obtain ⟨x,got,split,inside3⟩ :=
          gettoken_single (u := .bar) clean same inside2 (by decide) more
        simp only [if_true, got, ok_bind]
        have shorter' := congrArg List.length split
        rw [List.length_append, List.length_singleton] at shorter'
        refine sound_from left (sound_from split (sound_bind
          (ih fuel (by omega) .pipe x.s inside3 (by simp only [need]; omega)) ?_))
        intro d s3 us inside4 left' pipe
        exact ⟨inside4, us, left', .bar exec pipe⟩
    | exec =>
      simp only [need] at enough
      simp only [partParser, parseexec]
      obtain ⟨s1,peeked,same,inside1⟩ := peek_spec [40] clean inside (by decide)
      rw [peeked, ok_bind]
      have left : toks buf s = [] ++ toks buf s1 := same.symm
      refine sound_from left ?_
      cases block : first [40] (toks buf s) with
      | true =>
        obtain ⟨fuel,rfl⟩ : ∃ n, fuel = n + 1 := Nat.exists_eq_add_one_of_ne_zero (by omega)
        rw [← same] at block enough
        simp only [if_true]
        refine parseblock_sound clean inside1 block (fun s' inside' enough' => ?_) (by omega)
        exact ih fuel (by omega) .line s' inside' enough'
      | false =>
        simp only [Bool.false_eq_true, if_false]
        rw [← same] at enough
        refine sound_bind (parseredirs_sound clean inside1 (by omega)) ?_
        intro outs s2 ts inside2 left redirs
        have shorter := congrArg List.length left
        rw [List.length_append] at shorter
        refine sound_from left (sound_bind
          (parseargs_sound clean inside2 (Nat.zero_le _) (by omega)) ?_)
        intro x s3 us inside3 left' both
        have few : x.1.length ≤ maxargs - 1 := by simpa using both.2
        have derived : Derives .exec (ts ++ us) (wrap (.exec x.1) (outs ++ x.2)) :=
          .simple redirs both.1 few
        exact ⟨inside3, us, left', derived⟩

def Gives (buf : List UInt8) (rest : List Token) (a : α) (r : Except Stop (α × Nat)) : Prop :=
  ∃ s, r = .ok (a, s) ∧ toks buf s = rest ∧ s ≤ buf.length

variable {rest : List Token}

theorem gives_bind {f : α × Nat → Except Stop (β × Nat)} {rest' : List Token}
    {a : α} {b : β} (before : Gives buf rest a r)
    (after : ∀ s, toks buf s = rest → s ≤ buf.length → Gives buf rest' b (f (a, s))) :
    Gives buf rest' b (r >>= f) := by
  obtain ⟨s,rfl,left,inside⟩ := before
  exact after s left inside

variable {ts : List Token}

theorem gettoken_next (clean : 0 ∉ buf) (inside : s ≤ buf.length)
    (left : toks buf s = t :: ts) : ∃ x, gettoken buf s = .ok x ∧ TokenTaken buf s t x ∧
      toks buf x.s = ts := by
  rcases gettoken_spec clean inside with ⟨none,-⟩ | ⟨u,x,got,took⟩
  · rw [none] at left
    cases left
  · have both := took.rest.symm.trans left
    cases both
    exact ⟨x, got, took, rfl⟩

theorem target_starts {op : Token} {q eq : Nat} {r : Redirection} (goes : target q eq op = some r) :
    op.starts [60, 62] = true ∧ redirection op.code q eq = [r] := by
  cases op with
  | less => cases goes; exact ⟨rfl, rfl⟩
  | greater => cases goes; exact ⟨rfl, rfl⟩
  | append => cases goes; exact ⟨rfl, rfl⟩
  | _ => cases goes

theorem parseredirs_complete (clean : 0 ∉ buf) {outs : List Redirection}
    (redirs : Redirs ts outs) (ends : first [60, 62] rest = false) (inside : s ≤ buf.length)
    (left : toks buf s = ts ++ rest) (enough : ts.length < fuel) :
    Gives buf rest outs (parseredirs buf fuel s) := by
  induction redirs generalizing s fuel with
  | nil =>
    obtain ⟨fuel,rfl⟩ : ∃ n, fuel = n + 1 := Nat.exists_eq_add_one_of_ne_zero (Nat.ne_of_gt enough)
    obtain ⟨s1,peeked,same,inside1⟩ := peek_spec [60, 62] clean inside (by decide)
    rw [parseredirs, peeked, ok_bind, left, List.nil_append, ends]
    exact ⟨s1, rfl, same.trans left, inside1⟩
  | cons goes redirs ih =>
    obtain ⟨fuel,rfl⟩ : ∃ n, fuel = n + 1 :=
      Nat.exists_eq_add_one_of_ne_zero (Nat.ne_of_gt (Nat.zero_lt_of_lt enough))
    obtain ⟨s1,peeked,same,inside1⟩ := peek_spec [60, 62] clean inside (by decide)
    obtain ⟨starts,one⟩ := target_starts goes
    obtain ⟨x,got,took,left1⟩ := gettoken_next clean inside1 (same.trans left)
    obtain ⟨y,got',took',left2⟩ := gettoken_next clean took.inside left1
    obtain ⟨rfl,rfl⟩ := took'.place _ _ rfl
    have seen : first [60, 62] (toks buf s) = true := by
      rw [left]
      exact starts
    have word : y.ret = 97 := took'.code
    simp only [parseredirs, peeked, ok_bind, seen, if_true, got, got', word, ne_eq,
      not_true_eq_false, if_false]
    simp only [List.length_cons] at enough
    refine gives_bind (ih took'.inside left2 (by omega)) fun s2 left3 inside2 => ?_
    refine ⟨s2, ?_, left3, inside2⟩
    simp only [took.code, one, List.singleton_append]

def followers : Part → List Token
  | .line => [.rpar]
  | .pipe => [.rpar, .semi, .amp]
  | .exec => [.rpar, .semi, .amp, .bar]

def Follow (part : Part) (rest : List Token) : Prop := ∀ t ∈ rest.head?, t ∈ followers part

theorem follow_first {part : Part} (follow : Follow part rest)
    (none : ∀ t ∈ followers part, t.starts set = false) : first set rest = false := by
  cases rest with
  | nil => rfl
  | cons t ts => exact none t (follow t rfl)

theorem follow_mono {part other : Part} (follow : Follow part rest)
    (more : ∀ t ∈ followers part, t ∈ followers other) : Follow other rest :=
  fun t head => more t (follow t head)

theorem args_first {args : List (Nat × Nat)} {more : List Redirection}
    (words : Args us args more) (ends : first set rest = false) :
    first set (us ++ rest) = false := by
  cases words with
  | nil => exact ends
  | cons => rfl

theorem redirs_first {outs : List Redirection} (redirs : Redirs ts outs)
    (ends : first [40] rest = false) : first [40] (ts ++ rest) = false := by
  cases redirs with
  | nil => exact ends
  | @cons op q eq r ts outs goes =>
    cases op with
    | less => rfl
    | greater => rfl
    | append => rfl
    | _ => cases goes

theorem parseargs_complete (clean : 0 ∉ buf) {args : List (Nat × Nat)}
    {more : List Redirection} (words : Args us args more) (follow : Follow .exec rest) {argc : Nat}
    (inside : s ≤ buf.length) (left : toks buf s = us ++ rest)
    (few : argc + args.length ≤ maxargs - 1)
    (enough : us.length < fuel) : Gives buf rest (args, more) (parseargs buf fuel argc s) := by
  induction words generalizing s fuel argc with
  | nil =>
    obtain ⟨fuel,rfl⟩ : ∃ n, fuel = n + 1 := Nat.exists_eq_add_one_of_ne_zero (Nat.ne_of_gt enough)
    obtain ⟨s1,peeked,same,inside1⟩ := peek_spec [124, 41, 38, 59] clean inside (by decide)
    rw [parseargs, peeked, ok_bind]
    cases rest with
    | nil =>
      rcases gettoken_spec clean inside1 with ⟨-,x,got,zero,none,inside2⟩ | ⟨t,x,-,took⟩
      · have stop : first [124, 41, 38, 59] (toks buf s) = false := by
          rw [left]
          rfl
        simp only [stop, Bool.false_eq_true, if_false, got, ok_bind, zero, if_true]
        exact ⟨x.s, rfl, none, inside2⟩
      · have none := took.rest.symm.trans (same.trans left)
        cases none
    | cons t ts =>
      have stop : first [124, 41, 38, 59] (toks buf s) = true := by
        have all : ∀ t ∈ followers .exec, t.starts [124, 41, 38, 59] = true := by decide
        rw [left]
        exact all t (follow t rfl)
      simp only [stop, if_true]
      exact ⟨s1, rfl, same.trans left, inside1⟩
  | @cons q eq ts us outs more args redirs words ih =>
    obtain ⟨fuel,rfl⟩ : ∃ n, fuel = n + 1 :=
      Nat.exists_eq_add_one_of_ne_zero (Nat.ne_of_gt (Nat.zero_lt_of_lt enough))
    obtain ⟨s1,peeked,same,inside1⟩ := peek_spec [124, 41, 38, 59] clean inside (by decide)
    have stop : first [124, 41, 38, 59] (toks buf s) = false := by
      rw [left]
      rfl
    rw [List.cons_append, List.append_assoc] at left
    obtain ⟨x,got,took,left1⟩ := gettoken_next clean inside1 (same.trans left)
    obtain ⟨rfl,rfl⟩ := took.place q eq rfl
    have word : x.ret = 97 := took.code
    have differ : ¬ (97 : UInt8) = 0 := by decide
    simp only [List.length_cons, List.length_append] at enough few
    have room : ¬ argc + 1 ≥ maxargs := by simp only [maxargs] at few ⊢; omega
    simp only [parseargs, peeked, ok_bind, stop, Bool.false_eq_true, if_false, got, word, ne_eq,
      not_true_eq_false,
      differ, room]
    have none : first [60, 62] (us ++ rest) = false :=
      args_first words (follow_first follow (by decide))
    refine gives_bind (parseredirs_complete clean redirs none took.inside left1 (by omega))
      fun s2 left2 inside2 => ?_
    refine gives_bind (ih inside2 left2 (by omega) (by omega)) fun s3 left3 inside3 => ?_
    exact ⟨s3, rfl, left3, inside3⟩

theorem parsebacks_complete (clean : 0 ∉ buf) (n : Nat) {c : Cmd}
    (ends : first [38] rest = false) (inside : s ≤ buf.length)
    (left : toks buf s = List.replicate n .amp ++ rest) (enough : n < fuel) :
    Gives buf rest (backs n c) (parsebacks buf fuel c s) := by
  induction n generalizing s c fuel with
  | zero =>
    obtain ⟨fuel,rfl⟩ : ∃ n, fuel = n + 1 := Nat.exists_eq_add_one_of_ne_zero (Nat.ne_of_gt enough)
    obtain ⟨s1,peeked,same,inside1⟩ := peek_spec [38] clean inside (by decide)
    have left : toks buf s = rest := left
    rw [parsebacks, peeked, ok_bind, left, ends]
    exact ⟨s1, rfl, same.trans left, inside1⟩
  | succ n ih =>
    obtain ⟨fuel,rfl⟩ : ∃ n, fuel = n + 1 :=
      Nat.exists_eq_add_one_of_ne_zero (Nat.ne_of_gt (Nat.zero_lt_of_lt enough))
    obtain ⟨s1,peeked,same,inside1⟩ := peek_spec [38] clean inside (by decide)
    have left : toks buf s = .amp :: (List.replicate n .amp ++ rest) := left
    obtain ⟨x,got,took,left1⟩ := gettoken_next clean inside1 (same.trans left)
    have seen : first [38] (toks buf s) = true := by
      rw [left]
      rfl
    simp only [parsebacks, peeked, ok_bind, seen, if_true, got]
    exact ih took.inside left1 (by omega)

theorem peek_single (set : List UInt8) (clean : 0 ∉ buf) (inside : s ≤ buf.length)
    (only : set.all symbols.contains = true)
    {b : Bool} (left : toks buf s = rest) (seen : first set rest = b) :
    ∃ s', peek buf s set = .ok (b, s') ∧ toks buf s' = rest ∧ s' ≤ buf.length := by
  obtain ⟨s1,peeked,same,inside1⟩ := peek_spec set clean inside only
  exact ⟨s1, by rw [peeked, left, seen], same.trans left, inside1⟩

theorem follow_backs (n : Nat) (follow : Follow .pipe rest) :
    Follow .pipe (List.replicate n .amp ++ rest) := by
  cases n with
  | zero => exact follow
  | succ n =>
    intro t head
    cases head
    decide

theorem line_complete (clean : 0 ∉ buf) {c d : Cmd} (n : Nat)
    (pipe : Gives buf (List.replicate n .amp ++ rest) c (parsepipe buf fuel s))
    (ends : first [38] rest = false)
    (enough : n < fuel)
    (after : ∀ s', toks buf s' = rest → s' ≤ buf.length → Gives buf ts d (do
      let (more, s) ← peek buf s' [59]
      if more then do
        let tok ← gettoken buf s
        let (right, s) ← parseline buf fuel tok.s
        .ok (.list (backs n c) right, s)
      else .ok (backs n c, s))) : Gives buf ts d (parseline buf (fuel + 1) s) := by
  rw [parseline]
  refine gives_bind pipe fun s1 left1 inside1 => ?_
  exact gives_bind (parsebacks_complete clean n ends inside1 left1 enough) fun s2 left2 inside2 =>
    after s2 left2 inside2

theorem parser_complete (clean : 0 ∉ buf) {part : Part} {c : Cmd}
    (derives : Derives part ts c) (follow : Follow part rest) (inside : s ≤ buf.length)
    (left : toks buf s = ts ++ rest) (enough : 4 * ts.length + need part ≤ fuel) :
    Gives buf rest c (partParser buf part fuel s) := by
  induction derives generalizing s fuel rest with
  | last n pipe ih =>
    simp only [need, List.length_append, List.length_replicate] at enough
    obtain ⟨fuel,rfl⟩ : ∃ n, fuel = n + 1 := Nat.exists_eq_add_one_of_ne_zero (by omega)
    have wider : Follow .pipe rest := follow_mono follow (by decide)
    have first_ := ih (follow_backs n wider) inside (by rw [left, List.append_assoc])
      (show 4 * _ + need .pipe ≤ fuel by simp only [need]; omega)
    refine line_complete clean n first_ (follow_first follow (by decide)) (by omega)
      fun s1 left1 inside1 => ?_
    obtain ⟨s2,peeked,left2,inside2⟩ := peek_single [59] clean inside1 (by decide) left1
      (follow_first follow (by decide))
    rw [peeked]
    exact ⟨s2, rfl, left2, inside2⟩
  | @then_ ts us c d n pipe line ihp ihl =>
    simp only [need, List.length_append, List.length_replicate, List.length_cons] at enough
    obtain ⟨fuel,rfl⟩ : ∃ n, fuel = n + 1 := Nat.exists_eq_add_one_of_ne_zero (by omega)
    have semi : Follow .pipe (.semi :: us ++ rest) := by
      intro t head
      cases head
      decide
    have first_ := ihp (follow_backs n semi) inside (by simp [left])
      (show 4 * _ + need .pipe ≤ fuel by simp only [need]; omega)
    refine line_complete clean n first_ rfl (by omega) fun s1 left1 inside1 => ?_
    obtain ⟨s2,peeked,left2,inside2⟩ :=
      peek_single [59] (b := true) clean inside1 (by decide) left1 rfl
    obtain ⟨x,got,took,left3⟩ := gettoken_next clean inside2 left2
    simp only [peeked, ok_bind, if_true, got]
    refine gives_bind (ihl follow took.inside left3 (by simp only [need]; omega))
      fun s3 left4 inside3 => ?_
    exact ⟨s3, rfl, left4, inside3⟩
  | single exec ih =>
    simp only [need] at enough
    obtain ⟨fuel,rfl⟩ : ∃ n, fuel = n + 1 := Nat.exists_eq_add_one_of_ne_zero (by omega)
    rw [partParser, parsepipe]
    refine gives_bind (ih (follow_mono follow (by decide)) inside left (by simp only [need]; omega))
      fun s1 left1 inside1 => ?_
    obtain ⟨s2,peeked,left2,inside2⟩ := peek_single [124] clean inside1 (by decide) left1
      (follow_first follow (by decide))
    simp only [peeked, ok_bind]
    exact ⟨s2, rfl, left2, inside2⟩
  | @bar ts us c d exec pipe ihe ihp =>
    simp only [need, List.length_append, List.length_cons] at enough
    obtain ⟨fuel,rfl⟩ : ∃ n, fuel = n + 1 := Nat.exists_eq_add_one_of_ne_zero (by omega)
    have bar : Follow .exec (.bar :: us ++ rest) := by
      intro t head
      cases head
      decide
    rw [partParser, parsepipe]
    refine gives_bind (ihe bar inside (by simp [left]) (by simp only [need]; omega))
      fun s1 left1 inside1 => ?_
    obtain ⟨s2,peeked,left2,inside2⟩ :=
      peek_single [124] (b := true) clean inside1 (by decide) left1 rfl
    obtain ⟨x,got,took,left3⟩ := gettoken_next clean inside2 left2
    simp only [peeked, ok_bind, if_true, got]
    refine gives_bind (ihp follow took.inside left3 (by simp only [need]; omega))
      fun s3 left4 inside3 => ?_
    exact ⟨s3, rfl, left4, inside3⟩
  | @block ts us c outs line redirs ih =>
    simp only [need, List.length_append, List.length_cons] at enough
    obtain ⟨fuel,rfl⟩ : ∃ n, fuel = n + 2 := ⟨fuel - 2, by omega⟩
    have close : Follow .line (.rpar :: us ++ rest) := by
      intro t head
      cases head
      decide
    have left : toks buf s = .lpar :: (ts ++ (.rpar :: us ++ rest)) := by simp [left]
    obtain ⟨s1,peeked,left1,inside1⟩ :=
      peek_single [40] (b := true) clean inside (by decide) left rfl
    obtain ⟨s2,peeked',left2,inside2⟩ :=
      peek_single [40] (b := true) clean inside1 (by decide) left1 rfl
    obtain ⟨x,got,took,left3⟩ := gettoken_next clean inside2 left2
    simp only [partParser, parseexec, peeked, ok_bind, if_true, parseblock, peeked',
      Bool.true_eq_false, if_false, got]
    refine gives_bind (ih close took.inside left3 (by simp only [need]; omega))
      fun s3 left4 inside3 => ?_
    obtain ⟨s4,peeked'',left5,inside4⟩ :=
      peek_single [41] (b := true) clean inside3 (by decide) left4 rfl
    obtain ⟨y,got',took',left6⟩ := gettoken_next clean inside4 left5
    simp only [peeked'', ok_bind, Bool.true_eq_false, if_false, got']
    refine gives_bind (parseredirs_complete clean redirs
      (follow_first follow (by decide)) took'.inside left6
      (by omega)) fun s5 left7 inside5 => ?_
    exact ⟨s5, rfl, left7, inside5⟩
  | @simple ts us args outs more redirs words few =>
    simp only [need, List.length_append] at enough
    obtain ⟨fuel,rfl⟩ : ∃ n, fuel = n + 1 := Nat.exists_eq_add_one_of_ne_zero (by omega)
    rw [List.append_assoc] at left
    have open_ : first [40] (ts ++ (us ++ rest)) = false :=
      redirs_first redirs (args_first words (follow_first follow (by decide)))
    obtain ⟨s1,peeked,left1,inside1⟩ := peek_single [40] clean inside (by decide) left open_
    simp only [partParser, parseexec, peeked, ok_bind, Bool.false_eq_true, if_false]
    have none : first [60, 62] (us ++ rest) = false :=
      args_first words (follow_first follow (by decide))
    refine gives_bind (parseredirs_complete clean redirs none inside1 left1 (by omega))
      fun s2 left2 inside2 => ?_
    refine gives_bind (parseargs_complete clean words follow inside2 left2 (by omega) (by omega))
      fun s3 left3 inside3 => ?_
    exact ⟨s3, rfl, left3, inside3⟩

theorem length_tokens (p : Nat) (l : List UInt8) : (tokens p l).length ≤ l.length := by
  induction p, l using tokens.induct with
  | case1 => simp [tokens]
  | case2 p c cs blank ih =>
    rw [tokens, if_pos blank, List.length_cons]
    omega
  | case3 p cs head blank ih =>
    rw [tokens, if_neg blank, if_pos rfl, if_pos head, List.length_cons, List.length_cons]
    rw [List.length_tail] at ih
    omega
  | case4 p cs blank head ih =>
    rw [tokens, if_neg blank, if_pos rfl, if_neg head, List.length_cons, List.length_cons]
    omega
  | case5 p c cs blank other t found ih =>
    rw [tokens, if_neg blank, if_neg other, found, List.length_cons, List.length_cons]
    omega
  | case6 p c cs blank other found n ih =>
    rw [tokens, if_neg blank, if_neg other, found]
    change (tokens (p + 1 + n) (cs.dropWhile isWord)).length + 1 ≤ cs.length + 1
    have shorter := List.length_dropWhile_le isWord cs
    omega

theorem leftovers (inside : s ≤ buf.length) :
    ∃ s', peek buf s [] = .ok (false, s') ∧ (s' = buf.length ↔ toks buf s = []) := by
  rcases skip_stops inside with atEnd | ⟨c,cs,here,blank⟩
  · refine ⟨skip buf s, ?_, fun _ => by rw [← toks_skip, atEnd, toks_end], fun _ => atEnd⟩
    rw [peek, fetch_eq (skip_bounds inside).2, ok_bind]
    simp
  · obtain ⟨t,ts,first_,-⟩ :=
      tokens_head blank (skip buf s) cs (show ∀ c ∈ [], c ∈ symbols from fun _ mem => by cases mem)
    refine ⟨skip buf s, ?_, fun atEnd => ?_, fun none => ?_⟩
    · rw [peek, fetch_eq (skip_bounds inside).2, ok_bind]
      simp
    · rw [atEnd, List.drop_length] at here
      cases here
    · rw [← toks_skip, toks, here, first_] at none
      cases none

theorem parsecmd_of_line {fuel : Nat} {c : Cmd} (inside : s ≤ buf.length)
    (result : parseline buf fuel 0 = .ok (c, s)) :
    parsecmd fuel buf = if toks buf s = [] then .ok (c, nulterminate c (buf ++ [0]))
      else .error (.panic "syntax") := by
  obtain ⟨s',peeked,atEnd⟩ := leftovers inside
  rw [parsecmd, result, ok_bind]
  simp only [peeked, ok_bind, ne_eq, atEnd, ite_not]

theorem parsecmd_returns {fuel : Nat} (clean : 0 ∉ buf) (enough : 4 * (buf.length + 1) ≤ fuel) :
    (∃ message, parsecmd fuel buf = .error (.panic message)) ∨
    ∃ c, parsecmd fuel buf = .ok (c, nulterminate c (buf ++ [0])) ∧
      Derives .line (tokens 0 buf) c := by
  have short : (toks buf 0).length ≤ buf.length := length_tokens 0 buf
  have sound := parser_sound clean fuel .line 0 (Nat.zero_le _) (by simp only [need]; omega)
  simp only [partParser] at sound
  cases result : parseline buf fuel 0 with
  | error stop =>
    rw [result] at sound
    cases stop with
    | panic message =>
      refine .inl ⟨message, ?_⟩
      rw [parsecmd, result]
      rfl
    | overrun => exact sound.elim
    | fuel => exact sound.elim
  | ok x =>
    obtain ⟨c,s⟩ := x
    rw [result] at sound
    obtain ⟨inside,ts,left,derives⟩ := sound
    rw [parsecmd_of_line inside result]
    split
    · next none =>
      rw [none, List.append_nil] at left
      refine .inr ⟨c, rfl, ?_⟩
      rw [show tokens 0 buf = ts from left]
      exact derives
    · exact .inl ⟨_, rfl⟩

theorem parsecmd_derives {fuel : Nat} {cmd : Cmd} {mem : List UInt8} (clean : 0 ∉ buf)
    (enough : 4 * (buf.length + 1) ≤ fuel) (parsed : parsecmd fuel buf = .ok (cmd, mem)) :
    Derives .line (tokens 0 buf) cmd ∧ mem = nulterminate cmd (buf ++ [0]) := by
  rcases parsecmd_returns clean enough with ⟨message,failed⟩ | ⟨c,done,derives⟩
  · rw [failed] at parsed
    cases parsed
  · rw [done] at parsed
    cases parsed
    exact ⟨derives, rfl⟩

/-- The shell's parser accepts exactly its grammar. For every input without NUL and enough
    recursion, parsecmd returns the tree `t` iff the tokens of the input derive a line with this
    tree, and then NULs are written after its words. Otherwise it panics: it does not run on and
    reads nothing beyond the terminator. -/
theorem parsecmd_accepts (buf : List UInt8) (clean : 0 ∉ buf) (fuel : Nat)
    (enough : 4 * (buf.length + 1) ≤ fuel) :
    (∀ t mem, parsecmd fuel buf = .ok (t, mem) ↔
      Derives .line (tokens 0 buf) t ∧ mem = nulterminate t (buf ++ [0])) ∧
    ∀ stop, parsecmd fuel buf = .error stop → ∃ message, stop = .panic message := by
  refine ⟨fun t mem => ⟨parsecmd_derives clean enough, fun ⟨derives,written⟩ => ?_⟩,
    fun stop failed => ?_⟩
  · have short : (tokens 0 buf).length ≤ buf.length := length_tokens 0 buf
    obtain ⟨s,result,none,inside⟩ : Gives buf [] t (parseline buf fuel 0) := by
      refine parser_complete clean derives (fun _ head => by cases head) (Nat.zero_le _)
        (List.append_nil _).symm ?_
      simp only [need]
      omega
    rw [parsecmd_of_line inside result, if_pos none, written]
  · rcases parsecmd_returns clean enough with ⟨message,panics⟩ | ⟨c,done,-⟩
    · cases panics.symm.trans failed
      exact ⟨message, rfl⟩
    · cases done.symm.trans failed

theorem parsecmd_accepts_pipe :
    parsecmd 16 [97, 124, 98] = .ok (.pipe (.exec [(0, 1)]) (.exec [(2, 3)]), [97, 0, 98, 0]) := by
  have lexed : tokens 0 [97, 124, 98] = [.word 0 1, .bar, .word 2 3] := by
    simp [tokens, isBlank, whitespace, symbol, isWord, symbols]
  have word : ∀ q eq, Derives .exec [.word q eq] (.exec [(q, eq)]) := fun q eq =>
    .simple .nil (.cons .nil .nil) (show 1 ≤ maxargs - 1 by decide)
  have line : Derives .line [.word 0 1, .bar, .word 2 3]
    (.pipe (.exec [(0, 1)]) (.exec [(2, 3)])) :=
      .last 0 (.bar (word 0 1) (.single (word 2 3)))
  refine ((parsecmd_accepts [97, 124, 98] (by decide) 16 (by decide)).1 _ _).mpr ⟨?_, rfl⟩
  rw [lexed]
  exact line

end ShellParser

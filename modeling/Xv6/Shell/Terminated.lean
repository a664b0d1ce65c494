import Xv6.Shell.Accepts

/- nulterminate. A word ends at a byte that belongs to no word, so that the NUL written there
   does no harm to the others. -/
namespace ShellParser

/-- The words of a tree: argv[i] with eargv[i], and file with efile. -/
def Cmd.words : Cmd → List (Nat × Nat)
  | .exec args => args
  | .redir cmd target => cmd.words ++ [(target.file, target.efile)]
  | .pipe left right => left.words ++ right.words
  | .list left right => left.words ++ right.words
  | .back cmd => cmd.words

def cstring (mem : List UInt8) (q : Nat) : List UInt8 := (mem.drop q).takeWhile (· ≠ 0)

structure Word (buf : List UInt8) (q eq : Nat) : Prop where
  some_ : q < eq
  inside : eq ≤ buf.length
  bytes : ∀ x, q ≤ x → x < eq → ∃ c, buf[x]? = some c ∧ isWord c = true
  ends : ∀ c, buf[eq]? = some c → isWord c = false

section Tokens
variable {buf : List UInt8} {p q eq : Nat} {cs : List UInt8}

theorem word_of_split {w r : List UInt8} (here : buf.drop p = w ++ r) (some_ : w ≠ [])
    (letters : ∀ c ∈ w, isWord c = true)
    (ends : ∀ c, r.head? = some c → isWord c = false) : Word buf p (p + w.length) := by
  have at_ : ∀ x, buf[p + x]? = (w ++ r)[x]? := by
    intro x
    rw [← here, List.getElem?_drop]
  have total : buf.length - p = w.length + r.length := by
    rw [← List.length_drop, here, List.length_append]
  have long := List.length_pos_iff.mpr some_
  refine ⟨by omega, by omega, fun x low high => ?_, fun c last => ?_⟩
  · obtain ⟨y,rfl⟩ := Nat.exists_eq_add_of_le low
    have below : y < w.length := by omega
    refine ⟨w[y], ?_, letters _ (List.getElem_mem below)⟩
    rw [at_, List.getElem?_append_left below, List.getElem?_eq_getElem below]
  · rw [at_, List.getElem?_append_right (Nat.le_refl _), Nat.sub_self,
      ← List.head?_eq_getElem?] at last
    exact ends c last

theorem tokens_word (here : buf.drop p = cs) (mem : Token.word q eq ∈ tokens p cs) :
    Word buf q eq := by
  have next : ∀ {p n : Nat} {ds : List UInt8}, buf.drop p = ds → buf.drop (p + n) = ds.drop n := by
    intro p n ds eq
    rw [← eq, List.drop_drop]
  fun_induction tokens p cs with
  | case1 => cases mem
  | case2 p c cs blank ih => exact ih (next here) mem
  | case3 p cs blank double ih =>
    rcases List.mem_cons.mp mem with same | later
    · cases same
    · refine ih ?_ later
      rw [next here, List.drop_succ_cons, List.drop_one]
  | case4 p cs blank single ih =>
    rcases List.mem_cons.mp mem with same | later
    · cases same
    · exact ih (next here) later
  | case5 p c cs blank other t sym ih =>
    rcases List.mem_cons.mp mem with same | later
    · exact absurd same.symm ((symbol_code sym).2.2 q eq)
    · exact ih (next here) later
  | case6 p c cs blank other none_ n ih =>
    rcases List.mem_cons.mp mem with same | later
    · cases same
      have letter := (symbol_none (Bool.eq_false_iff.mpr blank) other none_).2
      have word := word_of_split (w := c :: cs.takeWhile isWord) (r := cs.dropWhile isWord)
        (by rw [here, List.cons_append, List.takeWhile_append_dropWhile]) (by simp)
        (fun d mem => (List.mem_cons.mp mem).elim (fun eq => eq ▸ letter) List.mem_takeWhile_imp)
        (fun d head => by
          have stops := List.head?_dropWhile_not isWord cs
          rw [head] at stops
          simpa using stops)
      rw [List.length_cons, Nat.add_comm _ 1, ← Nat.add_assoc] at word
      exact word
    · refine ih ?_ later
      have split : (cs.takeWhile isWord ++ cs.dropWhile isWord).drop n = cs.dropWhile isWord :=
        List.drop_left
      rw [List.takeWhile_append_dropWhile] at split
      rw [Nat.add_assoc, next here, Nat.add_comm 1, List.drop_succ_cons, split]

end Tokens

section Trees
variable {ts us : List Token} {c : Cmd} {outs more : List Redirection} {args : List (Nat × Nat)}

theorem words_wrap : (wrap c outs).words = c.words ++ outs.map fun r => (r.file, r.efile) := by
  induction outs generalizing c with
  | nil => simp [wrap]
  | cons r outs ih =>
    rw [wrap, List.foldl_cons]
    change (wrap (.redir c r) outs).words = _
    rw [ih, Cmd.words, List.append_assoc]
    rfl

theorem words_backs (n : Nat) : (backs n c).words = c.words := by
  induction n generalizing c with
  | zero => rfl
  | succ n ih =>
    rw [backs, ih]
    rfl

theorem redirs_words (redirs : Redirs ts outs) : ∀ r ∈ outs, Token.word r.file r.efile ∈ ts := by
  induction redirs with
  | nil => simp
  | cons first rest ih =>
    rename_i op q eq r ts outs
    intro r' mem
    rcases List.mem_cons.mp mem with rfl | later
    · have same : r'.file = q ∧ r'.efile = eq := by
        cases op <;> cases first <;> exact ⟨rfl, rfl⟩
      rw [same.1, same.2]
      simp
    · exact List.mem_cons_of_mem _ (List.mem_cons_of_mem _ (ih r' later))

theorem args_words (words : Args ts args outs) :
    (∀ w ∈ args, Token.word w.1 w.2 ∈ ts) ∧ ∀ r ∈ outs, Token.word r.file r.efile ∈ ts := by
  induction words with
  | nil => simp
  | cons redirs rest ih =>
    refine ⟨fun w mem => ?_, fun r mem => ?_⟩
    · rcases List.mem_cons.mp mem with rfl | later
      · exact List.mem_cons_self ..
      · exact List.mem_cons_of_mem _ (List.mem_append_right _ (ih.1 w later))
    · refine List.mem_cons_of_mem _ ?_
      rcases List.mem_append.mp mem with here | later
      · exact List.mem_append_left _ (redirs_words redirs r here)
      · exact List.mem_append_right _ (ih.2 r later)

theorem derives_words {part : Part} (derives : Derives part ts c) :
    ∀ w ∈ c.words, Token.word w.1 w.2 ∈ ts := by
  induction derives with
  | last n pipe ih =>
    intro w mem
    rw [words_backs] at mem
    exact List.mem_append_left _ (ih w mem)
  | then_ n pipe line ih ih' =>
    intro w mem
    rw [Cmd.words, words_backs] at mem
    rcases List.mem_append.mp mem with left | right
    · exact List.mem_append_left _ (List.mem_append_left _ (ih w left))
    · exact List.mem_append_right _ (List.mem_cons_of_mem _ (ih' w right))
  | single exec ih => exact ih
  | bar exec pipe ih ih' =>
    intro w mem
    rcases List.mem_append.mp mem with left | right
    · exact List.mem_append_left _ (ih w left)
    · exact List.mem_append_right _ (List.mem_cons_of_mem _ (ih' w right))
  | block line redirs ih =>
    intro w mem
    rw [words_wrap] at mem
    rcases List.mem_append.mp mem with inner | outer
    · exact List.mem_append_left _ (List.mem_cons_of_mem _ (ih w inner))
    · obtain ⟨r,given,rfl⟩ := List.mem_map.mp outer
      exact List.mem_append_right _ (List.mem_cons_of_mem _ (redirs_words redirs r given))
  | simple redirs words few =>
    intro w mem
    obtain ⟨given,later⟩ := args_words words
    rw [words_wrap, List.map_append] at mem
    rcases List.mem_append.mp mem with arg | out
    · exact List.mem_append_right _ (given w arg)
    · rcases List.mem_append.mp out with before | between
      · obtain ⟨r,first,rfl⟩ := List.mem_map.mp before
        exact List.mem_append_left _ (redirs_words redirs r first)
      · obtain ⟨r,second,rfl⟩ := List.mem_map.mp between
        exact List.mem_append_right _ (later r second)

theorem nulterminate_eq (mem : List UInt8) :
    nulterminate c mem = c.words.foldl (fun mem w => mem.set w.2 0) mem := by
  induction c generalizing mem with
  | exec args => rfl
  | redir cmd target ih =>
    rw [nulterminate, ih, Cmd.words, List.foldl_append, List.foldl_cons, List.foldl_nil]
  | pipe left right ih ih' => rw [nulterminate, ih, ih', Cmd.words, List.foldl_append]
  | list left right ih ih' => rw [nulterminate, ih, ih', Cmd.words, List.foldl_append]
  | back cmd ih => rw [nulterminate, ih, Cmd.words]

theorem foldl_set_getElem? (ws : List (Nat × Nat)) (mem : List UInt8) (x : Nat) :
    (ws.foldl (fun mem w => mem.set w.2 0) mem)[x]? =
      if x < mem.length ∧ ∃ w ∈ ws, w.2 = x then some 0 else mem[x]? := by
  induction ws generalizing mem with
  | nil => simp
  | cons w ws ih =>
    rw [List.foldl_cons, ih, List.length_set, List.getElem?_set]
    simp only [List.mem_cons, exists_eq_or_imp]
    by_cases inside : x < mem.length
    · by_cases here : w.2 = x
      · simp [inside, here]
      · simp only [inside, here, true_and, false_or, if_false]
    · have outside : mem[x]? = none := List.getElem?_eq_none (Nat.le_of_not_lt inside)
      simp only [inside, false_and, if_false, outside]
      split
      · next eq => rw [if_neg (eq ▸ inside)]
      · rfl

end Trees

/-- Memory after parsecmd: every word of the tree is a token and can be read as a C string, no
    NUL is inside a word, and only the bytes behind the words have changed. -/
structure Terminated (buf : List UInt8) (cmd : Cmd) (mem : List UInt8) : Prop where
  token : ∀ w ∈ cmd.words, Token.word w.1 w.2 ∈ tokens 0 buf
  string : ∀ w ∈ cmd.words, cstring mem w.1 = (buf.drop w.1).take (w.2 - w.1) ∧ mem[w.2]? = some 0
  apart : ∀ w ∈ cmd.words, ∀ v ∈ cmd.words, ¬ (v.1 ≤ w.2 ∧ w.2 < v.2)
  written : ∀ x, mem[x]? = if ∃ w ∈ cmd.words, w.2 = x then some 0 else (buf ++ [0])[x]?

section Memory
variable {buf mem : List UInt8} {cmd : Cmd} {q eq : Nat}

theorem cstring_of_bytes (low : q ≤ eq) (same : ∀ x, q ≤ x → x < eq → mem[x]? = buf[x]?)
    (clean : 0 ∉ buf) (ends : mem[eq]? = some 0) : cstring mem q = (buf.drop q).take (eq - q) := by
  have front : (mem.drop q).take (eq - q) = (buf.drop q).take (eq - q) := by
    apply List.ext_getElem?
    intro x
    rw [List.getElem?_take, List.getElem?_take]
    split
    · rw [List.getElem?_drop, List.getElem?_drop]
      exact same _ (by omega) (by omega)
    · rfl
  have split : mem.drop q = (buf.drop q).take (eq - q) ++ mem.drop eq := by
    rw [← front, show mem.drop eq = (mem.drop q).drop
      (eq - q) by rw [List.drop_drop]; congr 1; omega, List.take_append_drop]
  have head : mem.drop eq = 0 :: mem.drop (eq + 1) := by
    obtain ⟨bound,value⟩ := List.getElem?_eq_some_iff.mp ends
    rw [List.drop_eq_getElem_cons bound, value]
  rw [cstring, split, head, List.takeWhile_append_of_pos]
  · simp
  · intro c mem_
    have old := List.mem_of_mem_drop (List.mem_of_mem_take mem_)
    simpa using fun zero : c = 0 => clean (zero ▸ old)

theorem words_terminated (buf : List UInt8) (clean : 0 ∉ buf) (fuel : Nat)
    (enough : 4 * (buf.length + 1) ≤ fuel) (cmd : Cmd)
    (mem : List UInt8) (parsed : parsecmd fuel buf = .ok (cmd, mem)) : Terminated buf cmd mem := by
  obtain ⟨derives,rfl⟩ := parsecmd_derives clean enough parsed
  have token := derives_words derives
  have word : ∀ w ∈ cmd.words, Word buf w.1 w.2 := fun w mem => tokens_word rfl (token w mem)
  -- a word ends at a byte of no word
  have apart : ∀ w ∈ cmd.words, ∀ v ∈ cmd.words, ¬ (v.1 ≤ w.2 ∧ w.2 < v.2) := by
    rintro w first v second ⟨low,high⟩
    obtain ⟨c,here,letter⟩ := (word v second).bytes w.2 low high
    rw [(word w first).ends c here] at letter
    cases letter
  have written : ∀ x, (nulterminate cmd (buf ++ [0]))[x]? =
      if ∃ w ∈ cmd.words, w.2 = x then some 0 else (buf ++ [0])[x]? := by
    intro x
    rw [nulterminate_eq, foldl_set_getElem?]
    by_cases here : ∃ w ∈ cmd.words, w.2 = x
    · obtain ⟨w,mem,rfl⟩ := here
      have inside := (word w mem).inside
      rw [if_pos ⟨by simp; omega, w, mem, rfl⟩, if_pos ⟨w, mem, rfl⟩]
    · rw [if_neg fun both => here both.2, if_neg here]
  refine ⟨token, fun w mem => ?_, apart, written⟩
  have ends : (nulterminate cmd (buf ++ [0]))[w.2]? = some 0 := by
    rw [written, if_pos ⟨w, mem, rfl⟩]
  refine ⟨cstring_of_bytes (Nat.le_of_lt (word w mem).some_) (fun x low high => ?_) clean ends,
    ends⟩
  rw [written, if_neg, List.getElem?_append_left (Nat.lt_of_lt_of_le high (word w mem).inside)]
  rintro ⟨v,second,rfl⟩
  exact apart v second w mem ⟨low, high⟩

end Memory

def sample : List UInt8 := [99, 97, 116, 60, 102, 62, 103, 124, 119, 99, 38]

theorem words_terminated_sample :
    ∃ cmd mem, parsecmd 48 sample = .ok (cmd, mem) ∧ cmd.words = [(0, 3), (4, 5), (6, 7), (8, 10)] ∧
      Terminated sample cmd mem := by
  have shape : (parsecmd 48 sample).toOption.map (fun x => x.1.words) = some [(0, 3), (4, 5),
      (6, 7), (8, 10)] := by
    decide +kernel
  obtain ⟨⟨cmd,mem⟩,run,eq⟩ := Option.map_eq_some_iff.mp shape
  have parsed : parsecmd 48 sample = .ok (cmd, mem) := by
    cases result : parsecmd 48 sample with
    | error stop =>
      rw [result] at run
      cases run
    | ok x =>
      rw [result] at run
      exact congrArg _ (Option.some.inj run)
  exact ⟨cmd, mem, parsed, eq, words_terminated sample (by decide) 48 (by decide) cmd mem parsed⟩

end ShellParser

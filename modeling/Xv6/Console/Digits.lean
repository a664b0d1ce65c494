import Xv6.Console.Editor

/- ^N. delete_num_of_line takes the edit index back by as many bytes as the cursor is behind column
   2 of its row, and from there to the end of the line it takes out the digits. -/
namespace ConsoleInput
open RingQueue RunLaws

def text (b : Fin inputBuf → UInt8) : Nat → Nat → List UInt8
  | 0, _ => []
  | n + 1, a => b (slot inputBuf a) :: text b n (a + 1)

section Text
variable {b c : Fin inputBuf → UInt8} {a a' n m : Nat}

theorem text_length : (text b n a).length = n := by
  induction n generalizing a with
  | zero => rfl
  | succ n ih => rw [text, List.length_cons, ih]

theorem text_append : text b (n + m) a = text b n a ++ text b m (a + n) := by
  induction n generalizing a with
  | zero => rw [Nat.zero_add, Nat.add_zero, text, List.nil_append]
  | succ n ih =>
    rw [Nat.succ_add, text, ih, text, List.cons_append, Nat.add_right_comm, Nat.add_assoc]

theorem text_congr (same : ∀ y, a ≤ y → y < a + n → c (slot inputBuf y) = b (slot inputBuf y)) :
    text c n a = text b n a := by
  induction n generalizing a with
  | zero => rfl
  | succ n ih =>
    rw [text, text, same a (Nat.le_refl _) (by omega), ih fun y low high =>
      same y (by omega) (by omega)]

theorem text_inj (same : text c n a = text b n a) :
    ∀ y, a ≤ y → y < a + n → c (slot inputBuf y) = b (slot inputBuf y) := by
  induction n generalizing a with
  | zero =>
    intro y low high
    omega
  | succ n ih =>
    rw [text, text, List.cons.injEq] at same
    intro y low high
    rcases Nat.eq_or_lt_of_le low with rfl | above
    · exact same.1
    · exact ih same.2 y above (by omega)

theorem text_index (same : slot inputBuf a = slot inputBuf a') : text b n a = text b n a' := by
  induction n generalizing a a' with
  | zero => rfl
  | succ n ih =>
    have next : slot inputBuf (a + 1) = slot inputBuf (a' + 1) := by
      have mods : a % inputBuf = a' % inputBuf := congrArg Fin.val same
      apply Fin.ext
      simp only [slot, inputBuf] at mods ⊢
      omega
    rw [text, text, same, ih next]

theorem text_map : text b n a = (List.range n).map fun x => b (slot inputBuf (a + x)) := by
  induction n generalizing a with
  | zero => rfl
  | succ n ih =>
    rw [text, ih, List.range_succ_eq_map, List.map_cons, List.map_map]
    congr 1
    exact List.map_congr_left fun x _ => by
      simp only [Function.comp, Nat.succ_eq_add_one]
      congr 2
      omega

theorem pending_text (i : Input) : i.pending = text i.buf (dist i.w i.e) i.w.toNat := by
  rw [text_map, Input.pending]
  exact List.map_congr_left fun x _ => by rw [Input.cell, slot_dist i.r i.w]

theorem slot_ne {y z : Nat} (low : y < z) (high : z < y + inputBuf) :
    slot inputBuf y ≠ slot inputBuf z := by
  intro same
  have mods : y % inputBuf = z % inputBuf := congrArg Fin.val same
  simp only [inputBuf] at mods high
  omega

end Text

structure Moved (a n : Nat) (b c : Fin inputBuf → UInt8) : Prop where
  moved : ∀ y, a ≤ y → y < a + n → c (slot inputBuf y) = b (slot inputBuf (y + 1))
  rest : ∀ k, (∀ y, a ≤ y → y < a + n → k ≠ slot inputBuf y) → c k = b k

section Shifting
variable (env : Env) {s t : Console} {a n : Nat} {x : UInt32}

theorem element_low (low : x.toNat < 2147483648) : element x = some (slot inputBuf x.toNat) :=
  if_pos (.inl low)

theorem succ_low (low : x.toNat < 2147483647) :
    succ x = .ok (x + 1) ∧ (x + 1).toNat = x.toNat + 1 := by
  refine ⟨if_neg ?_, ?_⟩
  · rintro rfl
    exact absurd low (by decide)
  · simp only [UInt32.toNat_add, UInt32.reduceToNat]
    omega

theorem shiftLeft_round (screen : s.pos < 2000) (low : x.toNat < 2147483647) :
    ∃ p, p < 2000 ∧ shiftLeft env (n + 1) x s =
      shiftLeft env n (x + 1) { s with input := s.input.put x (s.input.buf
        (slot inputBuf (x.toNat + 1))), pos := p } := by
  obtain ⟨step,value⟩ := succ_low low
  have here := element_low (x := x) (by omega)
  have there : element (x + 1) = some (slot inputBuf (x.toNat + 1)) := by
    rw [← value]
    exact element_low (by omega)
  obtain ⟨p,bound,echo⟩ := consputc_total
    (s := { s with input := s.input.put x (s.input.buf (slot inputBuf (x.toNat + 1))) })
    (some ((s.input.put x (s.input.buf (slot inputBuf (x.toNat + 1)))).load env x)) screen
  refine ⟨p, bound, ?_⟩
  have stored : s.input.store x (s.input.load env (x + 1)) =
      .ok (s.input.put x (s.input.buf (slot inputBuf (x.toNat + 1)))) := by
    simp only [Input.store, Input.load, here, there]
    rfl
  rw [shiftLeft, step]
  simp only [Except.bind, stored, echo]

theorem shiftLeft_moves (screen : s.pos < 2000) (index : x.toNat = a) (low : a + n < 2147483648)
    (short : n < inputBuf) :
    ∃ b p, p < 2000 ∧ shiftLeft env n x s = .ok
      { s with input := { s.input with buf := b }, pos := p } ∧
      Moved a n s.input.buf b := by
  induction n generalizing a x s with
  | zero =>
    refine ⟨s.input.buf, s.pos, screen, rfl, ?_, fun _ _ => rfl⟩
    intro y low high
    omega
  | succ n ih =>
    obtain ⟨p,bound,round⟩ := shiftLeft_round env (n := n) (x := x) screen (by omega)
    have value := (succ_low (x := x) (by omega)).2
    obtain ⟨b,q,high,looped,moved,rest⟩ :=
      ih
        (s :=
          { s with input := s.input.put x (s.input.buf (slot inputBuf (x.toNat + 1))), pos := p })
            (a := a + 1)
        (x := x + 1) bound (by omega) (by omega) (by omega)
    refine ⟨b, q, high, round.trans looped, ?_, ?_⟩
    · intro y above below
      rcases Nat.eq_or_lt_of_le above with rfl | later
      · rw [rest _ fun z low' high' => slot_ne (by omega) (by simp only [inputBuf] at *; omega)]
        simp only [Input.put, index, Function.update_self]
      · rw [moved y later (by omega)]
        simp only [Input.put, index]
        exact Function.update_of_ne (slot_ne (by omega)
          (by simp only [inputBuf] at *; omega)).symm ..
    · intro k outside
      rw [rest k fun y low' high' => outside y (by omega) (by omega)]
      simp only [Input.put, index]
      exact Function.update_of_ne (outside a (Nat.le_refl _) (by omega)) ..

theorem shiftLeft_over (screen : s.pos < 2000) (low : x.toNat < 2147483648)
    (over_ : 2147483648 ≤ x.toNat + n) :
    ∃ stop, shiftLeft env n x s = .error stop := by
  induction n generalizing x s with
  | zero => omega
  | succ n ih =>
    by_cases last : x.toNat = 2147483647
    · have limit : x = 2147483647 := UInt32.toNat_inj.mp last
      refine ⟨.undefined, ?_⟩
      rw [shiftLeft, succ, if_pos limit]
      rfl
    · obtain ⟨p,bound,round⟩ := shiftLeft_round env (n := n) (x := x) screen (by omega)
      have value := (succ_low (x := x) (by omega)).2
      rw [round]
      exact ih (x := x + 1) bound (by omega) (by omega)

theorem shiftLeft_high (screen : s.pos < 2000) (high : 2147483648 ≤ x.toNat)
    (bound : x.toNat < 4294967295)
    (outside : x.toNat % inputBuf ≠ 0 ∨ 0 < n) :
    ∃ stop, shiftLeft env (n + 1) x s = .error stop := by
  have first : ∀ {n : Nat} {y : UInt32} {u : Console}, 2147483648 ≤ y.toNat →
    y.toNat % inputBuf ≠ 0 →
      ∃ stop, shiftLeft env (n + 1) y u = .error stop := by
    intro n y u high off
    have limit : y ≠ 2147483647 := by
      rintro rfl
      exact absurd high (by decide)
    have none_ : element y = none := if_neg (by omega)
    refine ⟨.undefined, ?_⟩
    rw [shiftLeft, succ, if_neg limit]
    simp only [Except.bind, Input.store, none_]
  by_cases off : x.toNat % inputBuf = 0
  · obtain ⟨m,rfl⟩ : ∃ m, n = m + 1 :=
      ⟨n - 1, by have := outside.resolve_left (not_not.mpr off); omega⟩
    have limit : x ≠ 2147483647 := by
      rintro rfl
      exact absurd high (by decide)
    have here : element x = some (slot inputBuf x.toNat) := if_pos (.inr off)
    have value : (x + 1).toNat = x.toNat + 1 := by
      simp only [UInt32.toNat_add, UInt32.reduceToNat]
      omega
    obtain ⟨p,low,echo⟩ := consputc_total
      (s := { s with input := s.input.put x (s.input.load env (x + 1)) })
      (some ((s.input.put x (s.input.load env (x + 1))).load env x)) screen
    obtain ⟨stop,failed⟩ := first (n := m) (y := x + 1)
      (u := { s with input := s.input.put x (s.input.load env (x + 1)), pos := p }) (by omega)
      (by rw [value]; simp only [inputBuf] at off ⊢; omega)
    have stored : s.input.store x (s.input.load env (x + 1)) = .ok
        (s.input.put x (s.input.load env (x + 1))) := by
      simp only [Input.store, here]
      rfl
    refine ⟨stop, ?_⟩
    rw [shiftLeft, succ, if_neg limit]
    simp only [Except.bind, stored, echo, failed]
  · exact first high off

structure Shifted (a m : Nat) (b c : Fin inputBuf → UInt8) : Prop where
  text : text c m a = text b m (a + 1)
  rest : ∀ k, (∀ y, a ≤ y → y < a + (m + 1) → k ≠ slot inputBuf y) → c k = b k

/-- shift_input_left stays inside the array and the int does not overflow. At a negative index
    this is so only for the last byte and in the first cell. -/
def Closes (a m : Nat) : Prop :=
  a + (m + 1) < 2147483648 ∨ (m = 0 ∧ 2147483648 ≤ a ∧ a % inputBuf = 0)

theorem text_moved {m : Nat} {b c : Fin inputBuf → UInt8} (moved : Moved a (m + 1) b c) :
    Shifted a m b c := by
  refine ⟨?_, moved.rest⟩
  rw [text_map, text_map]
  refine List.map_congr_left fun y mem => ?_
  rw [moved.moved (a + y) (by omega) (by have := List.mem_range.mp mem; omega)]
  congr 2
  omega

theorem shiftLeft_closes {m : Nat} (screen : s.pos < 2000) (index : x.toNat = a)
    (bound : a + (m + 1) < 4294967296)
    (short : m + 1 < inputBuf) :
    (Closes a m → ∃ b p, p < 2000 ∧
      shiftLeft env (m + 1) x s = .ok { s with input := { s.input with buf := b }, pos := p } ∧
        Shifted a m s.input.buf b) ∧
    (¬ Closes a m → ∃ stop, shiftLeft env (m + 1) x s = .error stop) := by
  refine ⟨?_, fun open_ => ?_⟩
  · rintro (low | ⟨rfl,high,whole⟩)
    · obtain ⟨b,p,bound',looped,moved⟩ := shiftLeft_moves env screen index low short
      exact ⟨b, p, bound', looped, text_moved moved⟩
    · have limit : x ≠ 2147483647 := by
        rintro rfl
        exact absurd (index ▸ high) (by decide)
      have here : element x = some (slot inputBuf x.toNat) := if_pos (.inr (index ▸ whole))
      have stored : s.input.store x (s.input.load env (x + 1)) = .ok
          (s.input.put x (s.input.load env (x + 1))) := by
        simp only [Input.store, here]
        rfl
      obtain ⟨p,low,echo⟩ := consputc_total
        (s := { s with input := s.input.put x (s.input.load env (x + 1)) })
        (some ((s.input.put x (s.input.load env (x + 1))).load env x)) screen
      refine ⟨(s.input.put x (s.input.load env (x + 1))).buf, p, low, ?_, rfl, fun k outside => ?_⟩
      · rw [shiftLeft, succ, if_neg limit]
        simp only [Except.bind, stored, echo, shiftLeft]
        rfl
      · simp only [Input.put, index]
        exact Function.update_of_ne (outside a (Nat.le_refl _) (by omega)) ..
  · simp only [Closes, not_or, not_and] at open_
    by_cases low : a < 2147483648
    · exact shiftLeft_over env screen (by omega) (by omega)
    · refine shiftLeft_high env screen (by omega) (by omega) ?_
      rw [index]
      by_cases single : m = 0
      · exact .inl (open_.2 single (by omega))
      · exact .inr (Nat.pos_of_ne_zero single)

theorem consputc_back (screen : s.pos ≤ 2001) :
    ∃ p, p ≤ s.pos - 1 ∧ p < 2000 ∧ consputc none s = .ok { s with pos := p } := by
  have moved : ∃ p, p ≤ s.pos - 1 ∧ p < 2000 ∧ cgaputc none s.pos = .ok p := by
    have before : advance none s.pos = s.pos - 1 := rfl
    simp only [cgaputc]
    rw [before, if_neg (by omega)]
    split
    · exact ⟨_, by omega, by omega, rfl⟩
    · exact ⟨_, by omega, by omega, rfl⟩
  obtain ⟨p,bound,low,moved⟩ := moved
  exact ⟨p, bound, low, by rw [consputc, moved]; rfl⟩

theorem erase_closes {m : Nat} (screen : s.pos < 2000) (index : s.input.e.toNat = a)
    (ends : s.input.end_.toNat = a + (m + 1))
    (short : m + 1 < inputBuf) :
    (Closes a m → ∃ b p, p ≤ s.pos ∧ Shifted a m s.input.buf b ∧
      erase env (changePos (s.pos + 1) { s with input := { s.input with e := s.input.e + 1 } }) =
        .ok { s with input := { s.input with buf := b, end_ := s.input.end_ - 1 }, pos := p }) ∧
    (¬ Closes a m → ∃ stop,
      erase env (changePos (s.pos + 1) { s with input := { s.input with e := s.input.e + 1 } }) =
        .error stop) := by
  have bound := s.input.end_.toNat_lt
  have back : s.input.e + 1 - 1 = s.input.e := UInt32.add_sub_cancel ..
  have rounds : s.input.end_.toNat - s.input.e.toNat = m + 1 := by omega
  obtain ⟨p,low,-,echo⟩ := consputc_back
    (s := changePos (s.pos + 1) { s with input := { s.input with e := s.input.e + 1 } })
    (by simp only [changePos]; omega)
  have low : p ≤ s.pos := by
    simp only [changePos] at low
    omega
  obtain ⟨good,bad⟩ := shiftLeft_closes env (a := a) (m := m) (x := s.input.e)
    (s := { s with input := { s.input with e := s.input.e + 1 }, pos := p })
      (by simp only; omega) index (by omega) short
  simp only [erase, echo, Except.bind]
  simp only [shiftInputLeft, changePos, back, rounds]
  refine ⟨fun closes => ?_, fun open_ => ?_⟩
  · obtain ⟨b,q,high,looped,shifted⟩ := good closes
    obtain ⟨q',-,blank⟩ := consputc_total
      (s := { s with input := { s.input with buf := b, e := s.input.e + 1 }, pos := q })
        (some 32) high
    simp only [looped, Except.bind, blank, Except.map, back]
    exact ⟨b, p % 65536, by omega, shifted, rfl⟩
  · obtain ⟨stop,looped⟩ := bad open_
    simp only [looped]
    exact ⟨stop, rfl⟩

end Shifting

def letters (l : List UInt8) : List UInt8 := l.filter fun c => !isNum c

/-- All digits can be taken out of a text that ends before index `e`. -/
def Removable (e : Nat) (l : List UInt8) : Prop :=
  (∀ c ∈ l, ¬ isNum c) ∨ e < 2147483648 ∨
    (2147483648 < e ∧ (e - 1) % inputBuf = 0 ∧ ∀ c ∈ l.dropLast, ¬ isNum c)

instance (e : Nat) (l : List UInt8) : Decidable (Removable e l) :=
  inferInstanceAs (Decidable (_ ∨ _ ∨ _))

section Removing
variable {e : Nat} {c : UInt8} {l front : List UInt8}

theorem removable_letter (letter : ¬ isNum c) : Removable e (c :: l) ↔ Removable e l := by
  cases l with
  | nil => simp [Removable, letter]
  | cons d l => simp [Removable, letter]

theorem removable_append (plain : ∀ c ∈ front, ¬ isNum c) :
    Removable e (front ++ l) ↔ Removable e l := by
  induction front with
  | nil => rfl
  | cons c front ih =>
    rw [List.cons_append, removable_letter (plain c (List.mem_cons_self ..)), ih fun d mem =>
      plain d (List.mem_cons_of_mem _ mem)]

theorem removable_digit {a : Nat} (digit : isNum c) (long : e = a + (l.length + 1)) :
    Removable e (c :: l) ↔ Closes a l.length := by
  cases l with
  | nil =>
    simp only [List.length_nil] at long
    simp only [Removable, Closes, List.mem_singleton, forall_eq, digit, List.length_nil,
      List.dropLast_singleton,
      List.not_mem_nil, false_implies, implies_true, and_true, not_true_eq_false, false_or,
        true_and, long, inputBuf]
    omega
  | cons d l => simp [Removable, Closes, digit, long]

theorem letters_length_le : (letters l).length ≤ l.length := List.length_filter_le ..

theorem letters_length_eq : (letters l).length = l.length ↔ ∀ c ∈ l, ¬ isNum c := by
  simp [letters, List.length_filter_eq_length_iff]

theorem letters_append : letters (front ++ l) = letters front ++ letters l := List.filter_append ..

end Removing

structure Sieved (a m : Nat) (i j : Input) : Prop where
  r : j.r = i.r
  w : j.w = i.w
  e : j.e.toNat = a + (letters (text i.buf m a)).length
  ends : j.end_ = j.e
  text : text j.buf (letters (text i.buf m a)).length a = letters (text i.buf m a)
  rest : ∀ k, (∀ y, a ≤ y → y < a + m → k ≠ slot inputBuf y) → j.buf k = i.buf k

section Loop
variable (env : Env) {s : Console} {a m : Nat}

theorem sieved_letter {i j : Input} (short : m + 1 < inputBuf)
    (letter : ¬ isNum (i.buf (slot inputBuf a)))
    (sieved : Sieved (a + 1) m { i with e := i.e + 1 } j) : Sieved a (m + 1) i j := by
  obtain ⟨r,w,e,ends,text_,rest⟩ := sieved
  simp only at e
  have front : letters (text i.buf (m + 1) a) = i.buf (slot inputBuf a) :: letters
      (text i.buf m (a + 1)) := by
    simp [text, letters, letter]
  refine ⟨r, w, ?_, ends, ?_, fun k outside => rest k fun y low high =>
    outside y (by omega) (by omega)⟩
  · rw [e, front, List.length_cons]
    omega
  · rw [front, List.length_cons, text, text_]
    congr 1
    exact rest _ fun y low high => slot_ne (by omega) (by omega)

theorem sieved_digit {i j : Input} {b : Fin inputBuf → UInt8}
    (digit : isNum (i.buf (slot inputBuf a)))
    (shifted : Shifted a m i.buf b)
    (sieved : Sieved a m { i with buf := b, end_ := i.end_ - 1 } j) :
    Sieved a (m + 1) i j := by
  obtain ⟨r,w,e,ends,text_,rest⟩ := sieved
  have front : letters (text i.buf (m + 1) a) = letters (text b m a) := by
    rw [shifted.text]
    simp [text, letters, digit]
  refine ⟨r, w, ?_, ends, ?_, fun k outside => ?_⟩
  · rw [front]
    exact e
  · rw [front]
    exact text_
  · rw [rest k fun y low high => outside y low (by omega)]
    exact shifted.rest k outside

theorem deleteLoop_sieves (screen : s.pos + m < 2000) (index : s.input.e.toNat = a)
    (ends : s.input.end_.toNat = a + m)
    (short : m < inputBuf) :
    (Removable (a + m) (text s.input.buf m a) → ∃ j p, p < 2000 ∧
      deleteLoop env m s = .ok { s with input := j, pos := p } ∧ Sieved a m s.input j) ∧
    (¬ Removable (a + m) (text s.input.buf m a) → ∃ stop, deleteLoop env m s = .error stop) := by
  induction m generalizing a s with
  | zero =>
    refine ⟨fun _ => ⟨s.input, s.pos, screen, rfl, rfl, rfl, index, ?_, rfl, fun _ _ => rfl⟩,
      fun not => ?_⟩
    · exact UInt32.toNat_inj.mp (ends.trans index.symm)
    · exact absurd (.inl fun c mem => absurd mem List.not_mem_nil) not
  | succ m ih =>
    have bound := s.input.end_.toNat_lt
    have more : s.input.e < s.input.end_ := UInt32.lt_iff_toNat_lt.mpr (by omega)
    have here : s.input.get s.input.e = s.input.buf (slot inputBuf a) := by rw [Input.get, index]
    rw [deleteLoop, if_pos more, here, text]
    by_cases digit : isNum (s.input.buf (slot inputBuf a))
    · rw [if_pos digit, removable_digit digit (by rw [text_length]), text_length]
      obtain ⟨good,bad⟩ := erase_closes env (s := s) (by omega) index ends short
      refine ⟨fun closes => ?_, fun open_ => ?_⟩
      · obtain ⟨b,p,low,shifted,erased⟩ := good closes
        have last : (s.input.end_ - 1).toNat = a + m := by
          simp only [UInt32.toNat_sub, UInt32.reduceToNat]
          omega
        obtain ⟨next,-⟩ :=
          ih
            (s := { s with input := { s.input with buf := b, end_ := s.input.end_ - 1 }, pos := p })
          (by simp only; omega) index last (by omega)
        have removable : Removable (a + m) (text b m a) := by
          rcases closes with small | ⟨rfl,-⟩
          · exact .inr (.inl (by omega))
          · exact .inl fun c mem => absurd mem List.not_mem_nil
        obtain ⟨j,q,high,looped,sieved⟩ := next removable
        exact ⟨j, q, high, by rw [erased]; exact looped, sieved_digit digit shifted sieved⟩
      · obtain ⟨stop,erased⟩ := bad open_
        exact ⟨stop, by rw [erased]; rfl⟩
    · rw [if_neg digit, removable_letter digit]
      obtain ⟨p,low,echo⟩ :=
        consputc_total (s := s) (some (s.input.buf (slot inputBuf a))) (by omega)
      have value : (s.input.e + 1).toNat = a + 1 := by
        simp only [UInt32.toNat_add, UInt32.reduceToNat]
        omega
      have column : (s.pos + 1) % 65536 = s.pos + 1 := Nat.mod_eq_of_lt (by omega)
      obtain ⟨good,bad⟩ :=
        ih (s := { s with input := { s.input with e := s.input.e + 1 }, pos := s.pos + 1 })
          (a := a + 1)
        (by simp only; omega) value (by simp only; omega) (by omega)
      have sum : a + 1 + m = a + (m + 1) := by omega
      rw [sum] at good bad
      simp only [echo, Except.bind, changePos, column]
      refine ⟨fun removable => ?_, bad⟩
      obtain ⟨j,q,high,looped,sieved⟩ := good removable
      exact ⟨j, q, high, looped, sieved_letter short digit sieved⟩

theorem erase_over (screen : s.pos ≤ 2000) (low : s.input.e.toNat < 2147483648)
    (far : 2147483648 ≤ s.input.end_.toNat) :
    ∃ stop, erase env (changePos (s.pos + 1)
      { s with input := { s.input with e := s.input.e + 1 } }) = .error stop := by
  have back : s.input.e + 1 - 1 = s.input.e := UInt32.add_sub_cancel ..
  obtain ⟨p,-,top,echo⟩ := consputc_back
    (s := changePos (s.pos + 1) { s with input := { s.input with e := s.input.e + 1 } })
    (by simp only [changePos]; omega)
  obtain ⟨stop,looped⟩ :=
    shiftLeft_over env (n := s.input.end_.toNat - s.input.e.toNat) (x := s.input.e)
    (s := { s with input := { s.input with e := s.input.e + 1 }, pos := p })
      (by simp only; omega) low (by omega)
  simp only [erase, echo, Except.bind]
  simp only [shiftInputLeft, changePos, back, looped]
  exact ⟨stop, rfl⟩

/-- Behind 2^32 the edit index starts again at 0, and the loop ends at the bottom of the screen
    if not before. -/
theorem deleteLoop_far {n q : Nat} (screen : s.pos + q = 2000)
    (low : s.input.e.toNat + q < 2147483648)
    (far : 2147483648 ≤ s.input.end_.toNat) (rounds : q < n) :
    ∃ stop, deleteLoop env n s = .error stop := by
  induction q generalizing n s with
  | zero =>
    obtain ⟨k,rfl⟩ : ∃ k, n = k + 1 := ⟨n - 1, by omega⟩
    have more : s.input.e < s.input.end_ := UInt32.lt_iff_toNat_lt.mpr (by omega)
    rw [deleteLoop, if_pos more]
    split
    · obtain ⟨stop,erased⟩ := erase_over env (s := s) (by omega) (by omega) far
      exact ⟨stop, by rw [erased]; rfl⟩
    · refine ⟨.panic, ?_⟩
      have bottom : consputc (some (s.input.get s.input.e)) s = .error .panic := by
        have below : advance (some (s.input.get s.input.e)) s.pos > 25 * 80 := by
          simp only [advance]
          split <;> omega
        rw [consputc, cgaputc]
        simp only [if_pos below]
        rfl
      rw [bottom]
      rfl
  | succ q ih =>
    obtain ⟨k,rfl⟩ : ∃ k, n = k + 1 := ⟨n - 1, by omega⟩
    have more : s.input.e < s.input.end_ := UInt32.lt_iff_toNat_lt.mpr (by omega)
    rw [deleteLoop, if_pos more]
    split
    · obtain ⟨stop,erased⟩ := erase_over env (s := s) (by omega) (by omega) far
      exact ⟨stop, by rw [erased]; rfl⟩
    · obtain ⟨p,-,echo⟩ := consputc_total (s := s) (some (s.input.get s.input.e)) (by omega)
      have value : (s.input.e + 1).toNat = s.input.e.toNat + 1 := by
        simp only [UInt32.toNat_add, UInt32.reduceToNat]
        omega
      have column : (s.pos + 1) % 65536 = s.pos + 1 := Nat.mod_eq_of_lt (by omega)
      simp only [echo, Except.bind, changePos, column]
      exact ih (by simp only; omega) (by simp only [value]; omega) far (by omega)

end Loop

def back (s : Console) : Nat := s.pos % 80 - 2

structure Cleared (s t : Console) : Prop where
  line : t.input.pending = letters s.input.pending
  r : t.input.r = s.input.r
  w : t.input.w = s.input.w
  committed : t.input.unread = s.input.unread
  ends : t.input.end_ = t.input.e

/-- What ^N skips of the line, or takes in before it, has no digits, and the digits of the line
    are at indices where they can be taken out. -/
def Clearable (s : Console) : Prop :=
  (2 ≤ s.pos % 80 ∧ back s ≤ s.input.e.toNat) ∧
  (∀ c ∈ s.input.pending.take (s.input.pending.length - back s), ¬ isNum c) ∧
  (∀ c ∈ text s.input.buf (back s - s.input.pending.length) (s.input.e.toNat - back s), ¬ isNum c) ∧
  Removable s.input.e.toNat s.input.pending

instance (s : Console) : Decidable (Clearable s) := inferInstanceAs (Decidable (_ ∧ _ ∧ _ ∧ _))

section Clearing
variable (env : Env) {s t : Console}

theorem goes_back (near : 2 ≤ s.pos % 80 ∧ back s ≤ s.input.e.toNat) :
    (goToFirstOfLine s).input.e.toNat = s.input.e.toNat - back s := by
  have bound := s.input.e.toNat_lt
  have edge : s.pos % 80 < 80 := Nat.mod_lt _ (by decide)
  simp only [back] at near
  simp only [goToFirstOfLine, changePos, back, UInt32.toNat_sub, UInt32.toNat_add,
    UInt32.reduceToNat, UInt32.toNat_ofNat']
  omega

theorem goes_wrong (steady : Steady s.input) (screen : s.pos < 2000)
    (wrong : ¬ (2 ≤ s.pos % 80 ∧ back s ≤ s.input.e.toNat))
    (done : deleteNumOfLine env s = .ok t) : t.input.end_ ≠ t.input.e := by
  have bound := s.input.e.toNat_lt
  have edge : s.pos % 80 < 80 := Nat.mod_lt _ (by decide)
  have value : (goToFirstOfLine s).input.e.toNat =
      (s.input.e.toNat + 2 + (4294967296 - s.pos % 80)) % 4294967296 := by
    simp only [goToFirstOfLine, changePos, UInt32.toNat_sub, UInt32.toNat_add,
      UInt32.reduceToNat, UInt32.toNat_ofNat']
    omega
  have ends : (goToFirstOfLine s).input.end_ = s.input.e := steady.ends
  simp only [back] at wrong
  by_cases past : s.input.e.toNat < (goToFirstOfLine s).input.e.toNat
  · have rounds : (goToFirstOfLine s).input.end_.toNat - (goToFirstOfLine s).input.e.toNat = 0 := by
      rw [ends]
      omega
    rw [deleteNumOfLine, rounds] at done
    cases done
    intro same
    rw [ends] at same
    rw [same] at past
    omega
  · have row : s.pos - s.pos % 80 + 2 ≤ 1922 := by omega
    have column : (goToFirstOfLine s).pos + (2000 - (goToFirstOfLine s).pos) = 2000 := by
      simp only [goToFirstOfLine, changePos]
      exact Nat.add_sub_cancel' (Nat.le_trans (Nat.mod_le ..) (by omega))
    obtain ⟨stop,failed⟩ := deleteLoop_far env (s := goToFirstOfLine s)
      (n := (goToFirstOfLine s).input.end_.toNat - (goToFirstOfLine s).input.e.toNat) column
      (by omega) (by rw [ends]; omega) (by rw [ends]; omega)
    rw [deleteNumOfLine, failed] at done
    cases done

theorem line_start (i : Input) :
    i.w.toNat + dist i.w i.e = i.e.toNat ∨ i.w.toNat + dist i.w i.e = i.e.toNat + 4294967296 := by
  have hw := i.w.toNat_lt
  have he := i.e.toNat_lt
  simp only [dist, UInt32.toNat_sub]
  omega

theorem line_length (i : Input) : i.pending.length = dist i.w i.e := by
  simp [Input.pending]

section Line
variable {i j : Input} {a m : Nat}

theorem skipped_start (inside : m ≤ i.pending.length) (start : a + m = i.e.toNat) :
    slot inputBuf (i.w.toNat + (i.pending.length - m)) = slot inputBuf a := by
  have base := line_start i
  rw [line_length] at *
  apply Fin.ext
  simp only [slot, inputBuf]
  omega

theorem entered_start (outside : i.pending.length ≤ m) (start : a + m = i.e.toNat) :
    slot inputBuf (a + (m - i.pending.length)) = slot inputBuf i.w.toNat := by
  have base := line_start i
  rw [line_length] at *
  apply Fin.ext
  simp only [slot, inputBuf]
  omega

theorem skipped_parts (inside : m ≤ i.pending.length) (start : a + m = i.e.toNat) :
    i.pending.take (i.pending.length - m) = text i.buf (i.pending.length - m) i.w.toNat ∧
    i.pending = i.pending.take (i.pending.length - m) ++ text i.buf m a := by
  have parts : i.pending = text i.buf (i.pending.length - m) i.w.toNat ++ text i.buf m a := by
    rw [← text_index (skipped_start inside start), ← text_append, Nat.sub_add_cancel inside,
      line_length]
    exact pending_text i
  have first : i.pending.take (i.pending.length - m) = text i.buf
      (i.pending.length - m) i.w.toNat := by
    have cut := congrArg (List.take (i.pending.length - m)) parts
    rwa [List.take_left' text_length] at cut
  exact ⟨first, first ▸ parts⟩

theorem entered_parts (outside : i.pending.length ≤ m) (start : a + m = i.e.toNat) :
    text i.buf m a = text i.buf (m - i.pending.length) a ++ i.pending := by
  have line : text i.buf i.pending.length i.w.toNat = i.pending := by
    rw [line_length]
    exact (pending_text i).symm
  have sum := text_append (b := i.buf) (n := m - i.pending.length) (m := i.pending.length) (a := a)
  rwa [Nat.sub_add_cancel outside, text_index (entered_start outside start), line] at sum

theorem removable_line {e : Nat} (start : a + m = i.e.toNat)
    (skipped : ∀ c ∈ i.pending.take (i.pending.length - m), ¬ isNum c)
    (entered : ∀ c ∈ text i.buf (m - i.pending.length) a, ¬ isNum c) :
    Removable e (text i.buf m a) ↔ Removable e i.pending := by
  rcases Nat.le_total m i.pending.length with inside | outside
  · rw [(skipped_parts inside start).2, removable_append skipped]
  · rw [entered_parts outside start, removable_append entered]

theorem line_skipped (steady : Steady i) (inside : m ≤ i.pending.length) (start : a + m = i.e.toNat)
    (sieved : Sieved a m i j) :
    j.pending = i.pending.take (i.pending.length - m) ++ letters (text i.buf m a) ∧
      j.unread = i.unread := by
  have length := line_length i
  have order := steady.order
  have room := steady.room
  have gap := dist_between order
  have base := line_start i
  have same := skipped_start inside start
  have first := (skipped_parts inside start).1
  rw [length] at inside same first ⊢
  -- the cells before index `a` up to the read index are not among those of the loop
  have before : ∀ x < dist i.r i.w + (dist i.w i.e - m), ∀ y, a ≤ y → y < a + m →
      slot inputBuf (i.r.toNat + x) ≠ slot inputBuf y := by
    intro x below y low high same'
    have mods : (i.r.toNat + x) % inputBuf = y % inputBuf := congrArg Fin.val same'
    have mods' : (i.w.toNat + (dist i.w i.e - m)) % inputBuf = a % inputBuf := congrArg Fin.val same
    have mods'' : i.w.toNat % inputBuf = (i.r.toNat + dist i.r i.w) % inputBuf :=
      congrArg Fin.val (slot_index i.r i.w)
    simp only [inputBuf] at *
    omega
  have shorter : dist j.w j.e = dist i.w i.e - m + (letters (text i.buf m a)).length := by
    have less : (letters (text i.buf m a)).length ≤ m :=
      Nat.le_trans letters_length_le (Nat.le_of_eq text_length)
    have he := i.e.toNat_lt
    have hw := i.w.toNat_lt
    rw [sieved.w]
    simp only [dist, UInt32.toNat_sub, sieved.e] at *
    omega
  rw [first]
  refine ⟨?_, ?_⟩
  · rw [pending_text, shorter, sieved.w, text_append, text_index same, sieved.text]
    congr 1
    refine text_congr fun y low high => ?_
    have place : slot inputBuf y =
        slot inputBuf (i.r.toNat + (dist i.r i.w + (y - i.w.toNat))) := by
      rw [← slot_dist]
      congr 1
      omega
    rw [place]
    exact sieved.rest _ (before _ (by omega))
  · rw [Input.unread, Input.unread, sieved.r, sieved.w]
    refine List.map_congr_left fun x mem => ?_
    rw [Input.cell, Input.cell, sieved.r]
    exact sieved.rest _ (before x (by have := List.mem_range.mp mem; omega))

theorem line_entered (steady : Steady i) (outside : i.pending.length ≤ m)
    (start : a + m = i.e.toNat)
    (short : m < inputBuf) (sieved : Sieved a m i j) :
    (j.pending.length = (letters i.pending).length → ∀ c ∈ text i.buf (m - i.pending.length) a,
      ¬ isNum c) ∧
    ((∀ c ∈ text i.buf (m - i.pending.length) a, ¬ isNum c) → j.pending = letters i.pending ∧
      j.unread = i.unread) := by
  have length := line_length i
  have order := steady.order
  have room := steady.room
  have gap := dist_between order
  have base := line_start i
  have hw := i.w.toNat_lt
  have he := i.e.toNat_lt
  have same := entered_start outside start
  have parts := entered_parts outside start
  rw [length] at outside same parts ⊢
  have count : (letters (text i.buf m a)).length =
      (letters (text i.buf (m - dist i.w i.e) a)).length + (letters i.pending).length := by
    rw [parts, letters_append, List.length_append]
  have fewer : (letters (text i.buf (m - dist i.w i.e) a)).length ≤ m - dist i.w i.e :=
    Nat.le_trans letters_length_le (Nat.le_of_eq text_length)
  have less : (letters i.pending).length ≤ dist i.w i.e :=
    Nat.le_trans letters_length_le (Nat.le_of_eq length)
  have ends :
      j.e.toNat = a + ((letters (text i.buf (m - dist i.w i.e) a)).length +
        (letters i.pending).length) := by
    rw [sieved.e, count]
  refine ⟨fun right => ?_, fun plain => ?_⟩
  · rw [line_length, sieved.w] at right
    rw [← letters_length_eq, text_length]
    simp only [dist, UInt32.toNat_sub, inputBuf] at *
    omega
  · have whole := letters_length_eq.mpr plain
    rw [text_length] at whole
    have kept : letters (text i.buf (m - dist i.w i.e) a) = text i.buf (m - dist i.w i.e) a :=
      List.filter_eq_self.mpr fun c mem => by simpa using plain c mem
    have shorter : dist j.w j.e = (letters i.pending).length := by
      rw [sieved.w]
      simp only [dist, UInt32.toNat_sub] at *
      omega
    have both : text j.buf (m - dist i.w i.e) a = text i.buf (m - dist i.w i.e) a ∧
        text j.buf (letters i.pending).length (a + (m - dist i.w i.e)) = letters i.pending := by
      have sum := sieved.text
      rw [count, whole, text_append, parts, letters_append, kept] at sum
      exact List.append_inj sum (by rw [text_length, text_length])
    refine ⟨?_, ?_⟩
    · rw [pending_text, shorter, sieved.w, ← text_index same]
      exact both.2
    · rw [Input.unread, Input.unread, sieved.r, sieved.w]
      refine List.map_congr_left fun x mem => ?_
      have below := List.mem_range.mp mem
      rw [Input.cell, Input.cell, sieved.r]
      by_cases met : ∃ y, a ≤ y ∧ y < a + (m - dist i.w i.e) ∧
        slot inputBuf (i.r.toNat + x) = slot inputBuf y
      · obtain ⟨y,low,high,eq⟩ := met
        rw [eq]
        exact text_inj both.1 y low high
      · refine sieved.rest _ fun y low high eq => met ⟨y, low, ?_, eq⟩
        have mods : (i.r.toNat + x) % inputBuf = y % inputBuf := congrArg Fin.val eq
        have mods' : (a + (m - dist i.w i.e)) % inputBuf = i.w.toNat % inputBuf :=
          congrArg Fin.val same
        have mods'' : i.w.toNat % inputBuf = (i.r.toNat + dist i.r i.w) % inputBuf :=
          congrArg Fin.val (slot_index i.r i.w)
        simp only [inputBuf] at *
        omega

end Line

theorem deleteNumOfLine_runs (steady : Steady s.input) (screen : s.pos < 2000)
    (near : 2 ≤ s.pos % 80 ∧ back s ≤ s.input.e.toNat) :
    (Removable s.input.e.toNat (text s.input.buf (back s) (s.input.e.toNat - back s)) → ∃ t,
      deleteNumOfLine env s = .ok t ∧ t.pos < 2000 ∧
        Sieved (s.input.e.toNat - back s) (back s) s.input t.input) ∧
    (¬ Removable s.input.e.toNat (text s.input.buf (back s) (s.input.e.toNat - back s)) →
      ∃ stop, deleteNumOfLine env s = .error stop) := by
  have edge : s.pos % 80 < 80 := Nat.mod_lt _ (by decide)
  have sum : s.input.e.toNat - back s + back s = s.input.e.toNat := Nat.sub_add_cancel near.2
  have place := goes_back near
  have ends : (goToFirstOfLine s).input.end_.toNat = s.input.e.toNat - back s + back s := by
    rw [sum]
    exact congrArg UInt32.toNat steady.ends
  have rounds : (goToFirstOfLine s).input.end_.toNat - (goToFirstOfLine s).input.e.toNat =
      back s := by
    rw [ends, place]
    omega
  have column : (goToFirstOfLine s).pos + back s < 2000 := by
    simp only [goToFirstOfLine, changePos, back]
    omega
  obtain ⟨good,bad⟩ :=
    deleteLoop_sieves env column place ends (by simp only [back, inputBuf]; omega)
  rw [sum] at good bad
  rw [deleteNumOfLine, rounds]
  refine ⟨fun removable => ?_, bad⟩
  obtain ⟨j,p,low,done,r,w,e,ends',text_,rest⟩ := good removable
  exact ⟨_, done, low, r, w, e, ends', text_, rest⟩

theorem cleared_iff (steady : Steady s.input)
    (start : s.input.e.toNat - back s + back s = s.input.e.toNat)
    (short : back s < inputBuf)
    (sieved : Sieved (s.input.e.toNat - back s) (back s) s.input t.input) :
    Cleared s t ↔ (∀ c ∈ s.input.pending.take (s.input.pending.length - back s), ¬ isNum c) ∧
      ∀ c ∈ text s.input.buf (back s - s.input.pending.length) (s.input.e.toNat - back s),
        ¬ isNum c := by
  rcases Nat.le_total (back s) s.input.pending.length with inside | outside
  · obtain ⟨line,unread⟩ := line_skipped steady inside start sieved
    have parts := congrArg letters (skipped_parts inside start).2
    rw [letters_append] at parts
    have none_ : text s.input.buf (back s - s.input.pending.length) (s.input.e.toNat - back s) =
        [] := by
      rw [Nat.sub_eq_zero_of_le inside]
      rfl
    rw [none_]
    refine ⟨fun cleared => ⟨?_, by simp⟩, fun plain =>
      ⟨?_, sieved.r, sieved.w, unread, sieved.ends⟩⟩
    · have same := cleared.line
      rw [line, parts, List.append_cancel_right_eq] at same
      exact letters_length_eq.mp (congrArg List.length same).symm
    · rw [line, parts, List.append_cancel_right_eq]
      exact (List.filter_eq_self.mpr fun c mem => by simpa using plain.1 c mem).symm
  · obtain ⟨only,right⟩ := line_entered steady outside start short sieved
    have none_ : s.input.pending.take (s.input.pending.length - back s) = [] := by
      rw [Nat.sub_eq_zero_of_le outside]
      rfl
    rw [none_]
    refine ⟨fun cleared => ⟨by simp, only (congrArg List.length cleared.line)⟩, fun plain => ?_⟩
    obtain ⟨line,unread⟩ := right plain.2
    exact ⟨line, sieved.r, sieved.w, unread, sieved.ends⟩

theorem deleteNumOfLine_clears (steady : Steady s.input) (screen : s.pos < 2000) :
    (∃ t, deleteNumOfLine env s = .ok t ∧ Cleared s t) ↔ Clearable s := by
  by_cases near : 2 ≤ s.pos % 80 ∧ back s ≤ s.input.e.toNat
  · obtain ⟨good,bad⟩ := deleteNumOfLine_runs env steady screen near
    have start : s.input.e.toNat - back s + back s = s.input.e.toNat := Nat.sub_add_cancel near.2
    have short : back s < inputBuf := by
      have edge : s.pos % 80 < 80 := Nat.mod_lt _ (by decide)
      simp only [back, inputBuf]
      omega
    refine ⟨?_, ?_⟩
    · rintro ⟨t,done,cleared⟩
      have removable : Removable s.input.e.toNat
          (text s.input.buf (back s) (s.input.e.toNat - back s)) := by
        by_contra not
        obtain ⟨stop,failed⟩ := bad not
        rw [failed] at done
        cases done
      obtain ⟨u,done',-,sieved⟩ := good removable
      obtain rfl : t = u := Except.ok.inj (done.symm.trans done')
      obtain ⟨skipped,entered⟩ := (cleared_iff steady start short sieved).mp cleared
      exact ⟨near, skipped, entered, (removable_line start skipped entered).mp removable⟩
    · rintro ⟨-,skipped,entered,removable⟩
      obtain ⟨t,done,-,sieved⟩ := good ((removable_line start skipped entered).mpr removable)
      exact ⟨t, done, (cleared_iff steady start short sieved).mpr ⟨skipped, entered⟩⟩
  · refine ⟨?_, fun clearable => absurd clearable.1 near⟩
    rintro ⟨t,done,cleared⟩
    exact absurd cleared.ends (goes_wrong env steady screen near done)

/-- ^N takes the digits out of the line, and nothing else, exactly from the states described. -/
theorem digits_deleted_iff (steady : Steady s.input) (screen : s.pos < 2000) :
    (∃ t woken, consoleintr env 14 s = .ok (t, woken) ∧ Cleared s t) ↔ Clearable s := by
  have key : consoleintr env 14 s = (deleteNumOfLine env s).map fun t => (t, false) := rfl
  rw [← deleteNumOfLine_clears env steady screen, key]
  refine ⟨?_, ?_⟩
  · rintro ⟨t,woken,done,cleared⟩
    obtain ⟨u,deleted,eq⟩ := map_ok done
    cases eq
    exact ⟨t, deleted, cleared⟩
  · rintro ⟨t,deleted,cleared⟩
    exact ⟨t, false, by rw [deleted]; rfl, cleared⟩

end Clearing

theorem digits_deleted_iff_prompt :
    ∃ s t woken, exec next (start 2) (keys [97, 49, 98, 50]) = some s ∧
      s.con.input.pending = [97, 49, 98, 50] ∧
      consoleintr blank 14 s.con = .ok (t, woken) ∧ t.input.pending = [97, 98] ∧
        t.input.e = t.input.end_ := by
  have shape : (exec next (start 2) (keys [97, 49, 98, 50])).map
      (fun s => (s.con.input.pending, decide (s.con.pos < 2000), decide (Clearable s.con))) =
      some ([97, 49, 98, 50], true, true) := by decide +kernel
  obtain ⟨s,run,eq⟩ := Option.map_eq_some_iff.mp shape
  simp only [Prod.mk.injEq, decide_eq_true_eq] at eq
  obtain ⟨line,screen,clearable⟩ := eq
  have careful : Along next Careful (start 2) (keys [97, 49, 98, 50]) := by decide +kernel
  have steady : Steady s.con.input :=
    exec_invariant (fun s => Steady s.con.input) (fun s e t steady ok move =>
      (next_steady steady ok move).1)
      (steady_start 2) careful run
  obtain ⟨t,woken,done,cleared⟩ := (digits_deleted_iff blank steady screen).mpr clearable
  refine ⟨s, t, woken, run, line, done, ?_, cleared.ends.symm⟩
  rw [cleared.line, line]
  rfl

/-- A program that prints no prompt reads a line: the line starts in column 0, and ^N leaves its
    first two characters out. -/
theorem digit_kept_without_prompt :
    ∃ s t woken, exec next (start 0) (keys [49, 97, 50]) = some s ∧
      s.con.input.pending = [49, 97, 50] ∧
      consoleintr blank 14 s.con = .ok (t, woken) ∧ t.input.pending = [49, 97] ∧
        letters s.con.input.pending = [97] := by
  have shape : (exec next (start 0) (keys [49, 97, 50])).map
      (fun s => (s.con.input.pending, letters s.con.input.pending,
        (consoleintr blank 14 s.con).toOption.map fun t => t.1.input.pending)) =
      some ([49, 97, 50], [97], some [49, 97]) := by decide +kernel
  obtain ⟨s,run,eq⟩ := Option.map_eq_some_iff.mp shape
  simp only [Prod.mk.injEq] at eq
  obtain ⟨line,right,after⟩ := eq
  obtain ⟨⟨t,woken⟩,done,left⟩ := Option.map_eq_some_iff.mp after
  refine ⟨s, t, woken, run, line, ?_, left, right⟩
  cases result : consoleintr blank 14 s.con with
  | error stop =>
    rw [result] at done
    cases done
  | ok u =>
    rw [result] at done
    exact congrArg _ (Option.some.inj done)

end ConsoleInput

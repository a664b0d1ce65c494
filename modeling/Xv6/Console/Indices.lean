import Xv6.Console.Model

/- The indices of the ring. They run freely modulo 2^32, so that everything is said about their
   distances from the read index. -/
namespace ConsoleInput
open RingQueue RunLaws

def dist (a b : UInt32) : Nat := (b - a).toNat

section Distances
variable {r a b : UInt32}

theorem dist_self : dist r r = 0 := by
  simp [dist]

theorem dist_inj (same : dist r a = dist r b) : a = b := by
  have ha := a.toNat_lt
  have hb := b.toNat_lt
  have hr := r.toNat_lt
  simp only [dist, UInt32.toNat_sub] at same
  exact UInt32.toNat_inj.mp (by omega)

theorem dist_succ (small : dist r a < 4294967295) : dist r (a + 1) = dist r a + 1 := by
  have ha := a.toNat_lt
  have hr := r.toNat_lt
  simp only [dist, UInt32.toNat_sub, UInt32.toNat_add, UInt32.reduceToNat] at small ⊢
  omega

theorem dist_pred (some_ : 0 < dist r a) : dist r (a - 1) = dist r a - 1 := by
  have ha := a.toNat_lt
  have hr := r.toNat_lt
  simp only [dist, UInt32.toNat_sub, UInt32.reduceToNat] at some_ ⊢
  omega

theorem dist_between (order : dist r a ≤ dist r b) : dist a b = dist r b - dist r a := by
  have ha := a.toNat_lt
  have hb := b.toNat_lt
  have hr := r.toNat_lt
  simp only [dist, UInt32.toNat_sub] at order ⊢
  omega

theorem dist_raw (order : a.toNat ≤ b.toNat) : dist a b = b.toNat - a.toNat := by
  have ha := a.toNat_lt
  have hb := b.toNat_lt
  simp only [dist, UInt32.toNat_sub]
  omega

/-- INPUT_BUF divides 2^32, so an index and its distance from `r` name the same cell. -/
theorem slot_dist (r a : UInt32) (m : Nat) :
    slot inputBuf (a.toNat + m) = slot inputBuf (r.toNat + (dist r a + m)) := by
  have ha := a.toNat_lt
  have hr := r.toNat_lt
  apply Fin.ext
  simp only [slot, inputBuf, dist, UInt32.toNat_sub]
  omega

theorem slot_index (r a : UInt32) : slot inputBuf a.toNat = slot inputBuf (r.toNat + dist r a) :=
  slot_dist r a 0

end Distances

def Input.cell (i : Input) (x : Nat) : UInt8 := i.buf (slot inputBuf (i.r.toNat + x))

def Input.unread (i : Input) : List UInt8 := (List.range (dist i.r i.w)).map i.cell

/-- r <= w <= e <= end and end - r <= INPUT_BUF. -/
def Indices (i : Input) : Prop :=
  dist i.r i.w ≤ dist i.r i.e ∧ dist i.r i.e ≤ dist i.r i.end_ ∧ dist i.r i.end_ ≤ inputBuf

instance (i : Input) : Decidable (Indices i) := inferInstanceAs (Decidable (_ ∧ _ ∧ _))

structure Keeps (i j : Input) : Prop where
  r : j.r = i.r
  w : j.w = i.w
  cells : ∀ x < dist i.r i.w, j.cell x = i.cell x

namespace Keeps

theorem refl (i : Input) : Keeps i i := ⟨rfl, rfl, fun _ _ => rfl⟩

theorem trans {i j k : Input} (first : Keeps i j) (second : Keeps j k) : Keeps i k := by
  refine ⟨second.r.trans first.r, second.w.trans first.w, fun x below => ?_⟩
  rw [second.cells x (by rwa [first.r, first.w]), first.cells x below]

theorem unread {i j : Input} (keeps : Keeps i j) : j.unread = i.unread := by
  rw [Input.unread, Input.unread, keeps.r, keeps.w]
  exact List.map_congr_left fun x mem => keeps.cells x (List.mem_range.mp mem)

end Keeps

section Frames
variable {env : Env} {s t : Console} {n : Nat}

theorem consputc_input {c : Option UInt8} (put : consputc c s = .ok t) : t.input = s.input := by
  unfold consputc at put
  cases moved : cgaputc c s.pos with
  | error stop => simp [moved, Except.map] at put
  | ok pos =>
    simp only [moved, Except.map, Except.ok.injEq] at put
    rw [← put]

variable {c : UInt8} {i : Input} {index : UInt32}

theorem store_ok {j : Input} (stored : i.store index c = .ok j) :
    j = i.put index c := by
  unfold Input.store element at stored
  split at stored
  · next k found =>
    split at found
    · simp only [Option.some.injEq] at found
      simp only [Except.ok.injEq] at stored
      rw [← stored, ← found]
      rfl
    · cases found
  · cases stored

theorem bind_ok {α β : Type} {x : Except Stop α} {f : α → Except Stop β} {b : β}
    (ok : x.bind f = .ok b) :
    ∃ a, x = .ok a ∧ f a = .ok b := by
  cases x with
  | error stop => cases ok
  | ok a => exact ⟨a, rfl, ok⟩

theorem map_ok {α β : Type} {x : Except Stop α} {f : α → β} {b : β} (ok : x.map f = .ok b) :
    ∃ a, x = .ok a ∧ f a = b := by
  cases x with
  | error stop => cases ok
  | ok a => exact ⟨a, rfl, Except.ok.inj ok⟩

theorem put_cell {x : Nat} (inside : dist i.r index < inputBuf)
    (below : x < inputBuf) : (i.put index c).cell x = if x = dist i.r index then c
      else i.cell x := by
  simp only [Input.cell, Input.put, slot_index i.r index]
  by_cases here : x = dist i.r index
  · rw [if_pos here, here, Function.update_self]
  · rw [if_neg here, Function.update_of_ne]
    exact fun same => here (slot_injective_in_window below inside same)

theorem shiftLeft_cells (moved : shiftLeft env n index s = .ok t)
    (inside : dist s.input.r index + n ≤ inputBuf) :
    t.input = { s.input with buf := t.input.buf } ∧ ∀ x < dist s.input.r index,
      t.input.cell x = s.input.cell x := by
  induction n generalizing index s with
  | zero =>
    cases moved
    exact ⟨rfl, fun _ _ => rfl⟩
  | succ n ih =>
    obtain ⟨after,next,storing⟩ := bind_ok moved
    obtain ⟨i,stored,putting⟩ := bind_ok storing
    obtain ⟨u,echo,rest⟩ := bind_ok putting
    have same := consputc_input echo
    have step : dist s.input.r after = dist s.input.r index + 1 := by
      unfold succ at next
      split at next
      · cases next
      · cases next
        exact dist_succ (by simp only [inputBuf] at inside; omega)
    simp only [store_ok stored] at same
    have base : u.input.r = s.input.r := by rw [same]; rfl
    obtain ⟨shape,cells⟩ := ih rest (by rw [base]; omega)
    refine ⟨?_, fun x below => ?_⟩
    · rw [shape, same]
      rfl
    · rw [cells x (by rw [base]; omega), same, put_cell (by omega) (by omega), if_neg (by omega)]

theorem shiftInputLeft_cells (moved : shiftInputLeft env s = .ok t)
    (some_ : 0 < dist s.input.r s.input.e)
    (order : dist s.input.r s.input.e ≤ dist s.input.r s.input.end_)
    (inside : dist s.input.r s.input.end_ ≤ inputBuf) :
    t.input = { s.input with buf := t.input.buf, end_ := s.input.end_ - 1 } ∧
      ∀ x < dist s.input.r s.input.e - 1, t.input.cell x = s.input.cell x := by
  obtain ⟨u,looped,rest⟩ := bind_ok moved
  obtain ⟨v,echo,rfl⟩ := map_ok rest
  have before := dist_pred some_
  have rounds : dist s.input.r (s.input.e - 1) + (s.input.end_.toNat - (s.input.e - 1).toNat) ≤
      inputBuf := by
    by_cases raw : (s.input.e - 1).toNat ≤ s.input.end_.toNat
    · have gap :=
        dist_between (a := s.input.e - 1) (b := s.input.end_) (r := s.input.r) (by omega)
      have := dist_raw raw
      omega
    · omega
  obtain ⟨shape,cells⟩ := shiftLeft_cells looped rounds
  have same := consputc_input echo
  refine ⟨?_, fun x below => ?_⟩
  · simp only [changePos, same]
    rw [shape]
  · simp only [changePos, same]
    exact cells x (by omega)

theorem erase_cells (erased : erase env s = .ok t) (some_ : 0 < dist s.input.r s.input.e)
    (order : dist s.input.r s.input.e ≤ dist s.input.r s.input.end_)
    (inside : dist s.input.r s.input.end_ ≤ inputBuf) :
    t.input = { s.input with buf := t.input.buf, e := s.input.e - 1, end_ := s.input.end_ - 1 } ∧
      ∀ x < dist s.input.r s.input.e - 1, t.input.cell x = s.input.cell x := by
  obtain ⟨u,echo,rest⟩ := bind_ok erased
  obtain ⟨v,shifted,rfl⟩ := map_ok rest
  have same := consputc_input echo
  obtain ⟨shape,cells⟩ := shiftInputLeft_cells shifted (same ▸ some_) (same ▸ order) (same ▸ inside)
  rw [same] at shape cells
  refine ⟨?_, cells⟩
  simp only
  rw [shape]

/-- Between two handlers the edit index is at the end of the line. -/
structure Steady (i : Input) : Prop where
  ends : i.end_ = i.e
  order : dist i.r i.w ≤ dist i.r i.e
  room : dist i.r i.e ≤ inputBuf

theorem Steady.indices (steady : Steady i) : Indices i := by
  refine ⟨steady.order, ?_, ?_⟩
  · rw [steady.ends]
  · rw [steady.ends]
    exact steady.room

theorem erase_steady (steady : Steady s.input) (pending : s.input.e ≠ s.input.w)
    (erased : erase env s = .ok t) :
    Keeps s.input t.input ∧ Steady t.input ∧
      dist t.input.r t.input.e + 1 = dist s.input.r s.input.e ∧
      ∀ x < dist t.input.r t.input.e, t.input.cell x = s.input.cell x := by
  have more : dist s.input.r s.input.w < dist s.input.r s.input.e :=
    Nat.lt_of_le_of_ne steady.order fun same => pending (dist_inj same).symm
  have room := steady.room
  obtain ⟨shape,cells⟩ :=
    erase_cells erased (by omega) (by rw [steady.ends]) (by rw [steady.ends]; exact room)
  have before := dist_pred (r := s.input.r) (a := s.input.e) (by omega)
  have r : t.input.r = s.input.r := by rw [shape]
  have w : t.input.w = s.input.w := by rw [shape]
  have e : t.input.e = s.input.e - 1 := by rw [shape]
  have ends : t.input.end_ = t.input.e := by
    rw [shape]
    simp only [steady.ends]
  refine ⟨⟨r, w, fun x below => cells x (by omega)⟩, ⟨ends, ?_, ?_⟩, ?_, fun x below => cells x ?_⟩
  · rw [r, w, e]
    omega
  · rw [r, e]
    omega
  · rw [r, e]
    omega
  · rw [r, e] at below
    omega

/-- Of the first `n` characters of the line, those up to the last newline. ^U leaves them. -/
def Input.kept (i : Input) : Nat → Nat
  | 0 => 0
  | n + 1 => if i.cell (dist i.r i.w + n) = 10 then n + 1 else i.kept n

theorem kept_congr {j : Input} (r : j.r = i.r) (w : j.w = i.w) :
    ∀ n, (∀ x < dist i.r i.w + n, j.cell x = i.cell x) → j.kept n = i.kept n
  | 0, _ => rfl
  | n + 1, same => by
    rw [Input.kept, Input.kept, r, w, same _ (by omega), kept_congr r w n fun x below =>
      same x (by omega)]

theorem kept_le (i : Input) : ∀ n, i.kept n ≤ n
  | 0 => Nat.le_refl _
  | n + 1 => by
    rw [Input.kept]
    split
    · exact Nat.le_refl _
    · exact Nat.le_succ_of_le (kept_le i n)

theorem killLoop_steady (steady : Steady s.input)
    (count : dist s.input.r s.input.w + n = dist s.input.r s.input.e)
    (killed : killLoop env n s = .ok t) :
    Keeps s.input t.input ∧ Steady t.input ∧
      dist t.input.r t.input.e = dist s.input.r s.input.w + s.input.kept n ∧
      ∀ x < dist s.input.r s.input.w + s.input.kept n, t.input.cell x = s.input.cell x := by
  induction n generalizing s with
  | zero =>
    cases killed
    exact ⟨.refl _, steady, count.symm, fun _ _ => rfl⟩
  | succ n ih =>
    have pending : s.input.e ≠ s.input.w := by
      intro same
      rw [same] at count
      omega
    have last : s.input.get (s.input.e - 1) = s.input.cell (dist s.input.r s.input.w + n) := by
      rw [Input.get, slot_index s.input.r, dist_pred (by omega), Input.cell, ← count]
      rfl
    rw [killLoop, last] at killed
    rw [Input.kept]
    by_cases newline : s.input.cell (dist s.input.r s.input.w + n) = 10
    · rw [if_neg (by simp [newline])] at killed
      cases killed
      rw [if_pos newline]
      exact ⟨.refl _, steady, count.symm, fun _ _ => rfl⟩
    · rw [if_pos ⟨pending, newline⟩] at killed
      obtain ⟨u,erased,rest⟩ := bind_ok killed
      obtain ⟨keeps,next,shorter,cells⟩ := erase_steady steady pending erased
      obtain ⟨keeps',steady',ends,cells'⟩ := ih next (by rw [keeps.r, keeps.w] at *; omega) rest
      have same := kept_congr keeps.r keeps.w n fun x below => cells x (by omega)
      have few := kept_le s.input n
      rw [same, keeps.r, keeps.w] at ends cells'
      rw [if_neg newline]
      exact ⟨keeps.trans keeps', steady', ends, fun x below =>
        (cells' x below).trans (cells x (by omega))⟩

theorem killLine_steady (steady : Steady s.input) (killed : killLine env s = .ok t) :
    Keeps s.input t.input ∧ Steady t.input ∧
      dist t.input.r t.input.e = dist s.input.r s.input.w + s.input.kept
        (dist s.input.w s.input.e) ∧
      ∀ x < dist s.input.r s.input.w + s.input.kept (dist s.input.w s.input.e),
        t.input.cell x = s.input.cell x := by
  have gap := dist_between steady.order
  exact killLoop_steady steady (by have := steady.order; omega) killed

theorem backSpace_steady (steady : Steady s.input) (done : backSpace env s = .ok t) :
    Keeps s.input t.input ∧ Steady t.input := by
  unfold backSpace at done
  split at done
  · next pending =>
    obtain ⟨keeps,next,-⟩ := erase_steady steady pending done
    exact ⟨keeps, next⟩
  · cases done
    exact ⟨.refl _, steady⟩

theorem put_steady (steady : Steady i) (room : dist i.r i.e < inputBuf) :
    Keeps i { i.put i.e c with e := i.e + 1, end_ := i.end_ + 1 } ∧
      Steady { i.put i.e c with e := i.e + 1, end_ := i.end_ + 1 } ∧
        dist i.r (i.e + 1) = dist i.r i.e + 1 := by
  have longer : dist i.r (i.e + 1) = dist i.r i.e + 1 :=
    dist_succ (by simp only [inputBuf] at room; omega)
  have order := steady.order
  refine ⟨⟨rfl, rfl, fun x below => ?_⟩, ⟨congrArg (· + 1) steady.ends, ?_, ?_⟩, longer⟩
  · exact (put_cell room (by omega)).trans (if_neg (by omega))
  · exact Nat.le_trans order (longer ▸ Nat.le_succ _)
  · exact longer ▸ room

theorem printAll_steady {l : List UInt8} (steady : Steady s.input)
    (room : dist s.input.r s.input.e + l.length ≤ inputBuf)
    (printed : printAll l s = .ok t) : Keeps s.input t.input ∧ Steady t.input := by
  induction l generalizing s with
  | nil =>
    cases printed
    exact ⟨.refl _, steady⟩
  | cons c l ih =>
    obtain ⟨u,echo,rest⟩ := bind_ok printed
    have same := consputc_input echo
    simp only [List.length_cons] at room
    obtain ⟨keeps,next,longer⟩ := put_steady (c := c) steady (by omega)
    rw [same] at rest
    obtain ⟨keeps',steady'⟩ := ih next (by simp only [Input.put] at *; omega) rest
    exact ⟨keeps.trans keeps', steady'⟩

def Room (i : Input) (n : Nat) : Prop := dist i.r i.w + i.kept (dist i.w i.e) + n ≤ inputBuf

instance (i : Input) (n : Nat) : Decidable (Room i n) := inferInstanceAs (Decidable (_ ≤ _))

theorem word_steady {l : List UInt8} (steady : Steady s.input) (room : Room s.input l.length)
    (printed : (killLine env s).bind (printAll l) = .ok t) :
    Keeps s.input t.input ∧ Steady t.input := by
  obtain ⟨u,killed,rest⟩ := bind_ok printed
  obtain ⟨keeps,next,ends,-⟩ := killLine_steady steady killed
  obtain ⟨keeps',steady'⟩ := printAll_steady next (by rw [ends]; exact room) rest
  exact ⟨keeps.trans keeps', steady'⟩

structure Scanning (i : Input) : Prop where
  raw : i.w.toNat ≤ i.e.toNat ∧ i.e.toNat ≤ i.end_.toNat
  order : dist i.r i.w ≤ dist i.r i.e
  rest : dist i.r i.e ≤ dist i.r i.end_
  room : dist i.r i.end_ ≤ inputBuf

theorem scanning_erase (scan : Scanning s.input) (more : s.input.e.toNat < s.input.end_.toNat)
    {p : Nat}
    (erased : erase env (changePos p { s with input := { s.input with e := s.input.e + 1 } }) =
      .ok t) :
    Keeps s.input t.input ∧ Scanning t.input ∧ t.input.e = s.input.e ∧
      t.input.end_.toNat + 1 = s.input.end_.toNat := by
  have room := scan.room
  have order := scan.order
  have strict : dist s.input.r s.input.e < dist s.input.r s.input.end_ :=
    Nat.lt_of_le_of_ne scan.rest fun same => by rw [dist_inj same] at more; omega
  have after : dist s.input.r (s.input.e + 1) = dist s.input.r s.input.e + 1 :=
    dist_succ (by simp only [inputBuf] at room; omega)
  obtain ⟨shape,cells⟩ :=
    erase_cells erased (by simp only [changePos]; omega) (by simp only [changePos]; omega) room
  simp only [changePos, after, Nat.add_sub_cancel] at shape cells
  have back : s.input.e + 1 - 1 = s.input.e := UInt32.add_sub_cancel ..
  have r : t.input.r = s.input.r := by rw [shape]
  have w : t.input.w = s.input.w := by rw [shape]
  have e : t.input.e = s.input.e := by
    rw [shape]
    exact back
  have ends : t.input.end_ = s.input.end_ - 1 := by rw [shape]
  have down := dist_pred (r := s.input.r) (a := s.input.end_) (by omega)
  have value : (s.input.end_ - 1).toNat + 1 = s.input.end_.toNat := by
    have := s.input.end_.toNat_lt
    simp only [UInt32.toNat_sub, UInt32.reduceToNat]
    omega
  have raw := scan.raw
  refine ⟨⟨r, w, fun x below => cells x (by omega)⟩, ⟨?_, ?_, ?_, ?_⟩, e, by rw [ends]; exact value⟩
  · rw [w, e, ends]
    omega
  · rw [r, w, e]
    exact order
  · rw [r, e, ends]
    omega
  · rw [r, ends]
    omega

theorem scanning_next (scan : Scanning s.input) (more : s.input.e.toNat < s.input.end_.toNat) :
    Keeps s.input { s.input with e := s.input.e + 1 } ∧
      Scanning { s.input with e := s.input.e + 1 } ∧
      (s.input.e + 1).toNat = s.input.e.toNat + 1 := by
  have room := scan.room
  have order := scan.order
  have raw := scan.raw
  have strict : dist s.input.r s.input.e < dist s.input.r s.input.end_ :=
    Nat.lt_of_le_of_ne scan.rest fun same => by rw [dist_inj same] at more; omega
  have after : dist s.input.r (s.input.e + 1) = dist s.input.r s.input.e + 1 :=
    dist_succ (by simp only [inputBuf] at room; omega)
  have value : (s.input.e + 1).toNat = s.input.e.toNat + 1 := by
    have := s.input.end_.toNat_lt
    simp only [UInt32.toNat_add, UInt32.reduceToNat]
    omega
  exact ⟨⟨rfl, rfl, fun _ _ => rfl⟩,
    ⟨by simp only; omega, by simp only; omega, by simp only; omega, room⟩, value⟩

theorem deleteLoop_steady (scan : Scanning s.input)
    (count : s.input.end_.toNat ≤ s.input.e.toNat + n)
    (done : deleteLoop env n s = .ok t) : Keeps s.input t.input ∧ Steady t.input := by
  have ended : ∀ {u : Console}, Scanning u.input → u.input.end_.toNat ≤ u.input.e.toNat →
      Steady u.input := by
    intro u scan past
    have ends : u.input.end_ = u.input.e :=
      UInt32.toNat_inj.mp (Nat.le_antisymm past scan.raw.2)
    exact ⟨ends, scan.order, ends ▸ scan.room⟩
  induction n generalizing s with
  | zero =>
    cases done
    exact ⟨.refl _, ended scan count⟩
  | succ n ih =>
    rw [deleteLoop] at done
    by_cases more : s.input.e < s.input.end_
    · rw [if_pos more] at done
      have raw := UInt32.lt_iff_toNat_lt.mp more
      split at done
      · obtain ⟨u,erased,rest⟩ := bind_ok done
        obtain ⟨keeps,next,e,ends⟩ := scanning_erase scan raw erased
        obtain ⟨keeps',steady⟩ := ih next (by rw [e]; omega) rest
        exact ⟨keeps.trans keeps', steady⟩
      · obtain ⟨u,echo,rest⟩ := bind_ok done
        have same := consputc_input echo
        obtain ⟨keeps,next,e⟩ := scanning_next scan raw
        rw [same] at rest
        obtain ⟨keeps',steady⟩ := ih next (by simp only [changePos, e]; omega) rest
        exact ⟨keeps.trans keeps', steady⟩
    · rw [if_neg more] at done
      cases done
      exact ⟨.refl _, ended scan (Nat.le_of_not_lt fun less =>
        more (UInt32.lt_iff_toNat_lt.mpr less))⟩

/-- The line starts in column 2 or the cursor is not far enough to the right to leave it. -/
def OnLine (s : Console) : Prop :=
  2 ≤ s.pos % 80 ∧ s.input.w.toNat + (s.pos % 80 - 2) ≤ s.input.e.toNat

instance (s : Console) : Decidable (OnLine s) := inferInstanceAs (Decidable (_ ∧ _))

theorem deleteNumOfLine_steady (steady : Steady s.input) (here : OnLine s)
    (done : deleteNumOfLine env s = .ok t) :
    Keeps s.input t.input ∧ Steady t.input := by
  obtain ⟨column,inside⟩ := here
  have bound := s.input.e.toNat_lt
  have edge : s.pos % 80 < 80 := Nat.mod_lt _ (by decide)
  have value : (s.input.e + 2 - UInt32.ofNat (s.pos % 80)).toNat = s.input.e.toNat -
      (s.pos % 80 - 2) := by
    simp only [UInt32.toNat_sub, UInt32.toNat_add, UInt32.reduceToNat, UInt32.toNat_ofNat']
    omega
  have line := dist_between steady.order
  have length : dist s.input.w s.input.e = s.input.e.toNat - s.input.w.toNat := dist_raw (by omega)
  have place : dist s.input.r (s.input.e + 2 - UInt32.ofNat (s.pos % 80)) =
      dist s.input.r s.input.e - (s.pos % 80 - 2) := by
    have order := steady.order
    have hr := s.input.r.toNat_lt
    simp only [dist, UInt32.toNat_sub, value] at *
    omega
  have order := steady.order
  have room := steady.room
  have scan : Scanning (goToFirstOfLine s).input := by
    refine ⟨?_, ?_, ?_, ?_⟩ <;> simp only [goToFirstOfLine, changePos, value, place, steady.ends]
      <;> omega
  obtain ⟨keeps,next⟩ := deleteLoop_steady scan (by omega) done
  exact ⟨⟨keeps.r, keeps.w, keeps.cells⟩, next⟩

theorem typed_input (steady : Steady s.input) (done : typed env c s = .ok t) :
    t.input = { s.input.put s.input.e c with
      e := if c = 10 ∨ c = 4 then s.input.e else s.input.e + 1, end_ := s.input.e + 1 } := by
  unfold typed at done
  split at done
  · next ends =>
    cases done
    rw [if_pos ends]
    simp only [Input.put, steady.ends]
  · next plain =>
    obtain ⟨u,shifted,rfl⟩ := map_ok done
    obtain ⟨v,looped,rfl⟩ := map_ok shifted
    simp only [steady.ends, Nat.sub_self, shiftRight, Except.ok.injEq] at looped
    rw [if_neg plain, ← looped]
    simp only [changePos, Input.put, steady.ends]

theorem updateHistory_input (done : updateHistory env s = .ok t) : t.input = s.input := by
  obtain ⟨l,-,rest⟩ := bind_ok done
  split at rest
  · obtain ⟨n,-,rfl⟩ := map_ok rest
    rfl
  · cases rest

theorem commit_input (done : commit env s = .ok t) :
    t.input = { s.input with e := s.input.end_, w := s.input.end_ } := by
  obtain ⟨u,history,more⟩ := bind_ok done
  obtain ⟨size,-,rest⟩ := bind_ok more
  obtain ⟨num,-,rfl⟩ := map_ok rest
  simp only [updateHistory_input history]

theorem ordinary_input {woken : Bool} (steady : Steady s.input)
    (done : ordinary env c s = .ok (t, woken)) :
    (¬ (c ≠ 0 ∧ s.input.e - s.input.r < 128) ∧ t = s ∧ woken = false) ∨
    ((c ≠ 0 ∧ dist s.input.r s.input.e < inputBuf) ∧
      woken = decide (enter c = 10 ∨ enter c = 4 ∨ dist s.input.r s.input.e + 1 = inputBuf) ∧
      t.input = { s.input.put s.input.e (enter c) with
        w := if woken then s.input.e + 1 else s.input.w, e := s.input.e + 1, end_ :=
          s.input.e + 1 }) := by
  unfold ordinary at done
  by_cases room : c ≠ 0 ∧ s.input.e - s.input.r < 128
  · right
    have space : dist s.input.r s.input.e < inputBuf := UInt32.lt_iff_toNat_lt.mp room.2
    rw [if_pos room] at done
    obtain ⟨u,type_,more⟩ := bind_ok done
    obtain ⟨v,echo,rest⟩ := bind_ok more
    have same : v.input = _ := (consputc_input echo).trans (typed_input steady type_)
    have full : (s.input.e + 1 = s.input.r + 128) ↔ dist s.input.r s.input.e + 1 = inputBuf := by
      have he := s.input.e.toNat_lt
      have hr := s.input.r.toNat_lt
      simp only [← UInt32.toNat_inj, dist, inputBuf, UInt32.toNat_sub, UInt32.toNat_add,
        UInt32.reduceToNat] at space ⊢
      omega
    have cond : (enter c = 10 ∨ enter c = 4 ∨ v.input.e = v.input.r + 128) ↔
        (enter c = 10 ∨ enter c = 4 ∨ dist s.input.r s.input.e + 1 = inputBuf) := by
      by_cases ends : enter c = 10 ∨ enter c = 4
      · rcases ends with ends | ends <;> simp [ends]
      · simp only [not_or] at ends
        simp only [ends.1, ends.2, false_or, ← full, same]
        rfl
    refine ⟨⟨room.1, space⟩, ?_⟩
    by_cases now : enter c = 10 ∨ enter c = 4 ∨ dist s.input.r s.input.e + 1 = inputBuf
    · rw [if_pos (cond.mpr now)] at rest
      obtain ⟨x,committed,eq⟩ := map_ok rest
      cases eq
      refine ⟨(decide_eq_true now).symm, ?_⟩
      rw [commit_input committed, same]
      rfl
    · rw [if_neg (mt cond.mp now)] at rest
      cases rest
      refine ⟨(decide_eq_false now).symm, ?_⟩
      have plain : ¬ (enter c = 10 ∨ enter c = 4) := fun ends => now (ends.imp_right .inl)
      rw [same, if_neg plain]
      rfl
  · left
    rw [if_neg room] at done
    cases done
    exact ⟨room, rfl, rfl⟩

end Frames

section Reading
variable {i : Input}

theorem dist_left {r a : UInt32} (some_ : 0 < dist r a) : dist (r + 1) a + 1 = dist r a := by
  have ha := a.toNat_lt
  have hr := r.toNat_lt
  simp only [dist, UInt32.toNat_sub, UInt32.toNat_add, UInt32.reduceToNat] at some_ ⊢
  omega

theorem read_steady (steady : Steady i) (bytes : i.r ≠ i.w) :
    Steady { i with r := i.r + 1 } ∧
    i.unread = i.get i.r :: Input.unread { i with r := i.r + 1 } := by
  have order := steady.order
  have room := steady.room
  have live : 0 < dist i.r i.w := by
    refine Nat.pos_of_ne_zero fun none_ => bytes ?_
    rw [← dist_self (r := i.r)] at none_
    exact (dist_inj none_).symm
  have w := dist_left live
  have e := dist_left (a := i.e) (Nat.lt_of_lt_of_le live order)
  refine ⟨⟨steady.ends, by simp only; omega, by simp only; omega⟩, ?_⟩
  simp only [Input.unread, ← w, List.range_succ_eq_map, List.map_cons, List.map_map]
  congr 1
  refine List.map_congr_left fun x _ => ?_
  simp only [Function.comp, Input.cell]
  congr 1
  have hr := i.r.toNat_lt
  apply Fin.ext
  simp only [slot, inputBuf, UInt32.toNat_add, UInt32.reduceToNat]
  omega

theorem drain_steady {killed : Bool} {target n : Nat} {dst : List UInt8} (steady : Steady i) :
    Steady (drain killed target n i dst).1 ∧
    (drain killed target n i dst).1.unread <:+ i.unread := by
  induction n generalizing i dst with
  | zero => exact ⟨steady, List.suffix_refl _⟩
  | succ n ih =>
    rw [drain]
    by_cases empty : i.r = i.w
    · rw [if_pos empty]
      split <;> exact ⟨steady, List.suffix_refl _⟩
    · obtain ⟨next,front⟩ := read_steady steady empty
      have tail : Input.unread { i with r := i.r + 1 } <:+ i.unread := front ▸ List.suffix_cons ..
      have back : i.r + 1 - 1 = i.r := UInt32.add_sub_cancel ..
      simp only [if_neg empty]
      split
      · split
        · simp only [back]
          exact ⟨steady, List.suffix_refl _⟩
        · exact ⟨next, tail⟩
      · split
        · exact ⟨next, tail⟩
        · obtain ⟨later,rest⟩ := ih next
          exact ⟨later, rest.trans tail⟩

end Reading

def Fits (i : Input) (drop : Nat) : Except Stop (List UInt8) → Prop
  | .ok word => Room i (word.length - drop)
  | .error _ => True

instance (i : Input) (drop : Nat) : ∀ word, Decidable (Fits i drop word)
  | .ok _ => inferInstanceAs (Decidable (Room ..))
  | .error _ => isTrue trivial

def Predicted (env : Env) (s : Console) : Except Stop (Option Nat) → Prop
  | .ok (some i) => Fits s.input 1 (temp env (fun k => some (s.command k)) (128 * i))
  | _ => True

instance (env : Env) (s : Console) : ∀ index, Decidable (Predicted env s index)
  | .ok (some _) => inferInstanceAs (Decidable (Fits ..))
  | .ok none => isTrue trivial
  | .error _ => isTrue trivial

/-- ^N comes while the cursor is on the line as it would stand behind a prompt of two columns; the
    words that ^R and Tab put in place of the line fit. -/
def Careful (s : State) : Event → Prop
  | .key env c =>
    (c = 14 → OnLine s.con) ∧
    (c = 18 → Fits s.con.input 0 (temp env (memory env s.con.input) s.con.input.w.toNat)) ∧
    (c = 9 → Predicted env s.con (predictInCommandList env s.con))
  | _ => True

instance (s : State) : ∀ e, Decidable (Careful s e)
  | .key _ _ => inferInstanceAs (Decidable (_ ∧ _ ∧ _))
  | .output _ => isTrue trivial
  | .read _ _ _ => isTrue trivial
  | .resume _ _ => isTrue trivial
  | .rouse _ => isTrue trivial

def Unharmed (i j : Input) : Event → Prop
  | .read _ _ _ => j.unread <:+ i.unread
  | .resume _ _ => j.unread <:+ i.unread
  | _ => i.unread <+: j.unread

theorem unread_grows {i j : Input} (more : dist i.r i.w ≤ dist j.r j.w)
    (cells : ∀ x < dist i.r i.w, j.cell x = i.cell x) : i.unread <+: j.unread := by
  refine List.prefix_iff_eq_take.mpr ?_
  simp only [Input.unread, List.length_map, List.length_range, ← List.map_take, List.take_range,
    Nat.min_eq_left more]
  exact List.map_congr_left fun x mem => (cells x (List.mem_range.mp mem)).symm

theorem ordinary_steady {env : Env} {s t : Console} {c : UInt8} {woken : Bool}
    (steady : Steady s.input)
    (done : ordinary env c s = .ok (t, woken)) :
    Steady t.input ∧ s.input.unread <+: t.input.unread := by
  rcases ordinary_input steady done with ⟨-,rfl,-⟩ | ⟨⟨-,space⟩,-,shape⟩
  · exact ⟨steady, List.prefix_refl _⟩
  · have longer : dist s.input.r (s.input.e + 1) = dist s.input.r s.input.e + 1 :=
      dist_succ (by simp only [inputBuf] at space; omega)
    have order := steady.order
    have cells : ∀ x < dist s.input.r s.input.w, t.input.cell x = s.input.cell x := by
      intro x below
      rw [shape]
      exact (put_cell space (by omega)).trans (if_neg (by omega))
    have bounds : dist s.input.r s.input.w ≤ dist t.input.r t.input.w ∧
        dist t.input.r t.input.w ≤ dist t.input.r t.input.e := by
      rw [shape]
      simp only [Input.put, longer]
      split <;> omega
    refine ⟨⟨by rw [shape], bounds.2, ?_⟩, unread_grows bounds.1 cells⟩
    rw [shape]
    simp only [Input.put, longer]
    omega

theorem key_steady {env : Env} {s t : Console} {c : UInt8} {woken : Bool} (steady : Steady s.input)
    (line : c = 14 → OnLine s) (back : c = 18 →
      Fits s.input 0 (temp env (memory env s.input) s.input.w.toNat))
    (guess : c = 9 → Predicted env s (predictInCommandList env s))
    (done : consoleintr env c s = .ok (t, woken)) :
    Steady t.input ∧ s.input.unread <+: t.input.unread := by
  have settle : Keeps s.input t.input ∧ Steady t.input → Steady t.input ∧
    s.input.unread <+: t.input.unread :=
      fun ⟨keeps,next⟩ => ⟨next, keeps.unread ▸ List.prefix_refl _⟩
  unfold consoleintr at done
  split at done
  · cases done
    exact ⟨steady, List.prefix_refl _⟩
  split at done
  · obtain ⟨u,killed,eq⟩ := map_ok done
    cases eq
    obtain ⟨keeps,next,-⟩ := killLine_steady steady killed
    exact settle ⟨keeps, next⟩
  split at done
  · obtain ⟨u,erased,eq⟩ := map_ok done
    cases eq
    exact settle (backSpace_steady steady erased)
  split at done
  · next key =>
    obtain ⟨u,deleted,eq⟩ := map_ok done
    cases eq
    exact settle (deleteNumOfLine_steady steady (line key) deleted)
  split at done
  · next key =>
    obtain ⟨u,reversed,eq⟩ := map_ok done
    cases eq
    obtain ⟨word,held,rest⟩ := bind_ok reversed
    have fits := back key
    rw [held] at fits
    exact settle (word_steady steady (by rw [List.length_reverse]; exact fits) rest)
  split at done
  · next key =>
    obtain ⟨u,predicted,eq⟩ := map_ok done
    cases eq
    obtain ⟨index,found,rest⟩ := bind_ok predicted
    have fits := guess key
    rw [found] at fits
    cases index with
    | none =>
      cases rest
      exact ⟨steady, List.prefix_refl _⟩
    | some i =>
      obtain ⟨word,held,rest⟩ := bind_ok rest
      simp only [Predicted] at fits
      rw [held] at fits
      exact settle (word_steady steady (by rw [List.length_dropLast]; exact fits) rest)
  · exact ordinary_steady steady done

theorem output_input {l : List UInt8} {s t : Console} (done : outputAll l s = .ok t) :
    t.input = s.input := by
  induction l generalizing s with
  | nil =>
    cases done
    rfl
  | cons c l ih =>
    obtain ⟨u,echo,rest⟩ := bind_ok done
    rw [ih rest, consputc_input echo]

theorem next_ok {s t : State} {e : Event} (move : next s e = some t) : step s e = .ok (some t) := by
  unfold next at move
  split at move
  · next u stepped => rw [stepped, move]
  · cases move

theorem next_steady {s t : State} {e : Event} (steady : Steady s.con.input) (careful : Careful s e)
    (move : next s e = some t) : Steady t.con.input ∧ Unharmed s.con.input t.con.input e := by
  have move := next_ok move
  cases e with
  | key env c =>
    obtain ⟨⟨con,woken⟩,done,eq⟩ := map_ok move
    cases eq
    exact key_steady steady careful.1 careful.2.1 careful.2.2 done
  | output l =>
    obtain ⟨con,done,eq⟩ := map_ok move
    cases eq
    simp only [Unharmed, output_input done]
    exact ⟨steady, List.prefix_refl _⟩
  | read p n killed =>
    simp only [step, Except.ok.injEq] at move
    split at move
    · cases move
      exact drain_steady steady
    · cases move
  | resume p killed =>
    simp only [step, Except.ok.injEq] at move
    split at move
    · cases move
      exact drain_steady steady
    · cases move
  | rouse p =>
    simp only [step, Except.ok.injEq] at move
    split at move
    · cases move
      exact ⟨steady, List.prefix_refl _⟩
    · cases move

theorem steady_start (pos : Nat) : Steady (start pos).con.input := by
  exact ⟨rfl, Nat.le_refl _, show dist 0 0 ≤ 128 by decide⟩

theorem indices_kept {pos : Nat} {es : List Event} {s : State}
    (careful : Along next Careful (start pos) es)
    (run : exec next (start pos) es = some s) :
    Indices s.con.input ∧ ∀ e t, Careful s e → next s e = some t →
      Unharmed s.con.input t.con.input e := by
  have steady : Steady s.con.input :=
    exec_invariant (fun s => Steady s.con.input) (fun s e t steady ok move =>
      (next_steady steady ok move).1)
      (steady_start pos) careful run
  exact ⟨steady.indices, fun e t ok move => (next_steady steady ok move).2⟩

def blank : Env := ⟨fun _ => 0, fun _ => some 0, fun _ => some 0⟩

def keys (l : List UInt8) : List Event := l.map (.key blank)

theorem indices_kept_edited :
    ∃ s, exec next (start 2) (keys [97, 49, 98, 14, 18, 10, 99] ++ [.read 0 2 false]) = some s ∧
      s.con.input.unread = [10] ∧ (s.reader 0).dst = [98, 97] ∧ Indices s.con.input := by
  have careful : Along next Careful (start 2)
      (keys [97, 49, 98, 14, 18, 10, 99] ++ [.read 0 2 false]) := by
    decide +kernel
  have shape : (exec next (start 2) (keys [97, 49, 98, 14, 18, 10, 99] ++ [.read 0 2 false])).map
      (fun s => (s.con.input.unread, (s.reader 0).dst)) = some ([10], [98, 97]) := by decide +kernel
  obtain ⟨s,run,eq⟩ := Option.map_eq_some_iff.mp shape
  obtain ⟨left,taken⟩ := Prod.mk.inj eq
  exact ⟨s, run, left, taken, (indices_kept careful run).1⟩

def digits : List Event :=
  keys [49, 50, 51, 52, 53, 54, 55, 10] ++ [.output [97, 97, 97, 97, 97, 97, 97, 97, 97]]

/-- A line of digits is committed and not read; a program writes nine characters; ^N goes seven
    back from the end of an empty line and removes the digits. -/
theorem numbers_removed_from_unread :
    ∃ s t, exec next (start 2) digits = some s ∧ Indices s.con.input ∧
      s.con.input.unread = [49, 50, 51, 52, 53, 54, 55, 10] ∧
      exec next (start 2) (digits ++ [.key blank 14]) = some t ∧ t.con.input.w = 8 ∧
        t.con.input.e = 2 ∧
      ¬ Indices t.con.input ∧ t.con.input.unread.take 2 = [49, 10] := by
  have before : (exec next (start 2) digits).map
    (fun s => (decide (Indices s.con.input), s.con.input.unread)) =
      some (true, [49, 50, 51, 52, 53, 54, 55, 10]) := by decide +kernel
  have after : (exec next (start 2) (digits ++ [.key blank 14])).map
      (fun t => (t.con.input.w, t.con.input.e, decide (Indices t.con.input),
        t.con.input.unread.take 2)) =
      some (8, 2, false, [49, 10]) := by decide +kernel
  obtain ⟨s,run,eq⟩ := Option.map_eq_some_iff.mp before
  obtain ⟨t,longer,rest⟩ := Option.map_eq_some_iff.mp after
  simp only [Prod.mk.injEq, decide_eq_true_eq] at eq
  simp only [Prod.mk.injEq, decide_eq_false_iff_not] at rest
  exact ⟨s, t, run, eq.1, eq.2, longer, rest⟩

end ConsoleInput

import Xv6.Console.Indices

/- The console with its plain keys is a line editor: a queue of committed bytes and one pending
   line. -/
namespace ConsoleInput
open RingQueue RunLaws

structure Editor where
  queue : List UInt8
  line : List UInt8
  reader : Nat → Reader

namespace Editor

def type (c : UInt8) (a : Editor) : Editor :=
  if c ≠ 0 ∧ a.queue.length + a.line.length < inputBuf then
    let line := a.line ++ [enter c]
    if enter c = 10 ∨ enter c = 4 ∨ a.queue.length + line.length = inputBuf then
      ⟨a.queue ++ line, [], wakeup a.reader⟩
    else { a with line := line }
  else a

def press (c : UInt8) (a : Editor) : Editor :=
  if c = 16 then a
  else if c = 21 then { a with line := [] }
  else if c = 8 ∨ c = 127 then { a with line := a.line.dropLast }
  else a.type c

/-- A reader takes from the queue up to a newline. ^D ends a read; it stays when bytes were
    already returned. -/
def take (killed : Bool) (target : Nat) : Nat → List UInt8 → List UInt8 → List UInt8 × Reader
  | 0, queue, dst => (queue, ⟨.outside, target, 0, dst, some target⟩)
  | n + 1, [], dst =>
    if killed then ([], ⟨.outside, target, n + 1, dst, some (-1)⟩)
    else ([], ⟨.asleep, target, n + 1, dst, none⟩)
  | n + 1, c :: queue, dst =>
    if c = 4 then
      (if n + 1 < target then c :: queue else queue,
        ⟨.outside, target, n + 1, dst, some ((target : Int) - (n + 1))⟩)
    else if c = 10 then (queue, ⟨.outside, target, n, dst ++ [c], some ((target : Int) - n)⟩)
    else take killed target n queue (dst ++ [c])

def read (a : Editor) (p : Nat) (killed : Bool) (target n : Nat) (dst : List UInt8) : Editor :=
  let d := take killed target n a.queue dst
  { a with queue := d.1, reader := Function.update a.reader p d.2 }

def step (a : Editor) : Event → Option Editor
  | .key _ c => some (a.press c)
  | .output _ => some a
  | .read p n killed =>
    if (a.reader p).phase = .outside then some (a.read p killed n.toNat n.toNat []) else none
  | .resume p killed =>
    if (a.reader p).phase = .woken then
      some (a.read p killed (a.reader p).target (a.reader p).n (a.reader p).dst) else none
  | .rouse p =>
    if (a.reader p).phase = .asleep then
      some { a with reader := Function.update a.reader p { a.reader p with phase := .woken } }
        else none

def start : Editor := ⟨[], [], fun _ => ⟨.outside, 0, 0, [], none⟩⟩

end Editor

def Input.pending (i : Input) : List UInt8 :=
  (List.range (dist i.w i.e)).map fun x => i.cell (dist i.r i.w + x)

def view (s : State) : Editor := ⟨s.con.input.unread, s.con.input.pending, s.reader⟩

structure Plain (s : Console) : Prop where
  steady : Steady s.input
  screen : s.pos < 2000
  line : 10 ∉ s.input.pending

section Lists
variable {i j : Input}

theorem unread_length (i : Input) : i.unread.length = dist i.r i.w := by
  simp [Input.unread]

theorem pending_length (steady : Steady i) : dist i.r i.w + i.pending.length = dist i.r i.e := by
  have order := steady.order
  simp only [Input.pending, List.length_map, List.length_range, dist_between order]
  omega

theorem unread_append_pending (steady : Steady i) :
    i.unread ++ i.pending = (List.range (dist i.r i.e)).map i.cell := by
  have order := steady.order
  rw [← Nat.add_sub_cancel' order, List.range_add, List.map_append, List.map_map,
    ← dist_between order]
  rfl

theorem pending_shorter (r : j.r = i.r) (w : j.w = i.w) (order : dist i.r i.w ≤ dist i.r j.e)
    (shorter : dist i.r j.e + 1 = dist i.r i.e) (cells : ∀ x < dist i.r j.e, j.cell x = i.cell x) :
    j.pending = i.pending.dropLast := by
  have line := dist_between order
  have gap : dist i.w i.e = dist i.w j.e + 1 := by
    rw [dist_between (show dist i.r i.w ≤ dist i.r i.e by omega)]
    omega
  rw [Input.pending, Input.pending, gap, List.range_succ, List.map_append, List.map_singleton,
    List.dropLast_concat, r, w]
  refine List.map_congr_left fun x mem => cells _ ?_
  have := List.mem_range.mp mem
  omega

theorem typed_lists {c : UInt8} {w : UInt32} (steady : Steady i) (room : dist i.r i.e < inputBuf)
    (shape : j = { i.put i.e c with w := w, e := i.e + 1, end_ := i.e + 1 }) :
    (w = i.w → j.unread = i.unread ∧ j.pending = i.pending ++ [c]) ∧
    (w = i.e + 1 → j.unread = i.unread ++ (i.pending ++ [c]) ∧ j.pending = []) := by
  have order := steady.order
  have longer : dist i.r (i.e + 1) = dist i.r i.e + 1 :=
    dist_succ (by simp only [inputBuf] at room; omega)
  have r : j.r = i.r := by rw [shape]; rfl
  have cells : ∀ x < dist i.r i.e + 1, j.cell x = if x = dist i.r i.e then c else i.cell x := by
    intro x below
    rw [shape]
    exact put_cell room (by omega)
  have whole : (List.range (dist i.r i.e + 1)).map j.cell = i.unread ++ (i.pending ++ [c]) := by
    rw [← List.append_assoc, unread_append_pending steady, List.range_succ, List.map_append,
      List.map_singleton,
      cells _ (Nat.lt_succ_self _), if_pos rfl]
    congr 1
    exact List.map_congr_left fun x mem => by
      have := List.mem_range.mp mem
      rw [cells x (by omega), if_neg (by omega)]
  refine ⟨fun stays => ?_, fun goes => ?_⟩
  · have jw : j.w = i.w := by rw [shape, stays]
    have je : j.e = i.e + 1 := by rw [shape]
    have same : j.unread = i.unread := by
      rw [Input.unread, Input.unread, r, jw]
      exact List.map_congr_left fun x mem => by
        have := List.mem_range.mp mem
        rw [cells x (by omega), if_neg (by omega)]
    have next : Steady j := by
      refine ⟨by rw [shape], ?_, ?_⟩
      · rw [r, jw, je]
        omega
      · rw [r, je]
        omega
    refine ⟨same, List.append_cancel_left (show i.unread ++ _ = i.unread ++ _ from ?_)⟩
    rw [← whole, ← same, unread_append_pending next, r, je, longer]
  · have jw : j.w = i.e + 1 := by rw [shape, goes]
    have je : j.e = i.e + 1 := by rw [shape]
    refine ⟨?_, ?_⟩
    · rw [Input.unread, r, jw, longer]
      exact whole
    · rw [Input.pending, jw, je, dist_self]
      rfl

end Lists

section Keys
variable (env : Env) {s t : Console} {n : Nat}

theorem consputc_total (c : Option UInt8) (screen : s.pos < 2000) :
    ∃ p, p < 2000 ∧ consputc c s = .ok { s with pos := p } := by
  have moved : ∃ p, p < 2000 ∧ cgaputc c s.pos = .ok p := by
    have bound : advance c s.pos ≤ 2000 := by
      unfold advance
      split
      · omega
      · split <;> omega
    simp only [cgaputc]
    rw [if_neg (by omega)]
    split
    · exact ⟨_, by omega, rfl⟩
    · exact ⟨_, by omega, rfl⟩
  obtain ⟨p,bound,moved⟩ := moved
  exact ⟨p, bound, by rw [consputc, moved]; rfl⟩

/-- The index of a character that shift_input_left removes at the end of the line without
    leaving the array. -/
def Erasable (x : UInt32) : Prop :=
  x.toNat = 4294967295 ∨ x.toNat < 2147483647 ∨ (2147483648 ≤ x.toNat ∧ x.toNat % inputBuf = 0)

instance (x : UInt32) : Decidable (Erasable x) := inferInstanceAs (Decidable (_ ∨ _ ∨ _))

theorem shiftLeft_last {x : UInt32} (screen : s.pos < 2000) (ends : s.input.end_ = x + 1) :
    (Erasable x → ∃ i p, p < 2000 ∧
      shiftLeft env (s.input.end_.toNat - x.toNat) x s = .ok { s with input := i, pos := p }) ∧
    (¬ Erasable x → ∃ stop, shiftLeft env (s.input.end_.toNat - x.toNat) x s = .error stop) := by
  have bound := x.toNat_lt
  by_cases wraps : x.toNat = 4294967295
  · have rounds : s.input.end_.toNat - x.toNat = 0 := by
      rw [ends]
      simp only [UInt32.toNat_add, UInt32.reduceToNat]
      omega
    rw [rounds]
    exact ⟨fun _ => ⟨s.input, s.pos, screen, rfl⟩, fun not => absurd (.inl wraps) not⟩
  · have rounds : s.input.end_.toNat - x.toNat = 1 := by
      rw [ends]
      simp only [UInt32.toNat_add, UInt32.reduceToNat]
      omega
    have limit : x = 2147483647 ↔ x.toNat = 2147483647 := by
      rw [← UInt32.toNat_inj]
      rfl
    rw [rounds]
    simp only [shiftLeft]
    by_cases overflow : x.toNat = 2147483647
    · refine ⟨fun safe => ?_, fun _ => ⟨.undefined, ?_⟩⟩
      · simp only [Erasable] at safe
        omega
      · rw [succ, if_pos (limit.mpr overflow)]
        rfl
    · rw [succ, if_neg (mt limit.mp overflow)]
      simp only [Except.bind, Input.store, element]
      by_cases inside : x.toNat < 2147483648 ∨ x.toNat % inputBuf = 0
      · have safe : Erasable x := by
          simp only [Erasable]
          omega
        refine ⟨fun _ => ?_, fun not => absurd safe not⟩
        have last : ∀ (i : Input) (c : UInt8), ∃ j p, p < 2000 ∧
            ((consputc (some c) { s with input := i }).bind fun t => shiftLeft env 0 (x + 1) t) =
              .ok { s with input := j, pos := p } := by
          intro i c
          obtain ⟨p,low,echo⟩ := consputc_total (s := { s with input := i }) (some c) screen
          exact ⟨i, p, low, by rw [echo]; rfl⟩
        rw [if_pos inside]
        exact last _ _
      · refine ⟨fun safe => ?_, fun _ => ⟨.undefined, ?_⟩⟩
        · simp only [Erasable] at safe
          omega
        · rw [if_neg inside]

theorem erase_total (plain : Plain s) :
    (Erasable (s.input.e - 1) → ∃ i p, p < 2000 ∧
      erase env s = .ok { s with input := i, pos := p }) ∧
    (¬ Erasable (s.input.e - 1) → ∃ stop, erase env s = .error stop) := by
  obtain ⟨p,low,echo⟩ := consputc_total none plain.screen
  have ends : s.input.end_ = s.input.e - 1 + 1 := by
    rw [plain.steady.ends]
    exact (UInt32.sub_add_cancel ..).symm
  obtain ⟨safe,unsafe_⟩ := shiftLeft_last env (s := { s with pos := p }) low ends
  simp only [erase, echo, Except.bind, shiftInputLeft]
  refine ⟨fun good => ?_, fun bad => ?_⟩
  · obtain ⟨i,q,high,moved⟩ := safe good
    obtain ⟨q',bound,blank⟩ := consputc_total (s := { s with input := i, pos := q }) (some 32) high
    simp only [moved, blank, Except.map, changePos]
    exact ⟨_, p % 65536, by omega, rfl⟩
  · obtain ⟨stop,moved⟩ := unsafe_ bad
    simp only [moved]
    exact ⟨stop, rfl⟩

theorem erase_plain (plain : Plain s) (pending : s.input.e ≠ s.input.w)
    (safe : Erasable (s.input.e - 1)) :
    ∃ t, erase env s = .ok t ∧ Plain t ∧ Keeps s.input t.input ∧
      t.input.pending = s.input.pending.dropLast ∧
      dist t.input.r t.input.e + 1 = dist s.input.r s.input.e := by
  obtain ⟨i,p,low,erased⟩ := (erase_total env plain).1 safe
  obtain ⟨keeps,steady,shorter,cells⟩ := erase_steady plain.steady pending erased
  have order := steady.order
  simp only at keeps steady shorter cells order
  have line : i.pending = s.input.pending.dropLast := by
    rw [keeps.r] at shorter cells order
    rw [keeps.w] at order
    exact pending_shorter keeps.r keeps.w order shorter cells
  refine ⟨_, erased, ⟨steady, low, ?_⟩, keeps, line, shorter⟩
  simp only [line]
  exact fun mem => plain.line (List.mem_of_mem_dropLast mem)

theorem last_index {r w e : UInt32} {n : Nat} (count : dist r w + (n + 1) = dist r e) :
    e - 1 = w + UInt32.ofNat n := by
  have hr := r.toNat_lt
  have hw := w.toNat_lt
  have he := e.toNat_lt
  simp only [dist, UInt32.toNat_sub] at count
  apply UInt32.toNat_inj.mp
  simp only [UInt32.toNat_sub, UInt32.toNat_add, UInt32.toNat_ofNat', UInt32.reduceToNat]
  omega

theorem killLoop_plain (plain : Plain s)
    (count : dist s.input.r s.input.w + n = dist s.input.r s.input.e) :
    ((∀ k < n, Erasable (s.input.w + UInt32.ofNat k)) →
      ∃ t, killLoop env n s = .ok t ∧ Plain t ∧ Keeps s.input t.input ∧ t.input.pending = []) ∧
    ((¬ ∀ k < n, Erasable (s.input.w + UInt32.ofNat k)) →
      ∃ stop, killLoop env n s = .error stop) := by
  induction n generalizing s with
  | zero =>
    refine ⟨fun _ => ⟨s, rfl, plain, .refl _, ?_⟩,
      fun not => absurd (fun k below => absurd below (Nat.not_lt_zero k)) not⟩
    rw [Input.pending, dist_between plain.steady.order, ← count, Nat.add_zero, Nat.sub_self]
    rfl
  | succ n ih =>
    have pending : s.input.e ≠ s.input.w := by
      intro same
      rw [same] at count
      omega
    have index := last_index count
    have ordinary : s.input.get (s.input.e - 1) ≠ 10 := by
      have value : s.input.get (s.input.e - 1) = s.input.cell (dist s.input.r s.input.w + n) := by
        rw [Input.get, slot_index s.input.r, dist_pred (by omega), Input.cell, ← count]
        rfl
      intro newline
      refine plain.line (List.mem_map.mpr ⟨n, List.mem_range.mpr ?_, value ▸ newline⟩)
      rw [dist_between plain.steady.order]
      omega
    rw [killLoop, if_pos ⟨pending, ordinary⟩]
    by_cases safe : Erasable (s.input.e - 1)
    · obtain ⟨t,erased,next,keeps,-,shorter⟩ := erase_plain env plain pending safe
      obtain ⟨good,bad⟩ := ih next (by rw [keeps.r, keeps.w] at *; omega)
      rw [keeps.w] at good bad
      have split : (∀ k < n + 1, Erasable (s.input.w + UInt32.ofNat k)) ↔
          ∀ k < n, Erasable (s.input.w + UInt32.ofNat k) := by
        rw [index] at safe
        exact ⟨fun all k below => all k (by omega), fun all k below =>
          (Nat.lt_succ_iff_lt_or_eq.mp below).elim (all k) fun eq => eq ▸ safe⟩
      rw [split, erased]
      refine ⟨fun all => ?_, bad⟩
      obtain ⟨u,killed,plain',keeps',empty⟩ := good all
      exact ⟨u, killed, plain', keeps.trans keeps', empty⟩
    · refine ⟨fun all => absurd (index ▸ all n (Nat.lt_succ_self n)) safe, fun _ => ?_⟩
      obtain ⟨stop,erased⟩ := (erase_total env plain).2 safe
      exact ⟨stop, by rw [erased]; rfl⟩

def Ends (fetch : Nat → Option UInt8) : Nat → Nat → Prop
  | 0, _ => False
  | n + 1, k =>
    match fetch k with
    | none => False
    | some c => c = 0 ∨ Ends fetch n (k + 1)

instance decidableEnds (fetch : Nat → Option UInt8) : ∀ n k, Decidable (Ends fetch n k)
  | 0, _ => isFalse id
  | n + 1, k =>
    have : Decidable (match fetch k with
        | none => False
        | some c => c = 0 ∨ Ends fetch n (k + 1)) :=
      match fetch k with
      | none => isFalse id
      | some _ => have := decidableEnds fetch n (k + 1); inferInstanceAs (Decidable (_ ∨ _))
    this

theorem cstring_ends (fetch : Nat → Option UInt8) {k : Nat} :
    (Ends fetch n k → ∃ l, cstring fetch n k = .ok (l, true)) ∧
    (¬ Ends fetch n k → (∃ l, cstring fetch n k = .ok (l, false)) ∨
      ∃ stop, cstring fetch n k = .error stop) := by
  induction n generalizing k with
  | zero => exact ⟨fun impossible => impossible.elim, fun _ => .inl ⟨[], rfl⟩⟩
  | succ n ih =>
    rw [Ends, cstring]
    cases byte : fetch k with
    | none => exact ⟨fun impossible => impossible.elim, fun _ => .inr ⟨_, rfl⟩⟩
    | some c =>
      by_cases zero : c = 0
      · simp only [zero, true_or, not_true_eq_false, false_implies, and_true, if_true]
        exact fun _ => ⟨[], rfl⟩
      · simp only [zero, false_or, if_false]
        obtain ⟨good,bad⟩ := ih (k := k + 1)
        refine ⟨fun ends => ?_, fun not => ?_⟩
        · obtain ⟨l,read⟩ := good ends
          exact ⟨c :: l, by rw [read]; rfl⟩
        · rcases bad not with ⟨l,read⟩ | ⟨stop,read⟩
          · exact .inl ⟨c :: l, by rw [read]; rfl⟩
          · exact .inr ⟨stop, by rw [read]; rfl⟩

def Input.typed (i : Input) (c : UInt8) : Input :=
  { i.put i.e c with e := if c = 10 ∨ c = 4 then i.e else i.e + 1, end_ := i.e + 1 }

/-- The string at `input.buf + input.w` ends inside `command`, from the row that is next. -/
def HistoryFits (env : Env) (s : Console) (i : Input) : Prop :=
  Ends (memory env i) (3840 - 128 * (s.commandNum % 30)) i.w.toNat ∧ s.commandNum + 1 < 2147483647 ∧
    s.sizeCommand < 2147483647

instance (env : Env) (s : Console) (i : Input) : Decidable (HistoryFits env s i) :=
  inferInstanceAs (Decidable (_ ∧ _ ∧ _))

theorem commit_total :
    (HistoryFits env s s.input → ∃ t, commit env s = .ok t ∧ t.pos = s.pos) ∧
    (¬ HistoryFits env s s.input → ∃ stop, commit env s = .error stop) := by
  simp only [HistoryFits, commit, updateHistory, bump]
  obtain ⟨good,bad⟩ :=
    cstring_ends (memory env s.input) (n := 3840 - 128 * (s.commandNum % 30)) (k := s.input.w.toNat)
  by_cases ends : Ends (memory env s.input) (3840 - 128 * (s.commandNum % 30)) s.input.w.toNat
  · obtain ⟨l,read⟩ := good ends
    simp only [read, Except.bind, if_true, ends, true_and]
    refine ⟨fun small => ?_, fun not => ?_⟩
    · rw [if_pos (by omega)]
      simp only [Except.map]
      rw [if_pos small.2]
      simp only [if_pos small.1]
      exact ⟨_, rfl, rfl⟩
    · by_cases num : s.commandNum < 2147483647
      · rw [if_pos num]
        simp only [Except.map]
        by_cases size : s.sizeCommand < 2147483647
        · rw [if_pos size]
          simp only
          rw [if_neg (by omega)]
          exact ⟨_, rfl⟩
        · rw [if_neg size]
          exact ⟨_, rfl⟩
      · rw [if_neg num]
        exact ⟨_, rfl⟩
  · simp only [ends, false_and, false_implies, not_false_eq_true, true_implies, true_and]
    rcases bad ends with ⟨l,read⟩ | ⟨stop,read⟩
    · exact ⟨.undefined, by rw [read]; rfl⟩
    · exact ⟨stop, by rw [read]; rfl⟩

def Commits (i : Input) (c : UInt8) : Prop :=
  c ≠ 0 ∧ dist i.r i.e < inputBuf ∧ (enter c = 10 ∨ enter c = 4 ∨ dist i.r i.e + 1 = inputBuf)

instance (i : Input) (c : UInt8) : Decidable (Commits i c) :=
  inferInstanceAs (Decidable (_ ∧ _ ∧ _))

theorem typed_total {c : UInt8} (plain : Plain s) :
    ∃ p, p < 2000 ∧ typed env c s = .ok { s with input := s.input.typed c, pos := p } := by
  have screen := plain.screen
  have ends := plain.steady.ends
  unfold typed Input.typed
  by_cases last : c = 10 ∨ c = 4
  · simp only [if_pos last, ends, Input.put]
    exact ⟨s.pos, screen, rfl⟩
  · simp only [if_neg last, shiftInputRight, ends, Nat.sub_self, shiftRight, Except.map, changePos,
      Input.put]
    exact ⟨s.pos % 65536, by omega, rfl⟩

theorem ordinary_total {c : UInt8} (plain : Plain s) :
    ((Commits s.input c → HistoryFits env s (s.input.typed (enter c))) →
      ∃ t woken, ordinary env c s = .ok (t, woken) ∧ t.pos < 2000) ∧
    ((¬ (Commits s.input c → HistoryFits env s (s.input.typed (enter c)))) →
      ∃ stop, ordinary env c s = .error stop) := by
  obtain ⟨p,low,type_⟩ := typed_total env (c := enter c) plain
  obtain ⟨q,high,echo⟩ :=
    consputc_total (s := { s with input := s.input.typed (enter c), pos := p }) (some (enter c)) low
  have room : s.input.e - s.input.r < 128 ↔ dist s.input.r s.input.e < inputBuf :=
    UInt32.lt_iff_toNat_lt
  have full : dist s.input.r s.input.e < inputBuf → ¬ (enter c = 10 ∨ enter c = 4) →
      ((s.input.typed (enter c)).e = (s.input.typed (enter c)).r + 128 ↔
        dist s.input.r s.input.e + 1 = inputBuf) := by
    intro space plain
    have he := s.input.e.toNat_lt
    have hr := s.input.r.toNat_lt
    simp only [Input.typed, if_neg plain, Input.put, ← UInt32.toNat_inj, dist, inputBuf,
      UInt32.toNat_sub, UInt32.toNat_add,
      UInt32.reduceToNat] at space ⊢
    omega
  by_cases enters : c ≠ 0 ∧ s.input.e - s.input.r < 128
  · have space := room.mp enters.2
    simp only [ordinary, if_pos enters, type_, Except.bind, echo]
    by_cases now : enter c = 10 ∨ enter c = 4 ∨ dist s.input.r s.input.e + 1 = inputBuf
    · have cond : enter c = 10 ∨ enter c = 4 ∨
          (s.input.typed (enter c)).e = (s.input.typed (enter c)).r + 128 := by
        by_cases last : enter c = 10 ∨ enter c = 4
        · exact last.imp_right .inl
        · exact .inr (.inr ((full space last).mpr ((or_assoc.mpr now).resolve_left last)))
      have commits : Commits s.input c := ⟨enters.1, space, now⟩
      obtain ⟨good,bad⟩ := commit_total env
        (s := { s with input := s.input.typed (enter c), pos := q })
      simp only [if_pos cond, commits, true_implies]
      refine ⟨fun fits => ?_, fun not => ?_⟩
      · obtain ⟨t,done,pos⟩ := good fits
        exact ⟨t, true, by rw [done]; rfl, pos ▸ high⟩
      · obtain ⟨stop,done⟩ := bad not
        exact ⟨stop, by rw [done]; rfl⟩
    · have plain_ : ¬ (enter c = 10 ∨ enter c = 4) := fun last => now (last.imp_right .inl)
      have cond : ¬ (enter c = 10 ∨ enter c = 4 ∨
          (s.input.typed (enter c)).e = (s.input.typed (enter c)).r + 128) := by
        rintro (first | second | third)
        · exact plain_ (.inl first)
        · exact plain_ (.inr second)
        · exact now (.inr (.inr ((full space plain_).mp third)))
      have commits : ¬ Commits s.input c := fun commits => now commits.2.2
      simp only [if_neg cond, commits, false_implies, not_true_eq_false, and_true, true_implies]
      exact ⟨_, false, rfl, high⟩
  · have commits : ¬ Commits s.input c := fun commits => enters ⟨commits.1, room.mpr commits.2.1⟩
    simp only [ordinary, if_neg enters, commits, false_implies, not_true_eq_false, and_true,
      true_implies]
    exact ⟨s, false, rfl, plain.screen⟩

theorem ordinary_view {c : UInt8} {woken : Bool} (plain : Plain s) (reader : Nat → Reader)
    (done : ordinary env c s = .ok (t, woken)) :
    (⟨t.input.unread, t.input.pending, if woken then wakeup reader else reader⟩ : Editor) =
      Editor.type c ⟨s.input.unread, s.input.pending, reader⟩ ∧ 10 ∉ t.input.pending := by
  have total := pending_length plain.steady
  have queue := unread_length s.input
  have room : s.input.e - s.input.r < 128 ↔ dist s.input.r s.input.e < inputBuf :=
    UInt32.lt_iff_toNat_lt
  unfold Editor.type
  simp only [queue, total, List.length_append, List.length_singleton, ← Nat.add_assoc]
  rcases ordinary_input plain.steady done with ⟨refused,rfl,rfl⟩ | ⟨⟨key,space⟩,woke,shape⟩
  · rw [room] at refused
    rw [if_neg refused]
    exact ⟨rfl, plain.line⟩
  · have enters : c ≠ 0 ∧ dist s.input.r s.input.e < inputBuf := ⟨key, space⟩
    rw [if_pos enters]
    obtain ⟨stays,goes⟩ := typed_lists plain.steady space shape
    by_cases now : enter c = 10 ∨ enter c = 4 ∨ dist s.input.r s.input.e + 1 = inputBuf
    · obtain rfl : woken = true := woke.trans (decide_eq_true now)
      obtain ⟨unread,pending⟩ := goes rfl
      rw [if_pos now, unread, pending]
      exact ⟨rfl, by simp⟩
    · obtain rfl : woken = false := woke.trans (decide_eq_false now)
      obtain ⟨unread,pending⟩ := stays rfl
      rw [if_neg now, unread, pending]
      refine ⟨rfl, fun mem => ?_⟩
      rcases List.mem_append.mp mem with before | last
      · exact plain.line before
      · exact now (.inl (List.mem_singleton.mp last).symm)

end Keys

section Runs
variable {s t : State}

theorem drain_view {killed : Bool} {target n : Nat} {i : Input} {dst : List UInt8}
    (steady : Steady i) :
    ((drain killed target n i dst).1.unread, (drain killed target n i dst).2) =
      Editor.take killed target n i.unread dst := by
  induction n generalizing i dst with
  | zero => rw [drain, Editor.take]
  | succ n ih =>
    rw [drain]
    by_cases empty : i.r = i.w
    · have none_ : i.unread = [] := by
        rw [Input.unread, empty, dist_self]
        rfl
      rw [if_pos empty, none_, Editor.take]
      split <;> simp only [none_]
    · obtain ⟨next,front⟩ := read_steady steady empty
      have back : i.r + 1 - 1 = i.r := UInt32.add_sub_cancel ..
      simp only [if_neg empty, front, Editor.take]
      by_cases eof : i.get i.r = 4
      · simp only [if_pos eof, back]
        by_cases early : n + 1 < target
        · simp only [if_pos early]
          rw [front]
        · simp only [if_neg early]
      · simp only [if_neg eof]
        by_cases newline : i.get i.r = 10
        · simp only [if_pos newline]
        · simp only [if_neg newline]
          exact ih next

theorem drain_line {killed : Bool} {target n : Nat} {i : Input} {dst : List UInt8}
    (steady : Steady i) :
    (drain killed target n i dst).1.pending = i.pending := by
  have one : ∀ {i : Input}, Steady i → i.r ≠ i.w →
      Input.pending { i with r := i.r + 1 } = i.pending := by
    intro i steady bytes
    have live : 0 < dist i.r i.w := by
      refine Nat.pos_of_ne_zero fun none_ => bytes ?_
      rw [← dist_self (r := i.r)] at none_
      exact (dist_inj none_).symm
    have w := dist_left live
    refine List.map_congr_left fun x _ => ?_
    simp only [Input.cell]
    congr 1
    have hr := i.r.toNat_lt
    apply Fin.ext
    simp only [slot, inputBuf, UInt32.toNat_add, UInt32.reduceToNat]
    omega
  induction n generalizing i dst with
  | zero => rfl
  | succ n ih =>
    rw [drain]
    by_cases empty : i.r = i.w
    · rw [if_pos empty]
      split <;> rfl
    · obtain ⟨next,-⟩ := read_steady steady empty
      have back : i.r + 1 - 1 = i.r := UInt32.add_sub_cancel ..
      have line := one steady empty
      simp only [if_neg empty]
      split
      · split
        · simp only [back]
        · exact line
      · split
        · exact line
        · exact (ih next).trans line

def Basic : Event → Prop
  | .key _ c => c ≠ 14 ∧ c ≠ 18 ∧ c ≠ 9
  | _ => True

/-- The step stays inside the arrays: ^U and ^H erase at indices that are not negative as ints, and
    the string update_history copies ends inside `command`. -/
def Sound (s : State) : Event → Prop
  | .key env c =>
    (c = 21 → ∀ k < dist s.con.input.w s.con.input.e, Erasable (s.con.input.w + UInt32.ofNat k)) ∧
    (c = 8 ∨ c = 127 → s.con.input.e ≠ s.con.input.w → Erasable (s.con.input.e - 1)) ∧
    (c ≠ 16 ∧ c ≠ 21 ∧ c ≠ 8 ∧ c ≠ 127 → Commits s.con.input c →
      HistoryFits env s.con (s.con.input.typed (enter c)))
  | _ => True

instance (s : State) : ∀ e, Decidable (Sound s e)
  | .key _ _ => inferInstanceAs (Decidable (_ ∧ _ ∧ _))
  | .output _ => isTrue trivial
  | .read _ _ _ => isTrue trivial
  | .resume _ _ => isTrue trivial
  | .rouse _ => isTrue trivial

variable {env : Env} {c : UInt8}

theorem next_key {con : Console} {woken : Bool}
    (done : consoleintr env c s.con = .ok (con, woken)) :
    next s (.key env c) = some ⟨con, if woken then wakeup s.reader else s.reader⟩ := by
  simp only [next, step, done, Except.map]

theorem next_stop {stop : Stop} (done : consoleintr env c s.con = .error stop) :
    next s (.key env c) = none := by
  simp only [next, step, done, Except.map]

/-- The step is taken as the editor takes it, or the code leaves its arrays. -/
def Follows (s : State) (env : Env) (c : UInt8) : Prop :=
  (Sound s (.key env c) → ∃ t, next s (.key env c) = some t ∧ view t = (view s).press c ∧
    Plain t.con) ∧
  (¬ Sound s (.key env c) → next s (.key env c) = none)

theorem follows_kill (plain : Plain s.con) : Follows s env 21 := by
  have order := plain.steady.order
  have count : dist s.con.input.r s.con.input.w + dist s.con.input.w s.con.input.e =
      dist s.con.input.r s.con.input.e := by
    rw [dist_between order]
    omega
  have sound : Sound s (.key env 21) ↔
      ∀ k < dist s.con.input.w s.con.input.e, Erasable (s.con.input.w + UInt32.ofNat k) := by
    simp [Sound]
  have unfold_ : consoleintr env 21 s.con =
      (killLoop env (dist s.con.input.w s.con.input.e) s.con).map fun s => (s, false) := rfl
  obtain ⟨good,bad⟩ := killLoop_plain env plain count
  rw [Follows, sound]
  refine ⟨fun safe => ?_, fun not => ?_⟩
  · obtain ⟨t,killed,next_,keeps,empty⟩ := good safe
    rw [killed] at unfold_
    refine ⟨_, next_key unfold_, ?_, next_⟩
    simp only [view, keeps.unread, empty]
    rfl
  · obtain ⟨stop,killed⟩ := bad not
    rw [killed] at unfold_
    exact next_stop unfold_

theorem pending_empty {i : Input} (none_ : i.e = i.w) : i.pending = [] := by
  rw [Input.pending, none_, dist_self]
  rfl

theorem follows_back (plain : Plain s.con) (key : c = 8 ∨ c = 127) : Follows s env c := by
  have sound : Sound s (.key env c) ↔
      (s.con.input.e ≠ s.con.input.w → Erasable (s.con.input.e - 1)) := by
    rcases key with rfl | rfl <;> simp [Sound]
  have unfold_ : consoleintr env c s.con = (backSpace env s.con).map fun s => (s, false) := by
    rcases key with rfl | rfl <;> rfl
  have press : (view s).press c = { view s with line := (view s).line.dropLast } := by
    rcases key with rfl | rfl <;> rfl
  rw [Follows, sound, press]
  by_cases pending : s.con.input.e ≠ s.con.input.w
  · simp only [backSpace, if_pos pending] at unfold_
    refine ⟨fun safe => ?_, fun not => ?_⟩
    · obtain ⟨t,erased,next_,keeps,line,-⟩ := erase_plain env plain pending (safe pending)
      rw [erased] at unfold_
      refine ⟨_, next_key unfold_, ?_, next_⟩
      simp only [view, keeps.unread, line]
      rfl
    · obtain ⟨stop,erased⟩ := (erase_total env plain).2 fun safe => not fun _ => safe
      rw [erased] at unfold_
      exact next_stop unfold_
  · simp only [backSpace, if_neg pending] at unfold_
    refine ⟨fun _ => ⟨_, next_key unfold_, ?_, plain⟩,
      fun not => absurd (fun some_ => absurd some_ pending) not⟩
    simp only [view, pending_empty (not_not.mp pending)]
    rfl

theorem follows_ordinary (plain : Plain s.con) (basic : Basic (.key env c))
    (key : c ≠ 16 ∧ c ≠ 21 ∧ c ≠ 8 ∧ c ≠ 127) : Follows s env c := by
  obtain ⟨n,r,tab⟩ := basic
  have sound : Sound s (.key env c) ↔
      (Commits s.con.input c → HistoryFits env s.con (s.con.input.typed (enter c))) := by
    simp [Sound, key]
  have unfold_ : consoleintr env c s.con = ordinary env c s.con := by
    simp only [consoleintr, key, n, r, tab, or_self, if_false]
  have press : (view s).press c = (view s).type c := by
    simp only [Editor.press, key, or_self, if_false]
  obtain ⟨good,bad⟩ := ordinary_total env (c := c) plain
  rw [Follows, sound, press]
  refine ⟨fun fits => ?_, fun not => ?_⟩
  · obtain ⟨t,woken,done,screen⟩ := good fits
    obtain ⟨same,line⟩ := ordinary_view env plain s.reader done
    obtain ⟨steady,-⟩ := ordinary_steady plain.steady done
    exact ⟨_, next_key (unfold_.trans done), same, steady, screen, line⟩
  · obtain ⟨stop,done⟩ := bad not
    exact next_stop (unfold_.trans done)

theorem follows_key (plain : Plain s.con) (basic : Basic (.key env c)) : Follows s env c := by
  by_cases p : c = 16
  · subst p
    have same : consoleintr env 16 s.con = .ok (s.con, false) := rfl
    refine ⟨fun _ => ⟨_, next_key same, rfl, plain⟩, fun not => ?_⟩
    simp [Sound] at not
  by_cases u : c = 21
  · exact u ▸ follows_kill plain
  by_cases h : c = 8 ∨ c = 127
  · exact follows_back plain h
  · exact follows_ordinary plain basic ⟨p, u, fun eq => h (.inl eq), fun eq => h (.inr eq)⟩

theorem outputAll_total {l : List UInt8} {con : Console} (screen : con.pos < 2000) :
    ∃ p, p < 2000 ∧ outputAll l con = .ok { con with pos := p } := by
  induction l generalizing con with
  | nil => exact ⟨con.pos, screen, rfl⟩
  | cons c l ih =>
    obtain ⟨p,low,echo⟩ := consputc_total (some c) screen
    obtain ⟨q,high,rest⟩ := ih (show ({ con with pos := p } : Console).pos < 2000 from low)
    exact ⟨q, high, by rw [outputAll, echo]; exact rest⟩

theorem read_view (p : Nat) (killed : Bool) (target n : Nat) (dst : List UInt8)
    (plain : Plain s.con) :
    view (s.drain p killed target n dst) = (view s).read p killed target n dst ∧
      Plain (s.drain p killed target n dst).con := by
  have same : (_, _) = Editor.take killed target n s.con.input.unread dst := drain_view plain.steady
  have line : (drain killed target n s.con.input dst).1.pending = s.con.input.pending :=
    drain_line plain.steady
  have steady : Steady (drain killed target n s.con.input dst).1 := (drain_steady plain.steady).1
  refine ⟨?_, steady, plain.screen, ?_⟩
  · simp only [view, Editor.read, State.drain, line, ← same]
  · simp only [State.drain, line]
    exact plain.line

theorem follows_step {e : Event} {b : Editor} (plain : Plain s.con) (basic : Basic e)
    (move : (view s).step e = some b) :
    (Sound s e → ∃ t, next s e = some t ∧ view t = b ∧ Plain t.con) ∧
      (¬ Sound s e → next s e = none) := by
  cases e with
  | key env c =>
    obtain ⟨rfl⟩ := move
    exact follows_key plain basic
  | output l =>
    obtain ⟨rfl⟩ := move
    obtain ⟨p,low,done⟩ := outputAll_total (l := l) plain.screen
    refine ⟨fun _ => ⟨{ s with con := { s.con with pos := p } }, ?_, rfl, plain.steady, low,
      plain.line⟩, fun not => absurd trivial not⟩
    simp only [next, step, done, Except.map]
  | read p n killed =>
    simp only [Editor.step] at move
    split at move
    · next outside =>
      obtain ⟨rfl⟩ := move
      obtain ⟨same,plain'⟩ := read_view p killed n.toNat n.toNat [] plain
      refine ⟨fun _ => ⟨_, ?_, same, plain'⟩, fun not => absurd trivial not⟩
      simp only [next, step]
      exact if_pos outside
    · cases move
  | resume p killed =>
    simp only [Editor.step] at move
    split at move
    · next woken =>
      obtain ⟨rfl⟩ := move
      obtain ⟨same,plain'⟩ :=
        read_view p killed (s.reader p).target (s.reader p).n (s.reader p).dst plain
      refine ⟨fun _ => ⟨_, ?_, same, plain'⟩, fun not => absurd trivial not⟩
      simp only [next, step]
      exact if_pos woken
    · cases move
  | rouse p =>
    simp only [Editor.step] at move
    split at move
    · next asleep =>
      obtain ⟨rfl⟩ := move
      refine ⟨fun _ =>
        ⟨{ s with reader := Function.update s.reader p { s.reader p with phase := .woken } }, ?_,
          rfl, plain⟩,
        fun not => absurd trivial not⟩
      simp only [next, step]
      exact if_pos asleep
    · cases move

theorem plain_start {pos : Nat} (screen : pos < 2000) : Plain (start pos).con :=
  ⟨steady_start pos, screen, by simp [start, Input.pending, dist]⟩

theorem view_start (pos : Nat) : view (start pos) = Editor.start := by
  simp [view, start, Input.unread, Input.pending, dist, Editor.start]

theorem view_run (plain : Plain s.con) {es : List Event} (basic : ∀ e ∈ es, Basic e)
    (legal : (exec Editor.step (view s) es).isSome) :
    (exec next s es).map view = exec Editor.step (view s) es ↔ Along next Sound s es := by
  have follow : ∀ s e b, Plain s.con → Basic e → Editor.step (view s) e = some b →
      (Sound s e → ∃ t, next s e = some t ∧ view t = b ∧ Plain t.con) ∧
        (¬ Sound s e → next s e = none) :=
    fun s e b plain basic move => follows_step plain basic move
  exact exec_map_iff (fun s => Plain s.con) follow plain basic legal

theorem refines_editor {pos : Nat} (screen : pos < 2000) {es : List Event}
    (basic : ∀ e ∈ es, Basic e)
    (legal : (exec Editor.step Editor.start es).isSome) :
    (exec next (start pos) es).map view = exec Editor.step Editor.start es ↔
      Along next Sound (start pos) es := by
  rw [← view_start pos] at legal ⊢
  exact view_run (plain_start screen) basic legal

def lines : List Event := keys [97, 98, 8, 99, 21, 100, 101, 13] ++ [.read 0 2 false,
    .read 0 9 false, .read 1 1 false, .key blank 4, .resume 1 false]

theorem refines_editor_lines :
    ∃ s a, exec next (start 2) lines = some s ∧ exec Editor.step Editor.start lines = some a ∧
      view s = a ∧
      (a.reader 0).dst = [10] ∧ (a.reader 1).result = some 0 := by
  have sound : Along next Sound (start 2) lines := by decide +kernel
  have shape : (exec Editor.step Editor.start lines).map
    (fun a => ((a.reader 0).dst, (a.reader 1).result)) =
      some ([10], some 0) := by decide +kernel
  obtain ⟨a,run,eq⟩ := Option.map_eq_some_iff.mp shape
  obtain ⟨dst,result⟩ := Prod.mk.inj eq
  have basic : ∀ e ∈ lines, Basic e := by
    simp [lines, keys, Basic]
  have agree := (refines_editor (by decide) basic (by rw [run]; rfl)).mpr sound
  rw [run] at agree
  obtain ⟨s,moved,same⟩ := Option.map_eq_some_iff.mp agree
  exact ⟨s, a, moved, run, same, dst, result⟩

/-- Zero bytes behind `input` up to `base`, where the free memory begins: a page that kfree has
    filled with ones, between its link and the next page. -/
def freed (base : Nat) : Env :=
  ⟨fun _ => 0, fun k => some (if base ≤ k ∧ k < base + 4092 then 1 else 0), fun _ => some 0⟩

def newlines (base : Nat) : Nat → List Event
  | 0 => []
  | n + 1 => newlines base n ++ [.key (freed base) 10, .read 0 1 false]

structure AtRest (x : Nat) (s : State) : Prop where
  r : s.con.input.r = UInt32.ofNat x
  w : s.con.input.w = UInt32.ofNat x
  e : s.con.input.e = UInt32.ofNat x
  ends : s.con.input.end_ = UInt32.ofNat x
  screen : s.con.pos < 2000
  num : s.con.commandNum = 2 * x
  size : s.con.sizeCommand = x
  idle : (s.reader 0).phase = .outside

instance (x : Nat) (s : State) : Decidable (AtRest x s) :=
  decidable_of_iff
    (s.con.input.r = UInt32.ofNat x ∧ s.con.input.w = UInt32.ofNat x ∧
      s.con.input.e = UInt32.ofNat x ∧ s.con.input.end_ = UInt32.ofNat x ∧ s.con.pos < 2000 ∧
      s.con.commandNum = 2 * x ∧ s.con.sizeCommand = x ∧ (s.reader 0).phase = .outside)
    ⟨fun ⟨r, w, e, ends, screen, num, size, idle⟩ => ⟨r, w, e, ends, screen, num, size, idle⟩,
      fun ⟨r, w, e, ends, screen, num, size, idle⟩ => ⟨r, w, e, ends, screen, num, size, idle⟩⟩

theorem memory_behind {x : Nat} (env : Env) (i : Input) (behind : 144 ≤ x)
    (small : x < 4294967296) :
    memory env i x = env.after x := by
  simp only [memory, Nat.mod_eq_of_lt small, inputBuf]
  rw [dif_neg (by omega), if_neg (by omega), if_neg (by omega), if_neg (by omega),
    if_neg (by omega)]

theorem ofNat_value {x : Nat} (small : x < 1073741823) : (UInt32.ofNat x).toNat = x :=
  UInt32.toNat_ofNat_of_lt' (by simp only [UInt32.size]; omega)

theorem ofNat_succ (x : Nat) : UInt32.ofNat x + 1 = UInt32.ofNat (x + 1) := by
  simp only [← UInt32.toNat_inj, UInt32.toNat_add, UInt32.toNat_ofNat', UInt32.reduceToNat]
  omega

theorem rows_left (num : Nat) : ∃ m, 3840 - 128 * (num % 30) = m + 1 :=
  ⟨3840 - 128 * (num % 30) - 1, by omega⟩

theorem commit_blank (env : Env) {s : Console}
    (zero : memory env s.input s.input.w.toNat = some 0)
    (num : s.commandNum + 1 < 2147483647) (size : s.sizeCommand < 2147483647) :
    ∃ command, commit env s = .ok { s with
      command := command, commandNum := s.commandNum + 2, sizeCommand := s.sizeCommand + 1
      input := { s.input with e := s.input.end_, w := s.input.end_ } } := by
  obtain ⟨m,rows⟩ := rows_left s.commandNum
  have empty : cstring (memory env s.input) (3840 - 128 * (s.commandNum % 30)) s.input.w.toNat =
      .ok ([], true) := by
    rw [rows, cstring, zero]
    rfl
  simp only [commit, updateHistory, bump, empty, Except.bind, Except.map, if_true,
    if_pos (show s.commandNum < 2147483647 by omega), if_pos num, if_pos size]
  exact ⟨_, rfl⟩

theorem newline_stored (env : Env) {x : Nat} (rest : AtRest x s) :
    ∃ q < 2000, consoleintr env 10 s.con = (commit env { s.con with
      pos := q
      input := { s.con.input.put (UInt32.ofNat x) 10 with end_ := UInt32.ofNat (x + 1) } }).map
        fun t => (t, true) := by
  have space : (10 : UInt8) ≠ 0 ∧ s.con.input.e - s.con.input.r < 128 := by
    rw [rest.e, rest.r, UInt32.sub_self]
    decide
  have stored : typed env 10 s.con = .ok { s.con with
      input := { s.con.input.put (UInt32.ofNat x) 10 with end_ := UInt32.ofNat (x + 1) } } := by
    simp only [typed, true_or, if_true, rest.ends, Input.put, ofNat_succ]
  obtain ⟨q,bound,echo⟩ := consputc_total (some 10) (s := { s.con with
    input :=
      { s.con.input.put (UInt32.ofNat x) 10 with end_ := UInt32.ofNat (x + 1) } }) rest.screen
  refine ⟨q, bound, ?_⟩
  rw [show consoleintr env 10 s.con = ordinary env 10 s.con from rfl, ordinary, if_pos space]
  rw [show enter 10 = 10 from rfl, stored]
  simp only [Except.bind]
  rw [echo]
  simp only [true_or, if_true]

theorem newline_read {x : Nat} (outside : (s.reader 0).phase = .outside)
    (r : s.con.input.r = UInt32.ofNat x) (w : s.con.input.w = UInt32.ofNat x + 1)
    (byte : s.con.input.get (UInt32.ofNat x) = 10) (apart : UInt32.ofNat x ≠ UInt32.ofNat x + 1) :
    next s (.read 0 1 false) = some
      ⟨{ s.con with input := { s.con.input with r := UInt32.ofNat x + 1 } },
        Function.update s.reader 0 ⟨.outside, 1, 0, [10], some 1⟩⟩ := by
  simp only [next, step, outside, if_true, State.drain, Int.toNat_one, drain, r, w, if_neg apart,
    byte]
  rfl

theorem newline_at_rest (env : Env) {x : Nat} (rest : AtRest x s) (behind : 144 ≤ x)
    (small : x < 1073741823) (zero : env.after x = some 0) :
    ∃ t, exec next s [.key env 10, .read 0 1 false] = some t ∧ AtRest (x + 1) t := by
  have value := ofNat_value small
  have apart : UInt32.ofNat x ≠ UInt32.ofNat x + 1 := by
    simp only [ne_eq, ← UInt32.toNat_inj, UInt32.toNat_add, value, UInt32.reduceToNat]
    omega
  obtain ⟨q,bound,stored⟩ := newline_stored env rest
  obtain ⟨command,done⟩ := commit_blank env (s := { s.con with
      pos := q
      input := { s.con.input.put (UInt32.ofNat x) 10 with end_ := UInt32.ofNat (x + 1) } })
    (by
      simp only [Input.put, rest.w, value]
      rw [memory_behind env _ behind (by omega), zero])
    (by simp only [rest.num]; omega) (by simp only [rest.size]; omega)
  rw [done] at stored
  have idle : ((wakeup s.reader) 0).phase = .outside := by
    rw [wakeup, if_neg (by rw [rest.idle]; decide), rest.idle]
  have byte : (s.con.input.put (UInt32.ofNat x) 10).get (UInt32.ofNat x) = 10 :=
    Function.update_self ..
  refine ⟨_, exec_cons_iff.mpr ⟨_, next_key stored,
      exec_cons_iff.mpr ⟨_, newline_read idle rest.r (ofNat_succ x).symm byte apart, rfl⟩⟩,
    ofNat_succ x, rfl, rfl, rfl, bound, ?_, ?_, ?_⟩
  · simp only [rest.num]
    omega
  · simp only [rest.size]
  · simp

theorem newlines_at_rest (base : Nat) {n : Nat}
    (start_ : ∃ s, exec next (start 2) (newlines base 144) =
    some s ∧ AtRest 144 s) (behind : 144 ≤ n) (here : n ≤ base) (small : base < 1073741823) :
    ∃ s, exec next (start 2) (newlines base n) = some s ∧ AtRest n s := by
  induction n, behind using Nat.le_induction with
  | base => exact start_
  | succ x behind ih =>
    obtain ⟨s,run,rest⟩ := ih (by omega)
    obtain ⟨t,move,rest⟩ := newline_at_rest (freed base) rest behind (by omega)
      (by simp only [freed]; rw [if_neg (by omega)])
    exact ⟨t, by rw [newlines, exec_append, run]; exact move, rest⟩

theorem cstring_ones {fetch : Nat → Option UInt8} {m k : Nat}
    (ones : ∀ j < m, fetch (k + j) = some 1) : ∃ l, cstring fetch m k = .ok (l, false) := by
  induction m generalizing k with
  | zero => exact ⟨[], rfl⟩
  | succ m ih =>
    obtain ⟨l,rest⟩ := ih (k := k + 1) fun j below => by
      rw [Nat.add_right_comm]
      exact ones (j + 1) (by omega)
    refine ⟨1 :: l, ?_⟩
    rw [cstring, show fetch k = some 1 from ones 0 (by omega), rest]
    rfl

theorem newline_undefined {base : Nat} (rest : AtRest base s) (behind : 144 ≤ base)
    (small : base < 1073741823) : step s (.key (freed base) 10) = .error .undefined := by
  have value := ofNat_value small
  obtain ⟨q,-,stored⟩ := newline_stored (freed base) rest
  have ones : ∀ i : Input, ∀ j < 3840 - 128 * (s.con.commandNum % 30),
      memory (freed base) i (base + j) = some 1 := by
    intro i j below
    rw [memory_behind _ _ (by omega) (by omega)]
    simp only [freed]
    rw [if_pos (by omega)]
  obtain ⟨l,long⟩ := cstring_ones (ones { s.con.input.put (UInt32.ofNat base) 10 with
    end_ := UInt32.ofNat (base + 1) })
  simp only [step, stored, commit, updateHistory]
  simp only [Input.put, rest.w, value] at long ⊢
  rw [long]
  rfl

/-- After sixty thousand bytes `input.buf + input.w` has reached the free pages: the newline is
    stored, and update_history copies the string there over the end of `command`. -/
theorem history_leaves_command :
    ∃ s, exec next (start 2) (newlines 61444 61444) = some s ∧ (view s).queue = [] ∧
      (view s).line = [] ∧ step s (.key (freed 61444) 10) = .error .undefined ∧
      ((view s).press 10).queue = [10] := by
  -- the first 144 strings start inside `input`
  have inside : ∃ s, exec next (start 2) (newlines 61444 144) = some s ∧ AtRest 144 s := by
    have runs : (exec next (start 2) (newlines 61444 144)).map (fun s => decide (AtRest 144 s)) =
        some true := by decide +kernel
    obtain ⟨s,run,rest⟩ := Option.map_eq_some_iff.mp runs
    exact ⟨s, run, of_decide_eq_true rest⟩
  obtain ⟨s,run,rest⟩ := newlines_at_rest 61444 inside (by decide) (Nat.le_refl 61444)
    (by decide)
  have queue : (view s).queue = [] := by
    simp [view, Input.unread, rest.r, rest.w, dist]
  have line : (view s).line = [] := pending_empty (rest.e.trans rest.w.symm)
  refine ⟨s, run, queue, line, newline_undefined rest (by decide) (by decide), ?_⟩
  simp [Editor.press, Editor.type, queue, line, enter, inputBuf]

end Runs

end ConsoleInput

import Xv6.Lib.Bytes
import Xv6.Vm.Private

/- copyout: bytes of the kernel go to user addresses page by page. uva2ka reads the entry that
   walkpgdir finds without asking whether there is one. -/
namespace PhysicalPages

variable {l : Layout} {m m' : Mem} {g : Hold} {free : List Nat} {d r va : Nat} {buf : List UInt8}

def Mem.bytes (m : Mem) (r k : Nat) : UInt8 := UInt8.ofNat (m.word r (k / 4) / 256 ^ (k % 4))

def words (b : Nat → UInt8) (i : Nat) : Nat := Bytes.number (Bytes.load b (4 * i) 4)

def Mem.memmove (m : Mem) (r off : Nat) (bs : List UInt8) : Mem :=
  m.fill r (words (Bytes.store (m.bytes r) off bs))

/-- The page that the kernel finds behind the user's page `a`, none for the null pointer. No
    value is a read through the null pointer, where there is no page table. -/
def uva2ka (d a : Nat) (m : Mem) : Option (Option Nat) :=
  match walkpgdir d a false m with
  | (none, _) => none
  | (some t, m) =>
    let pte := m.word t (a % 1024)
    if !present pte then some none
    else if pte / 4 % 2 = 0 then some none
    -- P2V of KERNBASE itself is the null pointer
    else if frame pte = kernbase then some none
    else some (some (frame pte))

/-- The loop of copyout, which takes a byte at least each time round. -/
def copyoutLoop (d : Nat) : Nat → Nat → List UInt8 → Mem → Option (Bool × Mem)
  | 0, _, _, m => some (true, m)
  | n + 1, va, buf, m =>
    if buf.length = 0 then some (true, m)
    else match uva2ka d (va / 4096) m with
      | none => none
      | some none => some (false, m)
      | some (some r) =>
        let len := min (4096 - va % 4096) buf.length
        copyoutLoop d n ((va / 4096 * 4096 + 4096) % 4294967296) (buf.drop len)
          (m.memmove r (va % 4096) (buf.take len))

/-- False is the result -1. -/
def copyout (d va : Nat) (buf : List UInt8) (m : Mem) : Option (Bool × Mem) :=
  copyoutLoop d buf.length va buf m

def userPage (m : Mem) (d a : Nat) : Option Nat :=
  if present (pteAt m d a) = true ∧ pteAt m d a / 4 % 2 = 1 then some (frame (pteAt m d a))
  else none

def pageOf (va j : Nat) : Nat := (va + j) % 4294967296 / 4096

def Accessible (m : Mem) (d va len : Nat) : Prop :=
  ∀ j < len, (userPage m d (pageOf va j)).isSome = true

structure CopiesOut (m m' : Mem) (d va : Nat) (buf : List UInt8) (ok : Bool) : Prop where
  result : ok = true ↔ Accessible m d va buf.length
  written : ok = true → ∀ j (inside : j < buf.length) x, userPage m d (pageOf va j) = some x →
    m'.bytes x ((va + j) % 4096) = buf.get ⟨j, inside⟩
  others : ok = true → ∀ x k, k < 4096 →
    (∀ j < buf.length, userPage m d (pageOf va j) = some x → (va + j) % 4096 ≠ k) →
    m'.bytes x k = m.bytes x k
  confined : ∀ x, (∀ a, userPage m d a ≠ some x) → m'.word x = m.word x

section Bytes

theorem bytes_words (b : Nat → UInt8) (k : Nat) :
    UInt8.ofNat (words b (k / 4) / 256 ^ (k % 4)) = b k := by
  have inside : k % 4 < (Bytes.load b (4 * (k / 4)) 4).length := by
    rw [Bytes.length_load]
    omega
  rw [words, Bytes.digit_number _ _ inside]
  simp only [List.get_eq_getElem, Bytes.load, List.getElem_map, List.getElem_range]
  rw [Nat.div_add_mod]

theorem memmove_bytes (off : Nat) (bs : List UInt8) :
    (m.memmove r off bs).bytes r = Bytes.store (m.bytes r) off bs := by
  funext k
  rw [Mem.bytes, Mem.memmove, Mem.fill]
  simp only [Function.update_self]
  exact bytes_words _ k

theorem memmove_other {x : Nat} (off : Nat) (bs : List UInt8) (other : x ≠ r) :
    (m.memmove r off bs).word x = m.word x :=
  fill_other other

theorem bytes_congr {x : Nat} (same : m'.word x = m.word x) (k : Nat) :
    m'.bytes x k = m.bytes x k := by
  rw [Mem.bytes, Mem.bytes, same]

end Bytes

section Pages

theorem userPage_congr (same : ∀ b, pteAt m' d b = pteAt m d b) (a : Nat) :
    userPage m' d a = userPage m d a := by
  rw [userPage, userPage, same]

theorem uva2ka_eq {a : Nat} (inside : a / 1024 < 1024)
    (frames : ∀ x, userPage m d a = some x → x ≠ kernbase) :
    uva2ka d a m = if (tableAt m d (a / 1024)).isSome then some (userPage m d a) else none := by
  rw [uva2ka, walk_false, ← tableAt_eq inside]
  cases found : tableAt m d (a / 1024) with
  | none => rfl
  | some t =>
    have pte := pteAt_some found
    simp only [← pte, Option.isSome_some, if_true]
    rw [userPage] at frames ⊢
    by_cases mapped : present (pteAt m d a) = true
    · by_cases user : pteAt m d a / 4 % 2 = 1
      · have other := frames _ (if_pos ⟨mapped, user⟩)
        simp [mapped, user, other]
      · have none_ : pteAt m d a / 4 % 2 = 0 := by omega
        simp [mapped, none_]
    · simp [mapped]

theorem pageOf_first {j : Nat} (low : va < 4294967296) (first : j < 4096 - va % 4096) :
    pageOf va j = va / 4096 ∧ (va + j) % 4096 = va % 4096 + j := by
  rw [pageOf]
  omega

theorem pageOf_later (va j : Nat) :
    pageOf ((va / 4096 * 4096 + 4096) % 4294967296) j = pageOf va (4096 - va % 4096 + j) ∧
    ((va / 4096 * 4096 + 4096) % 4294967296 + j) % 4096 = (va + (4096 - va % 4096 + j)) % 4096 := by
  simp only [pageOf]
  omega

end Pages

section Copying

/-- copyout reaches a page without a page table. -/
def Faults (m : Mem) (d va len : Nat) : Prop :=
  ∃ j < len, Accessible m d va j ∧ tableAt m d (pageOf va j / 1024) = none

/-- The user's half of a directory has the pages with PTE_U, and they are pages of the user. -/
structure Directory (l : Layout) (m : Mem) (g : Hold) (free : List Nat) (d : Nat) : Prop where
  good : Good l m g free
  alive : g.live d = true
  low : l.phystop ≤ kernbase
  supervisor : ∀ a, kernbase ≤ a → userPage m d a = none

namespace Directory

variable (dir : Directory l m g free d)
include dir

theorem user {a x : Nat} (page : userPage m d a = some x) : held m g (.user d a) = some x := by
  have low : a < kernbase := by
    by_contra high
    rw [dir.supervisor a (by omega)] at page
    cases page
  rw [userPage] at page
  split at page
  · next flags =>
    cases page
    simp only [held, dir.alive, if_true]
    rw [userAt_pte, if_pos ⟨low, flags.1⟩]
  · cases page

theorem frames {a x : Nat} (page : userPage m d a = some x) : x ≠ kernbase := by
  have inside := (dir.good.allocatable (dir.user page)).2
  have := dir.low
  omega

theorem store {a x : Nat} (page : userPage m d a = some x) (off : Nat) (bs : List UInt8) :
    Directory l (m.memmove x off bs) g free d ∧
      (∀ b, pteAt (m.memmove x off bs) d b = pteAt m d b) ∧
      ∀ i, tableAt (m.memmove x off bs) d i = tableAt m d i := by
  have here := dir.user page
  have loose := dir.good.loose_user here
  have other : ∀ z, z ≠ x → (m.memmove x off bs).word z = m.word z := fun z ne => fill_other ne
  have entries := pteAt_write loose dir.alive other
  refine ⟨⟨fill_held dir.good here loose _, dir.alive, dir.low, fun b high => ?_⟩, entries, ?_⟩
  · rw [userPage_congr entries, dir.supervisor b high]
  · exact (same_of_held (held_congr loose other) dir.alive).1

end Directory

theorem copiesOut_nil (m : Mem) (d va : Nat) (none_ : buf.length = 0) :
    ¬ Faults m d va buf.length ∧ CopiesOut m m d va buf true := by
  constructor
  · rintro ⟨j,inside,-⟩
    omega
  · exact ⟨⟨fun _ j inside => by omega, fun _ => rfl⟩, fun _ j inside => by omega, fun _ _ _ _ _ =>
      rfl, fun _ _ => rfl⟩

section Pass

/- The loop has been through the page of `va` and goes on with the memory `m₁` behind it. -/
variable {m₁ : Mem} {total len c : Nat} (low : va < 4294967296)
  (cut : len = min (4096 - va % 4096) total)
  (page : (userPage m d (va / 4096)).isSome = true) (same : ∀ a, userPage m₁ d a = userPage m d a)
include low cut page same

theorem accessible_pass (short : c ≤ total) :
    Accessible m d va c ↔ Accessible m₁ d ((va / 4096 * 4096 + 4096) % 4294967296) (c - len) := by
  constructor
  · intro all j inside
    have full : len = 4096 - va % 4096 := by omega
    rw [same, (pageOf_later va j).1, ← full]
    exact all (len + j) (by omega)
  · intro all j inside
    by_cases first : j < len
    · rw [(pageOf_first low (by omega)).1]
      exact page
    · have full : len = 4096 - va % 4096 := by omega
      have later := all (j - len) (by omega)
      rwa [same, (pageOf_later va _).1, ← full, Nat.add_sub_cancel' (by omega)] at later

theorem faults_pass (table : tableAt m d (va / 4096 / 1024) ≠ none)
    (tables : ∀ i, tableAt m₁ d i = tableAt m d i) :
    Faults m d va total ↔ Faults m₁ d ((va / 4096 * 4096 + 4096) % 4294967296) (total - len) := by
  constructor
  · rintro ⟨j,inside,all,none_⟩
    have later : len ≤ j := by
      by_contra first
      rw [(pageOf_first low (by omega)).1] at none_
      exact table none_
    have full : len = 4096 - va % 4096 := by omega
    refine ⟨j - len, by omega, (accessible_pass low cut page same (by omega)).mp all, ?_⟩
    rw [tables, (pageOf_later va _).1, ← full, Nat.add_sub_cancel' later]
    exact none_
  · rintro ⟨j,inside,all,none_⟩
    have full : len = 4096 - va % 4096 := by omega
    refine ⟨len + j, by omega, (accessible_pass low cut page same (by omega)).mpr
      (by rwa [Nat.add_sub_cancel_left]), ?_⟩
    rwa [tables, (pageOf_later va j).1, ← full] at none_

end Pass

theorem copiesOut_pass {len : Nat} {x : Nat} {ok : Bool} (dir : Directory l m g free d)
    (low : va < 4294967296) (small : buf.length ≤ 4294967296)
    (cut : len = min (4096 - va % 4096) buf.length) (page : userPage m d (va / 4096) = some x)
    (rest : CopiesOut (m.memmove x (va % 4096) (buf.take len)) m' d
      ((va / 4096 * 4096 + 4096) % 4294967296) (buf.drop len) ok) :
    CopiesOut m m' d va buf ok := by
  have same := userPage_congr (dir.store page (va % 4096) (buf.take len)).2.1
  have length : (buf.drop len).length = buf.length - len := List.length_drop
  -- where the byte `j` goes
  have first : ∀ {j}, j < len → pageOf va j = va / 4096 ∧ (va + j) % 4096 = va % 4096 + j :=
    fun below => pageOf_first low (by omega)
  have later : ∀ {j}, len ≤ j → j < buf.length →
      pageOf ((va / 4096 * 4096 + 4096) % 4294967296) (j - len) = pageOf va j ∧
      ((va / 4096 * 4096 + 4096) % 4294967296 + (j - len)) % 4096 = (va + j) % 4096 := by
    intro j above inside
    have full : len = 4096 - va % 4096 := by omega
    have := pageOf_later va (j - len)
    rwa [← full, Nat.add_sub_cancel' above] at this
  refine ⟨?_, fun done j inside y there => ?_, fun done y k small_ not => ?_, fun y not => ?_⟩
  · rw [rest.result, length]
    exact (accessible_pass low cut (by rw [page]; rfl) same (Nat.le_refl _)).symm
  · by_cases below : j < len
    · obtain ⟨here,offset⟩ := first below
      rw [here, page] at there
      cases there
      -- no later byte goes to the same place
      have kept :=
        rest.others done x ((va + j) % 4096) (Nat.mod_lt _ (by decide)) fun i under at_ clash => ?_
      · rw [kept, memmove_bytes, offset,
          Bytes.store_inside (by omega) (by rw [List.length_take]; omega)]
        simp
      · rw [same] at at_
        have place := dir.good.once_at (dir.user at_) (dir.user page)
        simp only [Place.user.injEq, true_and] at place
        rw [length] at under
        have shift := later (j := i + len) (by omega) (by omega)
        rw [Nat.add_sub_cancel] at shift
        rw [shift.1, pageOf] at place
        rw [shift.2, offset] at clash
        omega
    · obtain ⟨there_,offset⟩ := later (Nat.not_lt.mp below) inside
      have value :=
        rest.written done (j - len) (by rw [length]; omega) y (by rw [same, there_]; exact there)
      rw [offset] at value
      rw [value]
      simp [Nat.add_sub_cancel' (Nat.not_lt.mp below)]
  · rw [rest.others done y k small_ fun j inside at_ => ?_]
    · by_cases mine : y = x
      · subst mine
        rw [memmove_bytes, Bytes.store_outside]
        by_contra between
        rw [List.length_take] at between
        have below : k - va % 4096 < len := by omega
        refine not (k - va % 4096) (by omega) (by rw [(first below).1]; exact page) ?_
        rw [(first below).2]
        omega
      · exact bytes_congr (memmove_other _ _ mine) k
    · rw [length] at inside
      have shift := later (j := j + len) (by omega) (by omega)
      rw [Nat.add_sub_cancel] at shift
      rw [same, shift.1] at at_
      rw [shift.2]
      exact not (j + len) (by omega) at_
  · rw [rest.confined y fun a => by rw [same]; exact not a]
    refine memmove_other _ _ ?_
    rintro rfl
    exact not _ page

theorem copyoutLoop_spec {n : Nat} (dir : Directory l m g free d) (low : va < 4294967296)
    (enough : buf.length ≤ n)
    (small : buf.length ≤ 4294967296) :
    (Faults m d va buf.length ∧ copyoutLoop d n va buf m = none) ∨
      (¬ Faults m d va buf.length ∧ ∃ ok m', copyoutLoop d n va buf m = some (ok, m') ∧
        CopiesOut m m' d va buf ok) := by
  induction n generalizing va buf m with
  | zero =>
    obtain ⟨safe,copies⟩ := copiesOut_nil m d va (show buf.length = 0 by omega)
    exact .inr ⟨safe, true, m, rfl, copies⟩
  | succ n ih =>
    rw [copyoutLoop]
    by_cases none_ : buf.length = 0
    · obtain ⟨safe,copies⟩ := copiesOut_nil m d va none_
      exact .inr ⟨safe, true, m, if_pos none_, copies⟩
    rw [if_neg none_, uva2ka_eq (by omega) fun x page => dir.frames page]
    obtain ⟨start,-⟩ := pageOf_first (j := 0) low (by omega)
    cases table : tableAt m d (va / 4096 / 1024) with
    | none =>
      exact .inl ⟨⟨0, by omega, fun j inside => absurd inside (Nat.not_lt_zero j),
        by rw [start]; exact table⟩, rfl⟩
    | some t =>
      cases page : userPage m d (va / 4096) with
      | none =>
        have stuck : ¬ Accessible m d va buf.length := fun all => by
          have := all 0 (by omega)
          rw [start, page] at this
          cases this
        have failed : CopiesOut m m d va buf false :=
          ⟨⟨fun eq => (by cases eq), fun all => absurd all stuck⟩, fun eq => (by cases eq),
            fun eq => (by cases eq), fun _ _ => rfl⟩
        refine .inr ⟨?_, false, m, rfl, failed⟩
        rintro ⟨j,inside,all,missing⟩
        cases j with
        | zero =>
          rw [start, table] at missing
          cases missing
        | succ j =>
          have := all 0 (by omega)
          rw [start, page] at this
          cases this
      | some x =>
        obtain ⟨dir₁,entries,tables⟩ :=
          dir.store page (va % 4096) (buf.take (min (4096 - va % 4096) buf.length))
        have length : (buf.drop (min (4096 - va % 4096) buf.length)).length = buf.length - min
            (4096 - va % 4096) buf.length := List.length_drop
        have faults := faults_pass low
          (show min (4096 - va % 4096) buf.length = min (4096 - va % 4096) buf.length from rfl)
            (by rw [page]; rfl) (userPage_congr entries) (by simp [table]) tables
        have next := @ih _ ((va / 4096 * 4096 + 4096) % 4294967296)
          (buf.drop (min (4096 - va % 4096) buf.length)) dir₁
          (Nat.mod_lt _ (by decide)) (by rw [length]; omega) (by rw [length]; omega)
        rw [length, ← faults] at next
        rcases next with ⟨fault,stops⟩ | ⟨safe,ok,m',done,copies⟩
        · exact .inl ⟨fault, stops⟩
        · exact .inr ⟨safe, ok, m', done, copiesOut_pass dir low small rfl page copies⟩

end Copying

/-- copyout does what it is to do unless it comes to a page without a page table, all pages
    before it being the user's. -/
theorem copyout_safe_iff (dir : Directory l m g free d) (low : va < 4294967296)
    (small : buf.length < 4294967296) :
    (∃ ok m', copyout d va buf m = some (ok, m') ∧ CopiesOut m m' d va buf ok) ↔
      ∀ j < buf.length, Accessible m d va j → (tableAt m d (pageOf va j / 1024)).isSome = true := by
  have safe : (∀ j < buf.length, Accessible m d va j →
      (tableAt m d (pageOf va j / 1024)).isSome = true) ↔ ¬ Faults m d va buf.length := by
    constructor
    · rintro all ⟨j,inside,before,none_⟩
      have := all j inside before
      rw [none_] at this
      cases this
    · intro safe j inside before
      by_contra none_
      exact safe ⟨j, inside, before, Option.not_isSome_iff_eq_none.mp none_⟩
  rw [safe]
  rcases copyoutLoop_spec dir low (Nat.le_refl buf.length) (Nat.le_of_lt small)
    with ⟨fault,stops⟩ | ⟨fine,ok,m',done,copies⟩
  · refine iff_of_false ?_ (not_not.mpr fault)
    rintro ⟨ok,m',done,-⟩
    rw [copyout, stops] at done
    cases done
  · exact iff_of_true ⟨ok, m', done, copies⟩ fine

theorem Fresh.supervisor {m₀ : Mem} (fresh : Fresh l g m₀ m d)
    (perms : ∀ k ∈ l.kmap, k.perm / 4 % 2 = 0) (a : Nat) :
    userPage m d a = none := by
  by_cases mem : a ∈ spanned l.kmap
  · obtain ⟨k,mem,low,high⟩ := mem
    have value := fresh.kernel k mem (a - k.virt) (by omega)
    rw [Nat.add_sub_cancel' low] at value
    have flag := perms k mem
    rw [userPage, value, if_neg]
    rintro ⟨-,user⟩
    rw [entry] at user
    omega
  · rw [userPage, fresh.rest a mem, if_neg (by simp [present])]

theorem copyout_safe_iff_page : ∃ d m₁ m₂, setupkvm small smallStart.mem = some (some d, m₁) ∧
    allocuvm small d 0 4096 m₁ = some (4096, m₂) ∧
    ∃ ok m', copyout d 100 [1, 2, 3] m₂ = some (ok, m') ∧ CopiesOut m₂ m' d 100 [1, 2, 3] ok := by
  have made : ((setupkvm small smallStart.mem).map fun r => r.1.map fun d =>
      (allocuvm small d 0 4096 r.2).map fun q =>
        (q.1, (tableAt q.2 d 0).isSome)) = some (some (some (4096, true))) := by decide +kernel
  obtain ⟨⟨found,m₁⟩,setup,seen⟩ := Option.map_eq_some_iff.mp made
  obtain ⟨d,rfl,seen⟩ := Option.map_eq_some_iff.mp seen
  obtain ⟨⟨size,m₂⟩,grown,eq⟩ := Option.map_eq_some_iff.mp seen
  obtain ⟨rfl,table⟩ := Prod.mk.inj eq
  obtain ⟨g,free,owned⟩ := small_booted.owned
  obtain ⟨free₁,-,-,succeeded⟩ := setupkvm_good owned.good small_valid owned.idle setup
  obtain ⟨dead,good₁,empty,fresh⟩ := succeeded d rfl
  have alive : (g.add d).live d = true := Function.update_self ..
  obtain ⟨r,m,free₂,done,good₂,keeps,-⟩ :=
    allocuvm_total 0 4096 good₁ small_valid.first alive (owned.idle.spare 0)
    (owned.idle.spare 1) fun b _ => empty b
  rw [grown] at done
  cases done
  have dir : Directory small m₂ (g.add d) free₂ d := by
    refine ⟨good₂, alive, by decide, fun a high => ?_⟩
    have out : a ∉ Set.Ico (pages 0) (pages 4096) := fun mem => by
      have := mem.2
      simp only [pages, kernbase] at this high
      omega
    rw [userPage, keeps.entries a out]
    exact fresh.supervisor (by decide) a
  refine ⟨d, m₁, m₂, setup, grown,
    (copyout_safe_iff dir (by decide) (by decide)).mpr fun j inside _ => ?_⟩
  have first : pageOf 100 j / 1024 = 0 := by
    have inside : j < 3 := inside
    simp only [pageOf]
    omega
  rw [first]
  exact table

/-- The stack pointer exec computes for an argument of `len` bytes, `(sp - (strlen + 1)) & ~3`. -/
def pushed (sp len : Nat) : Nat := (sp + 4294967296 - (len + 1)) % 4294967296 / 4 * 4

def onePage : Image := ⟨true, [⟨true, true, 0, 4096, 4096, true⟩], true⟩

theorem copyout_null (low : va < 4294967296) (some_ : buf.length ≠ 0)
    (none_ : tableAt m d (va / 4096 / 1024) = none) :
    copyout d va buf m = none := by
  have inside : va / 4096 / 1024 < 1024 := by omega
  obtain ⟨n,length⟩ := Nat.exists_eq_succ_of_ne_zero some_
  rw [copyout, length, Nat.succ_eq_add_one, copyoutLoop, if_neg some_, uva2ka, walk_false,
    ← tableAt_eq inside, none_]

/-- exec pushes an argument of 33566720 bytes below a stack that ends at 12288. -/
theorem copyout_reads_null : ∃ d m, load small onePage smallStart.mem = some (some (d, 12288), m) ∧
    copyout d (pushed 12288 33566720) (List.replicate 33566721 97) m = none := by
  have loaded : (load small onePage smallStart.mem).map (fun r => r.1.map fun i =>
    (i.2, tableAt r.2 i.1 (pushed 12288 33566720 / 4096 / 1024))) =
      some (some (12288, none)) := by decide +kernel
  obtain ⟨⟨found,m⟩,done,seen⟩ := Option.map_eq_some_iff.mp loaded
  obtain ⟨⟨d,sz⟩,rfl,eq⟩ := Option.map_eq_some_iff.mp seen
  obtain ⟨rfl,none_⟩ := Prod.mk.inj eq
  exact ⟨d, m, done, copyout_null (by decide) (by rw [List.length_replicate]; decide) none_⟩

end PhysicalPages

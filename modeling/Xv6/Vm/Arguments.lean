import Xv6.Vm.Exec

/- The arguments of a new program: the strings, the vector that points to them and the three
   words the program starts with, all in its stack page. -/
namespace Exec
open PhysicalPages

variable {l : Layout} {m m' : Mem} {g : Hold} {free : List Nat} {d top sp : Nat}

def byteAt (m : Mem) (d v : Nat) : Option UInt8 :=
  (userPage m d (v / 4096)).map fun x => m.bytes x (v % 4096)

def kept (m : Mem) (d v : Nat) : Option UInt8 :=
  (userAt m d (v / 4096)).map fun x => m.bytes x (v % 4096)

def StoredAt (m : Mem) (d v : Nat) (bs : List UInt8) : Prop :=
  ∀ j < bs.length, byteAt m d (v + j) = bs[j]?

def WordAt (m : Mem) (d v w : Nat) : Prop := w < 4294967296 ∧ StoredAt m d v (Bytes.digits 4 w)

/-- What the program finds from its stack pointer on, with `sz` the end of its stack page and the
    strings at `ptr`. -/
structure Passed (m : Mem) (d sz esp : Nat) (argv : List (List UInt8)) (ptr : Nat → Nat) :
    Prop where
  -- all of it is in the page
  stack : sz ≤ esp + 4096 ∧ esp + 16 + 4 * argv.length ≤ sz
  pc : WordAt m d esp 4294967295
  argc : WordAt m d (esp + 4) argv.length
  vector : WordAt m d (esp + 8) (esp + 12)
  entries : ∀ i < argv.length, WordAt m d (esp + 12 + 4 * i) (ptr i)
  null : WordAt m d (esp + 12 + 4 * argv.length) 0
  strings : ∀ i s, argv[i]? = some s → StoredAt m d (ptr i) (s ++ [0])
  -- the strings lie above the vector and below the end of the page
  above : ∀ i s, argv[i]? = some s → esp + 16 + 4 * argv.length ≤ ptr i ∧ ptr i + s.length + 1 ≤ sz
  -- each below the one before
  apart : ∀ i j s, i < j → argv[j]? = some s → ptr j + s.length + 1 ≤ ptr i

section Pushing

/-- A copy that ends at most three bytes below `sp` and does not touch the guard page lies in the
    stack page. -/
theorem lands {va n len : Nat} (stacked : Stacked m d top) (inside : top ≤ sp + 4096 ∧ sp ≤ top)
    (some_ : 0 < len) (cut : len ≤ n ∧ n ≤ len + 3)
    (short : n ≤ 4294967296) (place : va = (sp + 4294967296 - n) % 4294967296)
    (all : Accessible m d va len) :
    top ≤ va + 4096 ∧ va + n = sp := by
  have aligned := stacked.aligned
  have room := stacked.room
  have low := stacked.low
  by_cases below : sp < top - 4096 + n
  · -- the last byte below the stack page that is copied
    obtain ⟨y,under,upper,from_,before⟩ : ∃ y, y < top - 4096 ∧ top - 4100 ≤ y ∧ sp ≤ y + n ∧
        y + (n - len) < sp := by
      by_cases ends : sp - (n - len) < top - 4096
      · exact ⟨sp - (n - len) - 1, by omega⟩
      · exact ⟨top - 4097, by omega⟩
    have guard := all (y + n - sp) (by omega)
    have page : pageOf va (y + n - sp) = top / 4096 - 2 := by
      have sum : sp + 4294967296 - n + (y + n - sp) = y + 4294967296 := by omega
      rw [pageOf, place, Nat.mod_add_mod, sum, Nat.add_mod_right, Nat.mod_eq_of_lt (by omega)]
      omega
    rw [page, stacked.guard] at guard
    cases guard
  · have exact_ : va = sp - n := by
      rw [place, show sp + 4294967296 - n = sp - n + 4294967296 by omega, Nat.add_mod_right,
        Nat.mod_eq_of_lt (by omega)]
    omega

structure Below (l : Layout) (g : Hold) (free : List Nat) (d top sp : Nat) (m m' : Mem) : Prop where
  dir : Directory l m' g free d
  entries : ∀ b, pteAt m' d b = pteAt m d b
  higher : ∀ v, sp ≤ v → byteAt m' d v = byteAt m d v
  lower : ∀ v, v + 4096 < top → kept m' d v = kept m d v

theorem Below.refl (dir : Directory l m g free d) : Below l g free d top sp m m :=
  ⟨dir, fun _ => rfl, fun _ _ => rfl, fun _ _ => rfl⟩

theorem Below.trans {m'' : Mem} {sp' : Nat} (first : Below l g free d top sp m m')
    (second : Below l g free d top sp' m' m'') (order : sp' ≤ sp) :
    Below l g free d top sp m m'' :=
  ⟨second.dir, fun b => (second.entries b).trans (first.entries b), fun v from_ =>
    (second.higher v (by omega)).trans (first.higher v from_),
    fun v below => (second.lower v below).trans (first.lower v below)⟩

theorem Stacked.after (stacked : Stacked m d top) (entries : ∀ b, pteAt m' d b = pteAt m d b) :
    Stacked m' d top := by
  refine ⟨stacked.aligned, stacked.room, stacked.low, fun b => ?_, ?_⟩
  · rw [userAt_pte, entries, ← userAt_pte]
    exact stacked.spans b
  · rw [userPage_congr entries, stacked.guard]

theorem push_spec {va n : Nat} {buf : List UInt8} (dir : Directory l m g free d)
    (stacked : Stacked m d top) (inside : top ≤ sp + 4096 ∧ sp ≤ top)
    (some_ : 0 < buf.length) (cut : buf.length ≤ n ∧ n ≤ buf.length + 3) (short : n ≤ 4294967296)
    (place : va = (sp + 4294967296 - n) % 4294967296)
    (call : copyout d va buf m = some (true, m')) :
    top ≤ va + 4096 ∧ va + n = sp ∧ Below l g free d top sp m m' ∧ StoredAt m' d va buf := by
  have small : va < 4294967296 := by
    rw [place]
    exact Nat.mod_lt _ (by decide)
  rcases copyoutLoop_spec dir small (Nat.le_refl buf.length) (by omega)
    with ⟨-,stops⟩ | ⟨-,ok,m₁,done,copies⟩
  · rw [copyout, stops] at call
    cases call
  obtain ⟨rfl,rfl⟩ : ok = true ∧ m₁ = m' := by
    rw [copyout, done] at call
    cases call
    exact ⟨rfl, rfl⟩
  have all := copies.result.mp rfl
  obtain ⟨low,ends⟩ := lands stacked inside some_ cut short place all
  have top_ := stacked.low
  have flat : ∀ j < buf.length, pageOf va j = (va + j) / 4096 := by
    intro j below
    rw [pageOf, Nat.mod_eq_of_lt (by omega)]
  -- where another byte of the stack page or any byte below it is, nothing is copied to
  have apart : ∀ b x, userAt m d b = some x → ∀ j < buf.length,
      userPage m d (pageOf va j) = some x → (va + j) / 4096 = b := by
    intro b x here j below there
    have same := dir.good.once_at (dir.user there)
      (show held m g (.user d b) = some x by simp [held, dir.alive, here])
    rw [flat j below] at same
    cases same
    rfl
  obtain ⟨good,kept_⟩ := confined_good dir.good dir.alive (copyoutLoop_freelist done) fun x out =>
    copies.confined x fun a at_ => out a (by
      have here := dir.user at_
      simpa only [held, dir.alive, if_true] using here)
  have pages_ := userPage_congr kept_.entries
  refine ⟨low, ends, ⟨⟨good, dir.alive, dir.low, fun a high =>
    (pages_ a).trans (dir.supervisor a high)⟩, kept_.entries, fun v from_ => ?_,
    fun v below => ?_⟩, fun j below => ?_⟩
  · rw [byteAt, byteAt, pages_]
    cases page : userPage m d (v / 4096) with
    | none => rfl
    | some x =>
      have here := dir.user page
      simp only [held, dir.alive, if_true] at here
      refine congrArg some (copies.others rfl x (v % 4096) (Nat.mod_lt _ (by decide))
        fun j below there offset => ?_)
      have := apart _ x here j below there
      omega
  · rw [kept, kept, kept_.users]
    cases page : userAt m d (v / 4096) with
    | none => rfl
    | some x =>
      refine congrArg some (copies.others rfl x (v % 4096) (Nat.mod_lt _ (by decide))
        fun j below there offset => ?_)
      have := apart _ x page j below there
      omega
  · obtain ⟨x,page⟩ := Option.isSome_iff_exists.mp (all j below)
    have value := copies.written rfl j below x page
    rw [flat j below] at page
    rw [byteAt, pages_, page, Option.map_some, value, List.getElem?_eq_getElem below]
    rfl

theorem pushed_eq {len : Nat} (aligned : sp % 4 = 0) (short : len + 1 < 4294967296) :
    ∃ n, pushed sp len = (sp + 4294967296 - n) % 4294967296 ∧
    (len + 1 ≤ n ∧ n ≤ len + 1 + 3) ∧ n ≤ 4294967296 ∧ n % 4 = 0 := by
  refine ⟨(len + 4) / 4 * 4, ?_, by omega, by omega, by omega⟩
  have whole : (sp + 4294967296 - (len + 1)) / 4 * 4 = sp + 4294967296 - (len + 4) / 4 * 4 :=
    by omega
  rw [pushed, ← whole]
  omega

inductive Laid (m : Mem) (d lo : Nat) : Nat → List (List UInt8) → List Nat → Prop where
  | nil {hi : Nat} (low : lo ≤ hi) : Laid m d lo hi [] []
  | cons {hi v : Nat} {s : List UInt8} {ss : List (List UInt8)} {vs : List Nat} (below : v +
    s.length + 1 ≤ hi) (stored : StoredAt m d v (s ++ [0]))
      (rest : Laid m d lo v ss vs) : Laid m d lo hi (s :: ss) (v :: vs)

namespace Laid

variable {lo hi : Nat} {ss : List (List UInt8)} {vs : List Nat}

theorem low (laid : Laid m d lo hi ss vs) : lo ≤ hi := by
  induction laid with
  | nil low => exact low
  | cons below _ _ ih => omega

theorem length (laid : Laid m d lo hi ss vs) : vs.length = ss.length := by
  induction laid with
  | nil _ => rfl
  | cons _ _ _ ih => rw [List.length_cons, List.length_cons, ih]

theorem congr (laid : Laid m d lo hi ss vs) (same : ∀ v, lo ≤ v → byteAt m' d v = byteAt m d v) :
    Laid m' d lo hi ss vs := by
  induction laid with
  | nil low => exact .nil low
  | cons below stored rest ih =>
    exact .cons below (fun j inside => (same _ (by have := rest.low; omega)).trans
      (stored j inside)) ih

theorem at_ (laid : Laid m d lo hi ss vs) {i : Nat} {s : List UInt8} (arg : ss[i]? = some s) :
    StoredAt m d (vs.getD i 0) (s ++ [0]) ∧ lo ≤ vs.getD i 0 ∧ vs.getD i 0 + s.length + 1 ≤ hi := by
  induction laid generalizing i with
  | nil _ => cases arg
  | cons below stored rest ih =>
    cases i with
    | zero =>
      cases arg
      exact ⟨stored, rest.low, below⟩
    | succ i =>
      obtain ⟨there,upper,under⟩ := ih arg
      exact ⟨there, upper, by simp only [List.getD_cons_succ]; omega⟩

theorem apart (laid : Laid m d lo hi ss vs) {i j : Nat} {s : List UInt8} (order : i < j)
    (arg : ss[j]? = some s) :
    vs.getD j 0 + s.length + 1 ≤ vs.getD i 0 := by
  induction laid generalizing i j with
  | nil _ => cases arg
  | cons below stored rest ih =>
    obtain ⟨k,rfl⟩ := Nat.exists_eq_add_one_of_ne_zero (Nat.ne_of_gt (Nat.zero_lt_of_lt order))
    cases i with
    | zero => exact (rest.at_ arg).2.2
    | succ i => exact ih (by omega) arg

end Laid

theorem StoredAt.congr {v : Nat} {bs : List UInt8} (stored : StoredAt m d v bs)
    (same : ∀ a, v ≤ a → byteAt m' d a = byteAt m d a) :
    StoredAt m' d v bs := fun j inside => (same _ (by omega)).trans (stored j inside)

theorem StoredAt.word {v k w : Nat} {ws : List Nat}
    (stored : StoredAt m d v (ws.flatMap (Bytes.digits 4))) (here : ws[k]? = some w)
    (small : w < 4294967296) : WordAt m d (v + 4 * k) w := by
  refine ⟨small, fun j inside => ?_⟩
  rw [Bytes.length_digits] at inside
  obtain ⟨bound,value⟩ := List.getElem?_eq_some_iff.mp here
  have record := Bytes.take_drop_flatMap (Bytes.length_digits 4) bound
  rw [List.get_eq_getElem, value] at record
  rw [Nat.add_assoc, stored (4 * k + j)
    (by rw [Bytes.length_records (Bytes.length_digits 4)]; omega), ← record,
    List.getElem?_take_of_lt inside, List.getElem?_drop]

theorem pushStrings_spec {args : List (List UInt8)} {argc lo : Nat} {vs : List Nat}
    (dir : Directory l m g free d) (stacked : Stacked m d top)
    (inside : top ≤ sp + 4096 ∧ sp ≤ top) (aligned : sp % 4 = 0)
    (short : ∀ a ∈ args, a.length + 1 < 4294967296)
    (call : pushStrings copyout d args argc sp m = some (some (lo, vs), m')) :
    argc + args.length ≤ max argc maxArg ∧ (top ≤ lo + 4096 ∧ lo ≤ sp) ∧
      Below l g free d top sp m m' ∧ Laid m' d lo sp args vs := by
  induction args generalizing argc sp m vs with
  | nil =>
    cases call
    exact ⟨Nat.le_max_left .., ⟨inside.1, Nat.le_refl _⟩, .refl dir, .nil (Nat.le_refl _)⟩
  | cons arg args ih =>
    rw [pushStrings] at call
    split at call
    · cases call
    rename_i few
    obtain ⟨⟨ok,m₁⟩,copied,call⟩ := Option.bind_eq_some_iff.mp call
    cases ok with
    | false => cases call
    | true =>
      obtain ⟨⟨found,m₂⟩,rest,eq⟩ := Option.map_eq_some_iff.mp call
      cases found with
      | none => cases eq
      | some v =>
        obtain ⟨lo',vs'⟩ := v
        cases eq
        have length : (arg ++ [0]).length = arg.length + 1 := by simp
        obtain ⟨n,place,cut,most,fours⟩ := pushed_eq aligned (short arg (by simp))
        obtain ⟨low,ends,below,stored⟩ :=
          push_spec dir stacked inside (by omega) (by omega) most place copied
        obtain ⟨count,bounds,below',laid⟩ :=
          ih below.dir (stacked.after below.entries) ⟨low, by omega⟩ (by omega)
          (fun a mem => short a (List.mem_cons_of_mem _ mem)) rest
        exact ⟨by rw [List.length_cons]; omega, ⟨bounds.1, by omega⟩, below.trans below' (by omega),
          .cons (by omega) (stored.congr below'.higher) laid⟩

theorem pushArgs_spec {argv : List (List UInt8)} {esp : Nat} (dir : Directory l m g free d)
    (stacked : Stacked m d top)
    (short : ∀ a ∈ argv, a.length + 1 < 4294967296)
    (call : pushArgs copyout d argv top m = some (some esp, m')) :
    Below l g free d top top m m' ∧ ∃ ptr, Passed m' d top esp argv ptr := by
  obtain ⟨⟨found,m₁⟩,strings,call⟩ := Option.bind_eq_some_iff.mp call
  cases found with
  | none => cases call
  | some v =>
    obtain ⟨lo,vs⟩ := v
    obtain ⟨⟨ok,m₂⟩,copied,eq⟩ := Option.map_eq_some_iff.mp call
    cases ok with
    | false => cases eq
    | true =>
      obtain ⟨place,rfl⟩ : belowVector argv.length lo = esp ∧ m₂ = m' := by
        cases eq
        exact ⟨rfl, rfl⟩
      have copied' : copyout d esp ((ustack argv.length lo vs).flatMap (Bytes.digits 4)) m₁ = some
          (true, m₂) := place ▸ copied
      have fours := stacked.aligned
      have high := stacked.low
      obtain ⟨few,bounds,below,laid⟩ :=
        pushStrings_spec dir stacked ⟨by omega, Nat.le_refl _⟩ (by omega) short strings
      have count := laid.length
      simp only [maxArg] at few
      have length : ((ustack argv.length lo vs).flatMap (Bytes.digits 4)).length =
          (3 + argv.length + 1) * 4 := by
        rw [Bytes.length_records (Bytes.length_digits 4)]
        simp only [ustack, List.length_cons, List.length_append, List.length_nil]
        omega
      obtain ⟨low,ends,below',stored⟩ :=
        push_spec below.dir (stacked.after below.entries) bounds (by omega)
        (show _ ≤ (3 + argv.length + 1) * 4 ∧ _ by omega) (by omega) place.symm copied'
      have laid' := laid.congr below'.higher
      have vector : (lo + 4294967296 - (argv.length + 1) * 4) % 4294967296 = esp + 12 := by
        rw [show lo + 4294967296 - (argv.length + 1) * 4 = esp + 12 + 4294967296 by omega,
          Nat.add_mod_right, Nat.mod_eq_of_lt (by omega)]
      rw [ustack, vector] at stored
      refine ⟨below.trans below' bounds.2, fun i => vs.getD i 0, ⟨low, by omega⟩, ?_, ?_, ?_,
        fun i inside => ?_, ?_, fun i s arg => (laid'.at_ arg).1,
        fun i s arg => ?_, fun i j s order arg => laid'.apart order arg⟩
      · exact stored.word (k := 0) rfl (by decide)
      · exact stored.word (k := 1) rfl (by omega)
      · exact stored.word (k := 2) rfl (by omega)
      · have under := (laid'.at_ (List.getElem?_eq_getElem inside)).2.2
        have entry : (vs ++ [0])[i]? = some (vs.getD i 0) := by
          rw [List.getElem?_append_left (by omega), List.getElem?_eq_getElem (by omega),
            List.getD_eq_getElem _ _ (by omega)]
        have word := stored.word (k := i + 3) entry (by omega)
        rwa [show esp + 4 * (i + 3) = esp + 12 + 4 * i by omega] at word
      · have entry : (vs ++ [0])[argv.length]? = some 0 := by
          rw [← count, List.getElem?_concat_length]
        have word := stored.word (k := argv.length + 3) entry (by decide)
        rwa [show esp + 4 * (argv.length + 3) = esp + 12 + 4 * argv.length by omega] at word
      · obtain ⟨-,upper,under⟩ := laid'.at_ arg
        exact ⟨by omega, under⟩

theorem spared_bytes {g' : Hold} (dir : Directory l m g free d) (spared : Spared g' m m')
    (alive : g'.live d = true) (v : Nat) :
    byteAt m' d v = byteAt m d v ∧ kept m' d v = kept m d v := by
  have bytes : ∀ x, userAt m d (v / 4096) = some x → m'.bytes x (v % 4096) = m.bytes x (v % 4096) :=
    fun x page =>
      bytes_congr (spared.words (.user d (v / 4096)) x (by simp [held, alive, page])) _
  constructor
  · rw [byteAt, byteAt, userPage_congr (spared.entries alive)]
    cases page : userPage m d (v / 4096) with
    | none => rfl
    | some x =>
      have here := dir.user page
      simp only [held, dir.alive, if_true] at here
      exact congrArg some (bytes x here)
  · rw [kept, kept, (spared.same d alive).2]
    cases page : userAt m d (v / 4096) with
    | none => rfl
    | some x => exact congrArg some (bytes x page)

theorem WordAt.congr {v w : Nat} (word : WordAt m d v w)
    (same : ∀ a, byteAt m' d a = byteAt m d a) : WordAt m' d v w :=
  ⟨word.1, word.2.congr fun a _ => same a⟩

theorem Passed.congr {sz esp : Nat} {argv : List (List UInt8)} {ptr : Nat → Nat}
    (passed : Passed m d sz esp argv ptr)
    (same : ∀ v, byteAt m' d v = byteAt m d v) : Passed m' d sz esp argv ptr :=
  ⟨passed.stack, passed.pc.congr same, passed.argc.congr same, passed.vector.congr same,
    fun i inside => (passed.entries i inside).congr same,
    passed.null.congr same, fun i s arg => (passed.strings i s arg).congr fun a _ => same a,
      passed.above, passed.apart⟩

end Pushing

section Image

variable {content path : List UInt8} {argv : List (List UInt8)} {s s' : Machine} {m₁ m₂ : Mem}
  {copy : Copy}

def Built (l : Layout) (content : List UInt8) (m : Mem) (d entry top : Nat) (m₁ : Mem) : Prop :=
  ∃ sz m₀, openImage l content m = some ⟨some d, some (entry, sz), m₀⟩ ∧
    makeStack l d sz m₀ = some (some top, m₁)

theorem bad_false {pgdir : Option Nat} {ip ok : Bool} (call : bad l pgdir ip s = some (ok, s')) :
    ok = false := by
  obtain ⟨m₁,-,call⟩ := Option.bind_eq_some_iff.mp call
  simp only at call
  split at call
  · obtain ⟨s₁,-,eq⟩ := Option.map_eq_some_iff.mp call
    cases eq
    rfl
  · cases call
    rfl

theorem exec_inv {file : Option (List UInt8)}
    (call : exec l copy path file argv s = some (true, s')) :
    ∃ content m₁ m₂, file = some content ∧
      Built l content s.mem s'.proc.pgdir s'.proc.eip s'.proc.sz m₁ ∧
      pushArgs copy s'.proc.pgdir argv s'.proc.sz m₁ = some (some s'.proc.esp, m₂) ∧
        freevm l s.proc.pgdir m₂ = some s'.mem := by
  cases file with
  | none =>
    rw [exec] at call
    obtain ⟨s₁,-,eq⟩ := Option.map_eq_some_iff.mp call
    cases eq
  | some content =>
    obtain ⟨⟨pgdir,image,m₀⟩,opened,call⟩ := Option.bind_eq_some_iff.mp call
    cases pgdir with
    | none => cases bad_false call
    | some d =>
      cases image with
      | none => cases bad_false call
      | some v =>
        obtain ⟨entry,sz⟩ := v
        have rest : finish l copy path argv d entry sz ⟨m₀, s.proc, s.ops, s.refs, false⟩ = some
            (true, s') := by
          simpa [Machine.beginOp, Machine.openInode, Machine.iunlockput, Machine.endOp]
            using call
        obtain ⟨⟨found,m₁⟩,stack,call⟩ := Option.bind_eq_some_iff.mp rest
        cases found with
        | none => cases bad_false call
        | some top =>
          obtain ⟨⟨found,m₂⟩,pushes,call⟩ := Option.bind_eq_some_iff.mp call
          cases found with
          | none => cases bad_false call
          | some sp =>
            obtain ⟨m₃,freed,eq⟩ := Option.map_eq_some_iff.mp call
            cases eq
            exact ⟨content, m₁, m₂, rfl, ⟨sz, m₀, opened, stack⟩, pushes, freed⟩

theorem Built.pushed {entry : Nat} (sound : Sound l) (good : Good l m g free) (idle : Idle g)
    (strings : ∀ a ∈ argv, a.length + 1 < 4294967296)
    (built : Built l content m d entry top m₁) {esp : Nat}
    (pushes : pushArgs copyout d argv top m₁ = some (some esp, m₂)) :
    g.live d = false ∧ ∃ free', Stacked m₁ d top ∧ Below l (g.add d) free' d top top m₁ m₂ ∧ ∃ ptr,
      Passed m₂ d top esp argv ptr := by
  obtain ⟨sz,m₀,opened,stack⟩ := built
  obtain ⟨o,opened',image⟩ := openImage_good content sound idle good
  rw [opened] at opened'
  cases opened'
  obtain ⟨dead,free₀,building,sized⟩ := image.some_ d rfl
  obtain ⟨spans,-⟩ := sized entry sz rfl
  obtain ⟨found,m',free₁,stack',building₁,stacked⟩ := makeStack_good sound idle dead building spans
  rw [stack] at stack'
  cases stack'
  have stacked₁ := stacked top rfl
  exact ⟨dead, free₁, stacked₁,
    pushArgs_spec (building₁.directory sound.low) stacked₁ strings pushes⟩

theorem Built.exec {entry esp : Nat} (sound : Sound l) (good : Good l s.mem g free) (idle : Idle g)
    (alive : g.live s.proc.pgdir = true)
    (strings : ∀ a ∈ argv, a.length + 1 < 4294967296) (built : Built l content s.mem d entry top m₁)
    (pushes : pushArgs copyout d argv top m₁ = some (some esp, m₂)) (path : List UInt8) :
    ∃ s', exec l copyout path (some content) argv s = some (true, s') := by
  obtain ⟨dead,free₁,-,below,-⟩ := built.pushed sound good idle strings pushes
  obtain ⟨m₃,-,freed,-⟩ :=
    freevm_good below.dir.good sound.first (add_live dead alive).1 (idle.add d)
  obtain ⟨sz,m₀,opened,stack⟩ := built
  refine ⟨⟨m₃, ⟨d, top, entry, esp, (lastName path path).take 15⟩, s.ops, s.refs, false⟩, ?_⟩
  simp [Exec.exec, opened, Machine.beginOp, Machine.openInode, Machine.iunlockput, Machine.endOp,
    finish, stack, pushes, freed]

end Image

/-- A program that exec has started finds its arguments. -/
theorem exec_passes_arguments {l : Layout} {g : Hold} {free : List Nat} {s s' : Machine}
    {argv : List (List UInt8)} {path : List UInt8}
    {file : Option (List UInt8)} (sound : Sound l) (good : Good l s.mem g free) (idle : Idle g)
    (alive : g.live s.proc.pgdir = true)
    (strings : ∀ a ∈ argv, a.length + 1 < 4294967296)
    (call : exec l copyout path file argv s = some (true, s')) :
    ∃ content m₁ ptr, file = some content ∧
      Built l content s.mem s'.proc.pgdir s'.proc.eip s'.proc.sz m₁ ∧
      Passed s'.mem s'.proc.pgdir s'.proc.sz s'.proc.esp argv ptr ∧
        Stacked s'.mem s'.proc.pgdir s'.proc.sz ∧
      ∀ v, v + 4096 < s'.proc.sz → kept s'.mem s'.proc.pgdir v = kept m₁ s'.proc.pgdir v := by
  obtain ⟨content,m₁,m₂,found,built,pushes,freed⟩ := exec_inv call
  obtain ⟨dead,free₁,stacked,below,ptr,passed⟩ := built.pushed sound good idle strings pushes
  obtain ⟨old,ne⟩ := add_live dead alive
  obtain ⟨m₃,-,freed',-,spared⟩ :=
    freevm_good below.dir.good sound.first old (idle.add s'.proc.pgdir)
  obtain rfl : s'.mem = m₃ := Option.some.inj (freed.symm.trans freed')
  have live : ((g.add s'.proc.pgdir).drop s.proc.pgdir).live s'.proc.pgdir = true :=
    drop_live.mpr ⟨add_alive, ne.symm⟩
  have same := spared_bytes below.dir spared live
  exact ⟨content, m₁, ptr, found, built, passed.congr fun v => (same v).1,
    (stacked.after below.entries).after (spared.entries live),
    fun v under => (same v).2.trans (below.lower v under)⟩

def tinyElf : List UInt8 :=
  [127, 69, 76, 70, 1, 1, 1, 0, 0, 0, 0, 0, 0, 0, 0, 0, 2, 0, 3, 0, 1, 0, 0, 0, 4, 0, 0, 0, 52, 0,
    0, 0, 0, 0, 0, 0, 0, 0, 0, 0, 52, 0, 32, 0, 1, 0,
    0, 0, 0, 0, 0, 0] ++
  [1, 0, 0, 0, 84, 0, 0, 0, 0, 0, 0, 0, 0, 0, 0, 0, 8, 0, 0, 0, 16, 0, 0, 0, 7, 0, 0, 0, 0, 16, 0,
    0] ++ [235, 254, 0, 0, 1, 2, 3, 4]

theorem exec_passes_arguments_two :
    ∃ k s' m₁ ptr, RunLaws.exec (step small) smallStart firstProcess = some k ∧
    exec small copyout [47, 97] (some tinyElf) [[97], [98, 99]] (caller k) = some (true, s') ∧
    Built small tinyElf k.mem s'.proc.pgdir s'.proc.eip s'.proc.sz m₁ ∧
    Passed s'.mem s'.proc.pgdir s'.proc.sz s'.proc.esp [[97], [98, 99]] ptr ∧
      Stacked s'.mem s'.proc.pgdir s'.proc.sz ∧
    ∀ v, v + 4096 < s'.proc.sz → kept s'.mem s'.proc.pgdir v = kept m₁ s'.proc.pgdir v := by
  have ends : ((RunLaws.exec (step small) smallStart firstProcess).bind fun k =>
    (openImage small tinyElf k.mem).bind fun o =>
      (makeStack small 32 16 o.mem).bind fun r =>
        (pushArgs copyout 32 [[97], [98, 99]] 12288 r.2).map fun q =>
          ((k.proc initSlot).phase, o.image, [o.pgdir, r.1, q.1])) = some (.used, some (4, 16),
            [some 32, some 12288, some 12256]) := by
    decide +kernel
  obtain ⟨k,run,ends⟩ := Option.bind_eq_some_iff.mp ends
  obtain ⟨⟨pgdir,image,m₀⟩,opened,ends⟩ := Option.bind_eq_some_iff.mp ends
  obtain ⟨⟨found,m₁⟩,stack,ends⟩ := Option.bind_eq_some_iff.mp ends
  obtain ⟨⟨esp,m₂⟩,pushes,ends⟩ := Option.map_eq_some_iff.mp ends
  simp only [Prod.mk.injEq, List.cons.injEq, and_true] at ends
  obtain ⟨used,rfl,rfl,rfl,rfl⟩ := ends
  obtain ⟨g,free,owned⟩ := owned_run small_valid small_booted run
  have alive : g.live (k.proc initSlot).pgdir = true := owned.root_live (by rw [used]; decide)
  have built : Built small tinyElf (caller k).mem 32 4 12288 m₁ := ⟨16, m₀, opened, stack⟩
  obtain ⟨s',call⟩ := built.exec small_sound owned.good owned.idle alive (by decide) pushes [47, 97]
  obtain ⟨content,m,ptr,found,built',passed⟩ :=
    exec_passes_arguments small_sound owned.good owned.idle alive (by decide) call
  cases found
  exact ⟨k, s', m, ptr, run, call, built', passed⟩

end Exec

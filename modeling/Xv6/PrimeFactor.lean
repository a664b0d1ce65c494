import Mathlib.Data.Nat.Prime.Basic
import Mathlib.NumberTheory.LucasLehmer

/- find_largest_prime_factor of proc.c, one step for each test of a loop. `%` and `/` truncate as in
   C. What the additions give is a parameter: the sum itself for mathematical integers, the wrapped
   sum for `int`. -/
namespace PrimeFactor

inductive Line where
  | twos
  | threes
  | test
  | lows
  | highs
  | last
  deriving DecidableEq, Repr

structure Frame where
  line : Line
  n : Int
  i : Int
  maxPrime : Int
  deriving DecidableEq, Repr

inductive Turn where
  | on (f : Frame)
  | returns (r : Int)
  -- the divide error
  | trap
  deriving DecidableEq, Repr

/-- `while (n % d == 0) { maxPrime = d; n = n / d; }` and what follows. -/
def divideOut (d : Int) (f after : Frame) : Turn :=
  if d = 0 then .trap
  else if f.n.tmod d = 0 then .on { f with maxPrime := d, n := f.n.tdiv d }
  else .on after

def step (add : Int → Int → Int) (f : Frame) : Turn :=
  match f.line with
  | .twos => divideOut 2 f { f with line := .threes }
  | .threes => divideOut 3 f { f with line := .test, i := 5 }
  | .test => if f.i ≤ f.n then .on { f with line := .lows } else .on { f with line := .last }
  | .lows => divideOut f.i f { f with line := .highs }
  | .highs => divideOut (add f.i 2) f { f with line := .test, i := add f.i 6 }
  | .last => .returns (if f.n > 4 then f.n else f.maxPrime)

def start (n : Int) : Frame := ⟨.twos, n, 0, -1⟩

def Moves (add : Int → Int → Int) (f g : Frame) : Prop := step add f = .on g

abbrev Reaches (add : Int → Int → Int) : Frame → Frame → Prop := Relation.ReflTransGen (Moves add)

def Returns (add : Int → Int → Int) (n r : Int) : Prop :=
  ∃ f, Reaches add (start n) f ∧ step add f = .returns r

def Hangs (add : Int → Int → Int) (n : Int) : Prop :=
  ∀ f, Reaches add (start n) f → ∃ g, step add f = .on g

def exact (x y : Int) : Int := x + y

def wrapping (x y : Int) : Int := (x + y).bmod 4294967296

def InRange (x : Int) : Prop := -2147483648 ≤ x ∧ x ≤ 2147483647

def sums (f : Frame) : List Int :=
  match f.line with
  | .highs => if f.n.tmod (f.i + 2) = 0 then [f.i + 2] else [f.i + 2, f.i + 6]
  | _ => []

def Fits (n : Int) : Prop := ∀ f, Reaches wrapping (start n) f → ∀ x ∈ sums f, InRange x

section Runs

variable {add : Int → Int → Int} {f g : Frame} {n r s : Int}

theorem moves_unique : Relator.RightUnique (Moves add) := by
  intro f g h first second
  rw [Moves, first] at second
  cases second
  rfl

theorem hangs_of_reaches (reached : Reaches add (start n) f) (again : step add f = .on f) :
    Hangs add n := by
  have stuck : ∀ g, Reaches add f g → g = f := by
    intro g path
    induction path with
    | refl => rfl
    | tail _ move ih =>
      rw [ih, Moves, again] at move
      cases move
      rfl
  intro g path
  rcases Relation.ReflTransGen.total_of_right_unique moves_unique reached path with onward | onward
  · rw [stuck g onward]
    exact ⟨f, again⟩
  · rcases onward.cases_head with same | ⟨h,move,-⟩
    · rw [same]
      exact ⟨f, again⟩
    · exact ⟨h, move⟩

theorem not_returns_of_hangs (hangs : Hangs add n) : ¬ Returns add n r := by
  rintro ⟨f,path,ended⟩
  obtain ⟨g,move⟩ := hangs f path
  rw [ended] at move
  cases move

theorem moves_divide {d : Int} {after : Frame} (some_ : d ≠ 0)
    (here : step add f = divideOut d f after) (divides : d ∣ f.n) :
    Moves add f { f with maxPrime := d, n := f.n.tdiv d } := by
  rw [Moves, here, divideOut, if_neg some_, if_pos (Int.tmod_eq_zero_of_dvd divides)]

theorem moves_after {d : Int} {after : Frame} (some_ : d ≠ 0)
    (here : step add f = divideOut d f after) (apart : ¬ d ∣ f.n) :
    Moves add f after := by
  rw [Moves, here, divideOut, if_neg some_, if_neg fun zero => apart (Int.dvd_of_tmod_eq_zero zero)]

theorem divideOut_goes_on {d : Int} {after : Frame} : divideOut d f after ≠ .returns r := by
  unfold divideOut
  split
  · exact fun eq => by cases eq
  · split
    · exact fun eq => by cases eq
    · exact fun eq => by cases eq

theorem moves_test {n i maxPrime : Int} (more : i ≤ n) :
    Moves add ⟨.test, n, i, maxPrime⟩ ⟨.lows, n, i, maxPrime⟩ := if_pos more

end Runs

/-- What is left of `whole` when the primes below `low` have been divided out. -/
structure Cleared (whole low : Nat) (left : Nat) (maxPrime : Int) : Prop where
  positive : 0 < left
  divides : left ∣ whole
  rough : ∀ q, q.Prime → q ∣ left → low ≤ q
  rest : ∀ q, q.Prime → q ∣ whole → q ∣ left ∨ (q : Int) ≤ maxPrime
  best : maxPrime = -1 ∨ ∃ p, p.Prime ∧ p ∣ whole ∧ maxPrime = (p : Int)
  small : maxPrime ≤ low

section Clearing

variable {whole low left d : Nat} {maxPrime : Int}

theorem Cleared.prime (cleared : Cleared whole d left maxPrime) (two : 2 ≤ d) (divides : d ∣ left) :
    d.Prime := by
  have first : d.minFac.Prime := Nat.minFac_prime (by omega)
  have above := cleared.rough _ first ((Nat.minFac_dvd d).trans divides)
  have same : d.minFac = d := Nat.le_antisymm (Nat.minFac_le (by omega)) above
  exact same ▸ first

theorem Cleared.divide (cleared : Cleared whole d left maxPrime) (two : 2 ≤ d)
    (divides : d ∣ left) :
    Cleared whole d (left / d) d := by
  have prime := cleared.prime two divides
  obtain ⟨c,product⟩ := divides
  have quotient : left / d = c := by
    rw [product, Nat.mul_div_cancel_left c (by omega)]
  have part : c ∣ left := ⟨d, by rw [product, Nat.mul_comm]⟩
  refine ⟨?_, ?_, fun q primes inside => ?_, fun q primes inside => ?_, .inr ⟨d, prime, ?_, rfl⟩,
    Int.le_refl _⟩
  · rw [quotient]
    have := cleared.positive
    exact Nat.pos_of_ne_zero fun zero => by rw [product, zero] at this; exact absurd this (by simp)
  · rw [quotient]
    exact part.trans cleared.divides
  · rw [quotient] at inside
    exact cleared.rough q primes (inside.trans part)
  · rcases cleared.rest q primes inside with here | before
    · rw [product, primes.dvd_mul] at here
      rcases here with own | other
      · exact .inr (by exact_mod_cast Nat.le_of_dvd (by omega) own)
      · exact .inl (quotient ▸ other)
    · exact .inr (before.trans cleared.small)
  · exact Dvd.dvd.trans ⟨c, product⟩ cleared.divides

theorem Cleared.next (cleared : Cleared whole d left maxPrime) (apart : ¬ d ∣ left) :
    Cleared whole (d + 1) left maxPrime := by
  refine { cleared with rough := fun q primes inside => ?_, small := cleared.small.trans (by simp) }
  have above := cleared.rough q primes inside
  have other : q ≠ d := fun same => apart (same ▸ inside)
  omega

theorem Cleared.skip (cleared : Cleared whole d left maxPrime) (composite : ¬ d.Prime)
    (two : 2 ≤ d) : Cleared whole (d + 1) left maxPrime :=
  cleared.next fun divides => composite (cleared.prime two divides)

end Clearing

inductive Sound (whole : Nat) : Frame → Prop
  | twos {left : Nat} {maxPrime : Int} (cleared : Cleared whole 2 left maxPrime) :
      Sound whole ⟨.twos, left, 0, maxPrime⟩
  | threes {left : Nat} {maxPrime : Int} (cleared : Cleared whole 3 left maxPrime) :
      Sound whole ⟨.threes, left, 0, maxPrime⟩
  | test {left i : Nat} {maxPrime : Int} (cleared : Cleared whole i left maxPrime)
      (wheel : i % 6 = 5) : Sound whole ⟨.test, left, i, maxPrime⟩
  | lows {left i q : Nat} {maxPrime : Int} (cleared : Cleared whole i left maxPrime)
      (wheel : i % 6 = 5) (prime : q.Prime) (divides : q ∣ whole) (below : i ≤ q) :
      Sound whole ⟨.lows, left, i, maxPrime⟩
  | highs {left i q : Nat} {maxPrime : Int} (cleared : Cleared whole (i + 2) left maxPrime)
      (wheel : i % 6 = 5) (prime : q.Prime) (divides : q ∣ whole) (below : i ≤ q) :
      Sound whole ⟨.highs, left, i, maxPrime⟩
  | last {left i : Nat} {maxPrime : Int} (cleared : Cleared whole i left maxPrime)
      (done : left < i) : Sound whole ⟨.last, left, i, maxPrime⟩

/-- The sums are exact as long as `i` has not passed the largest prime factor. -/
def Sums (add : Int → Int → Int) (whole : Nat) : Prop :=
  ∀ i q : Nat, i ≤ q → q.Prime → q ∣ whole → add i 2 = (i + 2 : Nat) ∧ add i 6 = (i + 6 : Nat)

/-- The steps left: a division makes `n` smaller, a pass of the loop makes `i` larger. -/
def rank : Line → Nat
  | .twos => 5
  | .threes => 4
  | .test => 3
  | .lows => 2
  | .highs => 1
  | .last => 0

def ahead (whole : Nat) (f : Frame) : Nat := (whole + 11 - f.i.toNat) + f.n.toNat + rank f.line

section Steps

variable {add : Int → Int → Int} {whole left d : Nat} {maxPrime : Int} {f g : Frame}

theorem sound_start (two : 2 ≤ whole) : Sound whole (start whole) := by
  refine .twos ⟨by omega, dvd_rfl, fun q primes _ => primes.two_le, fun q _ inside => .inl inside,
    .inl rfl, by decide⟩

theorem divide_cases {line : Line} {i : Int} {after : Frame} (two : 2 ≤ d)
    (cleared : Cleared whole d left maxPrime)
    (here : step add ⟨line, left, i, maxPrime⟩ = divideOut d ⟨line, left, i, maxPrime⟩ after) :
    (∃ smaller : Nat, smaller < left ∧ Cleared whole d smaller d ∧
      step add ⟨line, left, i, maxPrime⟩ = .on ⟨line, smaller, i, d⟩) ∨
    (Cleared whole (d + 1) left maxPrime ∧ step add ⟨line, left, i, maxPrime⟩ = .on after) := by
  have some_ : (d : Int) ≠ 0 := by omega
  by_cases divides : d ∣ left
  · refine .inl ⟨left / d, Nat.div_lt_self cleared.positive (by omega),
      cleared.divide two divides, ?_⟩
    have move := moves_divide some_ here (Int.natCast_dvd_natCast.mpr divides)
    rw [Moves, ← Int.ofNat_tdiv] at move
    exact move
  · exact .inr ⟨cleared.next divides, moves_after some_ here fun inside =>
      divides (Int.natCast_dvd_natCast.mp inside)⟩

theorem sound_step (some_ : 0 < whole) (sums_ : Sums add whole) (sound : Sound whole f) :
    (∃ g, step add f = .on g ∧ Sound whole g ∧ ahead whole g < ahead whole f) ∨ f.line = .last := by
  cases sound with
  | @twos left maxPrime cleared =>
    have here : step add ⟨.twos, left, 0, maxPrime⟩ = divideOut (2 : Nat) ⟨.twos, left, 0, maxPrime⟩
        ⟨.threes, left, 0, maxPrime⟩ := rfl
    rcases divide_cases (by decide) cleared here with ⟨smaller,less,again,move⟩ | ⟨done,move⟩
    · exact .inl ⟨_, move, .twos again, by simp only [ahead, Int.toNat_natCast]; omega⟩
    · exact .inl ⟨_, move, .threes done, by simp only [ahead, rank]; omega⟩
  | @threes left maxPrime cleared =>
    have here : step add ⟨.threes, left, 0, maxPrime⟩ = divideOut (3 : Nat) ⟨.threes, left, 0,
        maxPrime⟩ ⟨.test, left, 5, maxPrime⟩ := rfl
    rcases divide_cases (by decide) cleared here with ⟨smaller,less,again,move⟩ | ⟨done,move⟩
    · exact .inl ⟨_, move, .threes again, by simp only [ahead, Int.toNat_natCast]; omega⟩
    · refine .inl ⟨_, move, .test (i := 5) (done.skip (by decide) (by decide)) rfl, ?_⟩
      simp only [ahead, rank]
      omega
  | @test left i maxPrime cleared wheel =>
    by_cases more : i ≤ left
    · -- what is left has a prime factor, none of which is below `i`
      have prime : left.minFac.Prime := Nat.minFac_prime (by omega)
      have below := cleared.rough _ prime (Nat.minFac_dvd left)
      refine .inl ⟨_, if_pos (Int.ofNat_le.mpr more),
        .lows cleared wheel prime ((Nat.minFac_dvd left).trans cleared.divides) below, ?_⟩
      simp only [ahead, rank]
      omega
    · refine .inl ⟨_, if_neg fun le => more (Int.ofNat_le.mp le), .last cleared (by omega), ?_⟩
      simp only [ahead, rank]
      omega
  | @lows left i q maxPrime cleared wheel prime divides below =>
    have here : step add ⟨.lows, left, i, maxPrime⟩ = divideOut i ⟨.lows, left, i, maxPrime⟩
        ⟨.highs, left, i, maxPrime⟩ := rfl
    rcases divide_cases (by omega) cleared here with ⟨smaller,less,again,move⟩ | ⟨done,move⟩
    · exact .inl ⟨_, move, .lows again wheel prime divides below,
        by simp only [ahead, Int.toNat_natCast]; omega⟩
    · have even : ¬ (i + 1).Prime := fun prime => by
        have := prime.eq_two_or_odd
        omega
      exact .inl ⟨_, move, .highs (done.skip even (by omega)) wheel prime divides below,
        by simp only [ahead, rank]; omega⟩
  | @highs left i q maxPrime cleared wheel prime divides below =>
    obtain ⟨two,six⟩ := sums_ i q below prime divides
    have here : step add ⟨.highs, left, i, maxPrime⟩ =
        divideOut (i + 2 : Nat) ⟨.highs, left, i, maxPrime⟩ ⟨.test, left, (i + 6 : Nat),
          maxPrime⟩ := by
      rw [← two, ← six]
      rfl
    rcases divide_cases (by omega) cleared here with ⟨smaller,less,again,move⟩ | ⟨done,move⟩
    · exact .inl ⟨_, move, .highs again wheel prime divides below,
        by simp only [ahead, Int.toNat_natCast]; omega⟩
    · have composite : ¬ (i + 3).Prime ∧ ¬ (i + 4).Prime ∧ ¬ (i + 5).Prime := by
        refine ⟨fun prime => ?_, fun prime => ?_, fun prime => ?_⟩
        · have := prime.eq_two_or_odd
          omega
        · have := (Nat.prime_dvd_prime_iff_eq Nat.prime_three prime).mp (by omega)
          omega
        · have := prime.eq_two_or_odd
          omega
      have cleared' := ((done.skip composite.1 (by omega)).skip composite.2.1 (by omega)).skip
        composite.2.2 (by omega)
      have bound := Nat.le_of_dvd some_ divides
      refine .inl ⟨_, move, .test cleared' (by omega), ?_⟩
      simp only [ahead, rank, Int.toNat_natCast]
      omega
  | @last left i maxPrime cleared done => exact .inr rfl

theorem sound_reaches (two : 2 ≤ whole) (sums_ : Sums add whole)
    (path : Reaches add (start whole) f) : Sound whole f := by
  induction path with
  | refl => exact sound_start two
  | tail _ move ih =>
    rcases sound_step (by omega) sums_ ih with ⟨g,there,sound,-⟩ | last
    · rw [Moves, there] at move
      cases move
      exact sound
    · rw [Moves, step, last] at move
      cases move

theorem reaches_last (some_ : 0 < whole) (sums_ : Sums add whole) (sound : Sound whole f) :
    ∃ g, Reaches add f g ∧ Sound whole g ∧ g.line = .last := by
  induction left : ahead whole f using Nat.strong_induction_on generalizing f with
  | _ n ih =>
    rcases sound_step some_ sums_ sound with ⟨g,move,sound',less⟩ | last
    · obtain ⟨h,path,rest⟩ := ih _ (left ▸ less) sound' rfl
      exact ⟨h, path.head move, rest⟩
    · exact ⟨f, .refl, sound, last⟩

def Largest (whole : Nat) (p : Int) : Prop :=
  ∃ q : Nat, p = q ∧ q.Prime ∧ q ∣ whole ∧ ∀ r : Nat, r.Prime → r ∣ whole → r ≤ q

theorem sound_last (add : Int → Int → Int) (two : 2 ≤ whole) (sound : Sound whole f)
    (last : f.line = .last) : ∃ r, step add f = .returns r ∧ Largest whole r := by
  cases sound with
  | @last left i maxPrime cleared done =>
    have one : left = 1 := by
      by_contra more
      have positive := cleared.positive
      have prime : left.minFac.Prime := Nat.minFac_prime more
      have above := cleared.rough _ prime (Nat.minFac_dvd left)
      have := Nat.minFac_le cleared.positive
      omega
    have factors : ∀ q : Nat, q.Prime → q ∣ whole → (q : Int) ≤ maxPrime := by
      intro q prime divides
      rcases cleared.rest q prime divides with inside | below
      · rw [one] at inside
        exact absurd (Nat.dvd_one.mp inside) prime.ne_one
      · exact below
    have first := factors _ (Nat.minFac_prime (by omega)) (Nat.minFac_dvd whole)
    refine ⟨maxPrime, ?_, ?_⟩
    · rw [one]
      rfl
    · rcases cleared.best with none_ | ⟨p,prime,divides,rfl⟩
      · have := (Nat.minFac_prime (n := whole) (by omega)).pos
        omega
      · exact ⟨p, rfl, prime, divides, fun q prime divides =>
          by exact_mod_cast factors q prime divides⟩
  | _ => cases last

theorem returns_largest (two : 2 ≤ whole) (sums_ : Sums add whole) :
    ∃ r, Returns add whole r ∧ Largest whole r := by
  obtain ⟨g,path,sound,last⟩ := reaches_last (by omega) sums_ (sound_start two)
  obtain ⟨r,ended,largest⟩ := sound_last add two sound last
  exact ⟨r, ⟨g, path, ended⟩, largest⟩

end Steps

theorem largest_prime_factor (n : Int) (two : 2 ≤ n) :
    ∃ p, Returns exact n p ∧ Largest n.toNat p := by
  obtain ⟨whole,rfl⟩ := Int.eq_ofNat_of_zero_le (show 0 ≤ n by omega)
  exact returns_largest (by omega) fun i q _ _ _ => ⟨rfl, rfl⟩

theorem largest_prime_factor_91 : (2 : Int) ≤ 91 ∧ ∃ p, Returns exact 91 p ∧ Largest 91 p :=
  ⟨by decide, largest_prime_factor 91 (by decide)⟩

section Overflow

theorem wrapping_eq {x y : Int} (fits : InRange (x + y)) : wrapping x y = x + y := by
  obtain ⟨low,high⟩ := fits
  exact Int.bmod_eq_of_le (by omega) (by omega)

/-- 2147483647 is the only prime that is too close to the top of `int`. -/
theorem prime_low {q : Nat} (prime : q.Prime) (bound : q ≤ 2147483647) (other : q ≠ 2147483647) :
    q ≤ 2147483641 := by
  by_contra high
  have cases_ : q % 2 = 0 ∨ q = 2147483643 ∨ q = 2147483645 := by omega
  rcases cases_ with even | three | five
  · have := (Nat.prime_dvd_prime_iff_eq Nat.prime_two prime).mp (by omega)
    omega
  · have := (Nat.prime_dvd_prime_iff_eq Nat.prime_three prime).mp (by omega)
    omega
  · have := (Nat.prime_dvd_prime_iff_eq Nat.prime_five prime).mp (by omega)
    omega

theorem sums_wrapping {whole : Nat} (two : 2 ≤ whole) (bound : whole ≤ 2147483647)
    (other : whole ≠ 2147483647) : Sums wrapping whole := by
  intro i q below prime divides
  have size := Nat.le_of_dvd (by omega) divides
  have low : q ≤ 2147483641 := by
    refine prime_low prime (by omega) fun top => ?_
    omega
  refine ⟨?_, ?_⟩
  · rw [wrapping_eq ⟨by omega, by omega⟩]
    rfl
  · rw [wrapping_eq ⟨by omega, by omega⟩]
    rfl

theorem fits_of_low {whole : Nat} (two : 2 ≤ whole) (bound : whole ≤ 2147483647)
    (other : whole ≠ 2147483647) : Fits whole := by
  intro f path x taken
  cases sound_reaches two (sums_wrapping two bound other) path with
  | @highs left i q maxPrime cleared wheel prime divides below =>
    have size := Nat.le_of_dvd (by omega) divides
    have low : q ≤ 2147483641 := by
      refine prime_low prime (by omega) fun top => ?_
      omega
    have either : x = i + 2 ∨ x = i + 6 := by
      simp only [sums] at taken
      split at taken
      · exact .inl (List.mem_singleton.mp taken)
      · simpa using taken
    unfold InRange
    omega
  | _ => cases taken

theorem mersenne_prime : Nat.Prime 2147483647 := by
  have test := lucas_lehmer_sufficiency 31 (by norm_num) (by norm_num)
  simpa [mersenne] using test

theorem reaches_candidate (j : Nat) (below : 6 * j + 5 ≤ 2147483645) :
    Reaches wrapping (start 2147483647) ⟨.test, 2147483647, (6 * j + 5 : Nat), -1⟩ := by
  have apart : ∀ d : Nat, 1 < d → d < 2147483647 → ¬ (d : Int) ∣ 2147483647 := by
    intro d low high divides
    have divides : d ∣ 2147483647 := by exact_mod_cast divides
    rcases (Nat.dvd_prime mersenne_prime).mp divides with one | same
    · omega
    · omega
  induction j with
  | zero =>
    have first : Moves wrapping (start 2147483647) ⟨.threes, 2147483647, 0, -1⟩ := rfl
    have second : Moves wrapping ⟨.threes, 2147483647, 0, -1⟩ ⟨.test, 2147483647, 5, -1⟩ := rfl
    exact (Relation.ReflTransGen.single first).tail second
  | succ j ih =>
    have tested : Moves wrapping ⟨.test, 2147483647, (6 * j + 5 : Nat), -1⟩ ⟨.lows, 2147483647,
      (6 * j + 5 : Nat), -1⟩ :=
        moves_test (by omega)
    have low : Moves wrapping ⟨.lows, 2147483647, (6 * j + 5 : Nat), -1⟩ ⟨.highs, 2147483647,
      (6 * j + 5 : Nat), -1⟩ :=
        moves_after (d := (6 * j + 5 : Nat)) (by omega) rfl (apart _ (by omega) (by omega))
    have two : wrapping (6 * j + 5 : Nat) 2 = (6 * j + 7 : Nat) := by
      rw [wrapping_eq ⟨by omega, by omega⟩]
      omega
    have six : wrapping (6 * j + 5 : Nat) 6 = (6 * (j + 1) + 5 : Nat) := by
      rw [wrapping_eq ⟨by omega, by omega⟩]
      omega
    have high : Moves wrapping ⟨.highs, 2147483647, (6 * j + 5 : Nat), -1⟩ ⟨.test, 2147483647,
        (6 * (j + 1) + 5 : Nat), -1⟩ := by
      refine moves_after (d := (6 * j + 7 : Nat)) (by omega) ?_ (apart _ (by omega) (by omega))
      rw [← two, ← six]
      rfl
    exact (((ih (by omega)).tail tested).tail low).tail high

theorem reaches_overflow :
    Reaches wrapping (start 2147483647) ⟨.highs, 1, 2147483645, 2147483647⟩ := by
  have there := reaches_candidate 357913940 (by decide)
  have tested : Moves wrapping ⟨.test, 2147483647, 2147483645, -1⟩ ⟨.lows, 2147483647, 2147483645,
      -1⟩ := rfl
  have low : Moves wrapping ⟨.lows, 2147483647, 2147483645, -1⟩ ⟨.highs, 2147483647, 2147483645,
      -1⟩ := rfl
  have high : Moves wrapping ⟨.highs, 2147483647, 2147483645, -1⟩ ⟨.highs, 1, 2147483645,
      2147483647⟩ := rfl
  exact ((there.tail tested).tail low).tail high

theorem reaches_negative (j : Nat) (below : j ≤ 357913941) :
    Reaches wrapping (start 2147483647) ⟨.test, 1, -2147483645 + 6 * j, 2147483647⟩ := by
  have apart : ∀ d : Int, d < -1 → ¬ d ∣ 1 := by
    intro d low divides
    rcases Int.isUnit_iff.mp (isUnit_of_dvd_one divides) with one | minus
    · omega
    · omega
  induction j with
  | zero =>
    have wrapped : Moves wrapping ⟨.highs, 1, 2147483645, 2147483647⟩ ⟨.test, 1, -2147483645,
        2147483647⟩ := rfl
    exact reaches_overflow.tail wrapped
  | succ j ih =>
    have tested : Moves wrapping ⟨.test, 1, -2147483645 + 6 * j, 2147483647⟩ ⟨.lows, 1,
      -2147483645 + 6 * j, 2147483647⟩ :=
        moves_test (by omega)
    have low : Moves wrapping ⟨.lows, 1, -2147483645 + 6 * j, 2147483647⟩ ⟨.highs, 1,
      -2147483645 + 6 * j, 2147483647⟩ :=
        moves_after (d := -2147483645 + 6 * j) (by omega) rfl (apart _ (by omega))
    have two : wrapping (-2147483645 + 6 * j) 2 = -2147483643 + 6 * j := by
      rw [wrapping_eq ⟨by omega, by omega⟩]
      omega
    have six : wrapping (-2147483645 + 6 * j) 6 = -2147483645 + 6 * (j + 1 : Nat) := by
      rw [wrapping_eq ⟨by omega, by omega⟩]
      omega
    have high : Moves wrapping ⟨.highs, 1, -2147483645 + 6 * j, 2147483647⟩ ⟨.test, 1,
        -2147483645 + 6 * (j + 1 : Nat), 2147483647⟩ := by
      refine moves_after (d := -2147483643 + 6 * j) (by omega) ?_ (apart _ (by omega))
      rw [← two, ← six]
      rfl
    exact (((ih (by omega)).tail tested).tail low).tail high

theorem mersenne_hangs : Hangs wrapping 2147483647 := by
  have there := reaches_negative 357913941 (by decide)
  have tested : Moves wrapping ⟨.test, 1, 1, 2147483647⟩ ⟨.lows, 1, 1, 2147483647⟩ := rfl
  have divided : Moves wrapping ⟨.lows, 1, 1, 2147483647⟩ ⟨.lows, 1, 1, 1⟩ := rfl
  exact hangs_of_reaches ((there.tail tested).tail divided) rfl

theorem find_largest_prime_factor_fits_iff (n : Int) (two : 2 ≤ n) (top : n ≤ 2147483647) :
    (Fits n ∧ ∃ r, Returns wrapping n r ∧ Returns exact n r) ↔ n ≠ 2147483647 := by
  constructor
  · rintro ⟨-,r,ended,-⟩ rfl
    exact not_returns_of_hangs mersenne_hangs ended
  · intro other
    obtain ⟨whole,rfl⟩ := Int.eq_ofNat_of_zero_le (show 0 ≤ n by omega)
    have two : 2 ≤ whole := by omega
    obtain ⟨r,ended,largest⟩ := returns_largest two (sums_wrapping two (by omega) (by omega))
    have plain : Sums exact whole := fun i q _ _ _ => ⟨rfl, rfl⟩
    obtain ⟨r',ended',largest'⟩ := returns_largest two plain
    have same : r = r' := by
      obtain ⟨p,rfl,prime,divides,top⟩ := largest
      obtain ⟨p',rfl,prime',divides',top'⟩ := largest'
      have := top p' prime' divides'
      have := top' p prime divides
      omega
    exact ⟨fits_of_low two (by omega) (by omega), r, ended, same ▸ ended'⟩

theorem find_largest_prime_factor_fits_iff_91 :
    (2 : Int) ≤ 91 ∧ Fits 91 ∧ ∃ r, Returns wrapping 91 r ∧ Returns exact 91 r :=
  ⟨by decide, (find_largest_prime_factor_fits_iff 91 (by decide) (by decide)).mpr (by decide)⟩

/-- The sum that leaves the range of `int`, and what becomes of the loop. -/
theorem largest_int_overflows : ¬ Fits 2147483647 ∧ Hangs wrapping 2147483647 := by
  refine ⟨fun fits => ?_, mersenne_hangs⟩
  obtain ⟨-,high⟩ := fits _ reaches_overflow 2147483651 (by decide)
  omega

end Overflow

section Small

variable {add : Int → Int → Int} {f g : Frame} {n r : Int}

structure Recorded (f : Frame) : Prop where
  low : f.n ≤ 0
  factor : 2 ≤ f.maxPrime
  line : f.line = .twos ∨ f.line = .threes ∨ f.line = .test ∧ f.i = 5 ∨ f.line = .last

theorem tdiv_nonpos {d : Int} (low : n ≤ 0) (positive : 0 ≤ d) : n.tdiv d ≤ 0 := by
  have quotient : 0 ≤ (-n).tdiv d := Int.tdiv_nonneg (Int.neg_nonneg_of_nonpos low) positive
  rw [Int.neg_tdiv] at quotient
  exact Int.nonpos_of_neg_nonneg quotient

theorem recorded_divide {d : Int} {after : Frame} (two : 2 ≤ d) (recorded : Recorded f)
    (next : Recorded after)
    (here : step add f = divideOut d f after) (move : step add f = .on g) : Recorded g := by
  rw [here, divideOut, if_neg (by omega)] at move
  split at move
  · cases move
    exact ⟨tdiv_nonpos recorded.low (by omega), two, recorded.line⟩
  · cases move
    exact next

theorem recorded_step (recorded : Recorded f) (move : step add f = .on g) : Recorded g := by
  obtain ⟨line,n,i,maxPrime⟩ := f
  obtain ⟨low,factor,place⟩ := recorded
  rcases place with rfl | rfl | ⟨rfl,rfl⟩ | rfl
  · have next : Recorded ⟨.threes, n, i, maxPrime⟩ := ⟨low, factor, .inr (.inl rfl)⟩
    exact recorded_divide (d := 2) (by decide) ⟨low, factor, .inl rfl⟩ next rfl move
  · have next : Recorded ⟨.test, n, 5, maxPrime⟩ := ⟨low, factor, .inr (.inr (.inl ⟨rfl, rfl⟩))⟩
    exact recorded_divide (d := 3) (by decide) ⟨low, factor, .inr (.inl rfl)⟩ next rfl move
  · have past : ¬ (5 : Int) ≤ n := fun high => absurd (high.trans low) (by decide)
    rw [step, if_neg past] at move
    cases move
    exact ⟨low, factor, .inr (.inr (.inr rfl))⟩
  · cases move

theorem recorded_returns (recorded : Recorded f) (path : Reaches add (start n) f)
    (ended : Returns add n r) : 2 ≤ r := by
  obtain ⟨g,there,last⟩ := ended
  have onward : Reaches add f g := by
    rcases Relation.ReflTransGen.total_of_right_unique moves_unique path there with onward | back
    · exact onward
    · rcases back.cases_head with same | ⟨h,move,-⟩
      · rw [same]
      · rw [Moves, last] at move
        cases move
  have kept : Recorded g := by
    clear last there
    induction onward with
    | refl => exact recorded
    | tail _ move ih => exact recorded_step ih move
  obtain ⟨line,n',i,maxPrime⟩ := g
  obtain ⟨low,factor,place⟩ := kept
  have small : ¬ n' > 4 := fun high => absurd (Int.lt_of_lt_of_le high low) (by decide)
  rcases place with rfl | rfl | ⟨rfl,rfl⟩ | rfl
  · exact absurd last divideOut_goes_on
  · exact absurd last divideOut_goes_on
  · have past : ¬ (5 : Int) ≤ n' := fun high => absurd (high.trans low) (by decide)
    rw [step, if_neg past] at last
    cases last
  · rw [step, if_neg small] at last
    cases last
    exact factor

theorem find_largest_prime_factor_rejects_iff (n : Int) (bottom : -2147483648 ≤ n) (small : n ≤ 1) :
    Returns wrapping n (-1) ↔ ¬ 2 ∣ n ∧ ¬ 3 ∣ n := by
  constructor
  · intro ended
    have never : ∀ f, Recorded f → ¬ Reaches wrapping (start n) f := fun f recorded path =>
      absurd (recorded_returns recorded path ended) (by decide)
    have odd : ¬ 2 ∣ n := fun even => by
      have divided : Moves wrapping (start n) ⟨.twos, n.tdiv 2, 0, 2⟩ :=
        moves_divide (d := 2) (by decide) rfl even
      exact never _ ⟨tdiv_nonpos (by omega) (by decide), Int.le_refl 2, .inl rfl⟩ (.single divided)
    refine ⟨odd, fun three => ?_⟩
    have first : Moves wrapping (start n) ⟨.threes, n, 0, -1⟩ :=
      moves_after (d := 2) (by decide) rfl odd
    have divided : Moves wrapping ⟨.threes, n, 0, -1⟩ ⟨.threes, n.tdiv 3, 0, 3⟩ :=
      moves_divide (d := 3) (by decide) rfl three
    exact never _ ⟨tdiv_nonpos (by omega) (by decide), show (2 : Int) ≤ 3 by decide,
      .inr (.inl rfl)⟩ (.head first (.single divided))
  · rintro ⟨odd,three⟩
    have first : Moves wrapping (start n) ⟨.threes, n, 0, -1⟩ :=
      moves_after (d := 2) (by decide) rfl odd
    have second : Moves wrapping ⟨.threes, n, 0, -1⟩ ⟨.test, n, 5, -1⟩ :=
      moves_after (d := 3) (by decide) rfl three
    have third : Moves wrapping ⟨.test, n, 5, -1⟩ ⟨.last, n, 5, -1⟩ :=
      if_neg (show ¬ (5 : Int) ≤ n by omega)
    refine ⟨_, ((Relation.ReflTransGen.single first).tail second).tail third, ?_⟩
    rw [step, if_neg (show ¬ n > 4 by omega)]

theorem find_largest_prime_factor_rejects_iff_five : (-5 : Int) ≤ 1 ∧ Returns wrapping (-5) (-1) :=
  ⟨by decide, (find_largest_prime_factor_rejects_iff (-5) (by decide) (by decide)).mpr (by decide)⟩

theorem zero_hangs : Hangs wrapping 0 := by
  have halved : Moves wrapping (start 0) ⟨.twos, 0, 0, 2⟩ := rfl
  exact hangs_of_reaches (.single halved) rfl

end Small

end PrimeFactor

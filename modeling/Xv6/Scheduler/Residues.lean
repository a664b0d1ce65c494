import Mathlib.Data.Nat.Factorization.Basic
import Mathlib.RingTheory.Coprime.Lemmas
import Mathlib.Tactic.LinearCombination
import Mathlib.Tactic.Ring
import Xv6.Scheduler.Random

/- Which tickets generate_random_number(1, T) can draw. Up to wrapping the ticket behind the time
   `t` is `x * (2 + 132 * x * (x + 1))` modulo T with `x = t + 1`, and each time the inner product
   wraps around it moves by `x * 2 ^ 32`. For an odd T that reaches every remainder, for an even T
   every even one. -/
namespace SchedulerPass

section Remainders

theorem half_onto (b : Nat) (s : Int) :
    ∃ x : Int, (2 : Int) ^ b ∣ x * (1 + 66 * (x * (x + 1))) - s := by
  induction b with
  | zero => exact ⟨0, one_dvd _⟩
  | succ b ih =>
    obtain ⟨x,y,value⟩ := ih
    rcases Int.even_or_odd' y with ⟨z,even | odd⟩
    · exact ⟨x, z, by rw [value, even]; ring⟩
    · -- a step of 2 ^ b changes the value by an odd multiple of it
      refine ⟨x + 2 ^ b, z + 1 + 33 * (3 * x ^ 2 + 3 * x * 2 ^ b + (2 ^ b) ^ 2 + 2 * x + 2 ^ b), ?_⟩
      rw [odd] at value
      linear_combination value

theorem cubic_onto (a : Nat) (r : Int) (even : a = 0 ∨ 2 ∣ r) :
    ∃ x : Int, (2 : Int) ^ a ∣ x * (2 + 132 * (x * (x + 1))) - r := by
  cases a with
  | zero => exact ⟨0, one_dvd _⟩
  | succ b =>
    obtain ⟨s,rfl⟩ := even.resolve_left (Nat.succ_ne_zero b)
    obtain ⟨x,y,value⟩ := half_onto b s
    exact ⟨x, y, by linear_combination 2 * value⟩

theorem cubic_congr {n x x' r : Int} (same : n ∣ x' - x)
    (value : n ∣ x * (2 + 132 * (x * (x + 1))) - r) :
    n ∣ x' * (2 + 132 * (x' * (x' + 1))) - r := by
  obtain ⟨u,hu⟩ := same
  obtain ⟨v,hv⟩ := value
  obtain rfl : x' = x + n * u := by omega
  refine ⟨v + u * (2 + 132 * (3 * x ^ 2 + 3 * x * (n * u) + (n * u) ^ 2 + 2 * x + n * u)), ?_⟩
  linear_combination hv

theorem exists_place (a m : Nat) (odd : Odd m) (small : a ≤ 32) (r : Int) (even : a = 0 ∨ 2 ∣ r) :
    ∃ x q : Int, 1 ≤ x ∧ x ≤ 2 ^ a * m ∧ 0 ≤ q ∧ q < m ∧ (m : Int) ∣ x + 2 ∧
      (2 ^ a * m : Int) ∣ x * (2 + 132 * (x * (x + 1)) - 4294967296 * q) - r := by
  have positive : (0 : Int) < m := by
    have := odd.pos
    omega
  have whole : (0 : Int) < 2 ^ a * m := mul_pos (pow_pos (by decide) a) positive
  have coprime : ∀ k : Nat, IsCoprime ((2 : Int) ^ k) m := fun k => by
    have := (Nat.Coprime.pow_left k (Nat.coprime_two_left.mpr odd))
    exact_mod_cast Nat.isCoprime_iff_coprime.mpr this
  obtain ⟨x₀,value₀⟩ := cubic_onto a r even
  -- `x` is `x₀` modulo the power of two and -2 modulo the odd part
  obtain ⟨u,v,bezout⟩ := coprime a
  obtain ⟨x,x_def⟩ : ∃ x, x = (x₀ * (v * m) - 2 * (u * 2 ^ a) - 1) % (2 ^ a * m) + 1 := ⟨_, rfl⟩
  have low := Int.emod_nonneg (x₀ * (v * m) - 2 * (u * 2 ^ a) - 1) (ne_of_gt whole)
  have high := Int.emod_lt_of_pos (x₀ * (v * m) - 2 * (u * 2 ^ a) - 1) whole
  have part := Int.emod_add_mul_ediv (x₀ * (v * m) - 2 * (u * 2 ^ a) - 1) (2 ^ a * m)
  generalize (x₀ * (v * m) - 2 * (u * 2 ^ a) - 1) / (2 ^ a * m) = w at part
  have first : (2 : Int) ^ a ∣ x - x₀ :=
    ⟨-(x₀ * u) - 2 * u - m * w, by linear_combination x_def + part + x₀ * bezout⟩
  have second : (m : Int) ∣ x + 2 :=
    ⟨x₀ * v + 2 * v - 2 ^ a * w, by linear_combination x_def + part - 2 * bezout⟩
  have twos := cubic_congr first value₀
  -- `q` settles the odd part
  obtain ⟨u',v',bezout'⟩ := coprime 33
  obtain ⟨y,y_def⟩ := second
  obtain ⟨e,e_def⟩ : ∃ e, e = x * (2 + 132 * (x * (x + 1))) - r := ⟨_, rfl⟩
  have rest := Int.emod_add_mul_ediv (-(u' * e)) m
  refine ⟨x, -(u' * e) % m, by omega, by omega, Int.emod_nonneg _ (ne_of_gt positive),
    Int.emod_lt_of_pos _ positive, ⟨y, y_def⟩, ?_⟩
  generalize -(u' * e) % m = q at rest
  generalize -(u' * e) / (m : Int) = z at rest
  have split : x * (2 + 132 * (x * (x + 1)) - 4294967296 * q) - r = e - 4294967296 * (x * q) := by
    rw [e_def]; ring
  rw [split]
  refine (coprime a).mul_dvd ?_ ?_
  · have power : (4294967296 : Int) = 2 ^ a * 2 ^ (32 - a) := by
      rw [← pow_add, Nat.add_sub_cancel' small]
      rfl
    obtain ⟨k,twos⟩ := twos
    exact ⟨k - 2 ^ (32 - a) * (x * q), by rw [power]; linear_combination e_def + twos⟩
  · refine ⟨v' * e - 8589934592 * z - 4294967296 * (y * q), ?_⟩
    have big : (2 : Int) ^ 33 = 8589934592 := by norm_num
    rw [big] at bezout'
    linear_combination (-4294967296 * q) * y_def + 8589934592 * rest - e * bezout'

end Remainders

section Times

variable {total x q c r : Int}

theorem wrap_eq {y : Int} (low : -2147483648 ≤ y - 4294967296 * q)
    (high : y - 4294967296 * q ≤ 2147483647) :
    wrap y = y - 4294967296 * q := by
  obtain ⟨k,value,bottom,top⟩ := wrap_spec y
  omega

theorem exists_time (positive : 0 < total) (small : total ≤ 4000) (low : 1 ≤ x) (high : x ≤ total)
    (column : 0 ≤ c) (below : c < total)
    (rounds : q = 0 ∨ 0 < q ∧ q < 66 * c) :
    ∃ j : Int, 0 ≤ j ∧ j * total + x ≤ 2147483646 ∧ 4294967296 * q ≤ 1 + 132 * c * (j * total + x) ∧
      1 + 132 * c * (j * total + x) ≤ 4294967296 * q + 2147483647 := by
  have start : 132 * c * x ≤ 132 * 4000 * 4000 :=
    mul_le_mul (by omega) (by omega) (by omega) (by omega)
  rcases rounds with rfl | ⟨some_,few⟩
  · have nonneg : 0 ≤ 132 * c * x := mul_nonneg (by omega) (by omega)
    exact ⟨0, by omega, by omega, by rw [zero_mul, zero_add]; omega,
      by rw [zero_mul, zero_add]; omega⟩
  · -- the product grows in steps that are shorter than the window
    obtain ⟨step,step_def⟩ : ∃ step, step = 132 * c * total := ⟨_, rfl⟩
    have long : 0 < step := by rw [step_def]; exact mul_pos (by omega) positive
    have short : step ≤ 132 * 4000 * 4000 := by
      rw [step_def]; exact mul_le_mul (by omega) small (by omega) (by omega)
    obtain ⟨need,need_def⟩ : ∃ need, need = 4294967296 * q - (1 + 132 * c * x) + step - 1 :=
      ⟨_, rfl⟩
    have rest := Int.emod_nonneg need (ne_of_gt long)
    have rest' := Int.emod_lt_of_pos need long
    have whole := Int.emod_add_mul_ediv need step
    have product_ : 132 * c * (need / step * total + x) = step * (need / step) + 132 * c * x := by
      rw [step_def]; ring
    have under : 132 * c * (need / step * total + x) < (132 * c - 1) * 2147483648 := by
      rw [product_]; omega
    refine ⟨need / step, Int.ediv_nonneg (by omega) (by omega), ?_, by omega, by omega⟩
    by_contra late
    have more : 132 * c * 2147483647 ≤ 132 * c * (need / step * total + x) :=
      mul_le_mul_of_nonneg_left (by omega) (by omega)
    omega

theorem product_at (positive : 0 < total) (small : total ≤ 4000) (low : 1 ≤ x) (high : x ≤ total)
    (column : c = (x + 1) % total)
    (nonneg : 0 ≤ r) (less : r < total)
    (value : total ∣ x * (2 + 132 * (x * (x + 1)) - 4294967296 * q) - r) {j : Int} (first : 0 ≤ j)
    (top : j * total + x ≤ 2147483646) (above : 4294967296 * q ≤ 1 + 132 * c * (j * total + x))
    (below : 1 + 132 * c * (j * total + x) ≤ 4294967296 * q + 2147483647) :
    (product (j * total + x - 1) 1 total).tmod total = r := by
  have diff : total - 1 + 1 = total := by omega
  have past : 0 ≤ j * total := mul_nonneg first (by omega)
  -- the three factors
  have sum : wrap (j * total + x - 1 + 2) = x + 1 + total * j :=
    (wrap_small (by omega) (by omega)).trans (by ring)
  have row : (x + 1 + total * j).tmod total = c := by
    rw [Int.tmod_eq_emod_of_nonneg (by rw [Int.mul_comm total j]; omega),
      Int.add_mul_emod_self_left, column]
  obtain ⟨inner,inner_def⟩ : ∃ inner, inner = 1 + 132 * c * (j * total + x) - 4294967296 * q :=
    ⟨_, rfl⟩
  have wrapped : wrap (1 + c * (j * total + x - 1 + 1) * 132) = inner := by
    have shape : 1 + c * (j * total + x - 1 + 1) * 132 = 1 + 132 * c * (j * total + x) := by ring
    rw [shape, inner_def, wrap_eq (q := q) (by omega) (by omega)]
  have time : (j * total + x - 1).tmod total = x - 1 := by
    rw [Int.tmod_eq_emod_of_nonneg (by omega), show j * total + x - 1 = x - 1 + total * j by ring,
      Int.add_mul_emod_self_left,
      Int.emod_eq_of_lt (by omega) (by omega)]
  have double : (wrap (2 * total)).tmod total = 0 := by
    rw [wrap_small (by omega) (by omega)]
    exact Int.mul_tmod_left 2 total
  have rest := Int.emod_nonneg inner (ne_of_gt positive)
  have rest' := Int.emod_lt_of_pos inner positive
  have fits : (1 + inner % total) * x ≤ 4000 * 4000 :=
    mul_le_mul (by omega) (by omega) (by omega) (by omega)
  have nonneg' : 0 ≤ (1 + inner % total) * x := mul_nonneg (by omega) (by omega)
  have shape : product (j * total + x - 1) 1 total = (1 + inner % total) * x := by
    rw [product, diff, sum, row, wrapped, time, double, Int.tmod_eq_emod_of_nonneg (by omega)]
    refine Eq.trans (congrArg wrap ?_) (wrap_small (by omega) (by omega))
    ring
  rw [shape, Int.tmod_eq_emod_of_nonneg nonneg']
  -- modulo `total` the ticket is the polynomial at `x`
  obtain ⟨v,value⟩ := value
  have whole := Int.emod_add_mul_ediv inner total
  have turn := Int.emod_add_mul_ediv (x + 1) total
  rw [← column] at turn
  generalize (x + 1) / total = e at turn
  generalize inner / total = k at whole
  generalize inner % total = y at whole rest rest' fits nonneg' shape ⊢
  have reach :
      (1 + y) * x = r + total * (v + x * (132 * ((x + 1) * j - e * (j * total + x)) - k)) := by
    linear_combination value + x * whole + x * inner_def + 132 * x * (j * total + x) * turn
  rw [reach, Int.add_mul_emod_self_left, Int.emod_eq_of_lt nonneg less]

theorem remainder_drawn (positive : 0 < total) (small : total ≤ 4000) (nonneg : 0 ≤ r)
    (less : r < total) (parity : 2 ∣ total → 2 ∣ r) :
    ∃ t : Int, -2147483648 ≤ t ∧ t ≤ 2147483647 ∧ (product t 1 total).tmod total = r := by
  obtain ⟨n,rfl⟩ := Int.eq_ofNat_of_zero_le (Int.le_of_lt positive)
  obtain ⟨a,m,odd,rfl⟩ := Nat.exists_eq_two_pow_mul_odd (show n ≠ 0 by omega)
  have twos : a ≤ 32 := by
    by_contra many
    have power : 2 ^ 33 ≤ 2 ^ a := Nat.pow_le_pow_right (by decide) (by omega)
    have part : 2 ^ a ≤ 2 ^ a * m := Nat.le_mul_of_pos_right _ odd.pos
    omega
  have even : a = 0 ∨ 2 ∣ r := by
    rcases Nat.eq_zero_or_pos a with none_ | some_
    · exact .inl none_
    · refine .inr
        (parity (Int.natCast_dvd_natCast.mpr (Dvd.dvd.mul_right (dvd_pow_self 2 (by omega)) m)))
  obtain ⟨x,q,low,high,from_,few,column,value⟩ := exists_place a m odd twos r even
  have whole : ((2 ^ a * m : Nat) : Int) = 2 ^ a * m := by push_cast; rfl
  rw [whole] at positive small less ⊢
  -- the column of `x` is at least the number of rounds
  have least : (m : Int) ≤ (x + 1) % (2 ^ a * m) + 1 := by
    have inside := Int.emod_nonneg (x + 1) (ne_of_gt positive)
    refine Int.le_of_dvd (by omega) ?_
    have part := Int.emod_add_mul_ediv (x + 1) (2 ^ a * m)
    obtain ⟨y,column⟩ := column
    exact ⟨y - 2 ^ a * ((x + 1) / (2 ^ a * m)), by linear_combination column + part⟩
  have below := Int.emod_lt_of_pos (x + 1) positive
  obtain ⟨j,first,top,above,under⟩ :=
    exists_time positive small low high (Int.emod_nonneg (x + 1) (ne_of_gt positive)) below
    (show q = 0 ∨ 0 < q ∧ q < 66 * ((x + 1) % (2 ^ a * m)) by omega)
  have past : 0 ≤ j * (2 ^ a * m) := mul_nonneg first (Int.le_of_lt positive)
  exact ⟨j * (2 ^ a * m) + x - 1, by omega, by omega,
    product_at positive small low high rfl nonneg less value first top above under⟩

/-- A stretch of tickets cannot be missed unless it is a single one of the wrong parity. -/
theorem hit_iff {before count : Int} (small : total ≤ 4000) (nonneg : 0 ≤ before)
    (some_ : 1 ≤ count) (within : before + count ≤ total) :
    Hit total before count ↔ ¬ 2 ∣ total ∨ 2 ≤ count ∨ 2 ∣ before := by
  constructor
  · rintro ⟨t,-,-,above,below⟩
    by_contra never
    have even := product_even (t := t) (show 2 ∣ total by omega)
    omega
  · intro either
    have reach : ∀ r, before ≤ r → r < before + count → (2 ∣ total → 2 ∣ r) →
        Hit total before count := fun r above below parity => by
      obtain ⟨t,bottom,top,value⟩ :=
        remainder_drawn (by omega) small (show 0 ≤ r by omega) (by omega) parity
      exact ⟨t, bottom, top, by omega, by omega⟩
    by_cases even : 2 ∣ before
    · exact reach before (by omega) (by omega) fun _ => even
    · by_cases more : 2 ≤ count
      · exact reach (before + 1) (by omega) (by omega) fun _ => by omega
      · exact reach before (by omega) (by omega) fun whole => by omega

end Times

section Wins

open Param ProcTable
variable {nproc : Nat} {F : Type}

/-- Who can win: for any number of tickets, and in closed form for up to 4000. A process that
    holds a single ticket with an even number out of an even number of tickets never wins. -/
theorem every_holder_wins_iff (s : Sched nproc F)
    (positive : ∀ p, Waiting s 2 p → 0 < (s.proc p).tickets)
    (small : sold s (List.finRange nproc) < 2147483648) (p : Fin nproc) (waits : Waiting s 2 p) :
    ((∃ ticks, lottery { s with ticks := ticks } = some p) ↔
      earlier s p = 0 ∨ Hit (sold s (List.finRange nproc)) (earlier s p) (s.proc p).tickets.toInt) ∧
    ((∃ ticks, lottery { s with ticks := ticks } = some p) →
      ¬ 2 ∣ sold s (List.finRange nproc) ∨ 2 ≤ (s.proc p).tickets.toInt ∨ 2 ∣ earlier s p) ∧
    (sold s (List.finRange nproc) ≤ 4000 →
      ¬ 2 ∣ sold s (List.finRange nproc) ∨ 2 ≤ (s.proc p).tickets.toInt ∨ 2 ∣ earlier s p →
      ∃ ticks, lottery { s with ticks := ticks } = some p) := by
  have wins := lottery_wins_iff positive small waits
  obtain ⟨before,within⟩ := stretch_within positive waits
  have own := tickets_pos positive waits
  refine ⟨wins, fun drawn => ?_, fun few either =>
    wins.mpr (.inr ((hit_iff few before (by omega) within).mpr either))⟩
  rcases wins.mp drawn with first | ⟨t,-,-,above,below⟩
  · exact .inr (.inr (first ▸ dvd_zero 2))
  · by_contra never
    have even := product_even (t := t) (show 2 ∣ sold s (List.finRange nproc) by omega)
    omega

theorem every_holder_wins_iff_raffle :
    (sold raffle (List.finRange 3) = 8 ∧ Waiting raffle 2 ⟨2, by decide⟩) ∧
    ∃ ticks, lottery { raffle with ticks := ticks } = some ⟨2, by decide⟩ := by
  have total : sold raffle (List.finRange 3) = 8 := by decide
  have waits : Waiting raffle 2 ⟨2, by decide⟩ := by decide
  refine ⟨⟨total, waits⟩, (every_holder_wins_iff raffle (by decide) (by decide)
    ⟨2, by decide⟩ waits).1.mpr (.inr ?_)⟩
  refine ⟨1, by decide, by decide, ?_⟩
  rw [total]
  decide +kernel

def pair : Sched 2 Rat where
  proc _ := ⟨.runnable, 1, 0, 2, 0, 1, 1, 1, 1, 0, 1⟩
  ticks := 0
  nextpid := 3

theorem second_ticket_never_drawn : Waiting pair 2 ⟨1, by decide⟩ ∧
    ∀ ticks, lottery { pair with ticks := ticks } ≠ some ⟨1, by decide⟩ := by
  have total : sold pair (List.finRange 2) = 2 := by decide
  have waits : Waiting pair 2 ⟨1, by decide⟩ := by decide
  have before : earlier pair ⟨1, by decide⟩ = 1 := by decide
  refine ⟨waits, fun ticks wins => ?_⟩
  rcases (lottery_wins_iff (s := pair) (by decide) (by decide) waits).mp ⟨ticks, wins⟩
    with first | ⟨t,-,-,above,below⟩
  · rw [before] at first
    cases first
  · rw [total, before] at above below
    have even : 2 ∣ (product t 1 2).tmod 2 := product_even (by decide)
    have one : (pair.proc ⟨1, by decide⟩).tickets.toInt = 1 := rfl
    omega

end Wins

end SchedulerPass

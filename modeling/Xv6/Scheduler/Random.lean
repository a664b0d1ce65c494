import Xv6.Scheduler.Lottery

/- generate_random_number in exact numbers. The three factors depend on `ticks`; their product
   wraps around in `int`, and the remainder of a negative product is negative. -/

namespace SchedulerPass
open Param ProcTable
variable {nproc : Nat} {F : Type}

def wrap (x : Int) : Int := x.bmod 4294967296

def product (t min max : Int) : Int :=
  wrap ((1 + (wrap (1 + (wrap (t + 2)).tmod (max - min + 1) * (t + 1) * 132)).tmod
    (max - min + 1)) * (1 + t.tmod max) *
    (1 + (wrap (2 * max)).tmod (max - min + 1)))

theorem wrap_small {x : Int} (low : -2147483648 ≤ x) (high : x ≤ 2147483647) : wrap x = x :=
  Int.bmod_eq_of_le (by omega) (by omega)

theorem wrap_spec (x : Int) : ∃ q, wrap x = x - 4294967296 * q ∧ -2147483648 ≤ wrap x ∧
    wrap x ≤ 2147483647 := by
  have low := Int.le_bmod (x := x) (m := 4294967296) (by decide)
  have high := Int.bmod_lt (x := x) (m := 4294967296) (by decide)
  refine ⟨_, Int.bmod_eq_self_sub_mul_bdiv x 4294967296, ?_, ?_⟩
  · rw [wrap]
    omega
  · rw [wrap]
    omega

section Ints

variable (x y : Int32)

theorem toInt_add : (x + y).toInt = wrap (x.toInt + y.toInt) := Int32.toInt_add x y

theorem toInt_mul : (x * y).toInt = wrap (x.toInt * y.toInt) := Int32.toInt_mul x y

theorem toInt_range : -2147483648 ≤ x.toInt ∧ x.toInt ≤ 2147483647 := by
  have := x.le_toInt
  have := x.toInt_lt
  omega

theorem wrap_mul (a b : Int) : wrap (wrap a * b) = wrap (a * b) := Int.bmod_mul_bmod

theorem wrap_mul_right (a b : Int) : wrap (a * wrap b) = wrap (a * b) := by
  rw [Int.mul_comm, wrap_mul, Int.mul_comm]

theorem wrap_add_right (a b : Int) : wrap (a + wrap b) = wrap (a + b) := by
  rw [Int.add_comm, wrap, wrap, Int.bmod_add_bmod, wrap, Int.add_comm]

theorem wrap_inner (a b c d : Int) : wrap (d + a * wrap b * c) = wrap (d + a * b * c) := by
  rw [← wrap_add_right d, ← wrap_mul (a * wrap b), wrap_mul_right, wrap_mul, wrap_add_right]

end Ints

section Range

variable {ticks : UInt32} {min max : Int32}

theorem diff_toInt (low : 1 ≤ min.toInt) (order : min.toInt < max.toInt) :
    (max - min + 1).toInt = max.toInt - min.toInt + 1 := by
  have top := toInt_range max
  have difference : (max - min).toInt = max.toInt - min.toInt :=
    (Int32.toInt_sub max min).trans (wrap_small (by omega) (by omega))
  rw [toInt_add, difference]
  exact wrap_small (by have : (1 : Int32).toInt = 1 := rfl; omega)
    (by have : (1 : Int32).toInt = 1 := rfl; omega)

theorem succ_mod {x d : Int32} (positive : 0 < d.toInt) :
    (1 + x % d).toInt = 1 + x.toInt.tmod d.toInt := by
  have one : (1 : Int32).toInt = 1 := rfl
  have top := toInt_range d
  have low := Int.lt_tmod_of_pos x.toInt positive
  have high := Int.tmod_lt_of_pos x.toInt positive
  rw [toInt_add, Int32.toInt_mod, one]
  exact wrap_small (by omega) (by omega)

theorem generateRandomNumber_toInt (ticks : UInt32) (low : 1 ≤ min.toInt)
    (order : min.toInt < max.toInt) :
    (generateRandomNumber ticks min max).toInt =
      (product ticks.toInt32.toInt min.toInt max.toInt).tmod (max.toInt - min.toInt + 1) +
        min.toInt := by
  have smaller : ¬ min ≥ max := fun le => by
    have := Int32.le_iff_toInt_le.mp le
    omega
  have top := toInt_range max
  have diff := diff_toInt low order
  have positive : 0 < (max - min + 1).toInt := by omega
  have one : (1 : Int32).toInt = 1 := rfl
  have two : (2 : Int32).toInt = 2 := rfl
  have many : (132 : Int32).toInt = 132 := rfl
  rw [generateRandomNumber, if_neg smaller]
  dsimp only
  have value :
    ((1 + (1 + (ticks.toInt32 + 2) % (max - min + 1) * (ticks.toInt32 + 1) * 132) %
      (max - min + 1)) *
      (1 + ticks.toInt32 % max) * (1 + 2 * max % (max - min + 1))).toInt =
        product ticks.toInt32.toInt min.toInt max.toInt := by
    rw [toInt_mul, toInt_mul, wrap_mul, succ_mod positive, succ_mod (by omega : 0 < max.toInt),
      succ_mod positive, diff]
    rw [toInt_mul 2, two, toInt_add 1, one, toInt_mul, many, toInt_mul, Int32.toInt_mod, diff,
      toInt_add, two, toInt_add, one]
    rw [wrap_mul, wrap_add_right, product, wrap_inner]
  have below := Int.lt_tmod_of_pos (product ticks.toInt32.toInt min.toInt max.toInt) positive
  have above := Int.tmod_lt_of_pos (product ticks.toInt32.toInt min.toInt max.toInt) positive
  rw [toInt_add, Int32.toInt_mod, value, diff]
  rw [diff] at below above
  exact wrap_small (by omega) (by omega)

/-- The product of the three factors is not negative in `int`, or leaves no remainder. -/
def Steady (ticks : UInt32) (min max : Int) : Prop :=
  0 ≤ product ticks.toInt32.toInt min max ∨ max - min + 1 ∣ product ticks.toInt32.toInt min max

theorem tmod_nonneg_iff {x d : Int} : 0 ≤ x.tmod d ↔ 0 ≤ x ∨ d ∣ x := by
  constructor
  · intro nonneg
    by_cases negative : 0 ≤ x
    · exact .inl negative
    · refine .inr (Int.dvd_of_tmod_eq_zero (Int.le_antisymm ?_ nonneg))
      have opposite := Int.tmod_nonneg d (show 0 ≤ -x by omega)
      rw [Int.neg_tmod] at opposite
      omega
  · rintro (nonneg | divides)
    · exact Int.tmod_nonneg d nonneg
    · rw [Int.tmod_eq_zero_of_dvd divides]

theorem generateRandomNumber_bounds (ticks : UInt32) (low : 1 ≤ min.toInt)
    (order : min.toInt < max.toInt) :
    (generateRandomNumber ticks min max).toInt ≤ max.toInt ∧
      (min.toInt ≤ (generateRandomNumber ticks min max).toInt ↔
        Steady ticks min.toInt max.toInt) := by
  have positive : 0 < max.toInt - min.toInt + 1 := by omega
  have above := Int.tmod_lt_of_pos (product ticks.toInt32.toInt min.toInt max.toInt) positive
  rw [generateRandomNumber_toInt ticks low order, Steady, ← tmod_nonneg_iff]
  exact ⟨by omega, by omega⟩

end Range

section Draws

variable {s : Sched nproc F} {p : Fin nproc} {ps : List (Fin nproc)}

theorem lottery_at (s : Sched nproc F) (ticks : UInt32) :
    lottery { s with ticks := ticks } =
      drawFrom s (generateRandomNumber ticks 1 (countTickets s 0 (List.finRange nproc)))
        (List.finRange nproc) := by
  have counts : ∀ (total : Int32) (ps : List (Fin nproc)),
      countTickets { s with ticks := ticks } total ps = countTickets s total ps := by
    intro total ps
    induction ps generalizing total with
    | nil => rfl
    | cons p ps ih => rw [countTickets, countTickets, ih, ih]
  have draws : ∀ (w : Int32) (ps : List (Fin nproc)),
      drawFrom { s with ticks := ticks } w ps = drawFrom s w ps := by
    intro w ps
    induction ps generalizing w with
    | nil => rfl
    | cons p ps ih => rw [drawFrom, drawFrom, ih, ih]
  rw [lottery, winningTicket, counts, draws]

variable (positive : ∀ p, Waiting s 2 p → 0 < (s.proc p).tickets)
include positive

theorem drawFrom_above {w : Int32} (above : sold s ps < w.toInt) : drawFrom s w ps = none := by
  induction ps generalizing w with
  | nil => rfl
  | cons p ps ih =>
    have rest := sold_nonneg positive ps
    rw [sold] at above
    rw [drawFrom]
    simp only [skipped_iff]
    by_cases waits : Waiting s 2 p
    · have own := tickets_pos positive waits
      have range := toInt_range w
      rw [if_pos waits] at above
      have left : (w - (s.proc p).tickets).toInt = w.toInt - (s.proc p).tickets.toInt :=
        (Int32.toInt_sub _ _).trans (wrap_small (by omega) (by omega))
      have beyond : ¬ w - (s.proc p).tickets ≤ 0 := fun le => by
        have le := Int32.le_iff_toInt_le.mp le
        have zero : (0 : Int32).toInt = 0 := rfl
        omega
      rw [if_neg (not_not.mpr waits), if_neg beyond]
      exact ih (by omega)
    · rw [if_neg waits] at above
      rw [if_pos waits]
      exact ih (by omega)

theorem drawFrom_low {w : Int32} (low : w.toInt ≤ 0) (small : sold s ps < 2147483648)
    (drawn : drawFrom s w ps = some p) :
    ∃ us vs, ps = us ++ p :: vs ∧ sold s us = 0 := by
  induction ps with
  | nil => cases drawn
  | cons q ps ih =>
    have rest := sold_nonneg positive ps
    rw [sold] at small
    rw [drawFrom] at drawn
    simp only [skipped_iff] at drawn
    by_cases waits : Waiting s 2 q
    · rw [if_neg (not_not.mpr waits)] at drawn
      by_cases here : w - (s.proc q).tickets ≤ 0
      · rw [if_pos here] at drawn
        cases drawn
        exact ⟨[], ps, rfl, rfl⟩
      · rw [if_neg here] at drawn
        have own := tickets_pos positive waits
        have range := toInt_range w
        have zero : (0 : Int32).toInt = 0 := rfl
        rw [if_pos waits] at small
        have wrapped : (w - (s.proc q).tickets).toInt = w.toInt - (s.proc q).tickets.toInt +
            4294967296 := by
          have difference : (w - (s.proc q).tickets).toInt = wrap
              (w.toInt - (s.proc q).tickets.toInt) := Int32.toInt_sub _ _
          have above : ¬ (w - (s.proc q).tickets).toInt ≤ 0 :=
            fun le => here (Int32.le_iff_toInt_le.mpr le)
          obtain ⟨k,value,-,-⟩ := wrap_spec (w.toInt - (s.proc q).tickets.toInt)
          have range := toInt_range (w - (s.proc q).tickets)
          omega
        have nobody : drawFrom s (w - (s.proc q).tickets) ps = none :=
          drawFrom_above positive (by omega)
        rw [nobody] at drawn
        cases drawn
    · rw [if_pos waits] at drawn
      rw [if_neg waits] at small
      obtain ⟨us,vs,cut,none⟩ := ih (by omega) drawn
      exact ⟨q :: us, vs, by rw [cut]; rfl, by rw [sold, if_neg waits, none]; rfl⟩

end Draws

/-- A remainder modulo `total` in the stretch of `count` tickets behind `before` comes up at some
    time. -/
def Hit (total before count : Int) : Prop :=
  ∃ t : Int, -2147483648 ≤ t ∧ t ≤ 2147483647 ∧ before ≤ (product t 1 total).tmod total ∧
    (product t 1 total).tmod total < before + count

section Wins

theorem wrap_even (x : Int) : 2 ∣ wrap x ↔ 2 ∣ x := by
  obtain ⟨q,value,-,-⟩ := wrap_spec x
  omega

theorem tmod_even {x d : Int} (even : 2 ∣ d) : 2 ∣ x.tmod d ↔ 2 ∣ x := by
  have whole := Int.mul_tdiv_add_tmod x d
  have part : 2 ∣ d * x.tdiv d := Dvd.dvd.mul_right even _
  omega

theorem product_even {t total : Int} (even : 2 ∣ total) : 2 ∣ (product t 1 total).tmod total := by
  have diff : total - 1 + 1 = total := by omega
  rw [tmod_even even, product, wrap_even, diff]
  refine Dvd.dvd.mul_right (Dvd.dvd.mul_right ?_ _) _
  have odd : ¬ 2 ∣ (wrap (1 + (wrap (t + 2)).tmod total * (t + 1) * 132)).tmod total := by
    rw [tmod_even even, wrap_even]
    omega
  omega

variable {s : Sched nproc F} {p : Fin nproc}

theorem lottery_wins_iff (positive : ∀ p, Waiting s 2 p → 0 < (s.proc p).tickets)
    (small : sold s (List.finRange nproc) < 2147483648)
    (waits : Waiting s 2 p) :
    (∃ ticks, lottery { s with ticks := ticks } = some p) ↔
      earlier s p = 0 ∨
      Hit (sold s (List.finRange nproc)) (earlier s p) (s.proc p).tickets.toInt := by
  have total := countTickets_sold positive small
  obtain ⟨before,within⟩ := stretch_within positive waits
  have own := tickets_pos positive waits
  have one : (1 : Int32).toInt = 1 := rfl
  by_cases single : sold s (List.finRange nproc) = 1
  · have count : countTickets s 0 (List.finRange nproc) = 1 :=
      Int32.toInt_inj.mp (total.trans single)
    refine iff_of_true ⟨0, ?_⟩ (.inl (by omega))
    rw [lottery_at, count]
    have draw : generateRandomNumber 0 1 1 = 1 := rfl
    rw [draw, drawFrom_iff positive (by omega) (by omega)]
    exact ⟨waits, by omega, by omega⟩
  · have more : (1 : Int32).toInt < (countTickets s 0 (List.finRange nproc)).toInt := by omega
    have low : 1 ≤ (1 : Int32).toInt := by decide
    have diff : sold s (List.finRange nproc) - 1 + 1 = sold s (List.finRange nproc) := by omega
    -- the ticket that a time draws
    have draw :
      ∀ ticks, (generateRandomNumber ticks 1 (countTickets s 0 (List.finRange nproc))).toInt =
        (product ticks.toInt32.toInt 1 (sold s (List.finRange nproc))).tmod
          (sold s (List.finRange nproc)) + 1 := fun ticks => by
      have value := generateRandomNumber_toInt ticks low more
      rwa [total, one, diff] at value
    have upper :
      ∀ ticks, (generateRandomNumber ticks 1 (countTickets s 0 (List.finRange nproc))).toInt ≤
        sold s (List.finRange nproc) :=
          fun ticks => total ▸ (generateRandomNumber_bounds ticks low more).1
    constructor
    · rintro ⟨ticks,drawn⟩
      rw [lottery_at] at drawn
      by_cases first :
        0 < (generateRandomNumber ticks 1 (countTickets s 0 (List.finRange nproc))).toInt
      · obtain ⟨-,above,below⟩ := (drawFrom_iff positive first (upper ticks)).mp drawn
        have value := draw ticks
        have range := toInt_range ticks.toInt32
        exact .inr ⟨ticks.toInt32.toInt, range.1, range.2, by omega, by omega⟩
      · obtain ⟨us,vs,cut,none⟩ := drawFrom_low positive (by omega) small drawn
        rw [slots_before cut] at none
        exact .inl none
    · rintro (first | ⟨t,bottom,top,above,below⟩)
      · -- at the last tick before the counter starts again the second factor is zero
        have value := draw 4294967295
        have zero : product (4294967295 : UInt32).toInt32.toInt 1
            (sold s (List.finRange nproc)) = 0 := by
          have second : 1 + (-1 : Int).tmod (sold s (List.finRange nproc)) = 0 := by
            rw [Int.neg_tmod, Int.tmod_eq_of_lt (by decide) (by omega)]
            rfl
          show product (-1) 1 _ = 0
          rw [product, second, Int.mul_zero, Int.zero_mul]
          rfl
        rw [zero, Int.zero_tmod] at value
        refine ⟨4294967295, ?_⟩
        rw [lottery_at, drawFrom_iff positive (by omega) (by omega)]
        exact ⟨waits, by omega, by omega⟩
      · have time : (Int32.ofInt t).toUInt32.toInt32.toInt = t := by
          rw [Int32.toInt32_toUInt32]
          exact Int32.toInt_ofInt_of_le bottom (by omega)
        have value := draw (Int32.ofInt t).toUInt32
        rw [time] at value
        refine ⟨(Int32.ofInt t).toUInt32, ?_⟩
        have := upper (Int32.ofInt t).toUInt32
        rw [lottery_at, drawFrom_iff positive (by omega) (by omega)]
        exact ⟨waits, by omega, by omega⟩

end Wins

end SchedulerPass

import Mathlib.Order.Interval.Finset.Nat
import Xv6.Scheduler.Select

/- The lottery of queue 2 in numbers. The tickets of the waiting processes lie one behind the
   other in table order; the second loop of `lottery` finds the process whose stretch holds the
   winning ticket. -/

namespace SchedulerPass
open ProcTable
variable {nproc : Nat} {F : Type} {s : Sched nproc F} {p q : Fin nproc} {ps : List (Fin nproc)}

/-- The tickets of the processes of queue 2 among some slots. -/
def sold (s : Sched nproc F) : List (Fin nproc) → Int
  | [] => 0
  | p :: ps => (if Waiting s 2 p then (s.proc p).tickets.toInt else 0) + sold s ps

def earlier (s : Sched nproc F) (p : Fin nproc) : Int := sold s ((List.finRange nproc).take p)

theorem sold_append (us vs : List (Fin nproc)) : sold s (us ++ vs) = sold s us + sold s vs := by
  induction us with
  | nil => simp [sold]
  | cons p us ih =>
    rw [List.cons_append, sold, sold, ih, Int.add_assoc]

section Positive
theorem slots_before {us vs : List (Fin nproc)} (cut : List.finRange nproc = us ++ p :: vs) :
    us = (List.finRange nproc).take p := by
  have place : us.length < (List.finRange nproc).length := by
    rw [cut]
    simp
  have here : (List.finRange nproc).get ⟨us.length, place⟩ = p := by
    simp [cut]
  have index : us.length = p := by
    rw [← here]
    simp
  rw [← index, cut, List.take_left]

theorem slots_cut (p : Fin nproc) :
    List.finRange nproc =
      (List.finRange nproc).take p ++ p :: (List.finRange nproc).drop (p + 1) := by
  have place : (p : Nat) < (List.finRange nproc).length := by
    rw [List.length_finRange]
    exact p.isLt
  conv => lhs; rw [← List.take_append_drop p (List.finRange nproc)]
  rw [List.drop_eq_getElem_cons place, List.getElem_finRange]
  rfl

variable (positive : ∀ p, Waiting s 2 p → 0 < (s.proc p).tickets)
include positive

theorem tickets_pos (waits : Waiting s 2 p) : 0 < (s.proc p).tickets.toInt := by
  simpa using Int32.lt_iff_toInt_lt.mp (positive p waits)

theorem sold_nonneg (ps : List (Fin nproc)) : 0 ≤ sold s ps := by
  induction ps with
  | nil => exact Int.le_refl 0
  | cons p ps ih =>
    rw [sold]
    by_cases waits : Waiting s 2 p
    · have := tickets_pos positive waits
      rw [if_pos waits]
      omega
    · rw [if_neg waits]
      omega

theorem countTickets_sold (small : sold s ps < 2147483648) :
    (countTickets s 0 ps).toInt = sold s ps := by
  induction ps with
  | nil => rfl
  | cons p ps ih =>
    have rest := sold_nonneg positive ps
    rw [sold] at small ⊢
    rw [countTickets_cons]
    by_cases waits : Waiting s 2 p
    · have own := tickets_pos positive waits
      rw [if_pos waits] at small ⊢
      rw [if_pos waits, Int32.toInt_add, ih (by omega)]
      exact Int.bmod_eq_of_le (by omega) (by omega)
    · rw [if_neg waits] at small ⊢
      rw [if_neg waits, Int32.zero_add, Int.zero_add]
      exact ih (by omega)

theorem drawFrom_stretch {w : Int32} (first : 0 < w.toInt) (last : w.toInt ≤ sold s ps) :
    ∃ us p vs, ps = us ++ p :: vs ∧ Waiting s 2 p ∧ drawFrom s w ps = some p ∧
      sold s us < w.toInt ∧ w.toInt ≤ sold s us + (s.proc p).tickets.toInt := by
  induction ps generalizing w with
  | nil =>
    rw [sold] at last
    omega
  | cons p ps ih =>
    rw [sold] at last
    rw [drawFrom]
    simp only [skipped_iff]
    by_cases waits : Waiting s 2 p
    · have own := tickets_pos positive waits
      have upper := w.toInt_lt
      have left : (w - (s.proc p).tickets).toInt = w.toInt - (s.proc p).tickets.toInt := by
        have := (s.proc p).tickets.toInt_lt
        rw [Int32.toInt_sub]
        exact Int.bmod_eq_of_le (by omega) (by omega)
      have zero : (0 : Int32).toInt = 0 := rfl
      rw [if_pos waits] at last
      rw [if_neg (not_not.mpr waits)]
      by_cases here : w - (s.proc p).tickets ≤ 0
      · rw [if_pos here]
        rw [Int32.le_iff_toInt_le, left, zero] at here
        refine ⟨[], p, ps, rfl, waits, rfl, first, ?_⟩
        simp only [sold]
        omega
      · rw [if_neg here]
        rw [Int32.le_iff_toInt_le, left, zero] at here
        obtain ⟨us,q,vs,cut,waits',drawn,low,high⟩ :=
          ih (w := w - (s.proc p).tickets) (by omega) (by omega)
        refine ⟨p :: us, q, vs, by rw [cut]; rfl, waits', drawn, ?_, ?_⟩
        · rw [sold, if_pos waits]
          omega
        · rw [sold, if_pos waits]
          omega
    · rw [if_neg waits, Int.zero_add] at last
      rw [if_pos waits]
      obtain ⟨us,q,vs,cut,waits',drawn,low,high⟩ := ih first last
      refine ⟨p :: us, q, vs, by rw [cut]; rfl, waits', drawn, ?_, ?_⟩
      · rw [sold, if_neg waits]
        omega
      · rw [sold, if_neg waits]
        omega

theorem earlier_stretch (waits : Waiting s 2 p) (before : p < q) :
    earlier s p + (s.proc p).tickets.toInt ≤ earlier s q := by
  have cut : (List.finRange nproc).take q =
      (List.finRange nproc).take p ++ p :: ((List.finRange nproc).drop (p + 1)).take
        (q - (p + 1)) := by
    have less : (p : Nat) + 1 ≤ q := before
    have length : ((List.finRange nproc).take p).length = p := by
      rw [List.length_take, List.length_finRange]
      omega
    conv => lhs; rw [slots_cut p]
    rw [List.take_append, length, List.take_of_length_le (by omega)]
    congr 1
    obtain ⟨n,eq⟩ : ∃ n, (q : Nat) - p = n + 1 := ⟨q - p - 1, by omega⟩
    rw [eq, List.take_succ_cons]
    congr 2
    omega
  have rest := sold_nonneg positive (((List.finRange nproc).drop (p + 1)).take (q - (p + 1)))
  rw [earlier, earlier, cut, sold_append, sold, if_pos waits]
  omega

theorem stretch_unique {w : Int} (waits : Waiting s 2 p) (waits' : Waiting s 2 q)
    (low : earlier s p < w)
    (high : w ≤ earlier s p + (s.proc p).tickets.toInt) (low' : earlier s q < w)
    (high' : w ≤ earlier s q + (s.proc q).tickets.toInt) : q = p := by
  obtain less | same | more := lt_trichotomy p q
  · have := earlier_stretch positive waits less
    omega
  · exact same.symm
  · have := earlier_stretch positive waits' more
    omega

theorem drawFrom_iff {w : Int32} (first : 0 < w.toInt)
    (last : w.toInt ≤ sold s (List.finRange nproc)) :
    drawFrom s w (List.finRange nproc) = some p ↔
      Waiting s 2 p ∧ earlier s p < w.toInt ∧ w.toInt ≤ earlier s p + (s.proc p).tickets.toInt := by
  obtain ⟨us,q,vs,cut,waits,drawn,low,high⟩ := drawFrom_stretch positive first last
  rw [slots_before cut] at low high
  rw [drawn]
  constructor
  · intro same
    cases same
    exact ⟨waits, low, high⟩
  · rintro ⟨waits',low',high'⟩
    exact congrArg some (stretch_unique positive waits' waits low' high' low high)

theorem stretch_within (waits : Waiting s 2 p) :
    0 ≤ earlier s p ∧ earlier s p + (s.proc p).tickets.toInt ≤ sold s (List.finRange nproc) := by
  refine ⟨sold_nonneg positive _, ?_⟩
  have rest := sold_nonneg positive ((List.finRange nproc).drop (p + 1))
  rw [slots_cut p, sold_append, sold, if_pos waits, ← earlier]
  omega

theorem lottery_exact (small : sold s (List.finRange nproc) < 2147483648) :
    (countTickets s 0 (List.finRange nproc)).toInt = sold s (List.finRange nproc) ∧
    (∀ w : Int32, 1 ≤ w.toInt → w.toInt ≤ sold s (List.finRange nproc) →
      ∃ p, drawFrom s w (List.finRange nproc) = some p ∧
        (Waiting s 2 p ∧ earlier s p < w.toInt ∧ w.toInt ≤ earlier s p + (s.proc p).tickets.toInt) ∧
        ∀ q, Waiting s 2 q → earlier s q < w.toInt →
          w.toInt ≤ earlier s q + (s.proc q).tickets.toInt → q = p) ∧
    ∀ p, Waiting s 2 p →
      (((Finset.Icc 1 (sold s (List.finRange nproc)).toNat).filter fun w =>
        drawFrom s (Int32.ofNat w) (List.finRange nproc) = some p).card :
          Int) = (s.proc p).tickets.toInt := by
  refine ⟨countTickets_sold positive small, fun w first last => ?_, fun p waits => ?_⟩
  · obtain ⟨us,p,vs,cut,waits,drawn,low,high⟩ := drawFrom_stretch positive (by omega) last
    rw [slots_before cut] at low high
    exact ⟨p, drawn, ⟨waits, low, high⟩, fun q waits' low' high' =>
      stretch_unique positive waits waits' low high low' high'⟩
  · obtain ⟨low,high⟩ := stretch_within positive waits
    have own := tickets_pos positive waits
    have stretch : (Finset.Icc 1 (sold s (List.finRange nproc)).toNat).filter (fun w =>
        drawFrom s (Int32.ofNat w) (List.finRange nproc) = some p) =
        Finset.Ioc (earlier s p).toNat ((earlier s p).toNat + (s.proc p).tickets.toInt.toNat) := by
      ext w
      rw [Finset.mem_filter, Finset.mem_Icc, Finset.mem_Ioc]
      constructor
      · rintro ⟨⟨first,last⟩,drawn⟩
        have value : (Int32.ofNat w).toInt = w := Int32.toInt_ofNat_of_lt (by omega)
        obtain ⟨-,above,below⟩ := (drawFrom_iff positive (by omega) (by omega)).mp drawn
        omega
      · rintro ⟨above,below⟩
        have value : (Int32.ofNat w).toInt = w := Int32.toInt_ofNat_of_lt (by omega)
        exact ⟨⟨by omega, by omega⟩,
          (drawFrom_iff positive (by omega) (by omega)).mpr ⟨waits, by omega, by omega⟩⟩
    rw [stretch, Nat.card_Ioc]
    omega

end Positive

def raffle : Sched 3 Rat where
  proc p :=
    ⟨.runnable, 1, 0, if p.val = 1 then 1 else 2, 0, if p.val = 0 then 3 else 5, 1, 1, 1, 0, 1⟩
  ticks := 7
  nextpid := 4

theorem lottery_exact_raffle :
    (sold raffle (List.finRange 3) = 8 ∧ Waiting raffle 2 ⟨2, by decide⟩) ∧
    (((Finset.Icc 1 8).filter fun w =>
      drawFrom raffle (Int32.ofNat w) (List.finRange 3) = some ⟨2, by decide⟩).card : Int) = 5 := by
  have total : sold raffle (List.finRange 3) = 8 := by decide
  have waits : Waiting raffle 2 ⟨2, by decide⟩ := by decide
  have shares := (lottery_exact (s := raffle) (by decide) (by decide)).2.2 ⟨2, by decide⟩ waits
  rw [total] at shares
  exact ⟨⟨total, waits⟩, shares⟩

end SchedulerPass

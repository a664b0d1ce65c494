import Mathlib.Algebra.Order.Ring.Nat
import Mathlib.Data.Nat.Bitwise

/- Memory as a map from addresses to bytes: loading and storing ranges, little-endian numbers
   in them, and single bits. Nothing here names a particular layout. -/
namespace Bytes
variable {m : Nat → UInt8} {a b n k : Nat}

def number : List UInt8 → Nat
  | [] => 0
  | b :: bs => b.toNat + 256 * number bs

def digits : Nat → Nat → List UInt8
  | 0, _ => []
  | k + 1, v => UInt8.ofNat v :: digits k (v / 256)

@[simp] theorem length_digits (k v : Nat) : (digits k v).length = k := by
  induction k generalizing v with
  | zero => rfl
  | succ k ih => simp [digits, ih]

theorem number_digits (k v : Nat) : number (digits k v) = v % 256 ^ k := by
  induction k generalizing v with
  | zero => simp [digits, number, Nat.mod_one]
  | succ k ih =>
    have low : (UInt8.ofNat v).toNat = v % 256 := UInt8.toNat_ofNat'
    rw [digits, number, ih, low, Nat.pow_succ', Nat.mod_mul]

theorem number_lt (bs : List UInt8) : number bs < 256 ^ bs.length := by
  induction bs with
  | nil => simp [number]
  | cons b bs ih =>
    have := b.toNat_lt
    rw [number, List.length_cons, Nat.pow_succ]
    omega

theorem digit_number (bs : List UInt8) (j : Nat) (inside : j < bs.length) :
    UInt8.ofNat (number bs / 256 ^ j) = bs.get ⟨j, inside⟩ := by
  induction bs generalizing j with
  | nil => cases inside
  | cons b bs ih =>
    have low := b.toNat_lt
    cases j with
    | zero =>
      apply UInt8.toNat_inj.mp
      rw [UInt8.toNat_ofNat', number, Nat.pow_zero, Nat.div_one]
      show _ = b.toNat
      omega
    | succ j =>
      have rest : number (b :: bs) / 256 = number bs := by
        rw [number]
        omega
      rw [Nat.pow_succ', ← Nat.div_div_eq_div_mul, rest]
      exact ih j (Nat.lt_of_succ_lt_succ inside)

def load (m : Nat → UInt8) (a n : Nat) : List UInt8 := (List.range n).map fun i => m (a + i)

def store (m : Nat → UInt8) (a : Nat) (bs : List UInt8) : Nat → UInt8 := fun x =>
  if a ≤ x then bs.getD (x - a) (m x) else m x

@[simp] theorem length_load (m : Nat → UInt8) (a n : Nat) : (load m a n).length = n := by
  simp [load]

theorem load_congr {l : Nat → UInt8} (same : ∀ x, a ≤ x → x < a + n → l x = m x) :
    load l a n = load m a n := by
  refine List.map_congr_left fun i mem => ?_
  have := List.mem_range.mp mem
  exact same (a + i) (by omega) (by omega)

theorem load_append (m : Nat → UInt8) (a n k : Nat) :
    load m a (n + k) = load m a n ++ load m (a + n) k := by
  simp [load, List.range_add, Nat.add_assoc]

theorem store_inside {bs : List UInt8} {x : Nat} (low : a ≤ x) (high : x < a + bs.length) :
    store m a bs x = bs.get ⟨x - a, by omega⟩ := by
  have inside : x - a < bs.length := by omega
  simp [store, low, List.getD_eq_getElem?_getD, inside]

theorem store_outside {bs : List UInt8} {x : Nat} (out : x < a ∨ a + bs.length ≤ x) :
    store m a bs x = m x := by
  simp only [store, List.getD_eq_getElem?_getD]
  split
  · have : bs[x - a]? = none := List.getElem?_eq_none (by omega)
    rw [this]
    rfl
  · rfl

theorem load_store_same (bs : List UInt8) : load (store m a bs) a bs.length = bs := by
  refine List.ext_getElem (by simp) fun i low high => ?_
  have : store m a bs (a + i) = bs.get ⟨a + i - a, by omega⟩ := store_inside (by omega) (by omega)
  simp [load, this]

theorem load_store_outside {bs : List UInt8} (out : a + n ≤ b ∨ b + bs.length ≤ a) :
    load (store m b bs) a n = load m a n :=
  load_congr fun _ low high => store_outside (by omega)

def get (m : Nat → UInt8) (a k : Nat) : Nat := number (load m a k)

def put (m : Nat → UInt8) (a k v : Nat) : Nat → UInt8 := store m a (digits k v)

theorem get_put_same (m : Nat → UInt8) (a k v : Nat) : get (put m a k v) a k = v % 256 ^ k := by
  have whole := load_store_same (m := m) (a := a) (digits k v)
  rw [length_digits] at whole
  rw [get, put, whole, number_digits]

theorem get_congr {l : Nat → UInt8} (same : ∀ x, a ≤ x → x < a + k → l x = m x) :
    get l a k = get m a k := by
  rw [get, load_congr same, get]

theorem get_store_outside {bs : List UInt8} (out : a + k ≤ b ∨ b + bs.length ≤ a) :
    get (store m b bs) a k = get m a k := by
  rw [get, load_store_outside out, get]

theorem get_store_inside {bs : List UInt8} (inside : n + k ≤ bs.length) :
    get (store m a bs) (a + n) k = number ((bs.drop n).take k) := by
  have cut : load (store m a bs) (a + n) k = (bs.drop n).take k := by
    refine List.ext_getElem (by simp; omega) fun i low high => ?_
    have : store m a bs (a + n + i) = bs.get ⟨a + n + i - a, by simp at low; omega⟩ :=
      store_inside (by omega) (by simp at low; omega)
    simp only [load, List.getElem_map, List.getElem_range, this, List.get_eq_getElem,
      List.getElem_take, List.getElem_drop]
    congr 1
    omega
  rw [get, cut]

theorem length_records {α β : Type} {f : α → List β} (width : ∀ x, (f x).length = k) (xs : List α) :
    (xs.flatMap f).length = k * xs.length := by
  induction xs with
  | nil => rfl
  | cons x xs ih =>
    rw [List.flatMap_cons, List.length_append, width, ih, List.length_cons, Nat.mul_succ,
      Nat.add_comm]

theorem take_drop_flatMap {α β : Type} {f : α → List β} (width : ∀ x, (f x).length = k)
    {l : List α} {i : Nat} (bound : i < l.length) :
    ((l.flatMap f).drop (k * i)).take k = f (l.get ⟨i, bound⟩) := by
  induction l generalizing i with
  | nil => simp at bound
  | cons x l ih =>
    rw [List.flatMap_cons]
    cases i with
    | zero => simp [← width x]
    | succ i =>
      have past : k * (i + 1) = (f x).length + k * i := by rw [width, Nat.mul_succ, Nat.add_comm]
      rw [past, List.drop_length_add_append]
      simpa using ih (by simpa using bound)

def testBit (w : UInt8) (k : Nat) : Bool := w.toNat.testBit k

def setBit (w : UInt8) (k : Nat) : UInt8 := UInt8.ofNat (w.toNat ||| 2 ^ k)

def clearBit (w : UInt8) (k : Nat) : UInt8 := UInt8.ofNat (w.toNat &&& (255 - 2 ^ k))

theorem testBit_setBit (w : UInt8) {j : Nat} (low : j < 8) (k : Nat) :
    testBit (setBit w j) k = (testBit w k || decide (k = j)) := by
  have power : 2 ^ j < 2 ^ 8 := Nat.pow_lt_pow_right (by omega) low
  have small : w.toNat ||| 2 ^ j < 2 ^ 8 := Nat.or_lt_two_pow w.toNat_lt power
  rw [testBit, setBit, UInt8.toNat_ofNat', Nat.mod_eq_of_lt small, Nat.testBit_or,
    Nat.testBit_two_pow, testBit]
  simp [eq_comm]

end Bytes

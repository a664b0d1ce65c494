import Mathlib.Logic.Function.Basic
import Xv6.Ulib

/- memmove twice: string.c's for the kernel, which looks at the overlap and takes an unsigned
   length, and ulib.c's for programs, which copies upwards and takes an int. -/
namespace KernelString

def word : Nat := 4294967296

def up (p : Nat) : Nat := (p + 1) % word
def down (p : Nat) : Nat := (p + (word - 1)) % word

/-- `while(n-- > 0) *d++ = *s++;` -/
def copyUp (m : Nat → UInt8) (d s : Nat) : Nat → Nat → UInt8
  | 0 => m
  | n + 1 => copyUp (Function.update m d (m s)) (up d) (up s) n

/-- `while(n-- > 0) *--d = *--s;` -/
def copyDown (m : Nat → UInt8) (d s : Nat) : Nat → Nat → UInt8
  | 0 => m
  | n + 1 => copyDown (Function.update m (down d) (m (down s))) (down d) (down s) n

def memmove (m : Nat → UInt8) (dst src n : Nat) : Nat → UInt8 :=
  if src < dst ∧ dst < (src + n) % word then copyDown m ((dst + n) % word) ((src + n) % word) n
  else copyUp m dst src n

def asInt (n : Nat) : Int := (BitVec.ofNat 32 n).toInt

variable {m : Nat → UInt8} {dst src n : Nat}

theorem asInt_small (small : n < 2147483648) : (asInt n).toNat = n := by
  rw [asInt, BitVec.toInt_eq_toNat_cond, BitVec.toNat_ofNat]
  omega

theorem asInt_large (large : 2147483648 ≤ n) (uint : n < word) : (asInt n).toNat = 0 := by
  simp only [word] at uint
  rw [asInt, BitVec.toInt_eq_toNat_cond, BitVec.toNat_ofNat]
  omega

theorem up_eq {p : Nat} (room : p + 1 < word) : up p = p + 1 := Nat.mod_eq_of_lt room

theorem down_eq {p : Nat} (room : p + 1 ≤ word) : down ((p + 1) % word) = p := by
  simp only [down, word] at *
  omega

/-- The last increment may wrap, but what it gives is not used. -/
theorem copyUp_eq (room : dst + n ≤ word) (room' : src + n ≤ word) :
    copyUp m dst src n = Ulib.memmove m dst src n := by
  induction n generalizing m dst src with
  | zero => rfl
  | succ n ih =>
    rw [copyUp, Ulib.memmove]
    cases n with
    | zero => rfl
    | succ n => rw [up_eq (by omega), up_eq (by omega), ih (by omega) (by omega)]

def Moved (m : Nat → UInt8) (dst src n : Nat) (m' : Nat → UInt8) : Prop :=
  ∀ x, m' x = if dst ≤ x ∧ x < dst + n then m (x - dst + src) else m x

theorem copyDown_moved (upwards : src < dst) (room : dst + n ≤ word) :
    Moved m dst src n (copyDown m ((dst + n) % word) ((src + n) % word) n) := by
  induction n generalizing m with
  | zero =>
    intro x
    rw [copyDown, if_neg (by omega)]
  | succ n ih =>
    intro x
    rw [copyDown, ← Nat.add_assoc, ← Nat.add_assoc, down_eq (by omega), down_eq (by omega)]
    have rest := ih (m := Function.update m (dst + n) (m (src + n))) (by omega) x
    rw [Nat.mod_eq_of_lt (by omega), Nat.mod_eq_of_lt (by omega)] at rest
    rw [rest]
    -- the byte that is copied first lies above all that are copied later
    by_cases last : x = dst + n
    · subst last
      rw [if_neg (by omega), Function.update_self, if_pos (by omega), Nat.add_sub_cancel_left,
        Nat.add_comm]
    · by_cases inside : dst ≤ x ∧ x < dst + n
      · rw [if_pos inside, if_pos (by omega), Function.update_of_ne (by omega)]
      · rw [if_neg inside, if_neg (by omega), Function.update_of_ne last]

theorem memmove_up (upwards : src < dst) (x : Nat) :
    Ulib.memmove m dst src n x = if dst ≤ x ∧ x < dst + n then m ((x - dst) % (dst - src) + src)
      else m x := by
  induction n generalizing m dst src with
  | zero => rw [Ulib.memmove, if_neg (by omega)]
  | succ n ih =>
    have period : dst + 1 - (src + 1) = dst - src := by omega
    rw [Ulib.memmove, ih (by omega), period]
    by_cases first : x = dst
    · subst first
      rw [if_neg (by omega), Function.update_self, if_pos (by omega), Nat.sub_self, Nat.zero_mod,
        Nat.zero_add]
    · by_cases later : dst + 1 ≤ x ∧ x < dst + 1 + n
      · have below := Nat.mod_lt (x - (dst + 1)) (show 0 < dst - src by omega)
        have next : (x - dst) % (dst - src) =
            ((x - (dst + 1)) % (dst - src) + 1) % (dst - src) := by
          rw [Nat.mod_add_mod]
          congr 1
          omega
        rw [if_pos later, if_pos (by omega), next]
        by_cases again : (x - (dst + 1)) % (dst - src) + 1 = dst - src
        · have here : (x - (dst + 1)) % (dst - src) + (src + 1) = dst := by omega
          rw [here, Function.update_self, again, Nat.mod_self, Nat.zero_add]
        · rw [Function.update_of_ne (by omega),
            Nat.mod_eq_of_lt (show (x - (dst + 1)) % (dst - src) + 1 < dst - src by omega)]
          congr 1
          omega
      · rw [if_neg later, if_neg (by omega), Function.update_of_ne first]

def Repeats (m : Nat → UInt8) (src n p : Nat) : Prop :=
  ∀ j, p ≤ j → j < n → m (src + j) = m (src + (j - p))

theorem repeats_iff {p : Nat} (some_ : 0 < p) :
    Repeats m src n p ↔ ∀ j < n, m (j % p + src) = m (src + j) := by
  constructor
  · intro repeats j
    induction j using Nat.strongRecOn with
    | ind j ih =>
      intro below
      by_cases first : j < p
      · rw [Nat.mod_eq_of_lt first, Nat.add_comm]
      · rw [repeats j (by omega) below, ← ih (j - p) (by omega) (by omega),
          Nat.mod_eq_sub_mod (by omega)]
  · intro same j late below
    rw [← same j below, ← same (j - p) (by omega), Nat.mod_eq_sub_mod late]

/-- What the program's memmove needs: a destination that does not start behind the start of the
    source and inside of it, or bytes that repeat so that this does not matter. A length of 2 GB
    or more is negative. -/
def Safe (m : Nat → UInt8) (dst src n : Nat) : Prop :=
  if n < 2147483648 then src < dst → Repeats m src n (dst - src)
  else ∀ j < n, m (dst + j) = m (src + j)

theorem memmove_moved (room : dst + n ≤ word) (room' : src + n ≤ word) :
    Moved m dst src n (memmove m dst src n) := by
  unfold memmove
  split
  · next overlap => exact copyDown_moved overlap.1 room
  · next apart =>
    rw [copyUp_eq room room']
    intro x
    by_cases below : src < dst
    · -- the source ends at or before the destination, so no byte is read after it was written
      have ends : src + n ≤ dst := by
        rw [Nat.mod_eq_of_lt (by omega)] at apart
        omega
      rw [memmove_up below]
      by_cases inside : dst ≤ x ∧ x < dst + n
      · rw [if_pos inside, if_pos inside, Nat.mod_eq_of_lt (by omega)]
      · rw [if_neg inside, if_neg inside]
    · exact Ulib.memmove_down (by omega) x

theorem user_moved_iff (uint : n < word) :
    Moved m dst src n (Ulib.memmove m dst src (asInt n).toNat) ↔ Safe m dst src n := by
  unfold Safe
  split
  · next small =>
    rw [asInt_small small]
    by_cases below : src < dst
    · rw [forall_prop_of_true below, repeats_iff (by omega)]
      constructor
      · intro moved j inside
        have here := moved (dst + j)
        rw [memmove_up below, if_pos (by omega), if_pos (by omega), Nat.add_sub_cancel_left] at here
        rw [here, Nat.add_comm]
      · intro same x
        rw [memmove_up below]
        by_cases inside : dst ≤ x ∧ x < dst + n
        · rw [if_pos inside, if_pos inside, same (x - dst) (by omega), Nat.add_comm]
        · rw [if_neg inside, if_neg inside]
    · exact iff_of_true (fun x => Ulib.memmove_down (by omega) x) fun wrong => absurd wrong below
  · next large =>
    rw [asInt_large (by omega) uint]
    constructor
    · intro moved j inside
      have here := moved (dst + j)
      rw [if_pos (by omega), Nat.add_sub_cancel_left, Nat.add_comm j] at here
      exact here
    · intro same x
      by_cases inside : dst ≤ x ∧ x < dst + n
      · have here := same (x - dst) (by omega)
        rw [Nat.add_sub_cancel' inside.1] at here
        rw [if_pos inside, Nat.add_comm]
        exact here
      · rw [if_neg inside]
        rfl

theorem moved_unique {m' m'' : Nat → UInt8} (first : Moved m dst src n m')
    (second : Moved m dst src n m'') : m' = m'' :=
  funext fun x => (first x).trans (second x).symm

/-- The kernel's memmove is right for every two ranges; the one for programs is right, and agrees
    with it, iff the move is safe. -/
theorem memmoves_agree_iff (m : Nat → UInt8) {dst src n : Nat} (room : dst + n ≤ word)
    (room' : src + n ≤ word) (uint : n < word) :
    Moved m dst src n (memmove m dst src n) ∧
    (Moved m dst src n (Ulib.memmove m dst src (asInt n).toNat) ↔ Safe m dst src n) ∧
    (Ulib.memmove m dst src (asInt n).toNat = memmove m dst src n ↔ Safe m dst src n) := by
  have right := memmove_moved (m := m) room room'
  refine ⟨right, user_moved_iff uint, ?_⟩
  rw [← user_moved_iff uint]
  constructor
  · intro same
    rw [same]
    exact right
  · intro moved
    exact moved_unique moved right

theorem memmoves_agree_iff_three :
    Ulib.memmove UInt8.ofNat 0 1 (asInt 3).toNat = memmove UInt8.ofNat 0 1 3 :=
  (memmoves_agree_iff UInt8.ofNat (by decide) (by decide) (by decide)).2.2.mpr fun wrong =>
    absurd wrong (by decide)

theorem upward_overlap_differs :
    memmove UInt8.ofNat 1 0 2 2 = 1 ∧ Ulib.memmove UInt8.ofNat 1 0 (asInt 2).toNat 2 = 0 := by
  decide +kernel

end KernelString

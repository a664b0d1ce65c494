import Xv6.Fs.Components
import Xv6.Fs.Entries
import Xv6.Fs.Trunc

/- A tree of directories, and the references a lookup takes on its way. What a lookup holds beyond
   the state it started from is a count per slot; dropping such a reference never frees an inode,
   since every inode in the tree has a link or a reference of somebody else. -/
namespace FsPaths
open Bytes FsDisk FsInode FsContent FsIcache FsDirectory FsCache FsNames Panics SlotMap

variable {k : Mount} {s t u s₀ : Fs} {x y h : Slot} {i : Nat}

/-- Inode `i` is allocated and somebody else will keep it. -/
def Stays (k : Mount) (s : Fs) (i : Nat) : Prop :=
  (dinode k.sb s.disk i).type ≠ 0 ∧
    ((dinode k.sb s.disk i).nlink ≠ 0 ∨ ∃ x, 0 < (s.icache x).ref ∧ (s.icache x).inum = i)

structure Tree (k : Mount) (s : Fs) : Prop where
  wf : WellFormed k.sb s.disk
  cache : Cache k s
  idle : ∀ x, (s.icache x).lock = false
  live : ∀ x, 0 < (s.icache x).ref → (dinode k.sb s.disk (s.icache x).inum).type ≠ 0
  aligned : ∀ i < k.sb.ninodes, (dinode k.sb s.disk i).type = tDir →
    (dinode k.sb s.disk i).size.toNat % 16 = 0
  entries : ∀ i < k.sb.ninodes, (dinode k.sb s.disk i).type = tDir → ∀ name r,
    find (table k s i) name = some r →
    r.2 < k.sb.ninodes ∧ Stays k s r.2
  root : rootino < k.sb.ninodes ∧ Stays k s rootino

/-- The state `s` is `s₀` with `more x` references more to slot `x`, and `held` locked. -/
structure ExtraRefs (k : Mount) (s₀ s : Fs) (more : Slot → Int) (held : Option Slot) : Prop where
  disk : s.disk = s₀.disk
  op : s.op = s₀.op
  log : s.log = s₀.log
  pages : s.pages = s₀.pages
  cache : Cache k s
  base : ∀ x, 0 ≤ (s₀.icache x).ref
  nonneg : ∀ x, 0 ≤ more x
  refs : ∀ x, (s.icache x).ref = (s₀.icache x).ref + more x
  names : ∀ x, 0 < (s₀.icache x).ref → (s.icache x).inum = (s₀.icache x).inum
  kept : ∀ x, 0 < more x → Stays k s₀ (s.icache x).inum
  locks : ∀ x, (s.icache x).lock = decide (some x = held)

def one (h : Slot) : Slot → Int := fun x => if x = h then 1 else 0

theorem one_self : one h h = 1 := if_pos rfl

variable {more : Slot → Int} {held : Option Slot}

theorem extraRefs_refl (tree : Tree k s₀) : ExtraRefs k s₀ s₀ (fun _ => 0) none :=
  ⟨rfl, rfl, rfl, rfl, tree.cache, tree.cache.nonneg, fun _ => Int.le_refl _,
    fun _ => (Int.add_zero _).symm, fun _ _ => rfl, fun x pos => absurd pos (Int.lt_irrefl 0),
    fun x => by rw [tree.idle]; rfl⟩

theorem ExtraRefs.not_frees (extra : ExtraRefs k s₀ s more held) (mine : 0 < more x) :
    ¬ Frees s x := by
  rintro ⟨valid,nlink,ref⟩
  have total := extra.refs x
  have held_ : 0 < (s.icache x).ref := by omega
  have copy := (extra.cache.copies x held_ valid).1
  rcases (extra.kept x mine).2 with linked | ⟨y,other,name⟩
  · rw [copy, extra.disk] at nlink
    exact linked nlink
  · have here := extra.names y other
    have yes : 0 < (s.icache y).ref := by
      have := extra.refs y
      have := extra.nonneg y
      omega
    obtain rfl : y = x := extra.cache.once y x yes held_ (here.trans name)
    omega

theorem ExtraRefs.referenced (extra : ExtraRefs k s₀ s more held)
    (mine : 0 < (s₀.icache x).ref ∨ 0 < more x) : 0 < (s.icache x).ref := by
  have := extra.refs x
  have := extra.base x
  have := extra.nonneg x
  omega

theorem ExtraRefs.modify {c : Inode} {more' : Slot → Int} {held' : Option Slot}
    (extra : ExtraRefs k s₀ s more held) (cache : Cache k (s.modify x c))
    (ref : c.ref = (s₀.icache x).ref + more' x) (nonneg : 0 ≤ more' x)
    (name : 0 < (s₀.icache x).ref → c.inum = (s.icache x).inum)
    (stays : 0 < more' x → Stays k s₀ c.inum) (lock : c.lock = decide (some x = held'))
    (rest : ∀ y, y ≠ x → more' y = more y ∧ (some y = held' ↔ some y = held)) :
    ExtraRefs k s₀ (s.modify x c) more' held' := by
  refine ⟨extra.disk, extra.op, extra.log, extra.pages, cache, extra.base, fun y => ?_, fun y => ?_,
    fun y used => ?_, fun y mine => ?_, fun y => ?_⟩
  all_goals by_cases here : y = x
  · rw [here]
    exact nonneg
  · rw [(rest y here).1]
    exact extra.nonneg y
  · rw [here, modify_self]
    exact ref
  · rw [modify_other here, (rest y here).1]
    exact extra.refs y
  · subst here
    rw [modify_self, name used]
    exact extra.names y used
  · rw [modify_other here]
    exact extra.names y used
  · subst here
    rw [modify_self]
    exact stays mine
  · rw [modify_other here]
    exact extra.kept y ((rest y here).1 ▸ mine)
  · rw [here, modify_self]
    exact lock
  · rw [modify_other here, extra.locks y]
    exact decide_eq_decide.mpr (rest y here).2.symm

theorem one_other (other : y ≠ x) : one x y = 0 := if_neg other

theorem extraRefs_iget {m : Nat} (extra : ExtraRefs k s₀ s more held) (run : iget m s = .ok (x, t))
    (bound : m < k.sb.ninodes) (stays : Stays k s₀ m) :
    ExtraRefs k s₀ t (fun y => more y + one x y) held ∧ (t.icache x).inum = m ∧ ∀ y, 0 < more y →
      (t.icache y).inum = (s.icache y).inum := by
  have got := iget_effect run
  have cache := got.cache extra.cache bound
  obtain ⟨rfl,same,-⟩ := got
  have here : one x x = 1 := one_self
  have total := extra.refs x
  have nonneg := extra.nonneg x
  refine ⟨extra.modify cache ?_ ?_ ?_ (fun _ => stays) (extra.locks x) fun y other => ⟨?_, Iff.rfl⟩,
    ?_, fun y mine => ?_⟩
  · dsimp only
    omega
  · omega
  · intro used
    exact (same (extra.referenced (.inl used))).symm
  · rw [one_other other, Int.add_zero]
  · rw [modify_self]
  · by_cases this : y = x
    · subst this
      rw [modify_self]
      exact (same (extra.referenced (.inr mine))).symm
    · rw [modify_other this]

theorem extraRefs_lock (extra : ExtraRefs k s₀ s more none) (mine : 0 < more x) :
    ilock k x s = .ok ((), s.modify x (lockedCopy k s x)) ∧
      ExtraRefs k s₀ (s.modify x (lockedCopy k s x)) more (some x) := by
  have used := extra.referenced (.inr mine)
  have live : (dinode k.sb s.disk (s.icache x).inum).type ≠ 0 := by
    rw [extra.disk]
    exact (extra.kept x mine).1
  have free : (s.icache x).lock = false := extra.locks x
  refine ⟨ilock_eq extra.cache used free live, extra.modify (extra.cache.lock used live)
    (extra.refs x) (extra.nonneg x) (fun _ => rfl) (extra.kept x) ?_
    fun y other => ⟨rfl, ?_⟩⟩
  · simp [lockedCopy]
  · simp [other]

theorem extraRefs_unlock (extra : ExtraRefs k s₀ s more (some x)) :
    iunlock x s = .ok ((), s.modify x { s.icache x with lock := false }) ∧
      ExtraRefs k s₀ (s.modify x { s.icache x with lock := false }) more none := by
  have taken : (s.icache x).lock = true := by
    rw [extra.locks]
    simp
  refine ⟨iunlock_eq taken (extra.cache.locked x taken).1, extra.modify extra.cache.unlock
    (extra.refs x) (extra.nonneg x) (fun _ => rfl) (extra.kept x) rfl
    fun y other => ⟨rfl, ?_⟩⟩
  simp [other]

theorem extraRefs_put (extra : ExtraRefs k s₀ s more held) (mine : 0 < more x)
    (free : held ≠ some x) :
    ∃ t, iput k x s = .ok ((), t) ∧ ExtraRefs k s₀ t (fun y => more y - one x y) held ∧
      ∀ y, (t.icache y).inum = (s.icache y).inum := by
  have unlocked : (s.icache x).lock = false := by
    rw [extra.locks]
    simpa using Ne.symm free
  have here : one x x = 1 := one_self
  have total := extra.refs x
  have less : ExtraRefs k s₀ (s.modify x { s.icache x with ref := (s.icache x).ref - 1 })
      (fun y => more y - one x y) held := by
    refine extra.modify (extra.cache.drop (extra.referenced (.inr mine)) unlocked) ?_ ?_
      (fun _ => rfl) (fun _ => extra.kept x mine) (extra.locks x)
      fun y other => ⟨?_, Iff.rfl⟩
    · dsimp only
      omega
    · omega
    · rw [one_other other, Int.sub_zero]
  refine ⟨_, iput_eq unlocked (extra.not_frees mine), ⟨less.disk, less.op, less.log, less.pages,
    ⟨less.cache.nonneg, less.cache.once, less.cache.named, less.cache.copies, less.cache.locked⟩,
      less.base, less.nonneg, less.refs, less.names, less.kept,
    less.locks⟩, fun y => ?_⟩
  show ((s.modify x _).icache y).inum = _
  by_cases this : y = x
  · subst this
    rw [modify_self]
  · rw [modify_other this]

end FsPaths

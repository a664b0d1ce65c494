import Xv6.Fs.ChangeSize
import Xv6.Fs.Neutral

/- The exits of create, link and unlink, whatever is on the disk and in the cache. Each slot
   weighs as much as it has references, and `w` more when it is locked; a function changes the
   weight of every slot by what it hands to its caller. For two values of `w` that is a statement
   about the references and one about the lock. -/
namespace FsExits
open FsDisk FsIcache FsDirectory FsPaths FsCalls Panics Balance

def Inode.weight (w : Int) (c : Inode) : Int := c.ref + if c.lock then w else 0

variable {w : Int} {x ip dp cwd : Slot} {s t : Fs} {c : Inode} {k : Mount} {e : Stop} {α : Type}
  {off : UInt32} {name path : List UInt8} {fuel : Nat}

def weight (w : Int) (x : Slot) (s : Fs) : Int := Inode.weight w (s.icache x)

def hit (x ip : Slot) : Int := if ip = x then 1 else 0

theorem weight_modify {b : Int} (slots : t.icache = Function.update s.icache ip c)
    (change : Inode.weight w c = Inode.weight w (s.icache ip) + b) :
    weight w x t = weight w x s + b * hit x ip := by
  rw [weight, weight, slots, hit]
  by_cases here : ip = x
  · subst here
    rw [Function.update_self, change, if_pos rfl]
    omega
  · rw [Function.update_of_ne (Ne.symm here), if_neg here]
    omega

theorem weight_taken (slots : t.icache = Function.update s.icache ip c)
    (change : Inode.weight w c = Inode.weight w (s.icache ip) + 1) :
    weight w x t = weight w x s + hit x ip := by
  rw [weight_modify slots change, Int.one_mul]

/-- A function that leaves every slot as heavy as it was. -/
def KeepsWeight (m : Op α) : Prop := ∀ w x, Shifts (weight w x) m fun _ => 0

theorem keepsWeight_of {m : Op α}
    (same : ∀ s a t, m s = .ok (a, t) →
      ∀ w y, Inode.weight w (t.icache y) = Inode.weight w (s.icache y)) : KeepsWeight m := by
  intro w x s a t run
  rw [weight, weight, same s a t run w x, Int.add_zero]

theorem KeepsWeight.then {β : Type} {m : Op α} {f : α → Op β} {total : β → Int}
    (keeps : KeepsWeight m) (rest : ∀ a, Shifts (weight w x) (f a) total) :
    Shifts (weight w x) (m >>= f) total := shifts_after (keeps w x) rest

theorem keepsWeight_pure {a : α} : KeepsWeight (pure a : Op α) := fun _ _ => shifts_pure rfl

theorem weight_put {d : Disk} {v : Dinode} {l : List Nat} (y : Slot) :
    Inode.weight w ((s.put ip d v l).icache y) = Inode.weight w (s.icache y) := by
  by_cases here : y = ip
  · simp [Fs.put, Fs.modify, here, Inode.weight]
  · simp [Fs.put, Fs.modify, here]

theorem keepsWeight_look : KeepsWeight (look ip) := keepsWeight_of fun s a t run w y => by
  cases run; rfl

theorem weight_stop {by_ : α → Int} : Shifts (weight w x) (stop e : Op α) by_ := by
  intro s a t run
  cases run

theorem keepsWeight_beginOp : KeepsWeight beginOp := keepsWeight_of fun s a t run w y => by
  cases run; rfl

theorem keepsWeight_endOp : KeepsWeight endOp := keepsWeight_of fun s a t run w y => by
  cases run; rfl

theorem keepsWeight_iupdate : KeepsWeight (iupdate k ip) := keepsWeight_of fun s a t run w y => by
  cases run; rfl

theorem keepsWeight_assign {f : Dinode → Dinode} : KeepsWeight (assign ip f) :=
  keepsWeight_of fun s a t run w y => by
  cases run
  exact weight_put (d := s.disk) (l := []) y

theorem weight_iget {inum : Nat} : Shifts (weight w x) (iget inum) fun ip => hit x ip := by
  intro s a t run
  unfold iget at run
  split at run
  · cases run
    exact weight_taken rfl (by simp only [Inode.weight]; omega)
  · split at run
    · next found =>
      have unused := List.find?_some found
      simp only [decide_eq_true_eq] at unused
      cases run
      exact weight_taken rfl (by simp only [Inode.weight]; omega)
    · cases run

theorem weight_idup : Shifts (weight w x) (idup ip) fun y => hit x y := by
  intro s a t run
  cases run
  exact weight_taken rfl (by simp only [Inode.weight]; omega)

theorem weight_ilock : Shifts (weight w x) (ilock k ip) fun _ => w * hit x ip := by
  intro s a t run
  simp only [ilock] at run
  split at run
  · cases run
  split at run
  · cases run
  next free =>
    split at run
    · cases run
      exact weight_modify rfl (by simp [Inode.weight, free])
    · split at run
      · cases run
      · cases run
        exact weight_modify rfl (by simp [Inode.weight, free])

theorem weight_iunlock : Shifts (weight w x) (iunlock ip) fun _ => -w * hit x ip := by
  intro s a t run
  simp only [iunlock] at run
  split at run
  · cases run
  · next held =>
    have locked : (s.icache ip).lock = true := by simpa using fun free => held (.inl free)
    cases run
    exact weight_modify rfl (by simp [Inode.weight, locked])

theorem weight_iput : Shifts (weight w x) (iput k ip) fun _ => -1 * hit x ip := by
  intro s a t run
  simp only [iput] at run
  split at run
  · cases run
  split at run
  · split at run
    · cases run
    · cases run
      exact weight_modify (s := s) rfl (by simp only [Inode.weight]; omega)
  · cases run
    exact weight_modify (s := s) rfl (by simp only [Inode.weight]; omega)

theorem weight_iunlockput :
    Shifts (weight w x) (iunlockput k ip) fun _ => -1 * hit x ip - w * hit x ip := by
  refine shifts_bind weight_iunlock fun _ s a t run => ?_
  rw [weight_iput s a t run]
  dsimp only
  rw [Int.neg_mul w]
  omega

theorem weight_ialloc {type : Int16} :
    Shifts (weight w x) (FsIcache.ialloc k type) fun ip => hit x ip := by
  intro s a t run
  unfold FsIcache.ialloc at run
  split at run
  · cases run
  · exact (weight_iget _ a t run :)

theorem keepsWeight_transfer (src : Nat → UInt8) {n : UInt32} :
    KeepsWeight (readi k ip off n) ∧ KeepsWeight (writei k ip src off n) := by
  constructor
  all_goals
    refine keepsWeight_of fun s a t run w y => ?_
    simp only [readi, writei] at run
    split at run
    · split at run
      on_goal 2 => split at run
      all_goals
        cases run
        rfl
    · split at run
      all_goals cases run
      exact weight_put y

theorem keepsWeight_fetchDirent : KeepsWeight (fetchDirent k e dp off) := by
  intro w x
  refine (keepsWeight_transfer fun _ => 0).1.then fun bs => ?_
  cases bs with
  | none => exact weight_stop
  | some bs =>
    dsimp only
    split
    · exact shifts_pure rfl
    · exact weight_stop

theorem keepsWeight_storeDirent {de : Dirent} : KeepsWeight (storeDirent k e dp de off) := by
  intro w x
  refine (keepsWeight_transfer _).2.then fun r => ?_
  cases r with
  | none => exact weight_stop
  | some n =>
    dsimp only
    split
    · exact shifts_pure rfl
    · exact weight_stop

def gain (x : Slot) {β : Type} : Option (Slot × β) → Int
  | some q => hit x q.1
  | none => 0

theorem weight_lookupFrom :
    Shifts (weight w x) (lookupFrom k dp name fuel off) fun r => gain x r := by
  induction fuel generalizing off with
  | zero => exact shifts_pure rfl
  | succ fuel ih =>
    refine keepsWeight_look.then fun c => ?_
    split
    · refine keepsWeight_fetchDirent.then fun de => ?_
      split
      · exact ih
      split
      · exact shifts_bind weight_iget fun ip => shifts_pure (Int.sub_self _)
      · exact ih
    · exact shifts_pure rfl

theorem weight_dirlookup : Shifts (weight w x) (dirlookup k dp name) fun r => gain x r := by
  refine keepsWeight_look.then fun c => ?_
  split
  · exact weight_stop
  · exact weight_lookupFrom

theorem keepsWeight_visit {p : Dirent → Prop} [DecidablePred p] {stops goes ends : Op α}
    (a : KeepsWeight stops) (b : KeepsWeight goes) (c : KeepsWeight ends) :
    KeepsWeight (do if off < (← look dp).din.size then
      (do if p (← fetchDirent k e dp off) then stops else goes) else ends) := by
  intro w x
  refine keepsWeight_look.then fun _ => ?_
  split
  · refine keepsWeight_fetchDirent.then fun _ => ?_
    split
    · exact a w x
    · exact b w x
  · exact c w x

theorem keepsWeight_emptyFrom : KeepsWeight (emptyFrom k dp fuel off) := by
  induction fuel generalizing off with
  | zero => exact keepsWeight_pure
  | succ fuel ih => exact keepsWeight_visit keepsWeight_pure ih keepsWeight_pure

theorem keepsWeight_dirlink {inum : Nat} : KeepsWeight (dirlink k dp name inum) := by
  intro w x
  refine shifts_bind weight_dirlookup fun found => ?_
  cases found with
  | some q => exact shifts_bind weight_iput fun _ => shifts_pure (by simp only [gain]; omega)
  | none =>
    exact keepsWeight_look.then fun c => keepsWeight_emptyFrom.then fun _ =>
      keepsWeight_storeDirent.then fun _ => shifts_pure rfl

theorem weight_namexFrom {parent : Bool} (enough : path.length < fuel) :
    Shifts (weight w x) (namexFrom k parent fuel ip path name) fun r => gain x r - hit x ip := by
  induction fuel generalizing ip path name with
  | zero => exact absurd enough (Nat.not_lt_zero _)
  | succ fuel ih =>
    unfold namexFrom
    cases split : skipelem path with
    | none =>
      dsimp only
      split
      · exact shifts_bind weight_iput fun _ => shifts_pure (by simp only [gain]; omega)
      · exact shifts_pure (Int.sub_self _)
    | some pair =>
      obtain ⟨rest,elem⟩ := pair
      have shorter := skipelem_shorter split
      dsimp only
      refine shifts_bind weight_ilock fun _ => keepsWeight_look.then fun c => ?_
      split
      · exact shifts_bind weight_iunlockput fun _ => shifts_pure (by simp only [gain]; omega)
      split
      · exact shifts_bind weight_iunlock fun _ =>
          shifts_pure (by simp only [gain, Int.neg_mul]; omega)
      · refine shifts_bind weight_dirlookup fun found => ?_
        cases found with
        | none =>
          exact shifts_bind weight_iunlockput fun _ => shifts_pure (by simp only [gain]; omega)
        | some next =>
          refine shifts_bind weight_iunlockput fun _ s a t run => ?_
          rw [ih (by omega) s a t run]
          simp only [gain]
          omega

theorem weight_namex {parent : Bool} :
    Shifts (weight w x) (namex k cwd path parent) fun r => gain x r := by
  unfold namex
  split
  · exact shifts_bind weight_iget fun ip => weight_namexFrom (Nat.lt_succ_self _)
  · exact shifts_bind weight_idup fun ip => weight_namexFrom (Nat.lt_succ_self _)

theorem keepsWeight_createDots : KeepsWeight (createDots k ip dp) := by
  intro w x
  refine keepsWeight_assign.then fun _ => keepsWeight_iupdate.then fun _ =>
    keepsWeight_look.then fun _ => keepsWeight_dirlink.then fun done => ?_
  split
  · refine keepsWeight_look.then fun _ => keepsWeight_dirlink.then fun done => ?_
    split
    · exact shifts_pure rfl
    · exact weight_stop
  · exact weight_stop

theorem weight_create {type major minor : Int16} :
    Shifts (weight w x) (create k cwd path type major minor) fun r =>
      match r with | some ip => hit x ip + w * hit x ip | none => 0 := by
  refine shifts_bind weight_namex fun parent => ?_
  cases parent with
  | none => exact shifts_pure rfl
  | some q =>
    obtain ⟨dp,name⟩ := q
    refine shifts_bind weight_ilock fun _ => shifts_bind weight_dirlookup fun found => ?_
    cases found with
    | some q =>
      obtain ⟨ip,off⟩ := q
      refine shifts_bind weight_iunlockput fun _ => shifts_bind weight_ilock fun _ =>
        keepsWeight_look.then fun c => ?_
      split
      · exact shifts_pure (by simp only [gain]; omega)
      · exact shifts_bind weight_iunlockput fun _ => shifts_pure (by simp only [gain]; omega)
    | none =>
      refine shifts_bind weight_ialloc fun ip => shifts_bind weight_ilock fun _ =>
        keepsWeight_assign.then fun _ => keepsWeight_iupdate.then fun _ => ?_
      dsimp only
      split
      on_goal 1 => refine keepsWeight_createDots.then fun _ => ?_
      all_goals
        refine keepsWeight_look.then fun _ => keepsWeight_dirlink.then fun done => ?_
        split
        · exact shifts_bind weight_iunlockput fun _ => shifts_pure (by simp only [gain]; omega)
        · exact weight_stop

theorem keepsWeight_linkName {new : List UInt8} : KeepsWeight (linkName k cwd ip new) := by
  intro w x
  refine shifts_bind weight_namex fun parent => ?_
  cases parent with
  | none => exact shifts_pure rfl
  | some q =>
    obtain ⟨dp,name⟩ := q
    exact shifts_bind weight_ilock fun _ => keepsWeight_look.then fun _ =>
      keepsWeight_dirlink.then fun linked =>
        shifts_bind weight_iunlockput fun _ => shifts_pure (by simp only [gain]; omega)

theorem weight_namei :
    Shifts (weight w x) (namei k cwd path) fun r => gain x (r.map fun ip => (ip, ())) :=
  shifts_bind weight_namex fun r => shifts_pure (by cases r <;> exact Int.sub_self _)

theorem keepsWeight_link {old new : List UInt8} : KeepsWeight (link k cwd old new) := by
  intro w x
  refine keepsWeight_beginOp.then fun _ => shifts_bind weight_namei fun found => ?_
  cases found with
  | none => exact keepsWeight_endOp.then fun _ => shifts_pure rfl
  | some ip =>
    refine shifts_bind weight_ilock fun _ => keepsWeight_look.then fun c => ?_
    split
    · exact shifts_bind weight_iunlockput fun _ => keepsWeight_endOp.then fun _ =>
        shifts_pure (by simp only [Option.map_some, gain]; omega)
    · refine keepsWeight_assign.then fun _ => keepsWeight_iupdate.then fun _ =>
        shifts_bind weight_iunlock fun _ =>
          keepsWeight_linkName.then fun linked => ?_
      split
      · exact shifts_bind weight_iput fun _ => keepsWeight_endOp.then fun _ =>
          shifts_pure (by simp only [Option.map_some, gain, Int.neg_mul w]; omega)
      · exact shifts_bind weight_ilock fun _ => keepsWeight_assign.then fun _ =>
          keepsWeight_iupdate.then fun _ =>
            shifts_bind weight_iunlockput fun _ => keepsWeight_endOp.then fun _ =>
            shifts_pure (by simp only [Option.map_some, gain, Int.neg_mul w]; omega)

theorem keepsWeight_emptyDirFrom : KeepsWeight (emptyDirFrom k dp fuel off) := by
  induction fuel generalizing off with
  | zero => exact keepsWeight_pure
  | succ fuel ih => exact keepsWeight_visit keepsWeight_pure ih keepsWeight_pure

theorem keepsWeight_unlink : KeepsWeight (unlink k cwd path) := by
  intro w x
  refine keepsWeight_beginOp.then fun _ => shifts_bind weight_namex fun parent => ?_
  cases parent with
  | none => exact keepsWeight_endOp.then fun _ => shifts_pure rfl
  | some q =>
    obtain ⟨dp,name⟩ := q
    refine shifts_bind weight_ilock fun _ => ?_
    split
    · exact shifts_bind weight_iunlockput fun _ => keepsWeight_endOp.then fun _ =>
        shifts_pure (by simp only [gain]; omega)
    · refine shifts_bind weight_dirlookup fun found => ?_
      cases found with
      | none =>
        exact shifts_bind weight_iunlockput fun _ => keepsWeight_endOp.then fun _ =>
          shifts_pure (by simp only [gain]; omega)
      | some q =>
        obtain ⟨ip,off⟩ := q
        refine shifts_bind weight_ilock fun _ => keepsWeight_look.then fun c => ?_
        split
        · exact weight_stop
        -- how unlink ends, once the entry is gone
        have tail : Shifts (weight w x) (do
            iunlockput k dp
            assign ip fun v => { v with nlink := v.nlink - 1 }
            iupdate k ip
            iunlockput k ip
            endOp
            pure true) fun _ => 0 - gain x (some (dp, name)) - w * hit x dp - gain x
              (some (ip, off)) - w * hit x ip :=
          shifts_bind weight_iunlockput fun _ => keepsWeight_assign.then fun _ =>
            keepsWeight_iupdate.then fun _ =>
              shifts_bind weight_iunlockput fun _ => keepsWeight_endOp.then fun _ =>
                shifts_pure (by simp only [gain]; omega)
        refine keepsWeight_look.then fun d => ?_
        by_cases dir : d.din.type = tDir
        all_goals simp only [dir, if_true, if_false]
        on_goal 1 => refine shifts_after (keepsWeight_look.then fun _ =>
          keepsWeight_emptyDirFrom w x) fun empty => ?_
        on_goal 2 => refine shifts_after (shifts_pure rfl) fun empty => ?_
        all_goals
          split
          · exact shifts_bind weight_iunlockput fun _ => shifts_bind weight_iunlockput fun _ =>
              keepsWeight_endOp.then fun _ =>
                shifts_pure (by simp only [gain]; omega)
          refine keepsWeight_storeDirent.then fun _ => ?_
        · exact keepsWeight_assign.then fun _ => keepsWeight_iupdate.then fun _ => tail
        · exact tail

/-- With two weights the references and the lock are told apart. -/
theorem slot_of_weights (more : Bool) (plain : weight 0 x t = weight 0 x s + more.toInt)
    (heavy : weight 1 x t = weight 1 x s + (more.toInt + more.toInt)) :
    (t.icache x).ref = (s.icache x).ref + more.toInt ∧
      (t.icache x).lock = ((s.icache x).lock || more) := by
  simp only [weight, Inode.weight] at plain heavy
  cases before : (s.icache x).lock <;> cases after : (t.icache x).lock <;> cases more
    <;> simp [before, after] at plain heavy ⊢ <;> omega

def Released (s t : Fs) : Prop := ∀ x, (t.icache x).ref = (s.icache x).ref ∧
    (t.icache x).lock = (s.icache x).lock

/-- create gives its caller one reference to the inode it returns, and its lock; everything else
    it has taken is released on every exit. -/
theorem create_hands_over (k : Mount) (cwd : Slot) (path : List UInt8) (type major minor : Int16)
    (s t : Fs) (r : Option Slot)
    (run : create k cwd path type major minor s = .ok (r, t)) (x : Slot) :
    (t.icache x).ref = (s.icache x).ref + (decide (r = some x)).toInt ∧
      (t.icache x).lock = ((s.icache x).lock || decide (r = some x)) := by
  have moved : ∀ w, weight w x t = weight w x s +
      ((decide (r = some x)).toInt + w * (decide (r = some x)).toInt) := by
    intro w
    rw [weight_create s r t run]
    cases r with
    | none => simp
    | some ip => by_cases here : ip = x <;> simp [hit, here]
  exact slot_of_weights _ (by simpa using moved 0) (by simpa using moved 1)

/-- link and unlink, however far they come, drop every reference and every lock they have taken. -/
theorem link_unlink_release (k : Mount) (cwd : Slot) (s t : Fs) (done : Bool) :
    (∀ old new, link k cwd old new s = .ok (done, t) → Released s t) ∧ ∀ path,
      unlink k cwd path s = .ok (done, t) → Released s t := by
  have told : (∀ w x, weight w x t = weight w x s + 0) → Released s t := fun same x => by
    simpa using slot_of_weights false (same 0 x) (same 1 x)
  exact ⟨fun old new run => told fun w x => keepsWeight_link w x s done t run, fun path run =>
    told fun w x => keepsWeight_unlink w x s done t run⟩

theorem ok_of_toOption {m : Op α} {a : α} (result : (m s).toOption.map Prod.fst = some a) :
    ∃ t, m s = .ok (a, t) := by
  cases done : m s with
  | error e =>
    rw [done] at result
    cases result
  | ok q =>
    rw [done] at result
    exact ⟨q.2, by rw [← Option.some.inj result]⟩

theorem create_hands_over_open :
    ∃ t, create (sampleMount 4) slot0 [47, 102] tFile 0 0 (sample 4) = .ok (some slot1, t) ∧
    (t.icache slot1).ref = 2 ∧ (t.icache slot1).lock = true := by
  obtain ⟨t,run⟩ := ok_of_toOption (m := create (sampleMount 4) slot0 [47, 102] tFile 0 0)
    (s := sample 4) (a := some slot1) (by decide +kernel)
  have slots := create_hands_over _ _ _ _ _ _ _ _ _ run slot1
  rw [sample_slots] at slots
  exact ⟨t, run, slots⟩

theorem link_unlink_release_open : ∃ t,
    unlink (sampleMount 4) slot0 [47, 102] (sample 4) = .ok (true, t) ∧ Released (sample 4) t := by
  obtain ⟨t,run⟩ := ok_of_toOption (m := unlink (sampleMount 4) slot0 [47, 102]) (s := sample 4)
    (a := true) (by decide +kernel)
  exact ⟨t, run, (link_unlink_release _ _ _ _ _).2 _ run⟩

end FsExits

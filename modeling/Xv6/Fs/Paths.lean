import Xv6.Fs.Tree

/- namex over a tree of directories: the fold of one lookup over the components of the path. -/
namespace FsPaths
open Bytes FsDisk FsInode FsContent FsIcache FsDirectory FsCache FsNames Panics SlotMap

variable {k : Mount} {s t s₀ : Fs} {x y h : Slot} {i : Nat} {path name : List UInt8}
  {C : List (List UInt8)}

def enter (k : Mount) (s : Fs) (i : Nat) (name : List UInt8) : Option Nat :=
  if (dinode k.sb s.disk i).type = tDir then (find (table k s i) (canon name)).map Prod.snd
  else none

def walk (k : Mount) (s : Fs) (i : Nat) (C : List (List UInt8)) : Option Nat :=
  C.foldlM (enter k s) i

def parentOf (k : Mount) (s : Fs) (i : Nat) (C : List (List UInt8)) : Option Nat :=
  if C = [] then none else (walk k s i C.dropLast).filter fun j =>
    (dinode k.sb s.disk j).type = tDir

theorem walk_nil : walk k s i [] = some i := rfl

theorem walk_cons : walk k s i (name :: C) = (enter k s i name).bind fun j => walk k s j C :=
  List.foldlM_cons ..

theorem walk_append {D : List (List UInt8)} :
    walk k s i (C ++ D) = (walk k s i C).bind fun j => walk k s j D := List.foldlM_append ..

theorem parentOf_single : parentOf k s i [name] = if (dinode k.sb s.disk i).type = tDir then
    some i else none := by
  rw [parentOf, if_neg (by simp), List.dropLast_singleton, walk_nil, Option.filter_some]
  simp only [decide_eq_true_eq]

theorem parentOf_cons (more : C ≠ []) :
    parentOf k s i (name :: C) = (enter k s i name).bind fun j => parentOf k s j C := by
  have front : (name :: C).dropLast = name :: C.dropLast := List.dropLast_cons_of_ne_nil more
  rw [parentOf, if_neg (by simp), front, walk_cons]
  cases enter k s i name with
  | none => rfl
  | some j =>
    simp only [Option.bind_some]
    rw [parentOf, if_neg more]

def wanted (k : Mount) (s : Fs) (parent : Bool) (i : Nat) (C : List (List UInt8)) : Option Nat :=
  if parent then parentOf k s i C else walk k s i C

theorem wanted_cons {parent : Bool} (more : parent = true → C ≠ []) :
    wanted k s parent i (name :: C) = (enter k s i name).bind fun j => wanted k s parent j C := by
  cases parent with
  | false => exact walk_cons
  | true => exact parentOf_cons (more rfl)

theorem wanted_notDir {parent : Bool} (notDir : (dinode k.sb s.disk i).type ≠ tDir) :
    wanted k s parent i (name :: C) = none := by
  have enter_ : enter k s i name = none := if_neg notDir
  cases parent with
  | false => exact walk_cons.trans (by rw [enter_]; rfl)
  | true =>
    by_cases last : C = []
    · subst last
      show parentOf k s i [name] = none
      rw [parentOf_single, if_neg notDir]
    · exact (parentOf_cons last).trans (by rw [enter_]; rfl)

/-- The result of a lookup is the inode that was wanted, and the only reference that is left is
    the one to it. -/
inductive Resolved (k : Mount) (s₀ t : Fs) : Option Nat → Option (Slot × List UInt8) → Prop
  | absent (extra : ExtraRefs k s₀ t (fun _ => 0) none) : Resolved k s₀ t none none
  | found {x : Slot} {name : List UInt8} (extra : ExtraRefs k s₀ t
    (one x) none) : Resolved k s₀ t (some (t.icache x).inum) (some (x, name))

def Room (s : Fs) : Prop := ∃ a b, a ≠ b ∧ (s.icache a).ref = 0 ∧ (s.icache b).ref = 0

theorem extraRefs_unlockput (extra : ExtraRefs k s₀ s (one h) (some h)) :
    ∃ t, iunlockput k h s = .ok ((), t) ∧ ExtraRefs k s₀ t (fun _ => 0) none := by
  obtain ⟨unlocked,lent1⟩ := extraRefs_unlock extra
  obtain ⟨t,dropped,lent2,-⟩ := extraRefs_put lent1 (by rw [one_self]; decide) (by simp)
  refine ⟨t, ?_, ?_⟩
  · unfold iunlockput
    rw [bind_of_ok unlocked, dropped]
  · simpa only [Int.sub_self] using lent2

theorem extraRefs_leave (extra : ExtraRefs k s₀ s (fun y => one h y + one x y) (some h)) :
    ∃ t, iunlockput k h s = .ok ((), t) ∧ ExtraRefs k s₀ t (one x) none ∧
      ∀ y, (t.icache y).inum = (s.icache y).inum := by
  obtain ⟨unlocked,lent1⟩ := extraRefs_unlock extra
  have positive : 0 < one h h + one x h := by
    have := one_self (h := h)
    have : 0 ≤ one x h := by
      rw [one]
      split <;> decide
    omega
  obtain ⟨t,dropped,lent2,names⟩ := extraRefs_put lent1 positive (by simp)
  refine ⟨t, ?_, ?_, fun y => (names y).trans ?_⟩
  · unfold iunlockput
    rw [bind_of_ok unlocked, dropped]
  · have same : (fun y => one h y + one x y - one h y) = one x := by
      funext y
      omega
    rwa [same] at lent2
  · by_cases mine : y = h
    · subst mine
      rw [modify_self]
    · rw [modify_other mine]

theorem iget_full {m : Nat} {e : Stop} (run : iget m s = .error e) :
    e = .igetNoInodes ∧ ∀ y, (s.icache y).ref ≠ 0 := by
  refine ⟨?_, fun y unused => ?_⟩
  · unfold iget at run
    split at run
    · cases run
    · split at run
      · cases run
      · cases run
        rfl
  · have room : (∃ y, (s.icache y).ref = 0) ∨ ∃ y, 0 < (s.icache y).ref ∧ (s.icache y).inum = m :=
      .inl ⟨y, unused⟩
    obtain ⟨x,t,ok⟩ := iget_total room
    rw [ok] at run
    cases run

theorem extraRefs_openDir (tree : Tree k s₀) (extra : ExtraRefs k s₀ s (one h) none)
    (dir : (dinode k.sb s₀.disk (s.icache h).inum).type = tDir) :
    OpenDir k (s.modify h (lockedCopy k s h)) h ∧
      names (s.modify h (lockedCopy k s h)) h = table k s₀ (s.icache h).inum := by
  have mine : (s.modify h (lockedCopy k s h)).icache h = lockedCopy k s h := modify_self
  have positive : 0 < one h h := by rw [one_self]; decide
  have bound := extra.cache.named h (extra.referenced (.inr positive))
  have disk := extra.disk
  refine ⟨⟨disk ▸ tree.wf, (extraRefs_lock extra positive).2.cache, by rw [mine]; rfl, ?_, ?_⟩, ?_⟩
  · rw [mine, lockedCopy, disk]
    exact dir
  · rw [mine, lockedCopy, disk]
    exact tree.aligned _ bound dir
  · rw [names, mine, lockedCopy, modify_disk, disk]
    rfl

theorem namexFrom_spec (tree : Tree k s₀) {parent : Bool} {fuel : Nat} (name : List UInt8)
    (string : 0 ∉ path) (enough : path.length < fuel)
    (extra : ExtraRefs k s₀ s (one h) none) :
    (∃ r t, namexFrom k parent fuel h path name s = .ok (r, t) ∧
      Resolved k s₀ t (wanted k s₀ parent (s.icache h).inum (components path)) r ∧
      (parent = true → ∀ q, r = some q → (components path).getLast? = some q.2)) ∨
    (namexFrom k parent fuel h path name s = .error .igetNoInodes ∧ ¬ Room s₀) := by
  induction fuel generalizing s h path name with
  | zero => exact absurd enough (Nat.not_lt_zero _)
  | succ fuel ih =>
    have positive : 0 < one h h := by rw [one_self]; decide
    rw [namexFrom]
    cases cut : skipelem path with
    | none =>
      rw [skipelem_none string cut]
      refine .inl ?_
      cases parent with
      | false => exact ⟨some (h, name), s, rfl, .found extra, fun eq => by cases eq⟩
      | true =>
        obtain ⟨t,dropped,lent1,-⟩ := extraRefs_put extra positive (by simp)
        simp only [Int.sub_self] at lent1
        refine ⟨none, t, ?_, .absent lent1, fun _ q eq => by cases eq⟩
        simp only [if_true]
        rw [bind_of_ok dropped]
        rfl
    | some pair =>
      obtain ⟨rest,elem⟩ := pair
      obtain ⟨all,string',last⟩ := skipelem_some string cut
      have shorter := skipelem_shorter cut
      obtain ⟨locked,lent1⟩ := extraRefs_lock extra positive
      have looked : look h (s.modify h (lockedCopy k s h)) = .ok (lockedCopy k s h,
          s.modify h (lockedCopy k s h)) := by
        rw [look, modify_self]
      have type : (lockedCopy k s h).din.type = (dinode k.sb s₀.disk (s.icache h).inum).type := by
        rw [lockedCopy, extra.disk]
      simp only [all]
      rw [bind_of_ok locked, bind_of_ok looked, type]
      by_cases dir : (dinode k.sb s₀.disk (s.icache h).inum).type = tDir
      · rw [if_neg fun ne => ne dir]
        by_cases stop : parent = true ∧ rest.headD 0 = 0
        · -- stop one level early
          obtain ⟨unlocked,lent2⟩ := extraRefs_unlock lent1
          have none_ : components rest = [] := last.mp stop.2
          rw [if_pos stop, bind_of_ok unlocked]
          refine .inl ⟨some (h, elem), _, rfl, ?_, fun _ q eq => ?_⟩
          · have here :
                (((s.modify h (lockedCopy k s h)).modify h
                  { (s.modify h (lockedCopy k s h)).icache h with lock := false }).icache h).inum =
                (s.icache h).inum := by rw [modify_self, modify_self, lockedCopy]
            have want : wanted k s₀ parent (s.icache h).inum (elem :: components rest) = some
                (s.icache h).inum := by
              rw [none_, stop.1]
              show parentOf k s₀ (s.icache h).inum [elem] = _
              rw [parentOf_single, if_pos dir]
            rw [want, ← here]
            exact .found lent2
          · cases eq
            rw [none_]
            rfl
        · have more : parent = true → components rest ≠ [] :=
            fun yes none_ => stop ⟨yes, last.mpr none_⟩
          obtain ⟨open_,same⟩ := extraRefs_openDir tree extra dir
          have looked_ : dirlookup k h elem (s.modify h (lockedCopy k s h)) = hit
            (find (table k s₀ (s.icache h).inum) (canon elem))
              (s.modify h (lockedCopy k s h)) := by rw [dirlookup_eq open_, same]
          rw [if_neg stop, wanted_cons more, enter, if_pos dir]
          cases found : find (table k s₀ (s.icache h).inum) (canon elem) with
          | none =>
            obtain ⟨t,left,lent2⟩ := extraRefs_unlockput lent1
            rw [found] at looked_
            rw [bind_of_ok looked_]
            simp only
            rw [bind_of_ok left]
            exact .inl ⟨none, t, rfl, .absent lent2, fun _ q eq => by cases eq⟩
          | some r =>
            have bound := extra.cache.named h (extra.referenced (.inr positive))
            obtain ⟨small,stays⟩ := tree.entries _ bound dir _ r found
            rw [found, hit] at looked_
            cases got : iget r.2 (s.modify h (lockedCopy k s h)) with
            | error e =>
              obtain ⟨rfl,full⟩ := iget_full got
              rw [bind_of_error got] at looked_
              rw [bind_of_error looked_]
              refine .inr ⟨rfl, ?_⟩
              -- one of two spare slots is not the one that is held
              rintro ⟨a,b,apart,emptyA,emptyB⟩
              have one_ : ∀ y, y ≠ h → (s₀.icache y).ref ≠ 0 := fun y other => by
                have := lent1.refs y
                rw [one_other other, Int.add_zero] at this
                exact this ▸ full y
              by_cases mine : a = h
              · exact one_ b (fun eq => apart (mine.trans eq.symm)) emptyB
              · exact one_ a mine emptyA
            | ok q =>
              obtain ⟨next,u⟩ := q
              obtain ⟨lent2,here,-⟩ := extraRefs_iget lent1 got small stays
              obtain ⟨v,left,lent3,names⟩ := extraRefs_leave lent2
              have here : (v.icache next).inum = r.2 := (names next).trans here
              rw [bind_of_ok got] at looked_
              rw [bind_of_ok looked_]
              simp only
              rw [bind_of_ok left]
              have onward := ih elem string' (by omega) lent3
              rw [here] at onward
              rcases onward with ⟨r',t,run,resolved,name'⟩ | stopped
              · refine .inl ⟨r', t, run, resolved, fun yes q eq => ?_⟩
                rw [List.getLast?_cons_of_ne_nil (more yes)]
                exact name' yes q eq
              · exact .inr stopped
      · rw [if_pos dir, wanted_notDir dir]
        obtain ⟨t,left,lent2⟩ := extraRefs_unlockput lent1
        rw [bind_of_ok left]
        exact .inl ⟨none, t, rfl, .absent lent2, fun _ q eq => by cases eq⟩

def startOf (s : Fs) (cwd : Slot) (path : List UInt8) : Nat :=
  if path.headD 0 = slash then rootino else (s.icache cwd).inum

theorem extraRefs_idup (tree : Tree k s₀) {cwd : Slot} (current : 0 < (s₀.icache cwd).ref) :
    ∃ s, idup cwd s₀ = .ok (cwd, s) ∧ ExtraRefs k s₀ s (one cwd) none ∧
      (s.icache cwd).inum = (s₀.icache cwd).inum := by
  have positive := tree.cache.nonneg cwd
  have cache : Cache k (s₀.modify cwd { s₀.icache cwd with ref := (s₀.icache cwd).ref + 1 }) :=
    tree.cache.modify (by dsimp only; omega) (fun _ y other used same =>
      other (tree.cache.once y cwd used current same)) (fun _ => tree.cache.named cwd current)
      (fun _ valid => tree.cache.copies cwd current valid) fun locked =>
        absurd ((tree.idle cwd).symm.trans locked) (by decide)
  refine ⟨_, rfl, (extraRefs_refl tree).modify cache ?_ ?_ (fun _ => rfl)
    (fun _ => ⟨tree.live cwd current, .inr ⟨cwd, current, rfl⟩⟩)
    ((extraRefs_refl tree).locks cwd) fun y other => ⟨one_other other, Iff.rfl⟩, by
      rw [modify_self]⟩
  · rw [one_self]
  · rw [one_self]
    decide

theorem namex_spec (tree : Tree k s₀) {cwd : Slot} (current : 0 < (s₀.icache cwd).ref)
    (string : 0 ∉ path) (parent : Bool) :
    (∃ r t, namex k cwd path parent s₀ = .ok (r, t) ∧
      Resolved k s₀ t (wanted k s₀ parent (startOf s₀ cwd path) (components path)) r ∧
      (parent = true → ∀ q, r = some q → (components path).getLast? = some q.2)) ∨
    (namex k cwd path parent s₀ = .error .igetNoInodes ∧ ¬ Room s₀) := by
  unfold namex startOf
  by_cases absolute : path.headD 0 = slash
  · rw [if_pos absolute, if_pos absolute]
    cases got : iget rootino s₀ with
    | error e =>
      obtain ⟨rfl,full⟩ := iget_full got
      rw [bind_of_error got]
      refine .inr ⟨rfl, ?_⟩
      rintro ⟨a,-,-,empty,-⟩
      exact full a empty
    | ok q =>
      obtain ⟨h,s⟩ := q
      obtain ⟨extra,here,-⟩ := extraRefs_iget (extraRefs_refl tree) got tree.root.1 tree.root.2
      simp only [Int.zero_add] at extra
      rw [bind_of_ok got, ← here]
      exact namexFrom_spec tree [] string (Nat.lt_succ_self _) extra
  · rw [if_neg absolute, if_neg absolute]
    obtain ⟨s,dup,extra,here⟩ := extraRefs_idup tree current
    rw [bind_of_ok dup, ← here]
    exact namexFrom_spec tree [] string (Nat.lt_succ_self _) extra

def Adds (s t : Fs) (r : Option Slot) : Prop :=
  t.disk = s.disk ∧ ∀ y, (t.icache y).ref = (s.icache y).ref + (if r = some y then 1 else 0) ∧
    (0 < (s.icache y).ref → (t.icache y).inum = (s.icache y).inum)

theorem Resolved.adds {want : Option Nat} {r : Option (Slot × List UInt8)}
    (resolved : Resolved k s₀ t want r) :
    r.map (fun q => (t.icache q.1).inum) = want ∧ Adds s₀ t (r.map Prod.fst) := by
  cases resolved with
  | absent extra => exact ⟨rfl, extra.disk, fun y => ⟨extra.refs y, extra.names y⟩⟩
  | found extra =>
    refine ⟨rfl, extra.disk, fun y => ⟨?_, extra.names y⟩⟩
    rw [extra.refs y, one]
    simp only [Option.map_some, Option.some.injEq, eq_comm]

/-- Path resolution is the fold over the components. skipelem yields the components of the path
    and stops. Whatever namei and nameiparent return is what the folds give, with the last
    component as the name; exactly one reference is added, to the inode that is returned, or none.
    Both return if two slots of the inode cache are free. -/
theorem path_resolution_is_fold (k : Mount) (s : Fs) (cwd : Slot) (path : List UInt8)
    (tree : Tree k s) (current : 0 < (s.icache cwd).ref)
    (string : 0 ∉ path) :
    (∀ fuel, path.length < fuel → elements fuel path = components path) ∧
    (∀ r t, namei k cwd path s = .ok (r, t) →
      r.map (fun x => (t.icache x).inum) = walk k s (startOf s cwd path) (components path) ∧
        Adds s t r) ∧
    (∀ r t, nameiparent k cwd path s = .ok (r, t) →
      r.map (fun q => (t.icache q.1).inum) = parentOf k s (startOf s cwd path) (components path) ∧
      (∀ q, r = some q → (components path).getLast? = some q.2) ∧ Adds s t (r.map Prod.fst)) ∧
    (∀ p last, parentOf k s (startOf s cwd path) (components path) = some p →
      (components path).getLast? = some last →
      walk k s (startOf s cwd path) (components path) = (find (table k s p) (canon last)).map
        Prod.snd) ∧
    (Room s → (∃ r t, namei k cwd path s = .ok (r, t)) ∧
      ∃ r t, nameiparent k cwd path s = .ok (r, t)) := by
  have spec := namex_spec tree current string
  refine ⟨fun fuel enough => elements_eq string enough, fun r t run => ?_, fun r t run => ?_,
    fun p last parent name => ?_, fun room => ?_⟩
  · obtain ⟨r',u,inner,run⟩ := bind_ok run
    cases run
    rcases spec false with ⟨q,v,run,resolved,-⟩ | ⟨stopped,-⟩
    · rw [inner] at run
      cases run
      obtain ⟨inum,adds⟩ := resolved.adds
      exact ⟨by rw [Option.map_map]; exact inum, adds⟩
    · rw [inner] at stopped
      cases stopped
  · rcases spec true with ⟨q,v,ran,resolved,name⟩ | ⟨stopped,-⟩
    · rw [show namex k cwd path true s = .ok (r, t) from run] at ran
      cases ran
      exact ⟨resolved.adds.1, name rfl, resolved.adds.2⟩
    · rw [show namex k cwd path true s = .ok (r, t) from run] at stopped
      cases stopped
  · have some_ : components path ≠ [] := fun none_ => by
      rw [none_] at name
      cases name
    have whole : (components path).dropLast ++ [last] = components path := by
      rw [List.getLast?_eq_some_getLast some_] at name
      rw [← Option.some.inj name]
      exact List.dropLast_append_getLast some_
    rw [parentOf, if_neg some_] at parent
    obtain ⟨front,dir⟩ := Option.filter_eq_some_iff.mp parent
    have dir : (dinode k.sb s.disk p).type = tDir := by simpa using dir
    rw [← whole, walk_append, front, Option.bind_some, walk_cons, enter, if_pos dir]
    cases find (table k s p) (canon last) <;> rfl
  · refine ⟨?_, ?_⟩
    · rcases spec false with ⟨q,v,run,-,-⟩ | ⟨-,none_⟩
      · refine ⟨q.map Prod.fst, v, ?_⟩
        unfold namei
        rw [bind_of_ok run]
        rfl
      · exact absurd room none_
    · rcases spec true with ⟨q,v,run,-,-⟩ | ⟨-,none_⟩
      · exact ⟨q, v, run⟩
      · exact absurd room none_

theorem dot_tree : ∃ s, Tree dirMount s ∧ 0 < (s.icache dirSlot).ref ∧ Room s ∧
    enter dirMount s rootino FsCalls.dot = some rootino := by
  obtain ⟨directory,holder,empty⟩ := lockedDir_ready
  obtain ⟨t,run⟩ := dot_linked
  obtain ⟨directory',holder',fresh_,now⟩ :=
    directory_link directory holder (Nat.le_refl 1) (by decide) run
  obtain ⟨open_,same⟩ := directory'.openDir holder'
  obtain ⟨-,-,-,w,edited⟩ :=
    dirlink_new (directory.openDir holder).1 (by decide) (by decide) (by rw [empty]; rfl) run
  have others : ∀ y, y ≠ dirSlot → t.icache y = ⟨0, 0, false, false, fresh 0⟩ := fun y other => by
    rw [edited.other other, lockedDir, modify_other other]
    unfold single
    dsimp only
    rw [Function.update_of_ne other]
  have used : ∀ y, 0 < (t.icache y).ref → y = dirSlot := fun y pos => by
    by_contra other
    rw [others y other] at pos
    exact absurd pos (by decide)
  have held := open_.held.1
  have type0 : (dinode dirMount.sb t.disk 0).type ≠ tDir := by
    rw [edited.table 0 (by rw [holder.1]; decide) (by decide)]
    show (dinode (tiny 4) (emptyDir 4) 0).type ≠ tDir
    rw [emptyDir, dinode_writeDinode, if_neg (by decide),
      dinode_blank (layout_tiny (by decide)) (by decide)]
    decide
  have table_ : table dirMount t 1 = [some (canon FsCalls.dot, 1)] := by
    have before : table dirMount lockedDir 1 = [] := (directory.openDir holder).2.symm.trans empty
    rw [now, before]
    rfl
  have name1 : ∀ y, 0 < ((t.modify dirSlot { t.icache dirSlot with lock := false }).icache y).ref →
      y = dirSlot ∧ ((t.modify dirSlot { t.icache dirSlot with lock := false }).icache y).inum =
        1 := fun y pos => by
    by_cases this : y = dirSlot
    · refine ⟨this, ?_⟩
      rw [this, modify_self]
      exact holder'.1
    · rw [modify_other this] at pos
      exact absurd (used y pos) this
  have stays : Stays dirMount (t.modify dirSlot { t.icache dirSlot with lock := false }) 1 := by
    refine ⟨?_, .inr ⟨dirSlot, ?_, ?_⟩⟩
    · show (dinode dirMount.sb t.disk 1).type ≠ 0
      rw [directory'.dir]
      decide
    · rw [modify_self]
      exact held
    · rw [modify_self]
      exact holder'.1
  have dirs : ∀ i < dirMount.sb.ninodes, (dinode dirMount.sb t.disk i).type = tDir → i = 1 := by
    intro i bound dir
    have : dirMount.sb.ninodes = 2 := rfl
    have : i ≠ 0 := fun zero => type0 (zero ▸ dir)
    omega
  refine ⟨t.modify dirSlot { t.icache dirSlot with lock := false },
    ⟨directory'.wf, directory'.cache.unlock, fun y => ?_, fun y pos => ?_,
    fun i bound dir => ?_, fun i bound dir name r found => ?_, by
      decide, stays⟩, ?_, ⟨⟨1, by decide⟩, ⟨2, by decide⟩, by decide, ?_, ?_⟩, ?_⟩
  · by_cases this : y = dirSlot
    · rw [this, modify_self]
    · rw [modify_other this, others y this]
  · rw [(name1 y pos).2]
    exact stays.1
  · rw [dirs i bound dir]
    exact directory'.aligned
  · have found : find (table dirMount t i) name = some r := found
    rw [dirs i bound dir, table_, find] at found
    split at found
    · cases found
      exact ⟨by decide, stays⟩
    · cases found
  · rw [modify_self]
    exact held
  · rw [modify_other (by decide), others _ (by decide)]
  · rw [modify_other (by decide), others _ (by decide)]
  · show (if (dinode dirMount.sb t.disk 1).type = tDir then
      (find (table dirMount t 1) (canon FsCalls.dot)).map Prod.snd else none) = some 1
    rw [if_pos directory'.dir, table_]
    rfl

theorem path_resolution_is_fold_dots :
    ∃ s r t, Tree dirMount s ∧ namei dirMount dirSlot [47, 46, 47, 46] s = .ok (r, t) ∧
    r.map (fun x => (t.icache x).inum) = some rootino ∧ Adds s t r := by
  obtain ⟨s,tree,current,room,dot⟩ := dot_tree
  obtain ⟨-,found,-,-,returns⟩ :=
    path_resolution_is_fold dirMount s dirSlot [47, 46, 47, 46] tree current (by decide)
  obtain ⟨r,t,run⟩ := (returns room).1
  obtain ⟨inum,adds⟩ := found r t run
  have parts : components [47, 46, 47, 46] = [FsCalls.dot, FsCalls.dot] := by decide +kernel
  refine ⟨s, r, t, tree, run, ?_, adds⟩
  rw [inum, parts, walk_cons, show startOf s dirSlot [47, 46, 47, 46] = rootino from rfl, dot,
    Option.bind_some, walk_cons, dot]
  rfl

end FsPaths

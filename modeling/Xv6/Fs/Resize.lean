import Xv6.Fs.Supply
import Xv6.Fs.Write

/- change_file_size on a locked inode. The file grows by chunks of BSIZE bytes from its old size
   on, whatever the offset of that is in its block; a chunk starts where the one before it has
   ended. A chunk that would end behind MAXFILE blocks is refused, and so is every one after it. -/
namespace FsCalls
open Bytes FsDisk FsInode FsOwner FsContent FsIcache FsCache FsLog Panics

variable {k : Mount} {s t u : Fs} {ip : Slot} {v w x : Dinode} {d e f : Disk} {i L : Nat}

structure Stretched (d : Disk) (v : Dinode) (L : Nat) (e : Disk) (w : Dinode) : Prop where
  fields : w = { v with size := w.size, addrs := w.addrs }
  kept : ∀ x < v.size.toNat, x < maxfile * bsize → byteAt e w x = byteAt d v x
  zeros : L ≤ maxfile * bsize → ∀ x, v.size.toNat ≤ x → x < L → byteAt e w x = some 0
  filled : ∀ x < L, x < maxfile * bsize → byteAt e w x ≠ none

theorem stretched_refl (filled : Filled d v)
    (full : L ≤ v.size.toNat ∨ maxfile * bsize < L ∧ maxfile * bsize < v.size.toNat + bsize) :
    Stretched d v L d v := by
  refine ⟨rfl, fun _ _ _ => rfl, fun small x above below => by omega, fun x below small => ?_⟩
  by_cases inside : x < v.size.toNat
  · exact filled x inside small
  · -- the last byte of the file lies in the last block
    have top : maxfile * bsize = 71680 := rfl
    have block : bsize = 512 := rfl
    obtain ⟨b,at_⟩ := block_of_byte (filled (v.size.toNat - 1) (by omega) (by omega))
    have same : (v.size.toNat - 1) / bsize = x / bsize := by
      simp only [bsize]
      omega
    rw [same] at at_
    rw [byteAt, at_]
    exact Option.some_ne_none _

theorem Stretched.wrote {sb : Superblock} {off n : UInt32} (filled : Filled d v)
    (at_ : off.toNat = v.size.toNat)
    (wrote : Wrote sb i d v (fun _ => 0) off n e w) (longer : v.size.toNat + n.toNat = w.size.toNat)
    (rest : Stretched e w L f x) : Stretched d v L f x := by
  refine ⟨?_, fun y below small => ?_, fun small y above below => ?_, rest.filled⟩
  · rw [rest.fields, wrote.fields]
  · rw [rest.kept y (by omega) small]
    rcases wrote.outside y (.inl (by omega)) with same | ⟨absent,-⟩
    · exact same
    · exact absurd absent (filled y below small)
  · by_cases first : y < w.size.toNat
    · rw [rest.kept y first (by omega)]
      exact wrote.inside y (by omega) (by omega)
    · exact rest.zeros small y (by omega) below

theorem growFrom_done {fuel : Nat} {length i : Int} (done : ¬ i < length) :
    growFrom k ip length fuel i = pure () := by
  cases fuel with
  | zero => rfl
  | succ fuel => rw [growFrom, if_neg done]

def portion (L i : Nat) : UInt32 := UInt32.ofNat (min (L - i) bsize)

theorem portion_toNat : (portion L i).toNat = min (L - i) bsize :=
  UInt32.toNat_ofNat_of_lt' (Nat.lt_of_le_of_lt (Nat.min_le_right _ _) (by decide))

theorem growFrom_pass {fuel : Nat} (more : i < L) {a : Unit}
    (run : growFrom k ip L (fuel + 1) i s = .ok (a, t)) :
    ∃ r u, FsIcache.writei k ip (fun _ => 0) (UInt32.ofNat i) (portion L i) s = .ok (r, u) ∧
      growFrom k ip L fuel (i + bsize : Nat) u = .ok (a, t) := by
  rw [growFrom, if_pos (by omega)] at run
  obtain ⟨r,u,first,run⟩ := bind_ok run
  refine ⟨r, u, ?_, ?_⟩
  · have sizes : (min ((L : Int) - i) bsize).toNat = min (L - i) bsize := by omega
    rw [sizes] at first
    exact first
  · by_cases wide : (i : Int) + bsize ≥ 2147483648
    · rw [if_pos wide] at run
      cases run
    · rw [if_neg wide] at run
      rw [Int.natCast_add]
      exact run

theorem ofNat_small (small : i < 2147483648) : (UInt32.ofNat i).toNat = i :=
  UInt32.toNat_ofNat_of_lt' (Nat.lt_of_lt_of_le small (by decide))

theorem growFrom_behind {fuel : Nat} (sound : Sound k s) (locked : (s.icache ip).lock = true)
    (file : (s.icache ip).din.type ≠ tDev)
    (small : L < 2147483648) (behind : (s.icache ip).din.size.toNat < i) {a : Unit}
    (run : growFrom k ip L fuel i s = .ok (a, t)) : t = s := by
  induction fuel generalizing i with
  | zero =>
    cases run
    rfl
  | succ fuel ih =>
    by_cases more : i < L
    · obtain ⟨r,u,first,later⟩ := growFrom_pass more run
      have refused : Refused (s.icache ip).din (UInt32.ofNat i) (portion L i) :=
        .inl (by rw [ofNat_small (by omega)]; exact behind)
      rcases writei_edits sound locked file first with ⟨-,-,rfl⟩ | ⟨ok,-⟩
      · exact ih (by omega) later
      · exact absurd refused ok
    · rw [growFrom_done (by omega)] at run
      cases run
      rfl

theorem growFrom_ok {fuel : Nat} (sound : Sound k s) (locked : (s.icache ip).lock = true)
    (file : (s.icache ip).din.type ≠ tDev)
    (small : L < 2147483648) (enough : L - i ≤ bsize * fuel)
    (at_ : (s.icache ip).din.size.toNat = i) {a : Unit}
    (run : growFrom k ip L fuel i s = .ok (a, t)) :
    ∃ w, Edited k s ip w t ∧ Sound k t ∧ Stretched s.disk (s.icache ip).din L t.disk w := by
  have filled := sound.filled_here locked file
  have stays : L ≤ i ∨ maxfile * bsize < L ∧ maxfile * bsize < i + bsize → t = s →
    ∃ w, Edited k s ip w t ∧ Sound k t ∧
      Stretched s.disk (s.icache ip).din L t.disk w := by
    rintro full rfl
    exact ⟨_, edited_refl sound.cache ip locked, sound,
      stretched_refl filled (by rw [at_]; exact full)⟩
  induction fuel generalizing s i with
  | zero =>
    refine stays (.inl (by omega)) ?_
    cases run
    rfl
  | succ fuel ih =>
    by_cases more : i < L
    · obtain ⟨r,u,first,later⟩ := growFrom_pass more run
      have offset := ofNat_small (i := i) (by omega)
      have size := portion_toNat (L := L) (i := i)
      have block : bsize = 512 := rfl
      rcases writei_edits sound locked file first with ⟨refused,-,rfl⟩ | ⟨ok,-,w,edited,wrote⟩
      · refine stays (.inr ?_) (growFrom_behind sound locked file small (by omega) later)
        simp only [Refused, offset, size] at refused
        omega
      · have next := sound.wrote locked file ok edited wrote
        have mine : (u.icache ip).din = w := by rw [edited.mine]
        have locked1 : (u.icache ip).lock = true := by
          rw [edited.mine]
          exact locked
        have type : w.type = (s.icache ip).din.type := by rw [wrote.fields]
        have file1 : (u.icache ip).din.type ≠ tDev := by
          rw [mine, type]
          exact file
        have longer : w.size.toNat = i + min (L - i) bsize := by
          rw [wrote.size, offset, size, at_]
          split <;> omega
        have filled1 := next.filled_here locked1 file1
        by_cases last : L ≤ i + bsize
        · rw [growFrom_done (by omega)] at later
          cases later
          have reached : L ≤ (t.icache ip).din.size.toNat := by
            rw [mine, longer]
            exact Nat.le_of_eq (by rw [Nat.min_eq_left (by omega)]; omega)
          have all := stretched_refl (L := L) filled1 (.inl reached)
          rw [mine] at all
          exact ⟨w, edited, next, all.wrote filled (offset.trans at_.symm) wrote
            (by rw [size, longer, at_])⟩
        · have full : min (L - i) bsize = bsize := Nat.min_eq_right (by omega)
          have at1 : (u.icache ip).din.size.toNat = i + bsize := by rw [mine, longer, full]
          obtain ⟨y,edited2,sound2,rest⟩ :=
            ih next locked1 file1 (by rw [Nat.mul_succ] at enough; omega) at1 later filled1 (by
              rintro full rfl
              exact ⟨_, edited_refl next.cache ip locked1, next,
                stretched_refl filled1 (by rw [at1]; exact full)⟩)
          rw [mine] at rest
          exact ⟨y, edited.trans edited2, sound2,
            rest.wrote filled (offset.trans at_.symm) wrote (by rw [size, longer, at_])⟩
    · rw [growFrom_done (by omega)] at run
      refine stays (.inl (by omega)) ?_
      cases run
      rfl

structure Cut (d : Disk) (v : Dinode) (L : Nat) (e : Disk) (w : Dinode) : Prop where
  fields : w = { v with size := w.size, addrs := w.addrs }
  size : w.size.toNat = L
  kept : ∀ x < v.size.toNat, x < L → x < maxfile * bsize → byteAt e w x = byteAt d v x
  zeros : L ≤ maxfile * bsize → ∀ x, v.size.toNat ≤ x → x < L → byteAt e w x = some 0

def sized (k : Mount) (s : Fs) (ip : Slot) (L : Nat) : Fs :=
  s.put ip (writeDinode k.sb s.disk (s.icache ip).inum
    { (s.icache ip).din with size := UInt32.ofNat L })
    { (s.icache ip).din with size := UInt32.ofNat L } [FsLog.iblock k.sb (s.icache ip).inum]

theorem resize_cases {a : Unit} (run : resize k ip L s = .ok (a, t)) :
    ((s.icache ip).din.size.toNat < L ∧
      ∃ pages u fuel, L - (s.icache ip).din.size.toNat ≤ bsize * fuel ∧
      growFrom k ip L fuel (s.icache ip).din.size.toNat { s with pages := pages } = .ok ((), u) ∧
        t = sized k u ip L) ∨
    (L < (s.icache ip).din.size.toNat ∧ t = sized k s ip L) ∨
      ((s.icache ip).din.size.toNat = L ∧ t = s) := by
  have nat : (L : Int).toNat = L := rfl
  obtain ⟨c,s₁,looked,run⟩ := bind_ok run
  cases looked
  dsimp only at run
  by_cases grows : ((s.icache ip).din.size.toNat : Int) < L
  · rw [if_pos grows] at run
    obtain ⟨page,s₁,taken,run⟩ := bind_ok run
    obtain ⟨pages,rfl⟩ : ∃ pages, s₁ = { s with pages := pages } := by
      unfold kalloc at taken
      split at taken
      · cases taken
        exact ⟨s.pages, rfl⟩
      · cases taken
        exact ⟨_, rfl⟩
    obtain ⟨_,u,loop,run⟩ := bind_ok run
    rw [update_eq] at run
    cases run
    refine .inl ⟨by omega, pages, u, _, ?_, loop, by rw [nat]; rfl⟩
    simp only [bsize]
    omega
  · rw [if_neg grows] at run
    by_cases shrinks : ((s.icache ip).din.size.toNat : Int) > L
    · rw [if_pos shrinks, update_eq] at run
      cases run
      exact .inr (.inl ⟨by omega, by rw [nat]; rfl⟩)
    · rw [if_neg shrinks] at run
      cases run
      exact .inr (.inr ⟨by omega, rfl⟩)

theorem sound_pages (sound : Sound k s) (pages : List Nat) : Sound k { s with pages := pages } :=
  ⟨sound.layout, sound.own, sound.filled, sound.cache.nonneg, sound.cache.once, sound.cache.named,
    sound.cache.copies, sound.cache.locked⟩

theorem resize_ok (sound : Sound k s) (locked : (s.icache ip).lock = true)
    (file : (s.icache ip).din.type ≠ tDev) (small : L < 2147483648)
    {a : Unit} (run : resize k ip L s = .ok (a, t)) :
    ∃ w pages, Edited k { s with pages := pages } ip w t ∧ Sound k t ∧
      Cut s.disk (s.icache ip).din L t.disk w := by
  have filled := sound.filled_here locked file
  have word : (UInt32.ofNat L).toNat = L := ofNat_small small
  rcases resize_cases run with ⟨grows,pages,u,fuel,enough,loop,rfl⟩ | ⟨shrinks,rfl⟩ | ⟨same,rfl⟩
  · obtain ⟨v,edited,sound₂,stretched⟩ :=
      growFrom_ok (sound_pages sound pages) locked file small enough rfl loop
    have mine := edited.mine
    have locked₂ : (u.icache ip).lock = true := by
      rw [mine]
      exact locked
    have din : (u.icache ip).din = v := by rw [mine]
    rw [sized, din]
    obtain ⟨edited',bytes,sound'⟩ := update_edits (w := { v with size := UInt32.ofNat L }) sound₂
      locked₂ (by rw [din]) (by rw [din])
      (l := [FsLog.iblock k.sb (u.icache ip).inum])
    rw [din] at bytes
    refine ⟨_, pages, edited.trans edited', sound' fun _ x below fits => ?_, ?_, word,
      fun x inside _ fits => (bytes x).trans (stretched.kept x inside fits),
      fun fits x from_ below => (bytes x).trans (stretched.zeros fits x from_ below)⟩
    · have same : byteAt u.disk { v with size := UInt32.ofNat L } x = byteAt u.disk v x := rfl
      rw [same]
      exact stretched.filled x (word ▸ below) fits
    · rw [stretched.fields]
  · obtain ⟨edited,bytes,sound'⟩ :=
      update_edits (w := { (s.icache ip).din with size := UInt32.ofNat L }) sound locked rfl rfl
      (l := [FsLog.iblock k.sb (s.icache ip).inum])
    refine ⟨_, s.pages, edited, sound' fun _ x below fits => ?_, rfl, word, fun x _ _ _ => bytes x,
      fun fits x from_ below => by omega⟩
    have same : byteAt s.disk { (s.icache ip).din with size := UInt32.ofNat L } x = byteAt s.disk
        (s.icache ip).din x := rfl
    rw [same]
    have below : x < L := word ▸ below
    exact filled x (by omega) fits
  · exact ⟨_, t.pages, edited_refl sound.cache ip locked, sound, rfl, same, fun _ _ _ _ => rfl,
      fun fits x from_ below => by omega⟩

def resized (c : List UInt8) (L : Nat) : List UInt8 := c.take L ++ List.replicate (L - c.length) 0

theorem Cut.content (cut : Cut d v L e w) (small : L ≤ maxfile * bsize) :
    content e w = resized (content d v) L := by
  have length : (FsContent.content d v).length = v.size.toNat := by
    simp [FsContent.content, bytesFrom]
  have size := cut.size
  refine List.ext_getElem (by simp [resized, FsContent.content, bytesFrom]; omega)
    fun x low high => ?_
  have below : x < L := by simpa [FsContent.content, bytesFrom, size] using low
  by_cases inside : x < v.size.toNat
  · have front : x < ((FsContent.content d v).take L).length := by
      rw [List.length_take, length]; omega
    simp only [resized, List.getElem_append_left front, List.getElem_take]
    simp only [FsContent.content, bytesFrom, List.getElem_map, List.getElem_range, Nat.zero_add]
    rw [cut.kept x inside below (by omega)]
  · have behind : ((FsContent.content d v).take L).length ≤ x := by
      rw [List.length_take, length]; omega
    simp only [resized, List.getElem_append_right behind, List.getElem_replicate]
    simp only [FsContent.content, bytesFrom, List.getElem_map, List.getElem_range, Nat.zero_add]
    rw [cut.zeros small x (by omega) below]
    rfl

theorem Cut.whole (cut : Cut d v L e w) (whole : Whole d v) (small : L ≤ maxfile * bsize) :
    Whole e w := by
  intro x below
  rw [cut.size] at below
  by_cases inside : x < v.size.toNat
  · rw [cut.kept x inside below (by omega)]
    exact whole x inside
  · rw [cut.zeros small x (by omega) below]
    exact Option.some_ne_none _

end FsCalls

import Rmdb.Storage.PoolInv
import Rmdb.Lib.PinTrace

namespace Rmdb.BufferPoolManager

variable {n : Nat} {b b1 b' : BufferPoolManager n} {fd : Nat} {f g : Fin n} {p q : PageId}
  {t : List (PinEvent Int)}

def pinCount (b : BufferPoolManager n) (p : PageId) : Nat :=
  match b.pageTable p with
  | some f => (b.pages f).pinCount
  | none => 0

def pinsOf (b : BufferPoolManager n) (fd : Nat) : Pins Int
  | .ofNat k => b.pinCount ⟨fd, k⟩
  | .negSucc _ => 0

theorem pinCount_mapped (hp : b.pageTable p = some f) :
    b.pinCount p = (b.pages f).pinCount := by rw [pinCount, hp]

theorem pinCount_unmapped (hp : b.pageTable p = none) : b.pinCount p = 0 := by rw [pinCount, hp]

theorem pinCount_setFrame (hI : PoolInv b) (hp : b.pageTable p = some f) (page : Page)
    (lruList : List (Fin n)) :
    pinCount { b with pages := Function.update b.pages f page, lruList := lruList } =
      Function.update b.pinCount p page.pinCount := by
  generalize hb : ({ b with
    pages := Function.update b.pages f page, lruList := lruList } : BufferPoolManager n) = b1
  have htable : b1.pageTable = b.pageTable := by rw [← hb]
  have hpages : b1.pages = Function.update b.pages f page := by rw [← hb]
  funext q
  by_cases hq : q = p
  · rw [hq, Function.update_self, pinCount_mapped ((congrFun htable p).trans hp), hpages,
      Function.update_self]
  · rw [Function.update_of_ne hq]
    cases hg : b.pageTable q with
    | none => rw [pinCount_unmapped hg, pinCount_unmapped ((congrFun htable q).trans hg)]
    | some g =>
        have hgf : g ≠ f := by
          rintro rfl
          exact hq (hI.inj hg hp)
        rw [pinCount_mapped hg, pinCount_mapped ((congrFun htable q).trans hg), hpages,
          Function.update_of_ne hgf]

theorem pinCount_taken (ht : Taken b f p b') (hp : b.pageTable p = none) : b'.pinCount = b.pinCount := by
  funext q
  have hq := ht.table q
  by_cases hqp : q = p
  · rw [if_pos hqp] at hq
    rw [pinCount_mapped hq, ht.page, hqp, pinCount_unmapped hp]
  · rw [if_neg hqp] at hq
    split at hq
    · next hfq => rw [pinCount_unmapped hq, pinCount_mapped hfq, ht.idle]
    · next hfq =>
      cases hg : b.pageTable q with
      | none => rw [pinCount_unmapped hg, pinCount_unmapped (hq.trans hg)]
      | some g =>
          have hgf : g ≠ f := by
            rintro rfl
            exact hfq hg
          rw [pinCount_mapped hg, pinCount_mapped (hq.trans hg), ht.pages, Function.update_of_ne hgf]

theorem pinCount_fetch (hI : PoolInv b) (hs : Sound b (.fetch p)) (hrun : b.fetchPage p = (.page f, b')) :
    b'.pinCount = Function.update b.pinCount p (b.pinCount p + 1) := by
  rcases fetchPage_spec hI hs with ⟨g, hp, hfetch⟩ | ⟨-, -, hfetch⟩ | ⟨hp, g, b1, ht, -, hfetch⟩
  · cases hrun.symm.trans hfetch
    rw [pinCount_setFrame hI hp, pinCount_mapped hp]
  · cases hrun.symm.trans hfetch
  · rcases hfetch with ⟨-, hfetch⟩ | ⟨data, -, hfetch⟩
    · cases hrun.symm.trans hfetch
    · cases hrun.symm.trans hfetch
      rw [pinCount_setFrame (ht.inv hI hp) ((ht.table p).trans (if_pos rfl)), pinCount_taken ht hp,
        pinCount_unmapped hp]

theorem pinCount_new (hI : PoolInv b) (hs : Sound b (.new fd)) (hrun : b.newPage fd = (some (f, p), b')) :
    p.fd = fd ∧ b'.pinCount = Function.update b.pinCount p (b.pinCount p + 1) := by
  rcases newPage_spec hI hs.1 fd with ⟨-, hnew⟩ | ⟨g, b1, ht, -, hnew⟩
  · cases hrun.symm.trans hnew
  · cases hrun.symm.trans hnew
    refine ⟨rfl, ?_⟩
    rw [pinCount_setFrame (ht.inv hI hs.2) ((ht.table _).trans (if_pos rfl)), pinCount_taken ht hs.2,
      pinCount_unmapped hs.2]

theorem pinCount_unpin (hI : PoolInv b) (isDirty : Bool) :
    (b.unpinPage p isDirty).2.pinCount = Function.update b.pinCount p (b.pinCount p - 1) := by
  rw [unpinPage]
  cases hp : b.pageTable p with
  | none =>
      simp only
      rw [pinCount_unmapped hp, Nat.zero_sub, ← pinCount_unmapped hp, Function.update_eq_self]
  | some f =>
      simp only
      split
      · next hzero =>
        rw [pinCount_mapped hp, hzero, Nat.zero_sub, ← hzero, ← pinCount_mapped hp, Function.update_eq_self]
      · simp only
        rw [pinCount_setFrame hI hp, pinCount_mapped hp]

/-- The pool does what the events say for the pages of the file `fd`; in between it may serve others. -/
inductive Serves (fd : Nat) : BufferPoolManager n → List (PinEvent Int) → BufferPoolManager n → Prop
  | done {b : BufferPoolManager n} : Serves fd b [] b
  | fetch {b b1 b' : BufferPoolManager n} {f : Fin n} {k : Nat} {t : List (PinEvent Int)}
      (hs : Sound b (.fetch ⟨fd, k⟩))
      (hrun : b.fetchPage ⟨fd, k⟩ = (.page f, b1)) (hrest : Serves fd b1 t b') : Serves fd b (.pin k :: t) b'
  | new {b b1 b' : BufferPoolManager n} {f : Fin n} {p : PageId} {t : List (PinEvent Int)}
      (hs : Sound b (.new fd))
      (hrun : b.newPage fd = (some (f, p), b1)) (hrest : Serves fd b1 t b') : Serves fd b
        (.pin p.pageNo :: t) b'
  | unpin {b b' : BufferPoolManager n} {k : Nat} {t : List (PinEvent Int)} (isDirty : Bool)
      (hrest : Serves fd (b.unpinPage ⟨fd, k⟩ isDirty).2 t b') : Serves fd b (.unpin k :: t) b'
  | touch {b b' : BufferPoolManager n} {k : Nat} {t : List (PinEvent Int)} (hrest : Serves fd b t b') :
      Serves fd b (.touch k :: t) b'
  | other {b b1 b' : BufferPoolManager n} {t : List (PinEvent Int)} (hI : PoolInv b1)
      (hpins : b1.pinsOf fd = b.pinsOf fd)
      (hrest : Serves fd b1 t b') : Serves fd b t b'

theorem pinsOf_update {k : Nat} {c : Nat} (h : b'.pinCount = Function.update b.pinCount ⟨fd, k⟩ c) :
    b'.pinsOf fd = Function.update (b.pinsOf fd) (k : Int) c := by
  funext x
  cases x with
  | ofNat m =>
      change b'.pinCount ⟨fd, m⟩ = _
      rw [h]
      by_cases hm : m = k
      · subst hm
        rw [Function.update_self]
        exact (Function.update_self (Int.ofNat m) c (b.pinsOf fd)).symm
      · rw [Function.update_of_ne fun hc => hm (congrArg PageId.pageNo hc)]
        exact (Function.update_of_ne (fun hc => hm (Int.ofNat.inj hc)) c (b.pinsOf fd)).symm
  | negSucc m =>
      have hne : Int.negSucc m ≠ (k : Int) := nofun
      exact (Function.update_of_ne hne c (b.pinsOf fd)).symm

theorem Serves.pins (hrun : Serves fd b t b') (hI : PoolInv b) :
    PoolInv b' ∧ b'.pinsOf fd = (b.pinsOf fd).after t := by
  induction hrun with
  | done => exact ⟨hI, rfl⟩
  | fetch hs hrun _ ih =>
      have h1 := hI.fetchPage hs
      rw [hrun] at h1
      obtain ⟨hI', hpins⟩ := ih h1
      refine ⟨hI', ?_⟩
      rw [hpins, pinsOf_update (pinCount_fetch hI hs hrun)]
      rfl
  | @new b b1 b' f p t hs hrun _ ih =>
      have h1 := hI.newPage hs.1 hs.2
      rw [hrun] at h1
      obtain ⟨hI', hpins⟩ := ih h1
      obtain ⟨rfl, hcount⟩ := pinCount_new hI hs hrun
      refine ⟨hI', ?_⟩
      rw [hpins, pinsOf_update hcount]
      rfl
  | unpin isDirty _ ih =>
      obtain ⟨hI', hpins⟩ := ih (hI.unpinPage isDirty)
      refine ⟨hI', ?_⟩
      rw [hpins, pinsOf_update (pinCount_unpin hI isDirty)]
      rfl
  | touch _ ih => exact ih hI
  | other hI1 hpins1 _ ih =>
      obtain ⟨hI', hpins⟩ := ih hI1
      exact ⟨hI', by rw [hpins, hpins1]⟩

theorem pinCount_freeFrame (hI : PoolInv b) (hp : b.pageTable p = some f) (hq : b.pinCount q = 0) :
    (b.freeFrame p f).pinCount q = 0 := by
  by_cases hqp : q = p
  · refine pinCount_unmapped ?_
    rw [hqp]
    exact Function.update_self ..
  · have htable : (b.freeFrame p f).pageTable q = b.pageTable q := Function.update_of_ne hqp ..
    cases hg : b.pageTable q with
    | none => exact pinCount_unmapped (htable.trans hg)
    | some g =>
        have hgf : g ≠ f := by
          rintro rfl
          exact hqp (hI.inj hg hp)
        have hpage : (b.freeFrame p f).pages g = b.pages g := Function.update_of_ne hgf ..
        rw [pinCount_mapped (htable.trans hg), hpage, ← pinCount_mapped hg, hq]

/-- `delete_all_pages` gives up only at a page with a pin. -/
theorem deleteAllPages_true (hI : PoolInv b) (order : List PageId) (h : b.pinsOf fd = Pins.zero) :
    (deleteAllPages fd b order).1 = true := by
  have hzero : ∀ p : PageId, p.fd = fd → b.pinCount p = 0 := fun p hp => by
    have := congrFun h (Int.ofNat p.pageNo)
    rw [← hp] at this
    exact this
  clear h
  induction order generalizing b with
  | nil => rfl
  | cons p order ih =>
      rw [deleteAllPages]
      split
      · next hp =>
        cases hf : b.pageTable p with
        | none => exact ih hI hzero
        | some f =>
            have hpin : (b.pages f).pinCount = 0 := (pinCount_mapped hf).symm.trans (hzero p hp)
            simp only [hpin, ne_eq, not_true_eq_false, if_false]
            exact ih (hI.freeFrame hf hpin) fun q hq => pinCount_freeFrame hI hf (hzero q hq)
      · exact ih hI hzero

end Rmdb.BufferPoolManager

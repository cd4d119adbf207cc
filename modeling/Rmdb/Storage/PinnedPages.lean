import Rmdb.Storage.PoolInv

namespace Rmdb.BufferPoolManager

variable {n : Nat} {b b' : BufferPoolManager n} {f g : Fin n} {p q : PageId} {d : PageData}

/-- The bytes of `p` are on the disk, or in its frame and on the way there: a page whose bytes are
not on the disk is dirty. -/
def Secured (b : BufferPoolManager n) (p : PageId) (d : PageData) : Prop :=
  match b.pageTable p with
  | some f => (b.pages f).data = d ∧ ((b.pages f).isDirty = true ∨ b.disk p = some d)
  | none => b.disk p = some d

section Disk

variable {disk : Disk} {page : Page}

theorem writePage_self : disk.writePage p d p = some d := by simp [Disk.writePage]

theorem writePage_keeps {e : PageData} (h : disk p = some d) (hne : q ≠ p) :
    disk.writePage q e p = some d := by
  simp [Disk.writePage, hne.symm, h]

theorem writeBack_keeps (h : disk p = some d) (hne : page.isDirty = true → page.id = some p → page.data = d) :
    writeBack disk page p = some d := by
  rw [writeBack]
  cases hid : page.id with
  | none => exact h
  | some q =>
      simp only
      split
      · rename_i hdirty
        by_cases hq : q = p
        · subst hq
          rw [hne hdirty hid]
          exact writePage_self
        · exact writePage_keeps h hq
      · exact h

theorem writeBack_dirty (hid : page.id = some p) (h : page.isDirty = true ∨ disk p = some page.data) :
    writeBack disk page p = some page.data := by
  rw [writeBack, hid]
  simp only
  split
  · exact writePage_self
  · rename_i hdirty
    exact h.resolve_left hdirty

end Disk

theorem Secured.inPool (h : Secured b p d) (hp : b.pageTable p = some f) :
    (b.pages f).data = d ∧ ((b.pages f).isDirty = true ∨ b.disk p = some d) := by
  rw [Secured, hp] at h
  exact h

theorem Secured.onDisk (h : Secured b p d) (hp : b.pageTable p = none) : b.disk p = some d := by
  rw [Secured, hp] at h
  exact h

/-- The frame of another page, or of a page with the bytes `d`, is written back. -/
theorem Secured.writeBack (hI : PoolInv b) (h : Secured b p d) (hdisk : b.disk p = some d) :
    writeBack b.disk (b.pages f) p = some d := by
  refine writeBack_keeps hdisk fun hdirty hid => ?_
  have hfree : f ∉ b.freeList := by
    intro hc
    rw [(hI.free hc).2] at hdirty
    cases hdirty
  obtain ⟨q, hidq, hq⟩ := hI.held hfree
  cases hid.symm.trans hidq
  exact (h.inPool hq).1

/-- One frame changes, but neither its page nor the bytes, and no dirty bit is lost. -/
theorem Secured.setFrame (h : Secured b p d) {page : Page} {lruList : List (Fin n)}
    (hpage : b.pageTable p = some f → page.data = d ∧ ((b.pages f).isDirty = true → page.isDirty = true)) :
    Secured { b with pages := Function.update b.pages f page, lruList := lruList } p d := by
  rw [Secured]
  cases hp : b.pageTable p with
  | none =>
      exact h.onDisk hp
  | some g =>
      simp only
      by_cases hgf : g = f
      · subst hgf
        rw [Function.update_self]
        exact ⟨(hpage hp).1, (h.inPool hp).2.imp_left (hpage hp).2⟩
      · rw [Function.update_of_ne hgf]
        exact h.inPool hp

theorem Secured.taken (hI : PoolInv b) (h : Secured b p d) (ht : Taken b f q b') (hpq : p ≠ q) :
    Secured b' p d := by
  rw [Secured, ht.table, if_neg hpq]
  cases hp : b.pageTable p with
  | none =>
      simp only [reduceCtorEq, if_false]
      rw [ht.disk]
      exact h.writeBack hI (h.onDisk hp)
  | some g =>
      by_cases hgf : g = f
      · subst hgf
        simp only [if_true]
        obtain ⟨hdata, hor⟩ := h.inPool hp
        rw [ht.disk, ← hdata]
        exact writeBack_dirty (hI.table hp).1 (hor.imp_right fun hd => by rw [hd, hdata])
      · have hne : ¬ some g = some f := fun hc => hgf (Option.some.inj hc)
        simp only [hne, if_false]
        rw [ht.pages, Function.update_of_ne hgf, ht.disk]
        exact ⟨(h.inPool hp).1, (h.inPool hp).2.imp_right fun hd => h.writeBack hI hd⟩

theorem Secured.freeFrame (hI : PoolInv b) (h : Secured b p d) (hq : b.pageTable q = some f) :
    Secured (b.freeFrame q f) p d := by
  by_cases hpq : p = q
  · subst hpq
    obtain ⟨hdata, hor⟩ := h.inPool hq
    simp only [Secured, BufferPoolManager.freeFrame, Function.update_self]
    rw [← hdata]
    exact writeBack_dirty (hI.table hq).1 (hor.imp_right fun hd => by rw [hd, hdata])
  · simp only [Secured, BufferPoolManager.freeFrame, Function.update_of_ne hpq]
    cases hp : b.pageTable p with
    | none => exact h.writeBack hI (h.onDisk hp)
    | some g =>
        have hgf : g ≠ f := by
          rintro rfl
          exact hpq (hI.inj hp hq)
        simp only [Function.update_of_ne hgf]
        exact ⟨(h.inPool hp).1, (h.inPool hp).2.imp_right fun hd => h.writeBack hI hd⟩

theorem Secured.clean (hI : PoolInv b) (h : Secured b p d) (hq : b.pageTable q = some f) {disk : Disk}
    (hself : disk q = some (b.pages f).data) (hother : ∀ p, p ≠ q → b.disk p = some d → disk p = some d) :
    Secured { b with
      disk := disk, pages := Function.update b.pages f { b.pages f with isDirty := false } } p d := by
  simp only [Secured]
  cases hp : b.pageTable p with
  | none =>
      have hpq : p ≠ q := by
        rintro rfl
        rw [hp] at hq
        cases hq
      exact hother p hpq (h.onDisk hp)
  | some g =>
      by_cases hgf : g = f
      · subst hgf
        cases hI.inj hp hq
        simp only [Function.update_self]
        refine ⟨(h.inPool hp).1, .inr ?_⟩
        rw [hself, (h.inPool hp).1]
      · have hpq : p ≠ q := by
          rintro rfl
          exact hgf (Option.some.inj (hp.symm.trans hq))
        simp only [Function.update_of_ne hgf]
        exact ⟨(h.inPool hp).1, (h.inPool hp).2.imp_right (hother p hpq)⟩

theorem Secured.flushEntry (hI : PoolInv b) (h : Secured b p d) (only : PageId → Bool) (q : PageId) :
    Secured (flushEntry only b q) p d := by
  rw [BufferPoolManager.flushEntry]
  split
  · exact h
  · rename_i f hq
    split
    · rename_i hdirty
      have hdirty : (b.pages f).isDirty = true := (Bool.and_eq_true_iff.1 hdirty).2
      refine h.clean hI hq (writeBack_dirty (hI.table hq).1 (.inl hdirty)) fun r hrq hr => ?_
      refine writeBack_keeps hr fun _ hid => absurd ?_ hrq
      exact Option.some.inj (hid.symm.trans (hI.table hq).1)
    · exact h

theorem Secured.deleteAllPages (hI : PoolInv b) (h : Secured b p d) (fd : Nat) (order : List PageId) :
    Secured (deleteAllPages fd b order).2 p d := by
  induction order generalizing b with
  | nil => exact h
  | cons q order iht =>
      rw [BufferPoolManager.deleteAllPages]
      split
      · split
        · exact iht hI h
        · rename_i f hq
          split
          · exact h
          · rename_i hpin
            exact iht (hI.freeFrame hq (not_not.1 hpin)) (h.freeFrame hI hq)
      · exact iht hI h

def Rewrites (b : BufferPoolManager n) (p : PageId) : PoolCall n → Prop
  | .write f _ => (b.pages f).id = some p
  | .new fd => p = ⟨fd, b.fd2pageno fd⟩
  | _ => False

theorem Secured.exec (hI : PoolInv b) (h : Secured b p d) {c : PoolCall n} (hc : Sound b c)
    (hnot : ¬ Rewrites b p c) :
    Secured (c.exec b) p d := by
  cases c with
  | fetch q =>
      rw [PoolCall.exec]
      rcases fetchPage_spec hI hc with ⟨f, hq, hrun⟩ | ⟨-, -, hrun⟩ | ⟨hq, f, b', ht, -, hrun⟩
      · rw [hrun]
        exact h.setFrame fun hp => ⟨(h.inPool hp).1, id⟩
      · rw [hrun]
        exact h
      · by_cases hpq : p = q
        · -- the page comes back from the disk
          subst hpq
          have hdisk : b'.disk p = some d := by
            rw [ht.disk]
            exact h.writeBack hI (h.onDisk hq)
          rcases hrun with ⟨hnone, -⟩ | ⟨data, hdata, hrun⟩
          · rw [hdisk] at hnone
            cases hnone
          · have hp : b'.pageTable p = some f := by rw [ht.table, if_pos rfl]
            rw [hrun]
            simp only [Secured, hp, Function.update_self]
            rw [hdisk] at hdata
            cases hdata
            exact ⟨rfl, .inr hdisk⟩
        · have h' := h.taken hI ht hpq
          rcases hrun with ⟨-, hrun⟩ | ⟨data, -, hrun⟩
          · rw [hrun]
            exact h'
          · rw [hrun]
            refine h'.setFrame fun hp => absurd ?_ hpq
            exact (ht.inv hI hq).inj hp (by rw [ht.table, if_pos rfl])
  | new fd =>
      rw [PoolCall.exec]
      rcases newPage_spec hI hc.1 fd with ⟨-, hrun⟩ | ⟨f, b', ht, -, hrun⟩
      · rw [hrun]
        exact h
      · rw [hrun]
        refine (h.taken hI ht hnot).setFrame fun hp => absurd ?_ hnot
        exact (ht.inv hI hc.2).inj hp (by rw [ht.table, if_pos rfl])
  | unpin q isDirty =>
      rw [PoolCall.exec, unpinPage]
      split
      · exact h
      · split
        · exact h
        · refine h.setFrame fun hp => ⟨(h.inPool hp).1, fun hdirty => ?_⟩
          simp only [hdirty, Bool.true_or]
  | flush q =>
      rw [PoolCall.exec, flushPage]
      split
      · exact h
      · rename_i f hq
        exact h.clean hI hq writePage_self fun r hrq hr => writePage_keeps hr hrq.symm
  | flushAll only order =>
      rw [PoolCall.exec, flushAllPages]
      induction order generalizing b with
      | nil => exact h
      | cons q order iht => exact iht (hI.flushEntry only q) (h.flushEntry hI only q) trivial id
  | delete q =>
      rw [PoolCall.exec, deletePage]
      split
      · exact h
      · rename_i f hq
        split
        · exact h
        · exact h.freeFrame hI hq
  | deleteAll fd order => exact h.deleteAllPages hI fd order
  | write f data =>
      refine h.setFrame fun hp => absurd ?_ hnot
      exact (hI.table hp).1

def step (b : BufferPoolManager n) (c : PoolCall n) : Option (BufferPoolManager n) := some (c.exec b)

/-- The frame holds the page; a frame on the free list holds none. -/
def HoldsPage (b : BufferPoolManager n) (f : Fin n) (p : PageId) : Prop :=
  (b.pages f).id = some p ∧ f ∉ b.freeList

structure KeepsPinned (b : BufferPoolManager n) : Prop where
  mapped : ∀ f, 0 < (b.pages f).pinCount → ∃ p, HoldsPage b f p ∧ b.pageTable p = some f
  single : ∀ f g p, 0 < (b.pages f).pinCount → HoldsPage b f p → HoldsPage b g p → f = g
  fetched : ∀ f p, 0 < (b.pages f).pinCount → HoldsPage b f p → (b.fetchPage p).1 = .page f
  unpinned : ∀ f p, 0 < (b.pages f).pinCount → HoldsPage b f p → (b.unpinPage p true).1 = true
  /-- Whatever calls follow a dirty unpin, the bytes are not lost until the page gets new ones:
  they are on the disk when the page has left the pool, and a flush brings them there. -/
  written : ∀ f p, 0 < (b.pages f).pinCount → HoldsPage b f p → ∀ calls b',
    Trace.Guarded step (fun b c => Sound b c ∧ ¬ Rewrites b p c) (b.unpinPage p true).2 calls →
    Trace.run step (b.unpinPage p true).2 calls = some b' →
      (b'.pageTable p = none → b'.disk p = some (b.pages f).data) ∧
      (b'.flushPage p).2.disk p = some (b.pages f).data

theorem PoolInv.pinned_table (h : PoolInv b) (hf : 0 < (b.pages f).pinCount) (hp : HoldsPage b f p) :
    b.pageTable p = some f := by
  obtain ⟨q, hid, hq⟩ := h.held (h.pinned hf)
  cases hp.1.symm.trans hid
  exact hq

theorem secured_unpin (h : PoolInv b) (hf : 0 < (b.pages f).pinCount) (hp : HoldsPage b f p) :
    Secured (b.unpinPage p true).2 p (b.pages f).data := by
  have htab := h.pinned_table hf hp
  rw [unpinPage, htab]
  simp only [if_neg (show ¬ (b.pages f).pinCount = 0 by omega)]
  simp only [Secured, htab, Function.update_self, Bool.or_true]
  exact ⟨trivial, .inl trivial⟩

theorem Secured.flushPage (h : Secured b p d) : (b.flushPage p).2.disk p = some d := by
  rw [BufferPoolManager.flushPage]
  split
  · rename_i hp
    exact h.onDisk hp
  · rename_i f hp
    rw [(h.inPool hp).1]
    exact writePage_self

theorem PoolInv.keepsPinned (h : PoolInv b) : KeepsPinned b where
  mapped := by
    intro f hf
    obtain ⟨p, hid, hp⟩ := h.held (h.pinned hf)
    exact ⟨p, ⟨hid, h.pinned hf⟩, hp⟩
  single := by
    intro f g p hf hfp hgp
    obtain ⟨q, hid, hq⟩ := h.held hgp.2
    cases hgp.1.symm.trans hid
    exact Option.some.inj ((h.pinned_table hf hfp).symm.trans hq)
  fetched := by
    intro f p hf hp
    rw [BufferPoolManager.fetchPage, h.pinned_table hf hp]
  unpinned := by
    intro f p hf hp
    rw [BufferPoolManager.unpinPage, h.pinned_table hf hp]
    simp only [if_neg (show ¬ (b.pages f).pinCount = 0 by omega)]
  written := by
    intro f p hf hp calls b' hguard hrun
    have hinv : PoolInv b' ∧ Secured b' p (b.pages f).data := by
      refine Trace.run_of_guarded (I := fun b' => PoolInv b' ∧ Secured b' p (b.pages f).data) ?_
        ⟨h.unpinPage true, secured_unpin h hf hp⟩ hguard hrun
      rintro b c b' ⟨hI, hS⟩ ⟨hc, hnot⟩ hstep
      cases hstep
      exact ⟨hI.exec hc, hS.exec hI hc hnot⟩
    exact ⟨fun hout => hinv.2.onDisk hout, hinv.2.flushPage⟩

/-- A pinned page stays mapped, also under deletion. -/
theorem pinned_stays_mapped (n : Nat) (disk : Disk) (fd2pageno : Nat → Nat) (calls : List (PoolCall n))
    (h : Trace.Guarded step Sound (init n disk fd2pageno) calls) :
    Trace.Always step KeepsPinned (init n disk fd2pageno) calls := by
  have hinv : Trace.Always step PoolInv (init n disk fd2pageno) calls := by
    refine Trace.always_of_guarded ?_ (init_inv n disk fd2pageno) h
    intro b c b' hI hc hstep
    cases hstep
    exact hI.exec hc
  exact hinv.mono fun b hI => hI.keepsPinned

def twoPages : Disk := fun p => if p.fd = 0 ∧ p.pageNo < 2 then some .zero else none

theorem pinned_stays_mapped_deleted : Trace.Always step KeepsPinned (init 2 twoPages fun _ => 2)
    [.fetch ⟨0, 0⟩, .unpin ⟨0, 0⟩ true, .delete ⟨0, 0⟩, .fetch ⟨0, 1⟩, .fetch ⟨0, 0⟩] := by
  have hunused : ∀ {b : BufferPoolManager 2},
    (∀ f ∈ b.freeList.head?, ∀ q ∈ (b.pages f).id, b.pageTable q = none) →
      TakesUnused b := fun h f hf q hq => h f hf q hq
  refine pinned_stays_mapped 2 twoPages (fun _ => 2) _ ⟨fun _ => hunused (by decide), ?_⟩
  rintro b ⟨⟩
  refine ⟨trivial, ?_⟩
  rintro b ⟨⟩
  refine ⟨trivial, ?_⟩
  rintro b ⟨⟩
  refine ⟨fun _ => hunused (by decide), ?_⟩
  rintro b ⟨⟩
  refine ⟨fun _ => hunused (by decide), ?_⟩
  rintro b ⟨⟩
  trivial

/-- A page is deleted and loaded again in another frame; the old frame, taken for a second page,
takes the first one out of the page table. -/
theorem reloaded_page_unmapped : ¬ Trace.Always step KeepsPinned (init 2 twoPages fun _ => 2)
    [.fetch ⟨0, 0⟩, .unpin ⟨0, 0⟩ true, .delete ⟨0, 0⟩, .fetch ⟨0, 0⟩, .fetch ⟨0, 1⟩] := by
  intro h
  have hlast : KeepsPinned _ := ((((h.2 _ rfl).2 _ rfl).2 _ rfl).2 _ rfl).2 _ rfl
  obtain ⟨p, ⟨hid, -⟩, hp⟩ := hlast.mapped 1 (by decide)
  have hfirst : p = ⟨0, 0⟩ := Option.some.inj (hid.symm.trans (by decide))
  rw [hfirst] at hp
  exact absurd hp (by decide)

end Rmdb.BufferPoolManager

import Rmdb.Storage.BufferPool

namespace Rmdb.BufferPoolManager

variable {n : Nat} {b b1 b' : BufferPoolManager n} {f g : Fin n} {p q : PageId}

/-- A frame is on the free list, or the page table maps its page to it. -/
structure PoolInv (b : BufferPoolManager n) : Prop where
  table : ∀ {p f}, b.pageTable p = some f → (b.pages f).id = some p ∧ f ∉ b.freeList
  held : ∀ {f}, f ∉ b.freeList → ∃ p, (b.pages f).id = some p ∧ b.pageTable p = some f
  free : ∀ {f}, f ∈ b.freeList → (b.pages f).pinCount = 0 ∧ (b.pages f).isDirty = false
  freeNodup : b.freeList.Nodup
  lru : ∀ {f}, f ∈ b.lruList → (b.pages f).pinCount = 0
  lruNodup : b.lruList.Nodup

theorem init_inv (n : Nat) (disk : Disk) (fd2pageno : Nat → Nat) : PoolInv (init n disk fd2pageno) where
  table := nofun
  held h := absurd (List.mem_finRange _) h
  free _ := ⟨rfl, rfl⟩
  freeNodup := List.nodup_finRange n
  lru := nofun
  lruNodup := List.nodup_nil

theorem PoolInv.pinned (h : PoolInv b) (hf : 0 < (b.pages f).pinCount) : f ∉ b.freeList := by
  intro hc
  have := (h.free hc).1
  omega

theorem PoolInv.inj (h : PoolInv b) (hp : b.pageTable p = some f) (hq : b.pageTable q = some f) : p = q :=
  Option.some.inj ((h.table hp).1.symm.trans (h.table hq).1)

theorem PoolInv.setFrame (h : PoolInv b) (hf : f ∉ b.freeList) {page : Page} (hid : page.id = (b.pages f).id)
    {lruList : List (Fin n)} (hnd : lruList.Nodup) (hself : f ∈ lruList → page.pinCount = 0)
    (hsub : ∀ g, g ≠ f → g ∈ lruList → g ∈ b.lruList) (disk : Disk) :
    PoolInv { b with pages := Function.update b.pages f page, lruList := lruList, disk := disk } where
  table := by
    intro p g hg
    obtain ⟨hidg, hfree⟩ := h.table hg
    refine ⟨?_, hfree⟩
    by_cases hgf : g = f
    · subst hgf
      simp only [Function.update_self]
      rw [hid, hidg]
    · simp only [Function.update_of_ne hgf]
      exact hidg
  held := by
    intro g hg
    obtain ⟨p, hidg, hp⟩ := h.held hg
    refine ⟨p, ?_, hp⟩
    by_cases hgf : g = f
    · subst hgf
      simp only [Function.update_self]
      rw [hid, hidg]
    · simp only [Function.update_of_ne hgf]
      exact hidg
  free := by
    intro g hg
    have hgf : g ≠ f := by
      rintro rfl
      exact hf hg
    simp only [Function.update_of_ne hgf]
    exact h.free hg
  freeNodup := h.freeNodup
  lru := by
    intro g hg
    by_cases hgf : g = f
    · subst hgf
      simp only [Function.update_self]
      exact hself hg
    · simp only [Function.update_of_ne hgf]
      exact h.lru (hsub g hgf hg)
  lruNodup := hnd

theorem PoolInv.setData (h : PoolInv b) (hf : f ∉ b.freeList) (page : Page) (hid : page.id = (b.pages f).id)
    (hpin : page.pinCount = (b.pages f).pinCount) (disk : Disk) :
    PoolInv { b with pages := Function.update b.pages f page, disk := disk } :=
  h.setFrame hf hid h.lruNodup (fun hc => hpin.trans (h.lru hc)) (fun _ _ hg => hg) disk

theorem pin_self (hnd : b.lruList.Nodup) : f ∉ LRUReplacer.pin b.lruList f := by
  rw [LRUReplacer.pin, hnd.mem_erase_iff]
  exact fun h => h.1 rfl

theorem PoolInv.pin (h : PoolInv b) (hf : f ∉ b.freeList) {page : Page} (hid : page.id = (b.pages f).id) :
    PoolInv { b with pages := Function.update b.pages f page, lruList := LRUReplacer.pin b.lruList f } :=
  h.setFrame hf hid (h.lruNodup.erase f) (fun hc => absurd hc (pin_self h.lruNodup))
    (fun _ _ hg => List.mem_of_mem_erase hg) b.disk

/-- The frame at the head of the free list does not carry the id of a page that is in the pool. -/
def TakesUnused (b : BufferPoolManager n) : Prop :=
  ∀ f ∈ b.freeList.head?, ∀ q, (b.pages f).id = some q → b.pageTable q = none

structure Taken (b : BufferPoolManager n) (f : Fin n) (p : PageId) (b' : BufferPoolManager n) : Prop where
  idle : (b.pages f).pinCount = 0
  pages : b'.pages = Function.update b.pages f ⟨some p, .zero, false, 0⟩
  table : ∀ q, b'.pageTable q = if q = p then some f else if b.pageTable q = some f then none
    else b.pageTable q
  free : ∀ g, g ∈ b'.freeList ↔ g ∈ b.freeList ∧ g ≠ f
  freeNodup : b'.freeList.Nodup
  lru : ∀ g, g ≠ f → (g ∈ b'.lruList ↔ g ∈ b.lruList)
  lruNodup : b'.lruList.Nodup
  disk : b'.disk = writeBack b.disk (b.pages f)

theorem taken_of_victim (h : PoolInv b) (hunused : TakesUnused b)
    (hv : b.findVictimPage = some (f, b1)) (p : PageId) (fd2pageno : Nat → Nat) :
    Taken b f p ({ b1 with fd2pageno := fd2pageno }.updatePage f p) := by
  rw [findVictimPage] at hv
  split at hv
  · -- from the free list: the old id is not in the table
    rename_i rest hfree
    cases hv
    have hin : f ∈ b.freeList := by
      rw [hfree]
      exact List.mem_cons_self
    obtain ⟨hpin, -⟩ := h.free hin
    obtain ⟨hnot, hnd⟩ := List.nodup_cons.1 (hfree ▸ h.freeNodup)
    refine ⟨hpin, ?_, ?_, ?_, hnd, fun _ _ => Iff.rfl, h.lruNodup, rfl⟩
    · simp only [updatePage, hpin]
    · intro q
      have hmap : ¬ b.pageTable q = some f := fun hc => (h.table hc).2 hin
      simp only [updatePage, Function.update_apply, eraseId, hmap, if_false]
      split
      · rfl
      · split
        · rename_i hid
          exact (hunused f (by rw [hfree]; rfl) q hid).symm
        · rfl
    · intro g
      simp only [updatePage, hfree, List.mem_cons]
      constructor
      · intro hg
        refine ⟨.inr hg, ?_⟩
        rintro rfl
        exact hnot hg
      · rintro ⟨rfl | hg, hne⟩
        · exact absurd rfl hne
        · exact hg
  · -- from the replacer: the old page leaves the table
    rename_i hfree
    obtain ⟨⟨v, rest⟩, hvic, hv⟩ := Option.map_eq_some_iff.1 hv
    obtain ⟨w, hlast, hw⟩ := Option.map_eq_some_iff.1 hvic
    obtain ⟨rfl, rfl⟩ := Prod.mk.inj hw
    obtain ⟨rfl, rfl⟩ := Prod.mk.inj hv
    change b.lruList.getLast? = some w at hlast
    have hsplit : b.lruList = b.lruList.dropLast ++ [w] := (List.dropLast_append_getLast? w hlast).symm
    have hnd := h.lruNodup
    rw [hsplit] at hnd
    obtain ⟨hndl, -, hdis⟩ := List.nodup_append'.1 hnd
    have hin : w ∈ b.lruList := List.mem_of_getLast? hlast
    have hpin := h.lru hin
    obtain ⟨p₀, hid, hp₀⟩ := h.held (f := w) (by rw [hfree]; exact List.not_mem_nil)
    refine ⟨hpin, ?_, ?_, ?_, ?_, ?_, hndl, rfl⟩
    · simp only [updatePage, hpin]
    · intro q
      simp only [updatePage, Function.update_apply, eraseId, hid]
      split
      · rfl
      · by_cases hq : p₀ = q
        · subst hq
          simp [hp₀]
        · have hmap : ¬ b.pageTable q = some w := fun hc => hq (h.inj hp₀ hc)
          simp [hq, hmap]
    · intro g
      simp [updatePage, hfree]
    · simp [updatePage, hfree]
    · intro g hgw
      simp only [updatePage]
      conv_rhs => rw [hsplit]
      simp [hgw]

theorem Taken.page (h : Taken b f p b') : b'.pages f = ⟨some p, .zero, false, 0⟩ := by
  rw [h.pages, Function.update_self]

theorem Taken.notFree (h : Taken b f p b') : f ∉ b'.freeList := fun hc => ((h.free f).1 hc).2 rfl

theorem Taken.inv (ht : Taken b f p b') (h : PoolInv b) (hp : b.pageTable p = none) : PoolInv b' where
  table := by
    intro q g hg
    rw [ht.table] at hg
    split at hg
    · rename_i hqp
      cases hg
      rw [ht.page, hqp]
      exact ⟨rfl, ht.notFree⟩
    · split at hg
      · cases hg
      · rename_i hqf
        have hgf : g ≠ f := by
          rintro rfl
          exact hqf hg
        obtain ⟨hid, hfree⟩ := h.table hg
        rw [ht.pages, Function.update_of_ne hgf]
        exact ⟨hid, fun hc => hfree ((ht.free g).1 hc).1⟩
  held := by
    intro g hg
    by_cases hgf : g = f
    · subst hgf
      refine ⟨p, by rw [ht.page], ?_⟩
      rw [ht.table, if_pos rfl]
    · obtain ⟨q, hid, hq⟩ := h.held (f := g) fun hc => hg ((ht.free g).2 ⟨hc, hgf⟩)
      refine ⟨q, by rw [ht.pages, Function.update_of_ne hgf]; exact hid, ?_⟩
      have hqp : q ≠ p := by
        rintro rfl
        rw [hp] at hq
        cases hq
      rw [ht.table, if_neg hqp, if_neg, hq]
      rw [hq]
      exact fun hc => hgf (Option.some.inj hc)
  free := by
    intro g hg
    obtain ⟨hg, hgf⟩ := (ht.free g).1 hg
    rw [ht.pages, Function.update_of_ne hgf]
    exact h.free hg
  freeNodup := ht.freeNodup
  lru := by
    intro g hg
    by_cases hgf : g = f
    · rw [hgf, ht.page]
    · rw [ht.pages, Function.update_of_ne hgf]
      exact h.lru ((ht.lru g hgf).1 hg)
  lruNodup := ht.lruNodup

theorem findVictimPage_fd2pageno (hv : b.findVictimPage = some (f, b1)) : b1.fd2pageno = b.fd2pageno := by
  rw [findVictimPage] at hv
  split at hv
  · cases hv
    rfl
  · obtain ⟨v, -, hv⟩ := Option.map_eq_some_iff.1 hv
    rw [← (Prod.mk.inj hv).2]

/-- The three ways of a `fetch_page`: the page is in the pool, no frame is left, or a frame is
taken for it. -/
theorem fetchPage_spec (h : PoolInv b) (hunused : b.pageTable p = none → TakesUnused b) :
    (∃ f, b.pageTable p = some f ∧ b.fetchPage p = (.page f, { b with
      lruList := LRUReplacer.pin b.lruList f
      pages := Function.update b.pages f { b.pages f with pinCount := (b.pages f).pinCount + 1 } })) ∨
    (b.pageTable p = none ∧ b.findVictimPage = none ∧ b.fetchPage p = (.nullptr, b)) ∨
    (b.pageTable p = none ∧ ∃ f b', Taken b f p b' ∧ b'.fd2pageno = b.fd2pageno ∧
      ((b'.disk p = none ∧ b.fetchPage p = (.internalError, b')) ∨
        ∃ data, b'.disk p = some data ∧ b.fetchPage p = (.page f, { b' with
          lruList := LRUReplacer.pin b'.lruList f
          pages := Function.update b'.pages f ⟨some p, data, false, 1⟩ }))) := by
  cases hp : b.pageTable p with
  | some f => exact .inl ⟨f, rfl, by rw [fetchPage, hp]⟩
  | none =>
      refine .inr ?_
      cases hv : b.findVictimPage with
      | none => exact .inl ⟨rfl, rfl, by simp only [fetchPage, hp, hv]⟩
      | some v =>
          obtain ⟨f, b1⟩ := v
          have ht := taken_of_victim h (hunused hp) hv p b1.fd2pageno
          have hfd : b1.fd2pageno = b.fd2pageno := findVictimPage_fd2pageno hv
          refine .inr ⟨rfl, f, b1.updatePage f p, ht, hfd, ?_⟩
          cases hd : (b1.updatePage f p).disk p with
          | none => exact .inl ⟨rfl, by simp only [fetchPage, hp, hv, hd]⟩
          | some data =>
              refine .inr ⟨data, rfl, ?_⟩
              simp only [fetchPage, hp, hv, hd]
              have hpage : (b1.updatePage f p).pages f = ⟨some p, .zero, false, 0⟩ := ht.page
              rw [hpage]

theorem newPage_spec (h : PoolInv b) (hunused : TakesUnused b) (fd : Nat) :
    (b.findVictimPage = none ∧ b.newPage fd = (none, b)) ∨
    (∃ f b', Taken b f ⟨fd, b.fd2pageno fd⟩ b' ∧
      b'.fd2pageno = Function.update b.fd2pageno fd (b.fd2pageno fd + 1) ∧
      b.newPage fd = (some (f, ⟨fd, b.fd2pageno fd⟩), { b' with
        lruList := LRUReplacer.pin b'.lruList f
        pages := Function.update b'.pages f ⟨some ⟨fd, b.fd2pageno fd⟩, .zero, false, 1⟩ })) := by
  cases hv : b.findVictimPage with
  | none => exact .inl ⟨rfl, by simp only [newPage, hv]⟩
  | some v =>
      obtain ⟨f, b1⟩ := v
      have ht := taken_of_victim h hunused hv ⟨fd, b.fd2pageno fd⟩
        (Function.update b.fd2pageno fd (b.fd2pageno fd + 1))
      refine .inr ⟨f, _, ht, rfl, ?_⟩
      have hpage := ht.page
      simp only [newPage, hv, findVictimPage_fd2pageno hv]
      rw [hpage]

theorem PoolInv.freeFrame (h : PoolInv b) (hp : b.pageTable p = some f) (hpin : (b.pages f).pinCount = 0) :
    PoolInv (b.freeFrame p f) where
  table := by
    intro q g hg
    simp only [BufferPoolManager.freeFrame, Function.update_apply] at hg
    split at hg
    · cases hg
    · rename_i hqp
      obtain ⟨hid, hfree⟩ := h.table hg
      have hgf : g ≠ f := by
        rintro rfl
        exact hqp (h.inj hg hp)
      simp only [BufferPoolManager.freeFrame, Function.update_of_ne hgf, List.mem_append, List.mem_singleton]
      exact ⟨hid, fun hc => hc.elim hfree hgf⟩
  held := by
    intro g hg
    simp only [BufferPoolManager.freeFrame, List.mem_append, List.mem_singleton, not_or] at hg
    obtain ⟨q, hid, hq⟩ := h.held hg.1
    have hqp : q ≠ p := by
      rintro rfl
      exact hg.2 (Option.some.inj (hq.symm.trans hp))
    refine ⟨q, ?_, ?_⟩
    · simp only [BufferPoolManager.freeFrame, Function.update_of_ne hg.2]
      exact hid
    · simp only [BufferPoolManager.freeFrame, Function.update_of_ne hqp]
      exact hq
  free := by
    intro g hg
    by_cases hgf : g = f
    · subst hgf
      simp only [BufferPoolManager.freeFrame, Function.update_self]
      exact ⟨hpin, trivial⟩
    · simp only [BufferPoolManager.freeFrame, List.mem_append, List.mem_singleton, hgf, or_false] at hg
      simp only [BufferPoolManager.freeFrame, Function.update_of_ne hgf]
      exact h.free hg
  freeNodup := by
    refine List.nodup_append'.2 ⟨h.freeNodup, List.nodup_singleton f, ?_⟩
    rintro g hg hgf
    cases List.mem_singleton.1 hgf
    exact (h.table hp).2 hg
  lru := by
    intro g hg
    by_cases hgf : g = f
    · subst hgf
      simp only [BufferPoolManager.freeFrame, Function.update_self]
      exact hpin
    · simp only [BufferPoolManager.freeFrame, Function.update_of_ne hgf]
      exact h.lru hg
  lruNodup := h.lruNodup

theorem PoolInv.flushEntry (h : PoolInv b) (only : PageId → Bool) (p : PageId) :
    PoolInv (flushEntry only b p) := by
  rw [BufferPoolManager.flushEntry]
  split
  · exact h
  · rename_i f hp
    split
    · exact h.setData (h.table hp).2 { b.pages f with isDirty := false } rfl rfl _
    · exact h

/-- What the steps of the pool need to keep their hold on pinned pages: a frame from the free list
does not carry the id of a page that is in the pool, a new page number is not in use, and bytes
are written to pinned frames only. -/
def Sound (b : BufferPoolManager n) : PoolCall n → Prop
  | .fetch p => b.pageTable p = none → TakesUnused b
  | .new fd => TakesUnused b ∧ b.pageTable ⟨fd, b.fd2pageno fd⟩ = none
  | .write f _ => 0 < (b.pages f).pinCount
  | _ => True

theorem PoolInv.fetchPage (h : PoolInv b) (hunused : b.pageTable p = none → TakesUnused b) :
    PoolInv (b.fetchPage p).2 := by
  rcases fetchPage_spec h hunused with ⟨f, hp, hrun⟩ | ⟨-, -, hrun⟩ | ⟨hp, f, b', ht, -,
    ⟨-, hrun⟩ | ⟨data, -, hrun⟩⟩ <;> rw [hrun]
  · exact h.pin (h.table hp).2 rfl
  · exact h
  · exact ht.inv h hp
  · exact (ht.inv h hp).pin ht.notFree (by rw [ht.page])

theorem PoolInv.newPage (h : PoolInv b) (hunused : TakesUnused b) {fd : Nat}
    (hp : b.pageTable ⟨fd, b.fd2pageno fd⟩ = none) :
    PoolInv (b.newPage fd).2 := by
  rcases newPage_spec h hunused fd with ⟨-, hrun⟩ | ⟨f, b', ht, -, hrun⟩ <;> rw [hrun]
  · exact h
  · exact (ht.inv h hp).pin ht.notFree (by rw [ht.page])

theorem PoolInv.unpinPage (h : PoolInv b) (isDirty : Bool) : PoolInv (b.unpinPage p isDirty).2 := by
  rw [BufferPoolManager.unpinPage]
  split
  · exact h
  · rename_i f hp
    split
    · exact h
    · rename_i hpin
      have hnot : f ∉ b.lruList := fun hc => hpin (h.lru hc)
      refine h.setFrame (h.table hp).2 (by rfl) ?_ ?_ ?_ b.disk
      · split
        · rw [LRUReplacer.unpin, if_neg hnot]
          exact List.nodup_cons.2 ⟨hnot, h.lruNodup⟩
        · exact h.lruNodup
      · intro hf
        split at hf
        · simp only
          omega
        · exact absurd hf hnot
      · intro g hgf hg
        split at hg
        · rw [LRUReplacer.unpin, if_neg hnot] at hg
          exact (List.mem_cons.1 hg).resolve_left hgf
        · exact hg

theorem PoolInv.deleteAllPages (h : PoolInv b) (fd : Nat) (order : List PageId) :
    PoolInv (deleteAllPages fd b order).2 := by
  induction order generalizing b with
  | nil => exact h
  | cons p order iht =>
      rw [BufferPoolManager.deleteAllPages]
      split
      · split
        · exact iht h
        · rename_i f hp
          split
          · exact h
          · rename_i hpin
            exact iht (h.freeFrame hp (not_not.1 hpin))
      · exact iht h

theorem PoolInv.exec (h : PoolInv b) {c : PoolCall n} (hc : Sound b c) : PoolInv (c.exec b) := by
  cases c with
  | fetch p => exact h.fetchPage hc
  | new fd => exact h.newPage hc.1 hc.2
  | unpin p isDirty => exact h.unpinPage isDirty
  | flush p =>
      rw [PoolCall.exec, flushPage]
      split
      · exact h
      · rename_i f hp
        exact h.setData (h.table hp).2 { b.pages f with isDirty := false } rfl rfl _
  | flushAll only order =>
      rw [PoolCall.exec, flushAllPages]
      induction order generalizing b with
      | nil => exact h
      | cons p order iht => exact iht (h.flushEntry only p) trivial
  | delete p =>
      rw [PoolCall.exec, deletePage]
      split
      · exact h
      · rename_i f hp
        split
        · exact h
        · rename_i hpin
          exact h.freeFrame hp (not_not.1 hpin)
  | deleteAll fd order => exact h.deleteAllPages fd order
  | write f data => exact h.setData (h.pinned hc) { b.pages f with data := data } rfl rfl b.disk

end Rmdb.BufferPoolManager

import Rmdb.Storage.PinnedPages

namespace Rmdb

open BufferPoolManager

variable {n : Nat}

/-- The pool beside the flat page store that it stands for: the pages that exist with their current
bytes, and which of them have bytes that no unpin has marked dirty and no flush has written. -/
structure Observed (n : Nat) where
  pool : BufferPoolManager n
  cur : PageId → Option PageData
  unsaved : PageId → Bool

section Pinned

variable {b b' : BufferPoolManager n} {c : PoolCall n} {f g : Fin n} {p q : PageId}

structure Steady (b b' : BufferPoolManager n) (p : PageId) (f : Fin n) : Prop where
  table : b'.pageTable p = some f
  data : (b'.pages f).data = (b.pages f).data
  pins : (b.pages f).pinCount ≤ (b'.pages f).pinCount

theorem Steady.refl (hp : b.pageTable p = some f) : Steady b b p f := ⟨hp, rfl, le_rfl⟩

theorem Steady.setFrame (hp : b.pageTable p = some f) {page : Page} {lruList : List (Fin n)} {disk : Disk}
    (hdata : g = f → page.data = (b.pages f).data ∧ (b.pages f).pinCount ≤ page.pinCount) :
    Steady b { b with pages := Function.update b.pages g page, lruList := lruList, disk := disk } p f := by
  by_cases hgf : g = f
  · subst hgf
    obtain ⟨hdata, hpins⟩ := hdata rfl
    exact ⟨hp, by simp only [Function.update_self]; exact hdata,
      by simp only [Function.update_self]; exact hpins⟩
  · have hfg : f ≠ g := fun hc => hgf hc.symm
    exact ⟨hp, by simp only [Function.update_of_ne hfg], by simp only [Function.update_of_ne hfg, le_refl]⟩

theorem Steady.trans {b'' : BufferPoolManager n} (h : Steady b b' p f) (h' : Steady b' b'' p f) :
    Steady b b'' p f :=
  ⟨h'.table, h'.data.trans h.data, h.pins.trans h'.pins⟩

theorem Steady.taken (h : Taken b g q b') (hp : b.pageTable p = some f)
    (hf : 0 < (b.pages f).pinCount) (hpq : p ≠ q) :
    g ≠ f ∧ Steady b b' p f := by
  have hgf : g ≠ f := by
    rintro rfl
    rw [h.idle] at hf
    cases hf
  have hfg : f ≠ g := fun hc => hgf hc.symm
  refine ⟨hgf, ?_, by rw [h.pages, Function.update_of_ne hfg], by rw [h.pages, Function.update_of_ne hfg]⟩
  rw [h.table, if_neg hpq, hp, if_neg]
  exact fun hc => hfg (Option.some.inj hc)

theorem Steady.freeFrame (hp : b.pageTable p = some f) (hf : 0 < (b.pages f).pinCount)
    (hq : b.pageTable q = some g) (hg : (b.pages g).pinCount = 0) : Steady b (b.freeFrame q g) p f := by
  have hfg : f ≠ g := by
    rintro rfl
    omega
  have hpq : p ≠ q := by
    rintro rfl
    exact hfg (Option.some.inj (hp.symm.trans hq))
  simp only [BufferPoolManager.freeFrame]
  exact ⟨by simp only [Function.update_of_ne hpq]; exact hp, by simp only [Function.update_of_ne hfg],
    by simp only [Function.update_of_ne hfg, le_refl]⟩

theorem exec_pinned (hI : PoolInv b) (hc : Sound b c) (hp : b.pageTable p = some f)
    (hf : 0 < (b.pages f).pinCount) :
    (c.exec b).pageTable p = some f ∧
    ((∀ isDirty, c ≠ .unpin p isDirty) → ¬ Rewrites b p c → Steady b (c.exec b) p f) := by
  cases c with
  | fetch q =>
      rw [PoolCall.exec]
      have hS : Steady b (b.fetchPage q).2 p f := by
        rcases fetchPage_spec hI hc with ⟨g, hq, hrun⟩ | ⟨-, -, hrun⟩ | ⟨hq, g, b', ht, -, hrun⟩
        · rw [hrun]
          refine Steady.setFrame hp ?_
          rintro rfl
          exact ⟨rfl, Nat.le_succ _⟩
        · rw [hrun]
          exact .refl hp
        · have hpq : p ≠ q := by
            rintro rfl
            rw [hp] at hq
            cases hq
          obtain ⟨hgf, hS⟩ := Steady.taken ht hp hf hpq
          rcases hrun with ⟨-, hrun⟩ | ⟨data, -, hrun⟩ <;> rw [hrun]
          · exact hS
          · exact hS.trans (Steady.setFrame hS.table fun hc => absurd hc hgf)
      exact ⟨hS.table, fun _ _ => hS⟩
  | new fd =>
      rw [PoolCall.exec]
      have hS : Steady b (b.newPage fd).2 p f := by
        rcases newPage_spec hI hc.1 fd with ⟨-, hrun⟩ | ⟨g, b', ht, -, hrun⟩
        · rw [hrun]
          exact .refl hp
        · have hpq : p ≠ ⟨fd, b.fd2pageno fd⟩ := by
            rintro rfl
            rw [hc.2] at hp
            cases hp
          obtain ⟨hgf, hS⟩ := Steady.taken ht hp hf hpq
          rw [hrun]
          exact hS.trans (Steady.setFrame hS.table fun hc => absurd hc hgf)
      exact ⟨hS.table, fun _ _ => hS⟩
  | unpin q isDirty =>
      rw [PoolCall.exec, unpinPage]
      cases hq : b.pageTable q with
      | none => exact ⟨hp, fun _ _ => .refl hp⟩
      | some g =>
          simp only
          split
          · exact ⟨hp, fun _ _ => .refl hp⟩
          · refine ⟨hp, fun hne _ => Steady.setFrame hp ?_⟩
            rintro rfl
            cases hI.inj hp hq
            exact absurd rfl (hne isDirty)
  | flush q =>
      rw [PoolCall.exec, flushPage]
      cases hq : b.pageTable q with
      | none => exact ⟨hp, fun _ _ => .refl hp⟩
      | some g =>
          refine ⟨hp, fun _ _ => Steady.setFrame hp ?_⟩
          rintro rfl
          exact ⟨rfl, le_rfl⟩
  | flushAll only order =>
      rw [PoolCall.exec]
      have hS : Steady b (b.flushAllPages only order) p f := by
        clear hc
        rw [flushAllPages]
        induction order generalizing b with
        | nil => exact .refl hp
        | cons q order iht =>
            have hS : Steady b (flushEntry only b q) p f := by
              rw [flushEntry]
              split
              · exact .refl hp
              · split
                · refine Steady.setFrame hp ?_
                  rintro rfl
                  exact ⟨rfl, le_rfl⟩
                · exact .refl hp
            exact hS.trans (iht (hI.flushEntry only q) hS.table (lt_of_lt_of_le hf hS.pins))
      exact ⟨hS.table, fun _ _ => hS⟩
  | delete q =>
      rw [PoolCall.exec, deletePage]
      cases hq : b.pageTable q with
      | none => exact ⟨hp, fun _ _ => .refl hp⟩
      | some g =>
          simp only
          split
          · exact ⟨hp, fun _ _ => .refl hp⟩
          · rename_i hpin
            have hS := Steady.freeFrame hp hf hq (not_not.1 hpin)
            exact ⟨hS.table, fun _ _ => hS⟩
  | deleteAll fd order =>
      rw [PoolCall.exec]
      have hS : Steady b (deleteAllPages fd b order).2 p f := by
        clear hc
        induction order generalizing b with
        | nil => exact .refl hp
        | cons q order iht =>
            rw [deleteAllPages]
            split
            · cases hq : b.pageTable q with
              | none => exact iht hI hp hf
              | some g =>
                  simp only
                  split
                  · exact .refl hp
                  · rename_i hpin
                    have hS := Steady.freeFrame hp hf hq (not_not.1 hpin)
                    exact hS.trans (iht (hI.freeFrame hq (not_not.1 hpin)) hS.table
                      (lt_of_lt_of_le hf hS.pins))
            · exact iht hI hp hf
      exact ⟨hS.table, fun _ _ => hS⟩
  | write g data =>
      refine ⟨hp, fun _ hnot => Steady.setFrame hp ?_⟩
      rintro rfl
      exact absurd (hI.table hp).1 hnot

end Pinned

namespace Observed

def start (n : Nat) (disk : Disk) (fd2pageno : Nat → Nat) : Observed n :=
  ⟨.init n disk fd2pageno, disk, fun _ => false⟩

def exec (o : Observed n) (c : PoolCall n) : Observed n :=
  match c with
  | .new fd =>
      match (o.pool.newPage fd).1 with
      | some (_, p) => ⟨c.exec o.pool, Function.update o.cur p (some .zero), Function.update o.unsaved p true⟩
      | none => o
  | .unpin p true => ⟨c.exec o.pool, o.cur, Function.update o.unsaved p false⟩
  | .flush p => ⟨c.exec o.pool, o.cur, Function.update o.unsaved p false⟩
  | .write f data =>
      match (o.pool.pages f).id with
      | some p => ⟨c.exec o.pool, Function.update o.cur p (some data), Function.update o.unsaved p true⟩
      | none => o
  | _ => { o with pool := c.exec o.pool }

def step (o : Observed n) (c : PoolCall n) : Option (Observed n) := some (o.exec c)

/-- The rules for the clients: only existing pages are fetched, bytes are written to pinned pages,
and the last pin of a page with unsaved bytes is given up dirty. The walk through the page table
meets each of its entries once. -/
def Obeys (o : Observed n) : PoolCall n → Prop
  | .fetch p => o.cur p ≠ none
  | .new _ => True
  | .unpin p isDirty =>
      isDirty = false → o.unsaved p = true → ∀ f ∈ o.pool.pageTable p, (o.pool.pages f).pinCount ≠ 1
  | .flush _ => True
  | .flushAll _ order => order.Nodup ∧ ∀ p, p ∈ order ↔ o.pool.pageTable p ≠ none
  | .delete _ => False
  | .deleteAll _ _ => False
  | .write f _ => 0 < (o.pool.pages f).pinCount

/-- The pool stands for the page store. -/
structure Coherent (o : Observed n) : Prop where
  inv : PoolInv o.pool
  idle : ∀ {f}, (o.pool.pages f).pinCount = 0 → f ∈ o.pool.freeList ∨ f ∈ o.pool.lruList
  unused : ∀ {f}, f ∈ o.pool.freeList → (o.pool.pages f).id = none
  saved : ∀ {p d}, o.unsaved p = false → o.cur p = some d → Secured o.pool p d
  unsaved : ∀ {p}, o.unsaved p = true →
    ∃ f, o.pool.pageTable p = some f ∧ 0 < (o.pool.pages f).pinCount ∧ o.cur p = some (o.pool.pages f).data
  exist : ∀ {p}, o.pool.pageTable p ≠ none → o.cur p ≠ none
  alloc : ∀ {p}, o.cur p ≠ none → p.pageNo < o.pool.fd2pageno p.fd

variable {o : Observed n} {b b' : BufferPoolManager n} {c : PoolCall n} {f : Fin n}
  {p q : PageId} {d : PageData}

theorem start_coherent {disk : Disk} {fd2pageno : Nat → Nat}
    (h : ∀ p, disk p ≠ none → p.pageNo < fd2pageno p.fd) :
    Coherent (start n disk fd2pageno) where
  inv := init_inv n disk fd2pageno
  idle _ := .inl (List.mem_finRange _)
  unused _ := rfl
  saved _ hd := hd
  unsaved := nofun
  exist hp := absurd rfl hp
  alloc hp := h _ hp

theorem Coherent.takesUnused (h : Coherent o) : TakesUnused o.pool := by
  intro f hf q hid
  rw [h.unused (List.mem_of_mem_head? hf)] at hid
  cases hid

theorem Coherent.fresh (h : Coherent o) (fd : Nat) :
    o.cur ⟨fd, o.pool.fd2pageno fd⟩ = none ∧ o.pool.pageTable ⟨fd, o.pool.fd2pageno fd⟩ = none := by
  have hcur : o.cur ⟨fd, o.pool.fd2pageno fd⟩ = none := by
    by_contra hc
    exact Nat.lt_irrefl _ (h.alloc hc)
  refine ⟨hcur, ?_⟩
  by_contra hc
  exact h.exist hc hcur

theorem Coherent.sound (h : Coherent o) (hc : Obeys o c) : Sound o.pool c := by
  cases c with
  | fetch p => exact fun _ => h.takesUnused
  | new fd => exact ⟨h.takesUnused, (h.fresh fd).2⟩
  | write f data => exact hc
  | unpin | flush | flushAll | delete | deleteAll => exact trivial

section Frames

structure SameFrames (b b' : BufferPoolManager n) : Prop where
  table : b'.pageTable = b.pageTable
  free : b'.freeList = b.freeList
  lru : b'.lruList = b.lruList
  alloc : b'.fd2pageno = b.fd2pageno
  frame : ∀ g, (b'.pages g).id = (b.pages g).id ∧ (b'.pages g).pinCount = (b.pages g).pinCount

theorem SameFrames.refl (b : BufferPoolManager n) : SameFrames b b :=
  ⟨rfl, rfl, rfl, rfl, fun _ => ⟨rfl, rfl⟩⟩

theorem SameFrames.setData {page : Page} {disk : Disk} (hid : page.id = (b.pages f).id)
    (hpin : page.pinCount = (b.pages f).pinCount) :
    SameFrames b { b with disk := disk, pages := Function.update b.pages f page } := by
  refine ⟨rfl, rfl, rfl, rfl, fun g => ?_⟩
  by_cases hgf : g = f
  · subst hgf
    simp only [Function.update_self]
    exact ⟨hid, hpin⟩
  · simp only [Function.update_of_ne hgf, and_self]

theorem SameFrames.trans {b'' : BufferPoolManager n} (h : SameFrames b b') (h' : SameFrames b' b'') :
    SameFrames b b'' :=
  ⟨h'.table.trans h.table, h'.free.trans h.free, h'.lru.trans h.lru, h'.alloc.trans h.alloc, fun g =>
    ⟨(h'.frame g).1.trans (h.frame g).1, (h'.frame g).2.trans (h.frame g).2⟩⟩

theorem sameFrames_flush : SameFrames b (b.flushPage p).2 := by
  rw [flushPage]
  split
  · exact .refl b
  · exact .setData rfl rfl

theorem sameFrames_flushAll (only : PageId → Bool) (order : List PageId) :
    SameFrames b (b.flushAllPages only order) := by
  rw [flushAllPages]
  induction order generalizing b with
  | nil => exact .refl b
  | cons q order iht =>
      have hS : SameFrames b (flushEntry only b q) := by
        rw [flushEntry]
        split
        · exact .refl b
        · split
          · exact .setData rfl rfl
          · exact .refl b
      exact hS.trans iht

theorem Coherent.taken (h : Coherent o) {b' : BufferPoolManager n} (ht : Taken o.pool f p b')
    (data : PageData) :
    (∀ {g}, (Function.update b'.pages f ⟨some p, data, false, 1⟩ g).pinCount = 0 →
      g ∈ b'.freeList ∨ g ∈ LRUReplacer.pin b'.lruList f) ∧
    (∀ {g}, g ∈ b'.freeList → (Function.update b'.pages f ⟨some p, data, false, 1⟩ g).id = none) ∧
    (∀ {q}, b'.pageTable q ≠ none → q = p ∨ o.pool.pageTable q ≠ none) := by
  refine ⟨?_, ?_, ?_⟩
  · intro g hg
    by_cases hgf : g = f
    · subst hgf
      rw [Function.update_self] at hg
      cases hg
    · rw [Function.update_of_ne hgf, ht.pages, Function.update_of_ne hgf] at hg
      rcases h.idle hg with hfree | hlru
      · exact .inl ((ht.free g).2 ⟨hfree, hgf⟩)
      · exact .inr ((List.mem_erase_of_ne hgf).2 ((ht.lru g hgf).2 hlru))
  · intro g hg
    obtain ⟨hfree, hgf⟩ := (ht.free g).1 hg
    rw [Function.update_of_ne hgf, ht.pages, Function.update_of_ne hgf]
    exact h.unused hfree
  · intro q hq
    rw [ht.table] at hq
    split at hq
    · exact .inl ‹_›
    · split at hq
      · exact absurd rfl hq
      · exact .inr hq

end Frames

section Step

theorem Coherent.same (h : Coherent o) (hc : Sound o.pool c) (hS : SameFrames o.pool (c.exec o.pool))
    {cur : PageId → Option PageData} {unsaved : PageId → Bool}
    (hcur : ∀ p, cur p ≠ none ↔ o.cur p ≠ none)
    (hsaved : ∀ {p d}, unsaved p = false → cur p = some d → Secured (c.exec o.pool) p d)
    (hunsaved : ∀ {p}, unsaved p = true → ∃ f, (c.exec o.pool).pageTable p = some f ∧
      0 < ((c.exec o.pool).pages f).pinCount ∧ cur p = some ((c.exec o.pool).pages f).data) :
    Coherent ⟨c.exec o.pool, cur, unsaved⟩ where
  inv := h.inv.exec hc
  idle := by
    intro g hg
    rw [(hS.frame g).2] at hg
    simp only [hS.free, hS.lru]
    exact h.idle hg
  unused := by
    intro g hg
    rw [hS.free] at hg
    rw [(hS.frame g).1]
    exact h.unused hg
  saved := hsaved
  unsaved := hunsaved
  exist := by
    intro p hp
    rw [hS.table] at hp
    exact (hcur p).2 (h.exist hp)
  alloc := by
    intro p hp
    simp only [hS.alloc]
    exact h.alloc ((hcur p).1 hp)

theorem Coherent.steady (h : Coherent o) (hc : Sound o.pool c) (hp : o.unsaved p = true)
    (hne : ∀ isDirty, c ≠ .unpin p isDirty) (hnot : ¬ Rewrites o.pool p c) :
    ∃ f, (c.exec o.pool).pageTable p = some f ∧
      0 < ((c.exec o.pool).pages f).pinCount ∧ o.cur p = some ((c.exec o.pool).pages f).data := by
  obtain ⟨f, htab, hpin, hcur⟩ := h.unsaved hp
  have hS := (exec_pinned h.inv hc htab hpin).2 hne hnot
  exact ⟨f, hS.table, lt_of_lt_of_le hpin hS.pins, by rw [hcur, hS.data]⟩

theorem Coherent.fetch (h : Coherent o) (hc : Obeys o (.fetch p)) :
    Coherent { o with pool := PoolCall.exec o.pool (.fetch p) } := by
  have hs := h.sound hc
  have hsaved : ∀ {q d}, o.unsaved q = false → o.cur q = some d →
      Secured (PoolCall.exec o.pool (.fetch p)) q d :=
    fun hq hd => (h.saved hq hd).exec h.inv hs id
  have hunsaved := fun {q} (hq : o.unsaved q = true) => h.steady hs hq nofun id
  have hinv := h.inv.exec hs
  simp only [PoolCall.exec] at hsaved hunsaved hinv ⊢
  rcases fetchPage_spec h.inv hs with ⟨f, htab, hrun⟩ | ⟨-, -, hrun⟩ | ⟨htab, f, b', ht, hfd,
    ⟨hnone, -⟩ | ⟨data, hdata, hrun⟩⟩
  · rw [hrun] at hsaved hunsaved hinv ⊢
    refine ⟨hinv, ?_, ?_, hsaved, hunsaved, h.exist, h.alloc⟩
    · intro g hg
      by_cases hgf : g = f
      · subst hgf
        simp only [Function.update_self] at hg
        cases hg
      · simp only [Function.update_of_ne hgf] at hg
        exact (h.idle hg).imp_right fun hlru => (List.mem_erase_of_ne hgf).2 hlru
    · intro g hg
      have hgf : g ≠ f := by
        rintro rfl
        exact (h.inv.table htab).2 hg
      simp only [Function.update_of_ne hgf]
      exact h.unused hg
  · rw [hrun]
    exact h
  · -- an existing page that is not in the pool is on the disk
    obtain ⟨d, hd⟩ := Option.ne_none_iff_exists'.1 hc
    have hunp : o.unsaved p = false := by
      by_contra hu
      obtain ⟨g, hg, -⟩ := h.unsaved (Bool.not_eq_false _ ▸ hu)
      rw [htab] at hg
      cases hg
    have hsec := h.saved hunp hd
    have hdisk : b'.disk p = some d := by
      rw [ht.disk]
      exact hsec.writeBack h.inv (hsec.onDisk htab)
    rw [hdisk] at hnone
    cases hnone
  · rw [hrun] at hsaved hunsaved hinv ⊢
    obtain ⟨hidle, hunused, htable⟩ := h.taken ht data
    refine ⟨hinv, hidle, hunused, hsaved, hunsaved, ?_, ?_⟩
    · intro q hq
      rcases htable hq with rfl | hq
      · exact hc
      · exact h.exist hq
    · intro q hq
      simp only [hfd]
      exact h.alloc hq

theorem Coherent.new (h : Coherent o) (fd : Nat) : Coherent (o.exec (.new fd)) := by
  have hs : Sound o.pool (.new fd) := h.sound trivial
  rcases newPage_spec h.inv hs.1 fd with ⟨-, hrun⟩ | ⟨f, b', ht, hfd, hrun⟩
  · rw [Observed.exec, hrun]
    exact h
  · obtain ⟨hidle, hunused, htable⟩ := h.taken ht .zero
    have hp : b'.pageTable ⟨fd, o.pool.fd2pageno fd⟩ = some f := by rw [ht.table, if_pos rfl]
    have hsaved := fun {q : PageId} {d : PageData} (hq : q ≠ ⟨fd, o.pool.fd2pageno fd⟩)
      (hu : o.unsaved q = false) (hd : o.cur q = some d) =>
      (h.saved hu hd).exec h.inv hs hq
    have hunsaved := fun {q : PageId} (hne : q ≠ ⟨fd, o.pool.fd2pageno fd⟩) (hq : o.unsaved q = true) =>
      h.steady hs hq nofun hne
    have hinv := h.inv.exec hs
    have hex : PoolCall.exec o.pool (.new fd) = { b' with
        lruList := LRUReplacer.pin b'.lruList f
        pages := Function.update b'.pages f ⟨some ⟨fd, o.pool.fd2pageno fd⟩, .zero, false, 1⟩ } := by
      rw [PoolCall.exec, hrun]
    rw [hex] at hsaved hunsaved hinv
    have hobs : o.exec (.new fd) = ⟨{ b' with
        lruList := LRUReplacer.pin b'.lruList f
        pages := Function.update b'.pages f ⟨some ⟨fd, o.pool.fd2pageno fd⟩, .zero, false, 1⟩ },
        Function.update o.cur ⟨fd, o.pool.fd2pageno fd⟩ (some .zero),
        Function.update o.unsaved ⟨fd, o.pool.fd2pageno fd⟩ true⟩ := by
      rw [Observed.exec, hex, hrun]
    rw [hobs]
    refine ⟨hinv, hidle, hunused, ?_, ?_, ?_, ?_⟩
    · intro q d hu hd
      by_cases hq : q = ⟨fd, o.pool.fd2pageno fd⟩
      · subst hq
        simp only [Function.update_self] at hu
        cases hu
      · simp only [Function.update_of_ne hq] at hu hd
        exact hsaved hq hu hd
    · intro q hu
      by_cases hq : q = ⟨fd, o.pool.fd2pageno fd⟩
      · subst hq
        refine ⟨f, hp, ?_, ?_⟩ <;> simp only [Function.update_self]
        exact Nat.one_pos
      · simp only [Function.update_of_ne hq] at hu ⊢
        exact hunsaved hq hu
    · intro q hq
      by_cases hqp : q = ⟨fd, o.pool.fd2pageno fd⟩
      · subst hqp
        simp
      · simp only [Function.update_of_ne hqp]
        exact h.exist ((htable hq).resolve_left hqp)
    · intro q hq
      simp only [hfd]
      by_cases hqp : q = ⟨fd, o.pool.fd2pageno fd⟩
      · subst hqp
        simp
      · simp only [Function.update_of_ne hqp] at hq
        have hlt := h.alloc hq
        by_cases hqfd : q.fd = fd
        · rw [hqfd] at hlt ⊢
          rw [Function.update_self]
          omega
        · rw [Function.update_of_ne hqfd]
          exact hlt

theorem Coherent.unpin (h : Coherent o) (isDirty : Bool) (hc : Obeys o (.unpin p isDirty)) :
    Coherent (o.exec (.unpin p isDirty)) := by
  have hs : Sound o.pool (.unpin p isDirty) := trivial
  have hkeep : ∀ {q d}, Secured o.pool q d →
    Secured (o.pool.unpinPage p isDirty).2 q d := fun hq => hq.exec h.inv hs id
  have hother := fun {q : PageId} (hqp : q ≠ p) (hq : o.unsaved q = true) =>
    h.steady hs hq (fun x hx => hqp (PoolCall.unpin.inj hx).1.symm) id
  have hframes : (∀ {g}, ((o.pool.unpinPage p isDirty).2.pages g).pinCount = 0 →
        g ∈ (o.pool.unpinPage p isDirty).2.freeList ∨ g ∈ (o.pool.unpinPage p isDirty).2.lruList) ∧
      (∀ {g}, g ∈ (o.pool.unpinPage p isDirty).2.freeList →
        ((o.pool.unpinPage p isDirty).2.pages g).id = none) ∧
      (o.pool.unpinPage p isDirty).2.pageTable = o.pool.pageTable ∧
      (o.pool.unpinPage p isDirty).2.fd2pageno = o.pool.fd2pageno := by
    rw [unpinPage]
    split
    · exact ⟨h.idle, h.unused, rfl, rfl⟩
    · rename_i f htab
      split
      · exact ⟨h.idle, h.unused, rfl, rfl⟩
      · rename_i hpin
        have hnot : f ∉ o.pool.lruList := fun hl => hpin (h.inv.lru hl)
        refine ⟨?_, ?_, rfl, rfl⟩
        · intro g hg
          simp only [LRUReplacer.unpin, if_neg hnot]
          by_cases hgf : g = f
          · subst hgf
            simp only [Function.update_self] at hg
            have hone : (o.pool.pages g).pinCount = 1 := by omega
            rw [if_pos hone]
            exact .inr List.mem_cons_self
          · simp only [Function.update_of_ne hgf] at hg
            refine (h.idle hg).imp_right fun hl => ?_
            split
            · exact List.mem_cons_of_mem _ hl
            · exact hl
        · intro g hg
          have hgf : g ≠ f := by
            rintro rfl
            exact (h.inv.table htab).2 hg
          simp only [Function.update_of_ne hgf]
          exact h.unused hg
  obtain ⟨hidle, hunused, htable, hfd⟩ := hframes
  have hexist : ∀ {q}, (o.pool.unpinPage p isDirty).2.pageTable q ≠ none → o.cur q ≠ none := by
    intro q hq
    rw [htable] at hq
    exact h.exist hq
  have halloc : ∀ {q}, o.cur q ≠ none → q.pageNo < (o.pool.unpinPage p isDirty).2.fd2pageno q.fd := by
    intro q hq
    rw [hfd]
    exact h.alloc hq
  cases isDirty with
  | true =>
      refine ⟨h.inv.exec hs, hidle, hunused, ?_, ?_, hexist, halloc⟩
      · intro q d hu hd
        by_cases hqp : q = p
        · subst hqp
          cases hun : o.unsaved q with
          | false => exact hkeep (h.saved hun hd)
          | true =>
              obtain ⟨f, htab, hpin, hcur⟩ := h.unsaved hun
              have hdata : d = (o.pool.pages f).data := Option.some.inj (hd.symm.trans hcur)
              rw [hdata]
              exact secured_unpin h.inv hpin ⟨(h.inv.table htab).1, (h.inv.table htab).2⟩
        · simp only [Observed.exec, Function.update_of_ne hqp] at hu
          exact hkeep (h.saved hu hd)
      · intro q hu
        by_cases hqp : q = p
        · subst hqp
          simp only [Observed.exec, Function.update_self] at hu
          cases hu
        · simp only [Observed.exec, Function.update_of_ne hqp] at hu
          exact hother hqp hu
  | false =>
      refine ⟨h.inv.exec hs, hidle, hunused, fun hu hd => hkeep (h.saved hu hd), ?_, hexist, halloc⟩
      intro q hu
      by_cases hqp : q = p
      · -- another pin is left
        subst hqp
        obtain ⟨f, htab, hpin, hcur⟩ := h.unsaved hu
        have hne := hc rfl hu f htab
        refine ⟨f, (congrFun htable q).trans htab, ?_⟩
        simp only [Observed.exec, PoolCall.exec, unpinPage, htab,
          if_neg (show ¬ (o.pool.pages f).pinCount = 0 by omega),
          Function.update_self]
        exact ⟨by omega, hcur⟩
      · exact hother hqp hu

theorem Coherent.flush (h : Coherent o) (p : PageId) : Coherent (o.exec (.flush p)) := by
  have hs : Sound o.pool (.flush p) := trivial
  refine h.same hs sameFrames_flush (fun _ => Iff.rfl) ?_ ?_
  · intro q d hu hd
    by_cases hqp : q = p
    · subst hqp
      cases hun : o.unsaved q with
      | false => exact (h.saved hun hd).exec h.inv hs id
      | true =>
          obtain ⟨f, htab, -, hcur⟩ := h.unsaved hun
          have hdata : d = (o.pool.pages f).data := Option.some.inj (hd.symm.trans hcur)
          simp only [Secured, PoolCall.exec, flushPage, htab, Function.update_self, hdata]
          exact ⟨trivial, .inr writePage_self⟩
    · simp only [Function.update_of_ne hqp] at hu
      exact (h.saved hu hd).exec h.inv hs id
  · intro q hu
    by_cases hqp : q = p
    · subst hqp
      simp only [Function.update_self] at hu
      cases hu
    · simp only [Function.update_of_ne hqp] at hu
      exact h.steady hs hu (by simp) id

theorem Coherent.write (h : Coherent o) (data : PageData) (hf : 0 < (o.pool.pages f).pinCount) :
    Coherent (o.exec (.write f data)) := by
  have hs : Sound o.pool (.write f data) := hf
  obtain ⟨p, hid, hp⟩ := h.inv.held (h.inv.pinned hf)
  have hobs : o.exec (.write f data) = ⟨PoolCall.exec o.pool (.write f data),
    Function.update o.cur p (some data),
      Function.update o.unsaved p true⟩ := by rw [Observed.exec, hid]
  have hnot : ∀ {q}, q ≠ p → ¬ Rewrites o.pool q (.write f data) :=
    fun hqp hc => hqp (Option.some.inj (hc.symm.trans hid))
  rw [hobs]
  refine h.same hs (.setData rfl rfl) ?_ ?_ ?_
  · intro q
    by_cases hqp : q = p
    · subst hqp
      simp [h.exist (p := q) (by rw [hp]; simp)]
    · rw [Function.update_of_ne hqp]
  · intro q d hu hd
    by_cases hqp : q = p
    · subst hqp
      rw [Function.update_self] at hu
      cases hu
    · rw [Function.update_of_ne hqp] at hu hd
      exact (h.saved hu hd).exec h.inv hs (hnot hqp)
  · intro q hu
    by_cases hqp : q = p
    · subst hqp
      refine ⟨f, hp, ?_⟩
      simp only [PoolCall.exec, BufferPoolManager.write, setPage, Function.update_self]
      exact ⟨hf, trivial⟩
    · rw [Function.update_of_ne hqp] at hu ⊢
      exact h.steady hs hu (by simp) (hnot hqp)

theorem Coherent.exec (h : Coherent o) (hc : Obeys o c) : Coherent (o.exec c) := by
  cases c with
  | fetch p => exact h.fetch hc
  | new fd => exact h.new fd
  | unpin p isDirty => exact h.unpin isDirty hc
  | flush p => exact h.flush p
  | flushAll only order =>
      have hs : Sound o.pool (.flushAll only order) := trivial
      exact h.same hs (sameFrames_flushAll only order) (fun _ => Iff.rfl)
        (fun hu hd => (h.saved hu hd).exec h.inv hs id)
        (fun hu => h.steady hs hu nofun id)
  | delete p => exact absurd hc id
  | deleteAll fd order => exact absurd hc id
  | write f data => exact h.write data hc

end Step

section Refines

theorem findVictimPage_none (h : b.findVictimPage = none) : b.freeList = [] ∧ b.lruList = [] := by
  rw [findVictimPage] at h
  split at h
  · cases h
  · rename_i hfree
    refine ⟨hfree, ?_⟩
    rw [Option.map_eq_none_iff, LRUReplacer.victim, Option.map_eq_none_iff] at h
    exact List.getLast?_eq_none_iff.1 h

/-- A page that is on the disk stays there. -/
theorem flushAllPages_keeps {only : PageId → Bool} (order : List PageId) (hI : PoolInv b) (hS : Secured b p d)
    (hd : b.disk p = some d) : (b.flushAllPages only order).disk p = some d := by
  rw [flushAllPages]
  induction order generalizing b with
  | nil => exact hd
  | cons q order iht =>
      refine iht (hI.flushEntry only q) (hS.flushEntry hI only q) ?_
      rw [flushEntry]
      split
      · exact hd
      · split
        · exact hS.writeBack hI hd
        · exact hd

theorem flushAllPages_disk {only : PageId → Bool} (order : List PageId) (hI : PoolInv b) (hS : Secured b p d)
    (honly : only p = true) (hin : b.pageTable p ≠ none → p ∈ order) :
    (b.flushAllPages only order).disk p = some d := by
  induction order generalizing b with
  | nil => exact hS.onDisk (by by_contra hc; cases hin hc)
  | cons q order iht =>
      have hrest : b.flushAllPages only (q :: order) = (flushEntry only b q).flushAllPages only order := rfl
      rw [hrest]
      by_cases hpq : p = q
      · subst hpq
        refine flushAllPages_keeps order (hI.flushEntry only p) (hS.flushEntry hI only p) ?_
        rw [flushEntry]
        split
        · rename_i hp
          exact hS.onDisk hp
        · rename_i f hp
          obtain ⟨hdata, hor⟩ := hS.inPool hp
          split
          · rename_i hdirty
            rw [← hdata]
            exact writeBack_dirty (hI.table hp).1 (.inl (Bool.and_eq_true_iff.1 hdirty).2)
          · rename_i hdirty
            refine hor.resolve_left fun hc => hdirty ?_
            rw [honly, hc]
            rfl
      · refine iht (hI.flushEntry only q) (hS.flushEntry hI only q) fun hp => ?_
        have htab : (flushEntry only b q).pageTable = b.pageTable := by
          rw [flushEntry]
          split
          · rfl
          · split <;> rfl
        rw [htab] at hp
        exact (List.mem_cons.1 (hin hp)).resolve_left hpq

/-- `fetch_page` returns the current bytes of the page, or finds every frame pinned. -/
def FetchesCurrent (o : Observed n) : Prop :=
  ∀ p, o.cur p ≠ none →
    (∃ f b', o.pool.fetchPage p = (.page f, b') ∧ (b'.pages f).id = some p ∧
      o.cur p = some (b'.pages f).data) ∨
    (o.pool.fetchPage p = (.nullptr, o.pool) ∧ ∀ f, 0 < (o.pool.pages f).pinCount)

def KeepsFrames (o : Observed n) : Prop :=
  ∀ c, Obeys o c → ∀ f p, 0 < (o.pool.pages f).pinCount → HoldsPage o.pool f p →
    HoldsPage (o.exec c).pool f p ∧ (o.exec c).pool.pageTable p = some f

/-- After a flush the disk has the current bytes of every page, but for the pages whose bytes have
not been marked dirty. -/
def Flushes (o : Observed n) : Prop :=
  ∀ only order, Obeys o (.flushAll only order) → ∀ p, only p = true →
    (o.unsaved p = true → ∃ f, o.pool.pageTable p = some f ∧ (o.pool.pages f).isDirty = true) →
    o.cur p ≠ none → (o.pool.flushAllPages only order).disk p = o.cur p

theorem Coherent.fetchesCurrent (h : Coherent o) : FetchesCurrent o := by
  intro p hp
  obtain ⟨d, hd⟩ := Option.ne_none_iff_exists'.1 hp
  have hfetch := h.fetch hp
  have hs : Sound o.pool (.fetch p) := h.sound hp
  rcases fetchPage_spec h.inv hs with ⟨f, htab, hrun⟩ | ⟨-, hvic, hrun⟩ | ⟨htab, f, b', ht, -, hload⟩
  · refine .inl ⟨f, _, hrun, ?_⟩
    simp only [Function.update_self]
    refine ⟨(h.inv.table htab).1, ?_⟩
    cases hun : o.unsaved p with
    | false => rw [hd, ((h.saved hun hd).inPool htab).1]
    | true =>
        obtain ⟨g, hg, -, hcur⟩ := h.unsaved hun
        cases htab.symm.trans hg
        exact hcur
  · refine .inr ⟨hrun, fun f => ?_⟩
    by_contra hc
    obtain ⟨hfree, hlru⟩ := findVictimPage_none hvic
    rcases h.idle (f := f) (by omega) with hin | hin
    · rw [hfree] at hin
      cases hin
    · rw [hlru] at hin
      cases hin
  · have hunp : o.unsaved p = false := by
      by_contra hu
      obtain ⟨g, hg, -⟩ := h.unsaved (Bool.not_eq_false _ ▸ hu)
      rw [htab] at hg
      cases hg
    have hsec := h.saved hunp hd
    have hdisk : b'.disk p = some d := by
      rw [ht.disk]
      exact hsec.writeBack h.inv (hsec.onDisk htab)
    rcases hload with ⟨hnone, -⟩ | ⟨data, hdata, hrun⟩
    · rw [hdisk] at hnone
      cases hnone
    · refine .inl ⟨f, _, hrun, ?_⟩
      simp only [Function.update_self]
      rw [hdisk] at hdata
      cases hdata
      exact ⟨trivial, hd⟩

theorem Coherent.keepsFrames (h : Coherent o) : KeepsFrames o := by
  intro c hc f p hf hp
  have htab := h.inv.pinned_table hf hp
  have hafter := (exec_pinned h.inv (h.sound hc) htab hf).1
  have hpool : (o.exec c).pool.pageTable p = some f := by
    unfold Observed.exec
    split
    · split
      · exact hafter
      · exact htab
    · exact hafter
    · exact hafter
    · split
      · exact hafter
      · exact htab
    · exact hafter
  exact ⟨(h.exec hc).inv.table hpool, hpool⟩

theorem Coherent.flushes (h : Coherent o) : Flushes o := by
  intro only order hc p honly hdirty hp
  obtain ⟨d, hd⟩ := Option.ne_none_iff_exists'.1 hp
  rw [hd]
  refine flushAllPages_disk order h.inv ?_ honly fun hin => (hc.2 p).2 hin
  cases hun : o.unsaved p with
  | false => exact h.saved hun hd
  | true =>
      obtain ⟨f, htab, -, hcur⟩ := h.unsaved hun
      obtain ⟨g, hg, hbit⟩ := hdirty hun
      cases htab.symm.trans hg
      rw [Secured, htab]
      exact ⟨Option.some.inj (hcur.symm.trans hd), .inl hbit⟩

end Refines

end Observed

end Rmdb

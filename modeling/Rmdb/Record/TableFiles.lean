import Rmdb.Record.PageBytes
import Rmdb.Storage.FlatStore

namespace Rmdb

open BufferPoolManager

variable {n : Nat}

/-- Table files that are opened and closed above one pool. The pages of an open file are those of
`pool.disk` under its descriptor; `files` has the files as they were created or closed last. -/
structure TableFiles (n : Nat) where
  pool : BufferPoolManager n
  fd2path : Nat → Option String
  handles : String → Option (Nat × RmFileHdr)
  files : String → Option StoredFile

inductive FileCall
  | createFile (path : String) (recordSize : Nat)
  | openFile (path : String) (fd : Nat)
  | closeFile (path : String) (order : List PageId)
  | readPage (path : String) (p : Nat)
  | record (path : String) (c : RecordCall)

namespace TableFiles

variable (s : TableFiles n)

def init (n : Nat) : TableFiles n :=
  ⟨.init n (fun _ => none) fun _ => 0, fun _ => none, fun _ => none, fun _ => none⟩

/-- `FileExistsError` and a bad record size leave everything as it is. -/
def createFile (path : String) (recordSize : Nat) : Option (TableFiles n) :=
  match s.files path, RmManager.createFile recordSize with
  | none, .ok file =>
      some { s with files := Function.update s.files path (some ⟨file.fileHdr, fun _ => none⟩) }
  | _, _ => none

/-- The operating system gives a descriptor that is not in use. -/
def openFile (path : String) (fd : Nat) : Option (TableFiles n) :=
  match s.files path, s.handles path, s.fd2path fd with
  | some file, none, none =>
      some { s with
        pool := { s.pool with
          disk := fun q => if q.fd = fd then file.pages q.pageNo else s.pool.disk q
          fd2pageno := Function.update s.pool.fd2pageno fd file.fileHdr.numPages }
        fd2path := Function.update s.fd2path fd (some path)
        handles := Function.update s.handles path (some (fd, file.fileHdr)) }
  | _, _, _ => none

/-- The pages of the file stay in the pool. -/
def closeFile (path : String) (order : List PageId) : Option (TableFiles n) :=
  (s.handles path).map fun h =>
    let pool := s.pool.flushAllPages (fun q => q.fd = h.1) order
    { pool := pool
      fd2path := Function.update s.fd2path h.1 none
      handles := Function.update s.handles path none
      files := Function.update s.files path
        (some ⟨h.2, fun p => if 1 ≤ p ∧ p < h.2.numPages then pool.disk ⟨h.1, p⟩ else none⟩) }

/-- `get_record` and each step of `RmScan` unpin the page that `fetch_page_handle` has found. -/
def readPage (path : String) (p : Nat) : Option (TableFiles n) :=
  (s.handles path).map fun h =>
    match s.pool.fetchPage ⟨h.1, p⟩ with
    | (.page _, pool) => { s with pool := (pool.unpinPage ⟨h.1, p⟩ false).2 }
    | (_, pool) => { s with pool := pool }

/-- The new page stays pinned. -/
def createNewPageHandle (path : String) (fd : Nat) (hdr : RmFileHdr) : Option (Fin n × Nat × TableFiles n) :=
  match s.pool.newPage fd with
  | (none, _) => none
  | (some (f, q), pool) =>
      some (f, q.pageNo, { s with
        pool := ((pool.write f (newPageData hdr)).flushPage q).2
        handles := Function.update s.handles path (some (fd, newPageHdr hdr q.pageNo)) })

/-- The rest of a call that has pinned its page. A call that throws does not unpin it. -/
def editPage (path : String) (fd : Nat) (hdr : RmFileHdr) (p : Nat) (f : Fin n)
    (c : RecordCall) : TableFiles n :=
  match c.edit hdr p (s.pool.pages f).data with
  | none => s
  | some (_, hdr', data) =>
      { s with
        pool := ((s.pool.write f data).unpinPage ⟨fd, p⟩ true).2
        handles := Function.update s.handles path (some (fd, hdr')) }

/-- Whether the call gets its page. `create_page_handle` does not look at what it has got: without a page
the process ends. -/
def record (path : String) (c : RecordCall) : Option (Bool × TableFiles n) :=
  match s.handles path with
  | none => none
  | some (fd, hdr) =>
      if c.Creates hdr then
        (s.createNewPageHandle path fd hdr).map fun r =>
          (true, r.2.2.editPage path fd (newPageHdr hdr r.2.1) r.2.1 r.1 c)
      else
        match s.pool.fetchPage ⟨fd, (c.pageNo hdr).toNat⟩ with
        | (.page f, pool) =>
            some (true, { s with pool := pool }.editPage path fd hdr (c.pageNo hdr).toNat f c)
        | (.internalError, pool) => some (false, { s with pool := pool })
        | (.nullptr, pool) =>
            match c with
            | .insert _ | .getFree => none
            | .insertAt _ _ | .delete _ | .update _ _ => some (false, { s with pool := pool })

/-- What a client sees of an open file: the record pages that `fetch_page_handle` returns. -/
def view (path : String) : Option RmFileHandle :=
  (s.handles path).map fun h =>
    ⟨h.2, fun p =>
        if 1 ≤ p ∧ p < h.2.numPages then
          match s.pool.fetchPage ⟨h.1, p.toNat⟩ with
          | (.page f, pool) => some (pool.pages f).data.decode
          | _ => none
        else none,
      h.2.numPages⟩

end TableFiles

def Clean (b : BufferPoolManager n) (cur : PageId → Option PageData) : Prop :=
  Observed.Coherent ⟨b, cur, fun _ => false⟩

section Pool

open Observed

variable {b b' : BufferPoolManager n} {cur : PageId → Option PageData} {p q : PageId} {f : Fin n}
  {d : PageData} {fd : Nat}

theorem unpinPage_fd2pageno (isDirty : Bool) : (b.unpinPage p isDirty).2.fd2pageno = b.fd2pageno := by
  rw [unpinPage]
  split
  · rfl
  · split <;> rfl

theorem Clean.fetch (h : Clean b cur) (hp : cur p ≠ none) : b.fetchPage p = (.nullptr, b) ∨
    ∃ f b', b.fetchPage p = (.page f, b') ∧ Clean b' cur ∧ b'.fd2pageno = b.fd2pageno ∧
      b'.pageTable p = some f ∧
      0 < (b'.pages f).pinCount ∧ cur p = some (b'.pages f).data := by
  have hclean : Clean (b.fetchPage p).2 cur := Coherent.fetch h hp
  have hcur := h.fetchesCurrent p hp
  rcases fetchPage_spec h.inv (h.sound (c := .fetch p) hp)
    with ⟨f, htab, hrun⟩ | ⟨-, -, hrun⟩ | ⟨-, f, b', ht, hfd, hload⟩
  · rw [hrun] at hclean hcur
    obtain ⟨g, b'', heq, -, hdata⟩ | ⟨heq, -⟩ := hcur
    · cases heq
      exact .inr ⟨f, _, hrun, hclean, rfl, htab, by simp, hdata⟩
    · cases heq
  · exact .inl hrun
  · rcases hload with ⟨-, hrun⟩ | ⟨data, -, hrun⟩ <;> rw [hrun] at hclean hcur
    · obtain ⟨g, b'', heq, -⟩ | ⟨heq, -⟩ := hcur <;> cases heq
    · obtain ⟨g, b'', heq, -, hdata⟩ | ⟨heq, -⟩ := hcur
      · cases heq
        exact .inr ⟨f, _, hrun, hclean, hfd, by simp [ht.table], by simp, hdata⟩
      · cases heq

theorem Clean.unpin (h : Clean b cur) : Clean (b.unpinPage p false).2 cur := Coherent.unpin h _ nofun

theorem exec_write {o : Observed n} (hid : (o.pool.pages f).id = some p) (d : PageData) :
    o.exec (.write f d) = ⟨o.pool.write f d, Function.update o.cur p (some d),
      Function.update o.unsaved p true⟩ := by
  rw [Observed.exec, hid]
  rfl

theorem exec_new {o : Observed n} (hrun : o.pool.newPage fd = (some (f, q), b')) :
    o.exec (.new fd) = ⟨b', Function.update o.cur q (some .zero), Function.update o.unsaved q true⟩ := by
  rw [Observed.exec, hrun]
  simp only [PoolCall.exec, hrun]

theorem saved_again (p : PageId) :
    Function.update (Function.update (fun _ => false) p true) p false = fun _ => false := by
  rw [Function.update_idem, Function.update_eq_self]

theorem Clean.edit (h : Clean b cur) (ht : b.pageTable p = some f)
    (hpin : 0 < (b.pages f).pinCount) (d : PageData) :
    Clean ((b.write f d).unpinPage p true).2 (Function.update cur p (some d)) := by
  have hw := Coherent.write h d hpin
  rw [exec_write (h.inv.table ht).1] at hw
  have hu := hw.unpin (p := p) true nofun
  rw [Observed.exec, saved_again] at hu
  exact hu

theorem Clean.add (h : Clean b cur) (hrun : b.newPage fd = (some (f, q), b')) (d : PageData) :
    q = ⟨fd, b.fd2pageno fd⟩ ∧ Clean ((b'.write f d).flushPage q).2 (Function.update cur q (some d)) ∧
      ((b'.write f d).flushPage q).2.fd2pageno = Function.update b.fd2pageno fd (b.fd2pageno fd + 1) ∧
      ((b'.write f d).flushPage q).2.pageTable q = some f ∧
      0 < (((b'.write f d).flushPage q).2.pages f).pinCount ∧
      (((b'.write f d).flushPage q).2.pages f).data = d := by
  have hs : Sound b (.new fd) := Coherent.sound (c := .new fd) h trivial
  have hn := Coherent.new h fd
  rw [exec_new hrun] at hn
  rcases newPage_spec h.inv hs.1 fd with ⟨-, hrun'⟩ | ⟨g, b'', ht, hfd, hrun'⟩
  · rw [hrun] at hrun'
    cases hrun'
  · rw [hrun] at hrun'
    cases hrun'
    have hw := hn.write (f := f) d (by simp)
    rw [exec_write (p := ⟨fd, b.fd2pageno fd⟩) (by simp)] at hw
    have hf := hw.flush ⟨fd, b.fd2pageno fd⟩
    rw [Observed.exec] at hf
    simp only [Function.update_idem, Function.update_eq_self] at hf
    have htab : b''.pageTable ⟨fd, b.fd2pageno fd⟩ = some f := by simp [ht.table]
    refine ⟨rfl, hf, ?_⟩
    simp [flushPage, BufferPoolManager.write, setPage, htab, hfd]

/-- A descriptor is given to another file. What the pool has under it are pages of this file. -/
theorem Clean.reopen (h : Clean b cur) {pages : Nat → Option PageData} {numPages : Nat}
    (hown : ∀ p f, b.pageTable ⟨fd, p⟩ = some f → pages p = some (b.pages f).data)
    (halloc : ∀ p, pages p ≠ none → p < numPages) :
    Clean { b with
        disk := fun q => if q.fd = fd then pages q.pageNo else b.disk q
        fd2pageno := Function.update b.fd2pageno fd numPages }
      fun q => if q.fd = fd then pages q.pageNo else cur q where
  inv := ⟨h.inv.table, h.inv.held, h.inv.free, h.inv.freeNodup, h.inv.lru, h.inv.lruNodup⟩
  idle := h.idle
  unused := h.unused
  unsaved := by simp
  saved := by
    intro q d _ hd
    rw [Secured]
    by_cases hq : q.fd = fd
    · simp only [hq, if_true] at hd ⊢
      split
      · rename_i f htab
        have hpage := hown q.pageNo f (by rw [← hq]; exact htab)
        exact ⟨Option.some.inj (hpage.symm.trans hd), .inr hd⟩
      · exact hd
    · simp only [if_neg hq] at hd ⊢
      exact h.saved rfl hd
  exist := by
    intro q hq
    by_cases hqfd : q.fd = fd
    · obtain ⟨f, htab⟩ := Option.ne_none_iff_exists'.1 hq
      simp only [if_pos hqfd, hown q.pageNo f (by rw [← hqfd]; exact htab)]
      simp
    · simp only [if_neg hqfd]
      exact h.exist hq
  alloc := by
    intro q hq
    by_cases hqfd : q.fd = fd
    · simp only [if_pos hqfd] at hq
      simp only [hqfd, Function.update_self]
      exact halloc _ hq
    · simp only [if_neg hqfd] at hq
      simp only [Function.update_of_ne hqfd]
      exact h.alloc hq

theorem Clean.flushed (h : Clean b cur) {order : List PageId}
    (horder : order.Nodup ∧ ∀ q, q ∈ order ↔ b.pageTable q ≠ none) :
    Clean (b.flushAllPages (fun q => q.fd = fd) order) cur ∧
      (b.flushAllPages (fun q => q.fd = fd) order).fd2pageno = b.fd2pageno ∧
      ∀ p, cur ⟨fd, p⟩ ≠ none → (b.flushAllPages (fun q => q.fd = fd) order).disk ⟨fd, p⟩ = cur ⟨fd, p⟩ :=
  ⟨Coherent.exec (c := .flushAll (fun q => q.fd = fd) order) h horder, (sameFrames_flushAll _ _).alloc,
    fun p hp => h.flushes _ order horder ⟨fd, p⟩ (by simp) nofun hp⟩

end Pool

structure Watched (n : Nat) where
  sys : TableFiles n
  own : String → Option StoredFile

namespace Watched

def init (n : Nat) : Watched n := ⟨.init n, fun _ => none⟩

def step (w : Watched n) : FileCall → Option (Watched n)
  | .createFile path recordSize =>
      (w.sys.createFile path recordSize).map fun sys => ⟨sys, Function.update w.own path (sys.files path)⟩
  | .openFile path fd => (w.sys.openFile path fd).map fun sys => ⟨sys, w.own⟩
  | .closeFile path order => (w.sys.closeFile path order).map fun sys => ⟨sys, w.own⟩
  | .readPage path p => (w.sys.readPage path p).map fun sys => ⟨sys, w.own⟩
  | .record path c =>
      (w.sys.record path c).map fun res =>
        ⟨res.2, if res.1 then Function.update w.own path ((w.own path).map fun o => o.call c) else w.own⟩

/-- `get_record` and `RmScan` on an open file return what they return on its own bytes. -/
def SeesOwn (w : Watched n) : Prop :=
  ∀ path f, w.sys.view path = some f → ∃ o, w.own path = some o ∧
    (∀ rid buf, f.getRecord rid = .ok buf → o.handle.getRecord rid = .ok buf) ∧
    (∀ rid, RmScan.start f = .ok rid → RmScan.start o.handle = .ok rid) ∧
    ∀ rid rid', RmScan.next f rid = .ok rid' → RmScan.next o.handle rid = .ok rid'

/-- The calls that the clients make: on positions of the file, whose pages an `int` can count. The walk
of `flush_all_pages` meets each entry of the page table once. -/
def Legal (w : Watched n) : FileCall → Prop
  | .createFile _ _ | .openFile _ _ => True
  | .closeFile _ order => order.Nodup ∧ ∀ q, q ∈ order ↔ w.sys.pool.pageTable q ≠ none
  | .readPage path p => ∀ h ∈ w.sys.handles path, 1 ≤ p ∧ p < h.2.numPages
  | .record path c => ∀ h ∈ w.sys.handles path, h.2.numPages < 2147483647 ∧ c.InFile h.2

/-- What the pool still has under the descriptor of a file that is opened are pages of this file. -/
def OpensOwnPages (w : Watched n) : FileCall → Prop
  | .openFile path fd => ∀ p f, w.sys.pool.pageTable ⟨fd, p⟩ = some f →
      ∃ file, w.sys.files path = some file ∧ file.pages p = some (w.sys.pool.pages f).data
  | _ => True

structure PartOf (f g : RmFileHandle) : Prop where
  hdr : f.fileHdr = g.fileHdr
  pages : ∀ p page, f.pages p = some page → g.pages p = some page

section Reads

variable {f g : RmFileHandle} {rid r : Rid} {p : Int} {page : RmPage}

theorem PartOf.fetch (h : PartOf f g) (hp : f.fetchPageHandle p = .ok page) :
    g.fetchPageHandle p = .ok page := by
  rw [RmFileHandle.fetchPageHandle] at hp
  split at hp
  · rename_i hpage
    cases hp
    exact RecordCall.fetchPageHandle_some (h.pages _ _ hpage)
  · cases hp

theorem PartOf.getRecord (h : PartOf f g) {buf : Bytes} (hget : f.getRecord rid = .ok buf) :
    g.getRecord rid = .ok buf := by
  rw [RmFileHandle.getRecord] at hget ⊢
  cases hp : f.fetchPageHandle rid.pageNo with
  | error e =>
      rw [hp] at hget
      cases hget
  | ok page =>
      rw [hp] at hget
      rw [h.fetch hp, ← hget, RmFileHandle.slotStart, RmFileHandle.slotStart, h.hdr]

theorem PartOf.firstPage (h : PartOf f g) {left : Nat} {res : Int × RmPage}
    (hrun : RmScan.firstPage f left p = .ok res) :
    RmScan.firstPage g left p = .ok res := by
  induction left generalizing p with
  | zero =>
      rw [RmScan.firstPage] at hrun ⊢
      cases hp : f.fetchPageHandle p with
      | error e =>
          rw [hp] at hrun
          cases hrun
      | ok page =>
          rw [hp] at hrun
          rw [h.fetch hp]
          exact hrun
  | succ left ih =>
      rw [RmScan.firstPage] at hrun ⊢
      cases hp : f.fetchPageHandle p with
      | error e =>
          rw [hp] at hrun
          cases hrun
      | ok page =>
          rw [hp] at hrun
          rw [h.fetch hp]
          simp only [bind, Except.bind] at hrun ⊢
          split
          · rename_i hzero
            rw [if_pos hzero] at hrun
            exact ih hrun
          · rename_i hzero
            rw [if_neg hzero] at hrun
            exact hrun

theorem PartOf.start (h : PartOf f g) (hrun : RmScan.start f = .ok r) : RmScan.start g = .ok r := by
  rw [RmScan.start] at hrun ⊢
  rw [← h.hdr]
  split
  · rename_i hone
    rwa [if_pos hone] at hrun
  · rename_i hone
    rw [if_neg hone] at hrun
    cases hp : RmScan.firstPage f (f.fileHdr.numPages - 2) 1 with
    | error e =>
        rw [hp] at hrun
        cases hrun
    | ok res =>
        rw [hp] at hrun
        rw [h.firstPage hp]
        exact hrun

theorem PartOf.nextFrom (h : PartOf f g) {left : Nat} (hrun : RmScan.nextFrom f page rid left = .ok r) :
    RmScan.nextFrom g page rid left = .ok r := by
  induction left generalizing page rid with
  | zero =>
      rw [RmScan.nextFrom] at hrun ⊢
      rwa [← h.hdr]
  | succ left ih =>
      rw [RmScan.nextFrom] at hrun ⊢
      rw [← h.hdr]
      split
      · rename_i hfound
        rwa [if_pos hfound] at hrun
      · rename_i hfound
        rw [if_neg hfound] at hrun
        cases hp : f.fetchPageHandle (rid.pageNo + 1) with
        | error e =>
            rw [hp] at hrun
            cases hrun
        | ok page =>
            rw [hp] at hrun
            rw [h.fetch hp]
            exact ih hrun

theorem PartOf.next (h : PartOf f g) (hrun : RmScan.next f rid = .ok r) : RmScan.next g rid = .ok r := by
  rw [RmScan.next] at hrun ⊢
  cases hp : f.fetchPageHandle rid.pageNo with
  | error e =>
      rw [hp] at hrun
      cases hrun
  | ok page =>
      rw [hp] at hrun
      rw [h.fetch hp, ← h.hdr]
      exact h.nextFrom hrun

end Reads

section Step

variable {w w' : Watched n} {cur : PageId → Option PageData} {path : String} {fd : Nat}
  {hdr : RmFileHdr} {o : StoredFile}

structure Backed (b : BufferPoolManager n) (cur : PageId → Option PageData) (fd : Nat) (hdr : RmFileHdr)
    (o : StoredFile) : Prop where
  sealed : o.Sealed
  hdr : hdr = o.fileHdr
  cur : ∀ p, cur ⟨fd, p⟩ = o.pages p
  alloc : b.fd2pageno fd = o.fileHdr.numPages

structure Inv (w : Watched n) (cur : PageId → Option PageData) : Prop where
  clean : Clean w.sys.pool cur
  owner : ∀ {path fd hdr}, w.sys.handles path = some (fd, hdr) → w.sys.fd2path fd = some path
  opened : ∀ {path fd hdr}, w.sys.handles path = some (fd, hdr) → ∃ o, w.own path = some o ∧
    Backed w.sys.pool cur fd hdr o
  exist : ∀ {path}, w.sys.handles path ≠ none → w.sys.files path ≠ none
  closed : ∀ {path}, w.sys.handles path = none → w.sys.files path = w.own path
  sealed : ∀ {path o}, w.own path = some o → o.Sealed

theorem init_inv (n : Nat) : Inv (init n) fun _ => none where
  clean := Observed.start_coherent (fun _ h => absurd rfl h)
  owner := nofun
  opened := nofun
  exist h := absurd rfl h
  closed _ := rfl
  sealed := nofun

theorem Inv.seesOwn (h : Inv w cur) : SeesOwn w := by
  intro path f hf
  obtain ⟨⟨fd, hdr⟩, hopen, rfl⟩ := Option.map_eq_some_iff.1 hf
  obtain ⟨o, hown, hb⟩ := h.opened hopen
  have hpart : PartOf
      ⟨hdr, fun p =>
        if 1 ≤ p ∧ p < hdr.numPages then
          match w.sys.pool.fetchPage ⟨fd, p.toNat⟩ with
          | (.page f, pool) => some (pool.pages f).data.decode
          | _ => none
        else none, hdr.numPages⟩ o.handle := by
    refine ⟨hb.hdr, fun p page hpage => ?_⟩
    simp only at hpage
    split at hpage
    · rename_i hp
      have hcur : cur ⟨fd, p.toNat⟩ ≠ none := by
        rw [hb.cur, hb.sealed.pages, ← hb.hdr]
        omega
      obtain hrun | ⟨f, b, hrun, -, -, -, -, hdata⟩ := h.clean.fetch hcur <;> rw [hrun] at hpage
      · cases hpage
      · cases hpage
        have hneg : ¬ p < 0 := by omega
        simp only [StoredFile.handle, if_neg hneg, ← hb.cur, hdata, Option.map_some]
    · cases hpage
  exact ⟨o, hown, fun _ _ hr => hpart.getRecord hr, fun _ hr => hpart.start hr, fun _ _ hr => hpart.next hr⟩

theorem Inv.pool (h : Inv w cur) {b : BufferPoolManager n} (hclean : Clean b cur)
    (halloc : b.fd2pageno = w.sys.pool.fd2pageno) :
    Inv ⟨{ w.sys with pool := b }, w.own⟩ cur where
  clean := hclean
  owner := h.owner
  opened := by
    intro path fd hdr hopen
    obtain ⟨o, hown, hb⟩ := h.opened hopen
    exact ⟨o, hown, hb.sealed, hb.hdr, hb.cur, (congrFun halloc fd).trans hb.alloc⟩
  exist := h.exist
  closed := h.closed
  sealed := h.sealed

theorem Inv.descriptor_ne (h : Inv w cur) {path' : String} {fd' : Nat} {hdr' : RmFileHdr}
    (hopen : w.sys.handles path = some (fd, hdr)) (hopen' : w.sys.handles path' = some (fd', hdr'))
    (hne : path' ≠ path) :
    fd' ≠ fd := by
  rintro rfl
  exact hne (Option.some.inj ((h.owner hopen').symm.trans (h.owner hopen)))

theorem Inv.touch (h : Inv w cur) (hopen : w.sys.handles path = some (fd, hdr)) {b : BufferPoolManager n}
    {cur' : PageId → Option PageData} {hdr' : RmFileHdr} (hclean : Clean b cur')
    (hcur : ∀ q, q.fd ≠ fd → cur' q = cur q)
    (halloc : ∀ fd', fd' ≠ fd → b.fd2pageno fd' = w.sys.pool.fd2pageno fd')
    (hb : Backed b cur' fd hdr' o) :
    Inv ⟨{ w.sys with pool := b, handles := Function.update w.sys.handles path (some (fd, hdr')) },
      Function.update w.own path (some o)⟩ cur' where
  clean := hclean
  owner := by
    intro path' fd' hdr'' hopen'
    by_cases hpath : path' = path
    · subst hpath
      simp only [Function.update_self] at hopen'
      cases hopen'
      exact h.owner hopen
    · simp only [Function.update_of_ne hpath] at hopen'
      exact h.owner hopen'
  opened := by
    intro path' fd' hdr'' hopen'
    by_cases hpath : path' = path
    · subst hpath
      simp only [Function.update_self] at hopen'
      cases hopen'
      exact ⟨o, Function.update_self _ _ _, hb⟩
    · simp only [Function.update_of_ne hpath] at hopen' ⊢
      obtain ⟨o', hown, hb'⟩ := h.opened hopen'
      have hfd := h.descriptor_ne hopen hopen' hpath
      exact ⟨o', hown, hb'.sealed, hb'.hdr, fun p => (hcur ⟨fd', p⟩ hfd).trans (hb'.cur p),
        (halloc fd' hfd).trans hb'.alloc⟩
  exist := by
    intro path' hopen'
    by_cases hpath : path' = path
    · subst hpath
      exact h.exist (by rw [hopen]; exact nofun)
    · simp only [Function.update_of_ne hpath] at hopen'
      exact h.exist hopen'
  closed := by
    intro path' hclosed
    by_cases hpath : path' = path
    · subst hpath
      simp only [Function.update_self] at hclosed
      cases hclosed
    · simp only [Function.update_of_ne hpath] at hclosed ⊢
      exact h.closed hclosed
  sealed := by
    intro path' o' hown
    by_cases hpath : path' = path
    · subst hpath
      simp only [Function.update_self] at hown
      cases hown
      exact hb.sealed
    · simp only [Function.update_of_ne hpath] at hown
      exact h.sealed hown

theorem Inv.createFile (h : Inv w cur) {recordSize : Nat} {sys : TableFiles n}
    (hrun : w.sys.createFile path recordSize = some sys) :
    Inv ⟨sys, Function.update w.own path (sys.files path)⟩ cur := by
  rw [TableFiles.createFile] at hrun
  split at hrun
  · rename_i file hnone hcreate
    cases hrun
    have hopen : w.sys.handles path = none := by
      by_contra hc
      exact h.exist hc hnone
    have hsealed : StoredFile.Sealed ⟨file.fileHdr, fun _ => none⟩ := by
      rw [RmManager.createFile] at hcreate
      split at hcreate
      · cases hcreate
      · cases hcreate
        exact ⟨fun p => by simp; omega, .inl rfl, by simp, le_rfl, Nat.le_of_ble_eq_true rfl⟩
    refine ⟨h.clean, h.owner, ?_, ?_, ?_, ?_⟩
    · intro path' fd hdr hopen'
      have hpath : path' ≠ path := by
        rintro rfl
        rw [hopen] at hopen'
        cases hopen'
      simp only [Function.update_of_ne hpath]
      exact h.opened hopen'
    · intro path' hopen'
      by_cases hpath : path' = path
      · subst hpath
        exact absurd hopen hopen'
      · simp only [Function.update_of_ne hpath]
        exact h.exist hopen'
    · intro path' hclosed
      by_cases hpath : path' = path
      · subst hpath
        simp
      · simp only [Function.update_of_ne hpath]
        exact h.closed hclosed
    · intro path' o hown
      by_cases hpath : path' = path
      · subst hpath
        simp only [Function.update_self, Option.some.injEq] at hown
        exact hown ▸ hsealed
      · simp only [Function.update_of_ne hpath] at hown
        exact h.sealed hown
  · cases hrun

theorem Inv.openFile (h : Inv w cur) {sys : TableFiles n} (hguard : OpensOwnPages w (.openFile path fd))
    (hrun : w.sys.openFile path fd = some sys) : ∃ cur', Inv ⟨sys, w.own⟩ cur' := by
  rw [TableFiles.openFile] at hrun
  split at hrun
  · rename_i file hfile hopen hfd
    cases hrun
    have hown := (h.closed hopen).symm.trans hfile
    have hsealed := h.sealed hown
    have hunused : ∀ {path' fd' hdr}, w.sys.handles path' = some (fd', hdr) → path' ≠ path ∧ fd' ≠ fd := by
      intro path' fd' hdr hopen'
      constructor
      · rintro rfl
        rw [hopen] at hopen'
        cases hopen'
      · rintro rfl
        rw [h.owner hopen'] at hfd
        cases hfd
    refine ⟨fun q => if q.fd = fd then file.pages q.pageNo else cur q, ?_, ?_, ?_, ?_, ?_, h.sealed⟩
    · refine h.clean.reopen (fun p f htab => ?_) fun p hp => ((hsealed.pages p).1 hp).2
      obtain ⟨file', hfile', hpage⟩ := hguard p f htab
      cases hfile.symm.trans hfile'
      exact hpage
    · intro path' fd' hdr hopen'
      by_cases hpath : path' = path
      · subst hpath
        simp only [Function.update_self] at hopen'
        cases hopen'
        exact Function.update_self _ _ _
      · simp only [Function.update_of_ne hpath] at hopen'
        simp only [Function.update_of_ne (hunused hopen').2]
        exact h.owner hopen'
    · intro path' fd' hdr hopen'
      by_cases hpath : path' = path
      · subst hpath
        simp only [Function.update_self] at hopen'
        cases hopen'
        exact ⟨file, hown, hsealed, rfl, fun p => by simp, by simp⟩
      · simp only [Function.update_of_ne hpath] at hopen'
        have hne := (hunused hopen').2
        obtain ⟨o, howned, hb⟩ := h.opened hopen'
        refine ⟨o, howned, hb.sealed, hb.hdr, fun p => ?_, ?_⟩
        · simp only [if_neg hne]
          exact hb.cur p
        · simp only [Function.update_of_ne hne]
          exact hb.alloc
    · intro path' hopen'
      by_cases hpath : path' = path
      · subst hpath
        rw [hfile]
        exact nofun
      · simp only [Function.update_of_ne hpath] at hopen'
        exact h.exist hopen'
    · intro path' hclosed
      by_cases hpath : path' = path
      · subst hpath
        simp only [Function.update_self] at hclosed
        cases hclosed
      · simp only [Function.update_of_ne hpath] at hclosed
        exact h.closed hclosed
  · cases hrun

theorem Inv.closeFile (h : Inv w cur) {order : List PageId} {sys : TableFiles n}
    (hlegal : Legal w (.closeFile path order)) (hrun : w.sys.closeFile path order = some sys) :
    Inv ⟨sys, w.own⟩ cur := by
  obtain ⟨⟨fd, hdr⟩, hopen, rfl⟩ := Option.map_eq_some_iff.1 hrun
  obtain ⟨o, hown, hb⟩ := h.opened hopen
  obtain ⟨hclean, halloc, hdisk⟩ := h.clean.flushed hlegal
  have hstored : (⟨hdr, fun p => if 1 ≤ p ∧ p < hdr.numPages then
      (w.sys.pool.flushAllPages (fun q => q.fd = fd) order).disk ⟨fd, p⟩ else none⟩ : StoredFile) = o := by
    rw [hb.hdr]
    congr
    funext p
    split
    · rename_i hp
      rw [hdisk p (by rw [hb.cur]; exact (hb.sealed.pages p).2 hp), hb.cur]
    · rename_i hp
      by_contra hc
      exact hp ((hb.sealed.pages p).1 (Ne.symm hc))
  refine ⟨hclean, ?_, ?_, ?_, ?_, h.sealed⟩
  · intro path' fd' hdr' hopen'
    by_cases hpath : path' = path
    · subst hpath
      simp only [Function.update_self] at hopen'
      cases hopen'
    · simp only [Function.update_of_ne hpath] at hopen'
      simp only [Function.update_of_ne (h.descriptor_ne hopen hopen' hpath)]
      exact h.owner hopen'
  · intro path' fd' hdr' hopen'
    by_cases hpath : path' = path
    · subst hpath
      simp only [Function.update_self] at hopen'
      cases hopen'
    · simp only [Function.update_of_ne hpath] at hopen'
      obtain ⟨o', hown', hb'⟩ := h.opened hopen'
      exact ⟨o', hown', hb'.sealed, hb'.hdr, hb'.cur, (congrFun halloc fd').trans hb'.alloc⟩
  · intro path' hopen'
    by_cases hpath : path' = path
    · subst hpath
      simp only [Function.update_self]
      exact nofun
    · simp only [Function.update_of_ne hpath] at hopen' ⊢
      exact h.exist hopen'
  · intro path' hclosed
    by_cases hpath : path' = path
    · subst hpath
      simp only [Function.update_self]
      rw [hown, hstored]
    · simp only [Function.update_of_ne hpath] at hclosed ⊢
      exact h.closed hclosed

theorem Inv.readPage (h : Inv w cur) {p : Nat} {sys : TableFiles n} (hlegal : Legal w (.readPage path p))
    (hrun : w.sys.readPage path p = some sys) : Inv ⟨sys, w.own⟩ cur := by
  obtain ⟨⟨fd, hdr⟩, hopen, rfl⟩ := Option.map_eq_some_iff.1 hrun
  obtain ⟨o, hown, hb⟩ := h.opened hopen
  have hcur : cur ⟨fd, p⟩ ≠ none := by
    rw [hb.cur, hb.sealed.pages, ← hb.hdr]
    exact hlegal _ hopen
  obtain hfetch | ⟨f, b, hfetch, hclean, halloc, -, -, -⟩ := h.clean.fetch hcur <;> simp only [hfetch]
  · exact h
  · exact h.pool hclean.unpin ((unpinPage_fd2pageno false).trans halloc)

theorem Inv.editPage (h : Inv w cur) (hopen : w.sys.handles path = some (fd, hdr))
    (hown : w.own path = some o) (hb : Backed w.sys.pool cur fd hdr o) {p : Nat} {f : Fin n}
    {c : RecordCall} (hpage : c.pageNo hdr = p) (hc : ¬ c.Creates hdr)
    (htab : w.sys.pool.pageTable ⟨fd, p⟩ = some f) (hpin : 0 < (w.sys.pool.pages f).pinCount)
    (hdata : cur ⟨fd, p⟩ = some (w.sys.pool.pages f).data) :
    ∃ cur', Inv ⟨w.sys.editPage path fd hdr p f c, Function.update w.own path (some (o.edit p c))⟩ cur' := by
  obtain ⟨hsealed, rfl, hcur, halloc⟩ := hb
  have hd : o.pages p = some (w.sys.pool.pages f).data := by rw [← hcur, hdata]
  rw [TableFiles.editPage, StoredFile.edit, hd, Option.bind_some]
  cases he : c.edit o.fileHdr p (w.sys.pool.pages f).data with
  | none =>
      refine ⟨cur, ?_⟩
      rw [← hown, Function.update_eq_self]
      exact h
  | some e =>
      obtain ⟨rid, hdr', data⟩ := e
      obtain ⟨hsealed', hsize⟩ := hsealed.edit hpage hc hd he
      refine ⟨_, h.touch hopen (h.clean.edit htab hpin data) ?_ ?_ ⟨hsealed', rfl, ?_, ?_⟩⟩
      · intro q hq
        exact Function.update_of_ne (fun hc => hq (congrArg PageId.fd hc)) _ _
      · intro fd' _
        exact congrFun (unpinPage_fd2pageno true) fd'
      · intro q
        by_cases hqp : q = p
        · subst hqp
          simp
        · rw [Function.update_of_ne (fun hc => hqp (congrArg PageId.pageNo hc)), hcur]
          exact (Function.update_of_ne hqp _ _).symm
      · exact (congrFun (unpinPage_fd2pageno true) fd).trans (halloc.trans hsize.symm)

theorem Inv.createNewPageHandle (h : Inv w cur) (hopen : w.sys.handles path = some (fd, o.fileHdr))
    (hb : Backed w.sys.pool cur fd o.fileHdr o) (hsmall : o.fileHdr.numPages < 2147483647)
    {f : Fin n} {p : Nat} {sys : TableFiles n}
    (hrun : w.sys.createNewPageHandle path fd o.fileHdr = some (f, p, sys)) :
    p = o.fileHdr.numPages ∧ ∃ cur', Inv ⟨sys, Function.update w.own path (some o.addPage)⟩ cur' ∧
      sys.handles path = some (fd, newPageHdr o.fileHdr p) ∧
      Backed sys.pool cur' fd (newPageHdr o.fileHdr p) o.addPage ∧
      sys.pool.pageTable ⟨fd, p⟩ = some f ∧ 0 < (sys.pool.pages f).pinCount ∧
      cur' ⟨fd, p⟩ = some (sys.pool.pages f).data := by
  rw [TableFiles.createNewPageHandle] at hrun
  split at hrun
  · cases hrun
  · rename_i f q b hnew
    cases hrun
    obtain ⟨rfl, hclean, halloc, htab, hpin, hdata⟩ := h.clean.add hnew (newPageData o.fileHdr)
    rw [hb.alloc] at hclean halloc htab hpin hdata ⊢
    have hadded : Backed ((b.write f (newPageData o.fileHdr)).flushPage ⟨fd, o.fileHdr.numPages⟩).2
        (Function.update cur ⟨fd, o.fileHdr.numPages⟩ (some (newPageData o.fileHdr))) fd
        (newPageHdr o.fileHdr o.fileHdr.numPages) o.addPage := by
      refine ⟨hb.sealed.addPage hsmall, rfl, fun q => ?_,
        (congrFun halloc fd).trans (Function.update_self _ _ _)⟩
      by_cases hq : q = o.fileHdr.numPages
      · subst hq
        simp only [StoredFile.addPage, Function.update_self]
      · rw [Function.update_of_ne (fun hc => hq (congrArg PageId.pageNo hc)), hb.cur]
        simp only [StoredFile.addPage, Function.update_of_ne hq]
    refine ⟨rfl, _, h.touch hopen hclean ?_ ?_ hadded, Function.update_self _ _ _, hadded, htab, hpin, ?_⟩
    · intro q hq
      exact Function.update_of_ne (fun hc => hq (congrArg PageId.fd hc)) _ _
    · intro fd' hfd'
      exact (congrFun halloc fd').trans (Function.update_of_ne hfd' _ _)
    · rw [Function.update_self, hdata]

theorem pageNo_of_inFile {c : RecordCall} (h : o.Sealed) (hin : c.InFile o.fileHdr)
    (hc : ¬ c.Creates o.fileHdr) :
    ∃ p : Nat, c.pageNo o.fileHdr = p ∧ ∃ d, o.pages p = some d := by
  have hlink : LinksTo o.fileHdr.numPages (c.pageNo o.fileHdr) := by
    cases c with
    | insert | getFree => exact h.head
    | insertAt | delete | update => exact .inr ⟨hin.1, hin.2.1⟩
  have hne : c.pageNo o.fileHdr ≠ rmNoPage := by
    cases c with
    | insert | getFree => exact hc
    | insertAt | delete | update =>
        intro hno
        have h1 := hin.1
        rw [RecordCall.pageNo] at hno
        rw [hno] at h1
        exact absurd h1 (by decide)
  have hpage := hlink.resolve_left hne
  have hcast : ((c.pageNo o.fileHdr).toNat : Int) = c.pageNo o.fileHdr := Int.toNat_of_nonneg (by omega)
  exact ⟨_, hcast.symm, h.page (by rw [hcast]; exact hlink)⟩

theorem Inv.record (h : Inv w cur) {c : RecordCall} (hlegal : Legal w (.record path c))
    {res : Bool × TableFiles n} (hrun : w.sys.record path c = some res) :
    ∃ cur', Inv ⟨res.2, if res.1 then Function.update w.own path ((w.own path).map fun o => o.call c)
      else w.own⟩ cur' := by
  rw [TableFiles.record] at hrun
  split at hrun
  · cases hrun
  · rename_i fd hdr hopen
    obtain ⟨o, hown, hb⟩ := h.opened hopen
    obtain ⟨hsmall, hin⟩ := hlegal _ hopen
    obtain rfl := hb.hdr
    simp only [hown, Option.map_some, StoredFile.call]
    split at hrun
    · rename_i hcreate
      rw [if_pos hcreate]
      obtain ⟨⟨f, p, sys⟩, hnew, rfl⟩ := Option.map_eq_some_iff.1 hrun
      obtain ⟨rfl, cur', hinv, hopen', hb', htab, hpin, hdata⟩ := h.createNewPageHandle hopen hb hsmall hnew
      have hpage : c.pageNo (newPageHdr o.fileHdr o.fileHdr.numPages) = o.fileHdr.numPages ∧
          ¬ c.Creates (newPageHdr o.fileHdr o.fileHdr.numPages) := by
        have hne : (o.fileHdr.numPages : Int) ≠ rmNoPage := by
          rw [rmNoPage]
          omega
        cases c with
        | insert | getFree => exact ⟨rfl, hne⟩
        | insertAt | delete | update => exact absurd hcreate id
      obtain ⟨cur'', hafter⟩ :=
        hinv.editPage hopen' (Function.update_self _ _ _) hb' hpage.1 hpage.2 htab hpin hdata
      rw [Function.update_idem] at hafter
      exact ⟨cur'', hafter⟩
    · rename_i hcreate
      rw [if_neg hcreate]
      obtain ⟨p, hp, d, hd⟩ := pageNo_of_inFile hb.sealed hin hcreate
      have hcur : cur ⟨fd, p⟩ ≠ none := by
        rw [hb.cur, hd]
        simp
      rw [hp, Int.toNat_natCast] at hrun ⊢
      obtain hfetch | ⟨f, b, hfetch, hclean, halloc, htab, hpin, hdata⟩ := h.clean.fetch hcur
      · rw [hfetch] at hrun
        cases c with
        | insert | getFree => cases hrun
        | insertAt | delete | update =>
            cases hrun
            exact ⟨cur, h⟩
      · rw [hfetch] at hrun
        cases hrun
        have hpool := h.pool hclean halloc
        exact hpool.editPage hopen hown ⟨hb.sealed, rfl, hb.cur,
          (congrFun halloc fd).trans hb.alloc⟩ hp hcreate htab hpin hdata

theorem Inv.step (h : Inv w cur) {a : FileCall} (hlegal : Legal w a) (hguard : OpensOwnPages w a)
    (hrun : step w a = some w') : ∃ cur', Inv w' cur' := by
  cases a with
  | createFile path recordSize =>
      obtain ⟨sys, hsys, rfl⟩ := Option.map_eq_some_iff.1 hrun
      exact ⟨cur, h.createFile hsys⟩
  | openFile path fd =>
      obtain ⟨sys, hsys, rfl⟩ := Option.map_eq_some_iff.1 hrun
      exact h.openFile hguard hsys
  | closeFile path order =>
      obtain ⟨sys, hsys, rfl⟩ := Option.map_eq_some_iff.1 hrun
      exact ⟨cur, h.closeFile hlegal hsys⟩
  | readPage path p =>
      obtain ⟨sys, hsys, rfl⟩ := Option.map_eq_some_iff.1 hrun
      exact ⟨cur, h.readPage hlegal hsys⟩
  | record path c =>
      obtain ⟨res, hres, rfl⟩ := Option.map_eq_some_iff.1 hrun
      exact h.record hlegal hres

end Step

/-- Where every file that is opened finds nothing but its own pages under its descriptor, the clients see
the bytes of their own file. -/
theorem sees_own_of_opensOwnPages (n : Nat) (calls : List FileCall)
    (hlegal : Trace.Guarded step Legal (init n) calls)
    (hopens : Trace.Guarded step OpensOwnPages (init n) calls) :
    Trace.Always step SeesOwn (init n) calls := by
  have hinv : Trace.Always step (fun w => ∃ cur, Inv w cur) (init n) calls := by
    refine Trace.always_of_guarded ?_ ⟨_, init_inv n⟩ (hlegal.and hopens)
    intro w a w' ⟨cur, h⟩ ⟨hl, ho⟩ hrun
    exact h.step hl ho hrun
  exact hinv.mono fun w ⟨cur, h⟩ => h.seesOwn

section PageTable

variable {w w' : Watched n} {path : String} {fd : Nat} {hdr : RmFileHdr} {c : RecordCall} {p q : PageId}

def HasOnly (w : Watched n) (p : PageId) : Prop := ∀ q, w.sys.pool.pageTable q ≠ none → q = p

theorem HasOnly.walk (h : HasOnly w p) (hp : w.sys.pool.pageTable p ≠ none) :
    [p].Nodup ∧ ∀ q, q ∈ [p] ↔ w.sys.pool.pageTable q ≠ none := by
  refine ⟨List.nodup_singleton _, fun q => ?_⟩
  rw [List.mem_singleton]
  refine ⟨?_, h q⟩
  rintro rfl
  exact hp

theorem HasOnly.closeFile (h : HasOnly w p) {order : List PageId}
    (hrun : step w (.closeFile path order) = some w') :
    HasOnly w' p := by
  obtain ⟨sys, hsys, rfl⟩ := Option.map_eq_some_iff.1 hrun
  obtain ⟨⟨fd, hdr⟩, -, rfl⟩ := Option.map_eq_some_iff.1 hsys
  intro q hq
  simp only [(Observed.sameFrames_flushAll _ _).table] at hq
  exact h q hq

theorem newPage_table {b b' : BufferPoolManager n} {f : Fin n} (hrun : b.newPage fd = (some (f, p), b'))
    (hq : b'.pageTable q ≠ none) : q = ⟨fd, b.fd2pageno fd⟩ ∨ b.pageTable q ≠ none := by
  have herase : ∀ {table : PageId → Option (Fin n)} {id : Option PageId}, eraseId table id q ≠ none →
      table q ≠ none := by
    intro table id h hc
    rw [eraseId, hc, ite_self] at h
    exact h rfl
  rw [newPage] at hrun
  split at hrun
  · cases hrun
  · rename_i f' b1 hv
    cases hrun
    by_cases hqp : q = ⟨fd, b1.fd2pageno fd⟩
    · rw [findVictimPage_fd2pageno hv] at hqp
      exact .inl hqp
    · right
      simp only [updatePage, Function.update_of_ne hqp] at hq
      have htable := herase hq
      rw [findVictimPage] at hv
      split at hv
      · cases hv
        exact htable
      · obtain ⟨v, -, hv⟩ := Option.map_eq_some_iff.1 hv
        cases hv
        exact herase htable

theorem editPage_table {s : TableFiles n} {pageNo : Nat} {f : Fin n} :
    (s.editPage path fd hdr pageNo f c).pool.pageTable = s.pool.pageTable := by
  rw [TableFiles.editPage]
  split
  · rfl
  · simp only [unpinPage]
    split
    · rfl
    · split <;> rfl

theorem HasOnly.openFile (h : HasOnly w p) (hrun : step w (.openFile path fd) = some w') : HasOnly w' p := by
  obtain ⟨sys, hsys, rfl⟩ := Option.map_eq_some_iff.1 hrun
  rw [TableFiles.openFile] at hsys
  split at hsys
  · cases hsys
    exact h
  · cases hsys

theorem HasOnly.create (h : HasOnly w p) (hopen : w.sys.handles path = some (fd, hdr)) (hc : c.Creates hdr)
    (hnew : p = ⟨fd, w.sys.pool.fd2pageno fd⟩) (hrun : step w (.record path c) = some w') : HasOnly w' p := by
  obtain ⟨res, hres, rfl⟩ := Option.map_eq_some_iff.1 hrun
  rw [TableFiles.record, hopen] at hres
  simp only [if_pos hc] at hres
  obtain ⟨⟨f, p', sys⟩, hcreate, rfl⟩ := Option.map_eq_some_iff.1 hres
  rw [TableFiles.createNewPageHandle] at hcreate
  split at hcreate
  · cases hcreate
  · rename_i f' q' b hnp
    cases hcreate
    intro q hq
    simp only [editPage_table, (Observed.sameFrames_flush).table] at hq
    exact (newPage_table hnp hq).elim (fun hq => hq.trans hnew.symm) (h q)

end PageTable

def reopened : List FileCall :=
  [.createFile "a" 4, .openFile "a" 3, .record "a" (.insert [1, 1, 1, 1]),
    .closeFile "a" [⟨3, 1⟩], .openFile "a" 4]

def exchanged : List FileCall :=
  [.createFile "a" 4, .createFile "b" 4, .openFile "a" 3, .record "a" (.insert [1, 1, 1, 1]),
    .closeFile "a" [⟨3, 1⟩], .openFile "b" 3, .record "b" (.insert [2, 2, 2, 2]),
    .closeFile "b" [⟨3, 1⟩], .openFile "a" 3]

theorem sees_own_of_opensOwnPages_reopened : Trace.Always step SeesOwn (init 1) reopened := by
  refine sees_own_of_opensOwnPages 1 _ ?_ ?_
  · refine ⟨trivial, ?_⟩
    rintro w ⟨⟩
    refine ⟨trivial, ?_⟩
    rintro w ⟨⟩
    refine ⟨?_, ?_⟩
    · rintro _ ⟨⟩
      exact ⟨by decide, trivial⟩
    intro w hw
    have honly : HasOnly w ⟨3, 1⟩ := HasOnly.create (fun q hq => absurd rfl hq) rfl (by decide) rfl hw
    cases hw
    refine ⟨honly.walk (by decide), ?_⟩
    rintro w ⟨⟩
    exact ⟨trivial, fun _ _ => trivial⟩
  · refine ⟨trivial, ?_⟩
    rintro w ⟨⟩
    refine ⟨nofun, ?_⟩
    rintro w ⟨⟩
    refine ⟨trivial, ?_⟩
    intro w hw
    have honly : HasOnly w ⟨3, 1⟩ := HasOnly.create (fun q hq => absurd rfl hq) rfl (by decide) rfl hw
    cases hw
    refine ⟨trivial, ?_⟩
    intro w hw
    have honly' := honly.closeFile hw
    cases hw
    refine ⟨fun p f hp => ?_, fun _ _ => trivial⟩
    have hpage := honly' ⟨4, p⟩ (fun hc => Option.some_ne_none f (hp.symm.trans hc))
    exact absurd (congrArg PageId.fd hpage) (show 4 ≠ 3 by decide)

/-- `get_record` returns the record of the other file. -/
theorem exchanged_returns_other :
    Trace.Guarded step Legal (init 1) exchanged ∧ ¬ Trace.Always step SeesOwn (init 1) exchanged := by
  constructor
  · refine ⟨trivial, ?_⟩
    rintro w ⟨⟩
    refine ⟨trivial, ?_⟩
    rintro w ⟨⟩
    refine ⟨trivial, ?_⟩
    rintro w ⟨⟩
    refine ⟨?_, ?_⟩
    · rintro _ ⟨⟩
      exact ⟨by decide, trivial⟩
    intro w hw
    have honly : HasOnly w ⟨3, 1⟩ := HasOnly.create (fun q hq => absurd rfl hq) rfl (by decide) rfl hw
    cases hw
    refine ⟨honly.walk (by decide), ?_⟩
    intro w hw
    have hclosed := honly.closeFile hw
    cases hw
    refine ⟨trivial, ?_⟩
    intro w hw
    have hopened := hclosed.openFile hw
    cases hw
    refine ⟨?_, ?_⟩
    · rintro _ ⟨⟩
      exact ⟨by decide, trivial⟩
    intro w hw
    have hreused : HasOnly w ⟨3, 1⟩ := HasOnly.create hopened rfl (by decide) rfl hw
    cases hw
    refine ⟨hreused.walk (by decide), ?_⟩
    rintro w ⟨⟩
    exact ⟨trivial, fun _ _ => trivial⟩
  · intro h
    obtain ⟨w, hrun⟩ : ∃ w, Trace.run step (init 1) exchanged = some w := ⟨_, rfl⟩
    have hlast := h.last hrun
    cases hrun
    obtain ⟨o, hown, hget, -⟩ := hlast "a" _ rfl
    cases hown
    have hother := hget ⟨1, 0⟩ [2, 2, 2, 2] rfl
    exact absurd hother (by decide +kernel)

end Watched

end Rmdb

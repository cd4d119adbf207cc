import Rmdb.Storage.BufferPool
import Rmdb.Storage.DiskManager

namespace Rmdb

/-- `PageId` with its page number as it is declared: a signed one. -/
structure SignedPageId where
  fd : Nat
  pageNo : Int32
deriving DecidableEq

structure BytePage where
  id : SignedPageId
  data : Bytes
  isDirty : Bool
  pinCount : Nat

structure BytePool (n : Nat) where
  pages : Fin n → BytePage
  pageTable : SignedPageId → Option (Fin n)
  freeList : List (Fin n)
  lruList : List (Fin n)
  files : OpenFiles

/-- How a `fetch_page` ends; the two errors are of the write of the victim and of the read of the page. -/
inductive FetchEnd (n : Nat)
  | page (frame : Fin n)
  | nullptr
  | writeError (e : InternalError)
  | readError (e : InternalError)
deriving DecidableEq

namespace BytePool

variable {n : Nat}

def init (n : Nat) (fds : Fin n → Nat) (files : OpenFiles) : BytePool n where
  pages f := ⟨⟨fds f, -1⟩, List.replicate 4096 0, false, 0⟩
  pageTable _ := none
  freeList := List.finRange n
  lruList := []
  files := files

def findVictimPage (b : BytePool n) : Option (Fin n × BytePool n) :=
  match b.freeList with
  | f :: rest => some (f, { b with freeList := rest })
  | [] =>
      (LRUReplacer.victim b.lruList).map fun v =>
        (v.1, { b with lruList := v.2, pageTable := Function.update b.pageTable (b.pages v.1).id none })

def writeBack (files : OpenFiles) (page : BytePage) : Except InternalError OpenFiles :=
  if page.isDirty then DiskManager.writePage files page.id.fd page.id.pageNo page.data else .ok files

def updatePage (b : BytePool n) (f : Fin n) (newId : SignedPageId) : Except InternalError (BytePool n) := do
  let files ← writeBack b.files (b.pages f)
  return { b with
    files := files
    pageTable := Function.update (Function.update b.pageTable (b.pages f).id none) newId (some f)
    pages :=
      Function.update b.pages f { b.pages f with
        id := newId, data := List.replicate 4096 0, isDirty := false } }

def readInto (files : OpenFiles) (p : SignedPageId) (buf : Bytes) : Bytes :=
  match DiskManager.lseek p.pageNo with
  | .error _ => buf
  | .ok off =>
      FileBytes.read (files p.fd) off buf.length ++
        buf.drop (FileBytes.read (files p.fd) off buf.length).length

def fetchPage (b : BytePool n) (p : SignedPageId) : FetchEnd n × BytePool n :=
  match b.pageTable p with
  | some f =>
      (.page f, { b with
        lruList := LRUReplacer.pin b.lruList f
        pages := Function.update b.pages f { b.pages f with pinCount := (b.pages f).pinCount + 1 } })
  | none =>
      match b.findVictimPage with
      | none => (.nullptr, b)
      | some (f, b1) =>
          match b1.updatePage f p with
          | .error e => (.writeError e, b1)
          | .ok b2 =>
              let page := { b2.pages f with data := readInto b2.files p (b2.pages f).data }
              match DiskManager.readPage b2.files p.fd p.pageNo 4096 with
              | .error e => (.readError e, { b2 with pages := Function.update b2.pages f page })
              | .ok _ =>
                  (.page f, { b2 with
                    lruList := LRUReplacer.pin b2.lruList f
                    pages := Function.update b2.pages f { page with pinCount := 1 } })

/-- What a failed fetch of a page that is not in the pool should leave: no page mapped in its
place, no unpinned frame out of reach, and a pool that does not hand the page out. -/
structure Intact (b b' : BytePool n) (p : SignedPageId) : Prop where
  noneMapped : ∀ q, b.pageTable q = none → b'.pageTable q = none
  noneLost : ∀ f, (b'.pages f).pinCount = 0 → f ∈ b.freeList ∨
    f ∈ b.lruList → f ∈ b'.freeList ∨ f ∈ b'.lruList
  notServed : ∀ f, (b'.fetchPage p).1 ≠ .page f

variable {b b1 b2 : BytePool n} {p : SignedPageId} {f : Fin n} {e : InternalError}

structure Given (b1 : BytePool n) (f : Fin n) (p : SignedPageId) (b2 : BytePool n) : Prop where
  mapped : b2.pageTable p = some f
  id : (b2.pages f).id = p
  pins : ∀ g, (b2.pages g).pinCount = (b1.pages g).pinCount
  freeList : b2.freeList = b1.freeList
  lruList : b2.lruList = b1.lruList

theorem given_updatePage (h : b1.updatePage f p = .ok b2) : Given b1 f p b2 := by
  rw [updatePage] at h
  cases hw : writeBack b1.files (b1.pages f) with
  | error e => simp only [hw, bind, Except.bind, reduceCtorEq] at h
  | ok files =>
      simp only [hw, bind, Except.bind, pure, Except.pure, Except.ok.injEq] at h
      rw [← h]
      refine ⟨Function.update_self .., ?_, fun g => ?_, rfl, rfl⟩
      · simp only [Function.update_self]
      · by_cases hg : g = f
        · rw [hg]
          simp only [Function.update_self]
        · simp only [Function.update_of_ne hg]

theorem findVictimPage_cases (h : b.findVictimPage = some (f, b1)) : b1.pages = b.pages ∧
    (b.freeList = f :: b1.freeList ∧ b1.lruList = b.lruList ∨
      b.freeList = [] ∧ b1.freeList = [] ∧ b.lruList = b1.lruList ++ [f]) := by
  rw [findVictimPage] at h
  cases hfree : b.freeList with
  | cons g rest =>
      simp only [hfree, Option.some.injEq, Prod.mk.injEq] at h
      obtain ⟨rfl, rfl⟩ := h
      exact ⟨rfl, .inl ⟨rfl, rfl⟩⟩
  | nil =>
      simp only [hfree, LRUReplacer.victim, Option.map_map, Option.map_eq_some_iff] at h
      obtain ⟨g, hlast, hv⟩ := h
      obtain ⟨rfl, rfl⟩ := Prod.mk.inj hv
      exact ⟨rfl, .inr ⟨rfl, rfl, (List.dropLast_append_getLast? g hlast).symm⟩⟩

theorem fetchPage_of_mapped (h : b.pageTable p = some f) : (b.fetchPage p).1 = .page f := by rw [fetchPage, h]

/-- A read that fails finds the victim taken, and the frame already given to the page. -/
theorem fetchPage_failed (hp : b.pageTable p = none) (hfail : (b.fetchPage p).1 = .readError e) :
    ∃ f b1, b.findVictimPage = some (f, b1) ∧ Given b1 f p (b.fetchPage p).2 := by
  rw [fetchPage] at hfail ⊢
  simp only [hp] at hfail ⊢
  cases hv : b.findVictimPage with
  | none =>
      simp only [hv] at hfail
      cases hfail
  | some v =>
      obtain ⟨f, b1⟩ := v
      simp only [hv] at hfail ⊢
      cases hu : b1.updatePage f p with
      | error e' =>
          simp only [hu] at hfail
          cases hfail
      | ok b2 =>
          simp only [hu] at hfail ⊢
          have hgiven := given_updatePage hu
          cases hr : DiskManager.readPage b2.files p.fd p.pageNo 4096 with
          | ok data =>
              simp only [hr] at hfail
              cases hfail
          | error e' =>
              refine ⟨f, b1, rfl, hgiven.mapped, ?_, fun g => ?_, hgiven.freeList, hgiven.lruList⟩
              · simp only [Function.update_self, hgiven.id]
              · by_cases hg : g = f
                · rw [hg]
                  simp only [Function.update_self, hgiven.pins]
                · simp only [Function.update_of_ne hg, hgiven.pins]

/-- The next fetch of the page takes it for one that is in the pool. -/
theorem failed_fetch_served (hp : b.pageTable p = none) (hfail : (b.fetchPage p).1 = .readError e) :
    ∃ f, ((b.fetchPage p).2.fetchPage p).1 = .page f := by
  obtain ⟨f, b1, -, hgiven⟩ := fetchPage_failed hp hfail
  exact ⟨f, fetchPage_of_mapped hgiven.mapped⟩

/-- An unpinned victim that stood on one list, once, is on none. -/
theorem failed_fetch_lost (hp : b.pageTable p = none) (hfail : (b.fetchPage p).1 = .readError e)
    (hnd : (b.freeList ++ b.lruList).Nodup)
    (hidle : ∀ f ∈ b.freeList ++ b.lruList, (b.pages f).pinCount = 0) :
    ∃ f, (f ∈ b.freeList ∨ f ∈ b.lruList) ∧ ((b.fetchPage p).2.pages f).pinCount = 0 ∧
      f ∉ (b.fetchPage p).2.freeList ∧ f ∉ (b.fetchPage p).2.lruList := by
  obtain ⟨f, b1, hv, hgiven⟩ := fetchPage_failed hp hfail
  obtain ⟨hpages, hlists⟩ := findVictimPage_cases hv
  rw [hgiven.freeList, hgiven.lruList]
  have hin : f ∈ b.freeList ++ b.lruList := by rcases hlists with ⟨hfree, -⟩ | ⟨-, -, hlru⟩ <;> simp [*]
  refine ⟨f, List.mem_append.1 hin, by rw [hgiven.pins, hpages, hidle f hin], ?_⟩
  rcases hlists with ⟨hfree, hlru⟩ | ⟨hfree, hfree', hlru⟩
  · rw [hfree, ← hlru, List.cons_append, List.nodup_cons] at hnd
    exact not_or.1 fun hc => hnd.1 (List.mem_append.2 hc)
  · rw [hfree, hlru, List.nil_append, ← List.concat_eq_append, List.nodup_concat] at hnd
    exact ⟨by rw [hfree']; exact List.not_mem_nil, hnd.1⟩

/-- Whatever the victim is, a failed read leaves the page mapped. -/
theorem failed_fetch_not_intact (hp : b.pageTable p = none) (hfail : (b.fetchPage p).1 = .readError e) :
    ¬ Intact b (b.fetchPage p).2 p := by
  intro h
  obtain ⟨f, hserved⟩ := failed_fetch_served hp hfail
  exact h.notServed f hserved

/-- The first page of an empty file is asked for: the only frame is lost to it, and the second
fetch gives the page. -/
theorem failed_fetch_empty :
    ((init 1 (fun _ => 0) fun _ => []).fetchPage ⟨0, 0⟩).1 = .readError ⟨"DiskManager::read_page Error"⟩ ∧
    ¬ Intact (init 1 (fun _ => 0) fun _ => [])
      ((init 1 (fun _ => 0) fun _ => []).fetchPage ⟨0, 0⟩).2 ⟨0, 0⟩ := by
  refine ⟨by decide, fun h => ?_⟩
  exact h.notServed 0 (by decide +kernel)

theorem failed_fetch_negative : (init 1 (fun _ => 0) fun _ => []).pageTable ⟨0, -1⟩ = none ∧
    ((init 1 (fun _ => 0) fun _ => []).fetchPage ⟨0, -1⟩).1 = .readError ⟨"Failed to seek to page location"⟩ ∧
    ¬ Intact (init 1 (fun _ => 0) fun _ => [])
      ((init 1 (fun _ => 0) fun _ => []).fetchPage ⟨0, -1⟩).2 ⟨0, -1⟩ := by
  have hfail : ((init 1 (fun _ => 0) fun _ => []).fetchPage ⟨0, -1⟩).1 =
      .readError ⟨"Failed to seek to page location"⟩ := by
    decide +kernel
  exact ⟨rfl, hfail, failed_fetch_not_intact rfl hfail⟩

end BytePool

end Rmdb

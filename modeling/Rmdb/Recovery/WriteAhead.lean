import Rmdb.Recovery.LogManager
import Rmdb.Storage.PinnedPages

namespace Rmdb

open BufferPoolManager

variable {n : Nat}

/-- What changes the bytes of a page: the operation of a log record, the rollback of one, or something
that is not logged. -/
inductive PageEdit
  | operation (lsn : Lsn) (edit : PageData → PageData)
  | rollback (lsn : Lsn) (edit : PageData → PageData)
  | unlogged (edit : PageData → PageData)

namespace PageEdit

def run : PageEdit → PageData → PageData
  | operation _ edit | rollback _ edit | unlogged edit => edit

def replay (base : PageData) (edits : List PageEdit) : PageData := edits.foldl (fun d e => e.run d) base

def reflect (lsns : List Lsn) : PageEdit → List Lsn
  | operation lsn _ => lsns ++ [lsn]
  | rollback lsn _ => lsns.filter fun x => x ≠ lsn
  | unlogged _ => lsns

def reflected (edits : List PageEdit) : List Lsn := edits.foldl reflect []

end PageEdit

namespace BufferPoolManager

variable (b : BufferPoolManager n)

def dirtyWrite (f : Fin n) : List (PageId × Fin n) :=
  match (b.pages f).id with
  | some p => if (b.pages f).isDirty then [(p, f)] else []
  | none => []

def victimWrite : List (PageId × Fin n) :=
  match b.findVictimPage with
  | some (f, _) => b.dirtyWrite f
  | none => []

def flushAllWrites (only : PageId → Bool) : List PageId → List (PageId × Fin n)
  | [] => []
  | p :: order =>
      match b.pageTable p with
      | none => flushAllWrites only order
      | some f => (if only p && (b.pages f).isDirty then [(p, f)] else []) ++ flushAllWrites only order

def deleteAllWrites (fd : Nat) : List PageId → List (PageId × Fin n)
  | [] => []
  | p :: order =>
      if p.fd = fd then
        match b.pageTable p with
        | none => deleteAllWrites fd order
        | some f =>
            if (b.pages f).pinCount ≠ 0 then []
            else (if (b.pages f).isDirty then [(p, f)] else []) ++ deleteAllWrites fd order
      else deleteAllWrites fd order

def diskWrites : PoolCall n → List (PageId × Fin n)
  | .fetch p =>
      match b.pageTable p with
      | some _ => []
      | none => b.victimWrite
  | .new _ => b.victimWrite
  | .unpin _ _ | .write _ _ => []
  | .flush p =>
      match b.pageTable p with
      | some f => [(p, f)]
      | none => []
  | .flushAll only order => b.flushAllWrites only order
  | .delete p =>
      match b.pageTable p with
      | some f => if (b.pages f).pinCount = 0 ∧ (b.pages f).isDirty then [(p, f)] else []
      | none => []
  | .deleteAll fd order => b.deleteAllWrites fd order

end BufferPoolManager

structure WalPool (n : Nat) where
  pool : BufferPoolManager n
  log : LogManager
  frames : Fin n → List PageEdit
  images : PageId → List PageEdit

/-- The threads append records, flush the log, use the pool and edit pinned pages. -/
inductive WalStep (n : Nat)
  | append (t : TxnId) (prevLsn : Lsn) (body : LogBody)
  | flushLog
  | call (c : PoolCall n)
  | edit (f : Fin n) (e : PageEdit)

namespace WalPool

def start (n : Nat) (disk : Disk) (fd2pageno : Nat → Nat) : WalPool n :=
  ⟨.init n disk fd2pageno, .init, fun _ => [], fun _ => []⟩

def save (frames : Fin n → List PageEdit) (images : PageId → List PageEdit) (writes : List (PageId × Fin n)) :
    PageId → List PageEdit :=
  writes.foldl (fun images w => Function.update images w.1 (frames w.2)) images

def load (s : WalPool n) (images : PageId → List PageEdit) : PoolCall n → Fin n → List PageEdit
  | .fetch p =>
      match s.pool.pageTable p, s.pool.findVictimPage with
      | none, some (f, _) => Function.update s.frames f (images p)
      | _, _ => s.frames
  | .new _ =>
      match s.pool.findVictimPage with
      | some (f, _) => Function.update s.frames f [.unlogged fun _ => .zero]
      | none => s.frames
  | _ => s.frames

def call (s : WalPool n) (c : PoolCall n) : WalPool n :=
  let images := save s.frames s.images (s.pool.diskWrites c)
  { s with pool := c.exec s.pool, frames := s.load images c, images := images }

/-- The executors append the log record before they change the page. -/
def Logged (s : WalPool n) : PageEdit → Prop
  | .operation lsn _ => lsn ∈ s.log.records.map LogRecord.lsn
  | .rollback _ _ | .unlogged _ => True

instance (s : WalPool n) (e : PageEdit) : Decidable (s.Logged e) := by
  cases e <;> unfold Logged <;> infer_instance

def step (s : WalPool n) : WalStep n → Option (WalPool n)
  | .append t prevLsn body => some { s with log := s.log.addLogToBuffer t prevLsn body }
  | .flushLog => some { s with log := s.log.flushLogToDisk }
  | .call (.write _ _) => none
  | .call c => some (s.call c)
  | .edit f e =>
      if 0 < (s.pool.pages f).pinCount ∧ s.Logged e then
        some { s with
          pool := s.pool.write f (e.run (s.pool.pages f).data)
          frames := Function.update s.frames f (s.frames f ++ [e]) }
      else none

/-- Every operation that an image on the disk reflects has its record in the log file. -/
def LogFirst (s : WalPool n) : Prop :=
  ∀ p, ∀ lsn ∈ PageEdit.reflected (s.images p), lsn ∈ s.log.file.map LogRecord.lsn

/-- No page is written while the log record of an operation on it is only in the log buffer. -/
def WritesLogged (s : WalPool n) : WalStep n → Prop
  | .call c =>
      ∀ w ∈ s.pool.diskWrites c, ∀ lsn ∈ PageEdit.reflected (s.frames w.2),
        lsn ∈ s.log.file.map LogRecord.lsn
  | _ => True

section Save

variable {frames : Fin n → List PageEdit} {images : PageId → List PageEdit} {writes : List (PageId × Fin n)}
  {p : PageId} {f : Fin n}

theorem save_of_not_mem (h : ∀ w ∈ writes, w.1 ≠ p) : save frames images writes p = images p := by
  induction writes generalizing images with
  | nil => rfl
  | cons w writes ih =>
      have hrest : save frames images (w :: writes) p =
        save frames (Function.update images w.1 (frames w.2)) writes p := rfl
      rw [hrest, ih fun x hx => h x (List.mem_cons_of_mem _ hx)]
      exact Function.update_of_ne (h w List.mem_cons_self).symm _ _

theorem save_of_mem {owner : PageId → Option (Fin n)} (howner : ∀ w ∈ writes, owner w.1 = some w.2)
    (h : (p, f) ∈ writes) : save frames images writes p = frames f := by
  induction writes generalizing images with
  | nil => cases h
  | cons w writes ih =>
      have hrest : save frames images (w :: writes) p =
        save frames (Function.update images w.1 (frames w.2)) writes p := rfl
      have howner' : ∀ x ∈ writes, owner x.1 = some x.2 := fun x hx => howner x (List.mem_cons_of_mem _ hx)
      rw [hrest]
      by_cases hlater : ∃ x ∈ writes, x.1 = p
      · obtain ⟨⟨p', g⟩, hx, rfl⟩ := hlater
        have hgf : g = f := Option.some.inj ((howner' _ hx).symm.trans (howner (p', f) h))
        exact ih howner' (hgf ▸ hx)
      · rw [save_of_not_mem fun x hx hp => hlater ⟨x, hx, hp⟩]
        rcases List.mem_cons.1 h with rfl | h
        · exact Function.update_self _ _ _
        · exact absurd ⟨_, h, rfl⟩ hlater

end Save

section Writes

variable {b : BufferPoolManager n} {c : PoolCall n} {fd : Nat} {order : List PageId}

theorem victimWrite_owned (b : BufferPoolManager n) : ∃ owner : PageId → Option (Fin n),
    ∀ w ∈ b.victimWrite, owner w.1 = some w.2 := by
  rw [victimWrite]
  split
  · rename_i f _ _
    refine ⟨fun _ => some f, fun w hw => ?_⟩
    rw [dirtyWrite] at hw
    split at hw
    · split at hw
      · rw [List.mem_singleton.1 hw]
      · cases hw
    · cases hw
  · exact ⟨fun _ => none, nofun⟩

theorem flushAllWrites_owned {only : PageId → Bool} :
    ∀ w ∈ b.flushAllWrites only order, w.1 ∈ order ∧ b.pageTable w.1 = some w.2 := by
  induction order with
  | nil => exact nofun
  | cons p order ih =>
      intro w hw
      have hlater : w ∈ b.flushAllWrites only order → w.1 ∈ p :: order ∧ b.pageTable w.1 = some w.2 :=
        fun hw => (ih w hw).imp_left (List.mem_cons_of_mem _)
      rw [flushAllWrites] at hw
      split at hw
      · exact hlater hw
      · rename_i f hp
        rcases List.mem_append.1 hw with hw | hw
        · split at hw
          · rw [List.mem_singleton.1 hw]
            exact ⟨List.mem_cons_self, hp⟩
          · cases hw
        · exact hlater hw

theorem flushWrites_owned {p : PageId} : ∀ w ∈ b.diskWrites (.flush p), b.pageTable w.1 = some w.2 := by
  intro w hw
  rw [diskWrites] at hw
  split at hw
  · rename_i f hp
    rw [List.mem_singleton.1 hw]
    exact hp
  · cases hw

theorem deleteWrites_owned {p : PageId} : ∀ w ∈ b.diskWrites (.delete p), b.pageTable w.1 = some w.2 := by
  intro w hw
  rw [diskWrites] at hw
  split at hw
  · rename_i f hp
    split at hw
    · rw [List.mem_singleton.1 hw]
      exact hp
    · cases hw
  · cases hw

theorem deleteAllWrites_owned :
    ∀ w ∈ b.deleteAllWrites fd order, w.1 ∈ order ∧ b.pageTable w.1 = some w.2 := by
  induction order with
  | nil => exact nofun
  | cons p order ih =>
      intro w hw
      have hlater : w ∈ b.deleteAllWrites fd order → w.1 ∈ p :: order ∧ b.pageTable w.1 = some w.2 :=
        fun hw => (ih w hw).imp_left (List.mem_cons_of_mem _)
      rw [deleteAllWrites] at hw
      split at hw
      · split at hw
        · exact hlater hw
        · rename_i f hp
          split at hw
          · cases hw
          · rcases List.mem_append.1 hw with hw | hw
            · split at hw
              · rw [List.mem_singleton.1 hw]
                exact ⟨List.mem_cons_self, hp⟩
              · cases hw
            · exact hlater hw
      · exact hlater hw

theorem diskWrites_owned (b : BufferPoolManager n) (c : PoolCall n) : ∃ owner : PageId → Option (Fin n),
    ∀ w ∈ b.diskWrites c, owner w.1 = some w.2 := by
  cases c with
  | fetch p =>
      rw [diskWrites]
      split
      · exact ⟨fun _ => none, nofun⟩
      · exact victimWrite_owned b
  | new fd => exact victimWrite_owned b
  | unpin | write => exact ⟨fun _ => none, nofun⟩
  | flush p => exact ⟨b.pageTable, flushWrites_owned⟩
  | flushAll only order => exact ⟨b.pageTable, fun w hw => (flushAllWrites_owned w hw).2⟩
  | delete p => exact ⟨b.pageTable, deleteWrites_owned⟩
  | deleteAll fd order => exact ⟨b.pageTable, fun w hw => (deleteAllWrites_owned w hw).2⟩

end Writes

section Images

variable {b b1 b' : BufferPoolManager n} {c : PoolCall n} {p q : PageId} {f g : Fin n} {disk : Disk}
  {order : List PageId}

def writeAll (b : BufferPoolManager n) (disk : Disk) (writes : List (PageId × Fin n)) : Disk :=
  writes.foldl (fun disk w => disk.writePage w.1 (b.pages w.2).data) disk

theorem findVictimPage_same (hv : b.findVictimPage = some (f, b1)) :
    b1.disk = b.disk ∧ b1.pages = b.pages := by
  rw [findVictimPage] at hv
  split at hv
  · cases hv
    exact ⟨rfl, rfl⟩
  · obtain ⟨v, -, hv⟩ := Option.map_eq_some_iff.1 hv
    cases hv
    exact ⟨rfl, rfl⟩

theorem writeAll_dirtyWrite : writeAll b disk (b.dirtyWrite f) = writeBack disk (b.pages f) := by
  rw [dirtyWrite, writeBack]
  cases (b.pages f).id with
  | none => rfl
  | some p =>
      simp only
      split <;> rfl

theorem writeAll_append {ws ws' : List (PageId × Fin n)} :
    writeAll b disk (ws ++ ws') = writeAll b (writeAll b disk ws) ws' :=
  List.foldl_append

theorem writeAll_congr {ws : List (PageId × Fin n)} (h : ∀ w ∈ ws, (b'.pages w.2).data = (b.pages w.2).data) :
    writeAll b' disk ws = writeAll b disk ws := by
  induction ws generalizing disk with
  | nil => rfl
  | cons w ws ih =>
      rw [writeAll, writeAll, List.foldl_cons, List.foldl_cons, h w List.mem_cons_self]
      exact ih fun x hx => h x (List.mem_cons_of_mem _ hx)

theorem writeAll_of_not_mem {ws : List (PageId × Fin n)} (h : ∀ w ∈ ws, w.1 ≠ p) :
    writeAll b disk ws p = disk p ∨ disk p = none ∧ writeAll b disk ws p = some .zero := by
  induction ws generalizing disk with
  | nil => exact .inl rfl
  | cons w ws ih =>
      have hp : p ≠ w.1 := (h w List.mem_cons_self).symm
      have hfirst : disk.writePage w.1 (b.pages w.2).data p = disk p ∨
          disk p = none ∧ disk.writePage w.1 (b.pages w.2).data p = some .zero := by
        rw [Disk.writePage, if_neg hp]
        cases disk p with
        | some old => exact .inl rfl
        | none =>
            simp only
            split
            · exact .inr ⟨trivial, rfl⟩
            · exact .inl rfl
      have hrest := @ih (disk.writePage w.1 (b.pages w.2).data) fun x hx => h x (List.mem_cons_of_mem _ hx)
      rw [writeAll, List.foldl_cons]
      rcases hfirst with hsame | ⟨hnone, hzero⟩
      · rw [hsame] at hrest
        exact hrest
      · rw [hzero] at hrest
        refine .inr ⟨hnone, ?_⟩
        exact hrest.resolve_right fun hc => by cases hc.1

theorem writeAll_of_mem {ws : List (PageId × Fin n)} {owner : PageId → Option (Fin n)}
    (howner : ∀ w ∈ ws, owner w.1 = some w.2) (h : (p, f) ∈ ws) :
    writeAll b disk ws p = some (b.pages f).data := by
  induction ws generalizing disk with
  | nil => cases h
  | cons w ws ih =>
      have howner' : ∀ x ∈ ws, owner x.1 = some x.2 := fun x hx => howner x (List.mem_cons_of_mem _ hx)
      rw [writeAll, List.foldl_cons]
      by_cases hlater : ∃ x ∈ ws, x.1 = p
      · obtain ⟨⟨p', g⟩, hx, rfl⟩ := hlater
        have hgf : g = f := Option.some.inj ((howner' _ hx).symm.trans (howner (p', f) h))
        exact ih howner' (hgf ▸ hx)
      · have hrest : writeAll b (disk.writePage w.1 (b.pages w.2).data) ws p = _ ∨ _ :=
          writeAll_of_not_mem fun x hx hp => hlater ⟨x, hx, hp⟩
        rcases List.mem_cons.1 h with rfl | h
        · rw [writePage_self] at hrest
          exact hrest.resolve_right fun hc => by cases hc.1
        · exact absurd ⟨_, h, rfl⟩ hlater

theorem flushAll_congr {only : PageId → Bool}
    (h : ∀ q ∈ order, b'.pageTable q = b.pageTable q ∧ ∀ g, b.pageTable q = some g →
      (b'.pages g).isDirty = (b.pages g).isDirty) :
    b'.flushAllWrites only order = b.flushAllWrites only order := by
  induction order with
  | nil => rfl
  | cons q order ih =>
      obtain ⟨htab, hdirty⟩ := h q List.mem_cons_self
      rw [flushAllWrites, flushAllWrites, htab, ih fun x hx => h x (List.mem_cons_of_mem _ hx)]
      cases hp : b.pageTable q with
      | none => rfl
      | some g => simp only [hdirty g hp]

theorem flushAll_disk (hI : PoolInv b) {only : PageId → Bool} (hnd : order.Nodup) :
    (b.flushAllPages only order).disk = writeAll b b.disk (b.flushAllWrites only order) := by
  induction order generalizing b with
  | nil => rfl
  | cons p order ih =>
      obtain ⟨hp, hnd⟩ := List.nodup_cons.1 hnd
      have hrest := ih (hI.flushEntry only p) hnd
      have hstep : b.flushAllPages only (p :: order) = (flushEntry only b p).flushAllPages only order := rfl
      rw [hstep, hrest, flushAllWrites, flushEntry]
      cases htab : b.pageTable p with
      | none => rfl
      | some f =>
          simp only
          by_cases hc : only p && (b.pages f).isDirty
          · simp only [if_pos hc]
            have hsame : ∀ q ∈ order, ∀ g, b.pageTable q = some g → g ≠ f := by
              rintro q hq g hg rfl
              exact hp (hI.inj hg htab ▸ hq)
            have hws : BufferPoolManager.flushAllWrites
                { b with
                  disk := writeBack b.disk (b.pages f)
                  pages := Function.update b.pages f { b.pages f with isDirty := false } }
                only order = b.flushAllWrites only order :=
                  flushAll_congr fun q hq => ⟨rfl, fun g hg => by
                    simp only [Function.update_of_ne (hsame q hq g hg)]⟩
            have hback : writeBack b.disk (b.pages f) = b.disk.writePage p (b.pages f).data := by
              rw [writeBack, (hI.table htab).1]
              exact if_pos (Bool.and_eq_true_iff.1 hc).2
            rw [hws, hback, writeAll_append]
            refine writeAll_congr fun w _ => ?_
            by_cases hw : w.2 = f
            · simp only [hw, Function.update_self]
            · simp only [Function.update_of_ne hw]
          · simp only [if_neg hc]
            rfl

theorem deleteAll_congr {fd : Nat}
    (h : ∀ q ∈ order, b'.pageTable q = b.pageTable q ∧ ∀ g, b.pageTable q = some g →
      b'.pages g = b.pages g) :
    b'.deleteAllWrites fd order = b.deleteAllWrites fd order := by
  induction order with
  | nil => rfl
  | cons q order ih =>
      obtain ⟨htab, hpages⟩ := h q List.mem_cons_self
      rw [deleteAllWrites, deleteAllWrites, htab, ih fun x hx => h x (List.mem_cons_of_mem _ hx)]
      cases hp : b.pageTable q with
      | none => rfl
      | some g => simp only [hpages g hp]

theorem deleteAll_disk (hI : PoolInv b) (fd : Nat) (hnd : order.Nodup) :
    (deleteAllPages fd b order).2.disk = writeAll b b.disk (b.deleteAllWrites fd order) := by
  induction order generalizing b with
  | nil => rfl
  | cons p order ih =>
      obtain ⟨hp, hnd⟩ := List.nodup_cons.1 hnd
      rw [deleteAllPages, deleteAllWrites]
      split
      · cases htab : b.pageTable p with
        | none => exact ih hI hnd
        | some f =>
            simp only
            split
            · rfl
            · rename_i hpin
              have hsame : ∀ q ∈ order, ∀ g, b.pageTable q = some g → g ≠ f := by
                rintro q hq g hg rfl
                exact hp (hI.inj hg htab ▸ hq)
              have hws : (b.freeFrame p f).deleteAllWrites fd order = b.deleteAllWrites fd order := by
                refine deleteAll_congr fun q hq => ⟨?_, fun g hg => ?_⟩
                · have hqp : q ≠ p := fun hc => hp (hc ▸ hq)
                  simp only [freeFrame, Function.update_of_ne hqp]
                · simp only [freeFrame, Function.update_of_ne (hsame q hq g hg)]
              have hback : (b.freeFrame p f).disk =
                  writeAll b b.disk (if (b.pages f).isDirty then [(p, f)] else []) := by
                rw [freeFrame, writeBack, (hI.table htab).1]
                simp only
                split <;> rfl
              rw [ih (hI.freeFrame htab (not_not.1 hpin)) hnd, hws, writeAll_append, hback]
              refine writeAll_congr fun w hw => ?_
              obtain ⟨hin, hown⟩ := deleteAllWrites_owned w hw
              simp only [freeFrame, Function.update_of_ne (hsame w.1 hin w.2 hown)]
      · exact ih hI hnd

def WalksOnce : PoolCall n → Prop
  | .flushAll _ order | .deleteAll _ order => order.Nodup
  | _ => True

theorem victim_disk (hv : b.findVictimPage = some (f, b1)) (fd2pageno : Nat → Nat) (p : PageId) :
    ({ b1 with fd2pageno := fd2pageno }.updatePage f p).disk = writeAll b b.disk b.victimWrite := by
  obtain ⟨hdisk, hpages⟩ := findVictimPage_same hv
  rw [victimWrite, hv]
  simp only [updatePage, hdisk, hpages]
  exact writeAll_dirtyWrite.symm

theorem exec_disk (hI : PoolInv b) (hw : WalksOnce c) :
    (c.exec b).disk = writeAll b b.disk (b.diskWrites c) := by
  cases c with
  | fetch p =>
      rw [PoolCall.exec, fetchPage, diskWrites]
      cases hp : b.pageTable p with
      | some f => rfl
      | none =>
          cases hv : b.findVictimPage with
          | none =>
              simp only [victimWrite, hv]
              rfl
          | some v =>
              have hdisk := victim_disk hv v.2.fd2pageno p
              simp only
              split <;> exact hdisk
  | new fd =>
      rw [PoolCall.exec, newPage, diskWrites]
      cases hv : b.findVictimPage with
      | none =>
          simp only [victimWrite, hv]
          rfl
      | some v => exact victim_disk hv _ ⟨fd, v.2.fd2pageno fd⟩
  | unpin p isDirty =>
      rw [PoolCall.exec, unpinPage]
      split
      · rfl
      · split <;> rfl
  | flush p =>
      rw [PoolCall.exec, flushPage, diskWrites]
      cases b.pageTable p <;> rfl
  | flushAll only order => exact flushAll_disk hI hw
  | delete p =>
      rw [PoolCall.exec, deletePage, diskWrites]
      cases hp : b.pageTable p with
      | none => rfl
      | some f =>
          simp only
          by_cases hpin : (b.pages f).pinCount = 0
          · rw [if_neg (not_not.2 hpin)]
            simp only [freeFrame, writeBack, (hI.table hp).1, hpin, true_and]
            split <;> rfl
          · rw [if_pos hpin, if_neg fun hc => hpin hc.1]
            rfl
  | deleteAll fd order => exact deleteAll_disk hI fd hw
  | write f data => rfl

def Fewer (b b' : BufferPoolManager n) : Prop :=
  ∀ p f, b'.pageTable p = some f → b.pageTable p = some f ∧ (b'.pages f).data = (b.pages f).data

theorem Fewer.refl (b : BufferPoolManager n) : Fewer b b := fun _ _ h => ⟨h, rfl⟩

theorem Fewer.trans {b'' : BufferPoolManager n} (h : Fewer b b') (h' : Fewer b' b'') : Fewer b b'' := by
  intro p f hp
  obtain ⟨hp', hdata'⟩ := h' p f hp
  obtain ⟨hp, hdata⟩ := h p f hp'
  exact ⟨hp, hdata'.trans hdata⟩

theorem Fewer.setFrame {page : Page} (hdata : page.data = (b.pages f).data) {lruList : List (Fin n)} :
    Fewer b { b with disk := disk, lruList := lruList, pages := Function.update b.pages f page } := by
  intro p g hp
  refine ⟨hp, ?_⟩
  by_cases hgf : g = f
  · simp only [hgf, Function.update_self]
    exact hdata
  · simp only [Function.update_of_ne hgf]

theorem Fewer.freeFrame (hI : PoolInv b) (hp : b.pageTable p = some f) : Fewer b (b.freeFrame p f) := by
  intro q g hq
  by_cases hqp : q = p
  · simp only [BufferPoolManager.freeFrame, hqp, Function.update_self] at hq
    cases hq
  · simp only [BufferPoolManager.freeFrame, Function.update_of_ne hqp] at hq ⊢
    have hgf : g ≠ f := by
      rintro rfl
      exact hqp (hI.inj hq hp)
    exact ⟨hq, by simp only [Function.update_of_ne hgf]⟩

theorem Fewer.flushAll (only : PageId → Bool) (order : List PageId) :
    Fewer b (b.flushAllPages only order) := by
  induction order generalizing b with
  | nil => exact .refl b
  | cons p order ih =>
      have hone : Fewer b (flushEntry only b p) := by
        rw [flushEntry]
        split
        · exact .refl b
        · split
          · refine Fewer.setFrame ?_
            rfl
          · exact .refl b
      exact hone.trans ih

theorem Fewer.deleteAll (hI : PoolInv b) (fd : Nat) (order : List PageId) :
    Fewer b (deleteAllPages fd b order).2 := by
  induction order generalizing b with
  | nil => exact .refl b
  | cons p order ih =>
      rw [deleteAllPages]
      split
      · cases hp : b.pageTable p with
        | none => exact ih hI
        | some f =>
            simp only
            split
            · exact .refl b
            · rename_i hpin
              exact (Fewer.freeFrame hI hp).trans (ih (hI.freeFrame hp (not_not.1 hpin)))
      · exact ih hI

end Images

section Made

variable {s s' : WalPool n} {a : WalStep n} {base : PageId → PageData}
  {b : BufferPoolManager n} {c : PoolCall n}

open PageEdit

structure Made (base : PageId → PageData) (s : WalPool n) : Prop where
  inv : PoolInv s.pool
  disk : ∀ p d, s.pool.disk p = some d → d = replay (base p) (s.images p)
  absent : ∀ p, s.pool.disk p = none → replay (base p) (s.images p) = .zero
  frame : ∀ p f, s.pool.pageTable p = some f → (s.pool.pages f).data = replay (base p) (s.frames f)

theorem start_made (n : Nat) (disk : Disk) (fd2pageno : Nat → Nat) :
    Made (fun p => (disk p).getD .zero) (start n disk fd2pageno) where
  inv := init_inv n disk fd2pageno
  disk := by
    intro p d hd
    have hd' : disk p = some d := hd
    simp [start, replay, hd']
  absent := by
    intro p hp
    have hp' : disk p = none := hp
    simp [start, replay, hp']
  frame := nofun

def Careful (s : WalPool n) : WalStep n → Prop
  | .call c => Sound s.pool c ∧ WalksOnce c
  | _ => True

theorem victimWrite_inPool (hI : PoolInv b) : ∀ w ∈ b.victimWrite, b.pageTable w.1 = some w.2 := by
  intro w hw
  rw [victimWrite] at hw
  split at hw
  · rename_i f _ _
    rw [dirtyWrite] at hw
    split at hw
    · rename_i p hid
      split at hw
      · rename_i hdirty
        have hfree : f ∉ b.freeList := by
          intro hc
          rw [(hI.free hc).2] at hdirty
          cases hdirty
        obtain ⟨q, hidq, hq⟩ := hI.held hfree
        cases hid.symm.trans hidq
        rw [List.mem_singleton.1 hw]
        exact hq
      · cases hw
    · cases hw
  · cases hw

theorem diskWrites_inPool (hI : PoolInv b) : ∀ w ∈ b.diskWrites c, b.pageTable w.1 = some w.2 := by
  intro w hw
  cases c with
  | fetch p =>
      rw [diskWrites] at hw
      split at hw
      · cases hw
      · exact victimWrite_inPool hI w hw
  | new fd => exact victimWrite_inPool hI w hw
  | unpin | write => cases hw
  | flush p => exact flushWrites_owned w hw
  | delete p => exact deleteWrites_owned w hw
  | flushAll only order => exact (flushAllWrites_owned w hw).2
  | deleteAll fd order => exact (deleteAllWrites_owned w hw).2

theorem Made.saved (h : Made base s) (hw : WalksOnce c) :
    (∀ p d, (c.exec s.pool).disk p = some d → d = replay (base p) ((s.call c).images p)) ∧
      ∀ p, (c.exec s.pool).disk p = none → replay (base p) ((s.call c).images p) = .zero := by
  have hdisk := exec_disk h.inv hw
  have howner := diskWrites_inPool (c := c) h.inv
  have hpage : ∀ p, (∃ f, (p, f) ∈ s.pool.diskWrites c ∧ (c.exec s.pool).disk p = some (s.pool.pages f).data ∧
        (s.call c).images p = s.frames f) ∨
      (s.call c).images p = s.images p ∧ ((c.exec s.pool).disk p = s.pool.disk p ∨
        s.pool.disk p = none ∧ (c.exec s.pool).disk p = some .zero) := by
    intro p
    by_cases hp : ∃ w ∈ s.pool.diskWrites c, w.1 = p
    · obtain ⟨⟨p', f⟩, hmem, rfl⟩ := hp
      exact .inl ⟨f, hmem, by rw [hdisk, writeAll_of_mem howner hmem], save_of_mem howner hmem⟩
    · have hnot : ∀ w ∈ s.pool.diskWrites c, w.1 ≠ p := fun w hmem hc => hp ⟨w, hmem, hc⟩
      rw [hdisk]
      exact .inr ⟨save_of_not_mem hnot, writeAll_of_not_mem hnot⟩
  constructor
  · intro p d hd
    obtain ⟨f, hmem, hdata, himages⟩ | ⟨himages, hsame | ⟨hnone, hzero⟩⟩ := hpage p
    · rw [hdata] at hd
      cases hd
      rw [himages]
      exact h.frame p f (howner _ hmem)
    · rw [himages]
      exact h.disk p d (hsame ▸ hd)
    · rw [hzero] at hd
      cases hd
      rw [himages, h.absent p hnone]
  · intro p hp
    obtain ⟨f, -, hdata, -⟩ | ⟨himages, hsame | ⟨-, hzero⟩⟩ := hpage p
    · rw [hdata] at hp
      cases hp
    · rw [himages]
      exact h.absent p (hsame ▸ hp)
    · rw [hzero] at hp
      cases hp

theorem Made.taken (h : Made base s) {f g : Fin n} {p q : PageId} (ht : Taken s.pool f p b) {page : Page}
    {edits : List PageEdit} (hdata : page.data = replay (base p) edits) (hq : b.pageTable q = some g) :
    (Function.update b.pages f page g).data = replay (base q) (Function.update s.frames f edits g) := by
  rw [ht.table] at hq
  by_cases hqp : q = p
  · subst hqp
    rw [if_pos rfl] at hq
    cases hq
    rw [Function.update_self, Function.update_self]
    exact hdata
  · rw [if_neg hqp] at hq
    split at hq
    · cases hq
    · rename_i hne
      have hgf : g ≠ f := fun hc => hne (hc ▸ hq)
      rw [Function.update_of_ne hgf, Function.update_of_ne hgf, ht.pages, Function.update_of_ne hgf]
      exact h.frame q g hq

theorem Made.call (h : Made base s) (hs : Sound s.pool c) (hw : WalksOnce c) (hc : ∀ f d, c ≠ .write f d) :
    Made base (s.call c) := by
  obtain ⟨hdisk, habsent⟩ := h.saved hw
  have hfewer : Fewer s.pool (c.exec s.pool) → (s.call c).frames = s.frames →
    ∀ p f, (c.exec s.pool).pageTable p = some f →
      ((c.exec s.pool).pages f).data = replay (base p) ((s.call c).frames f) := by
    intro hless hframes p f hp
    obtain ⟨hp', hdata⟩ := hless p f hp
    rw [hdata, hframes]
    exact h.frame p f hp'
  refine ⟨h.inv.exec hs, hdisk, habsent, ?_⟩
  change ∀ p f, (c.exec s.pool).pageTable p = some f →
    ((c.exec s.pool).pages f).data = replay (base p) ((s.call c).frames f)
  cases c with
  | write f d => exact absurd rfl (hc f d)
  | unpin p isDirty =>
      refine hfewer ?_ rfl
      rw [PoolCall.exec, unpinPage]
      split
      · exact .refl _
      · split
        · exact .refl _
        · refine Fewer.setFrame ?_
          rfl
  | flush p =>
      refine hfewer ?_ rfl
      rw [PoolCall.exec, flushPage]
      split
      · exact .refl _
      · refine Fewer.setFrame ?_
        rfl
  | flushAll only order => exact hfewer (Fewer.flushAll only order) rfl
  | delete p =>
      refine hfewer ?_ rfl
      rw [PoolCall.exec, deletePage]
      split
      · exact .refl _
      · rename_i f hp
        split
        · exact .refl _
        · exact Fewer.freeFrame h.inv hp
  | deleteAll fd order => exact hfewer (Fewer.deleteAll h.inv fd order) rfl
  | fetch p =>
      cases hp : s.pool.pageTable p with
      | some f =>
          refine hfewer ?_ (by simp only [WalPool.call, load, hp])
          simp only [PoolCall.exec, fetchPage, hp]
          refine Fewer.setFrame ?_
          rfl
      | none =>
          cases hv : s.pool.findVictimPage with
          | none =>
              refine hfewer ?_ (by simp only [WalPool.call, load, hp, hv])
              simp only [PoolCall.exec, fetchPage, hp, hv]
              exact .refl _
          | some v =>
              obtain ⟨f, b1⟩ := v
              have ht : Taken s.pool f p (b1.updatePage f p) :=
                taken_of_victim h.inv (hs hp) hv p b1.fd2pageno
              intro q g hq
              have hframes : (s.call (.fetch p)).frames =
                  Function.update s.frames f ((s.call (.fetch p)).images p) := by
                simp only [WalPool.call, load, hp, hv]
              have hpage := hdisk p
              have hgone := habsent p
              rw [hframes]
              simp only [PoolCall.exec, fetchPage, hp, hv] at hq hpage hgone ⊢
              cases hread : (b1.updatePage f p).disk p with
              | none =>
                  simp only [hread] at hq hgone ⊢
                  have hzero := hgone trivial
                  have hmade :=
                    h.taken ht (show (⟨some p, .zero, false, 0⟩ : Page).data = _ from hzero.symm) hq
                  rw [ht.pages, Function.update_idem] at hmade
                  rw [ht.pages]
                  exact hmade
              | some d =>
                  simp only [hread] at hq hpage ⊢
                  exact h.taken ht (hpage d rfl) hq
  | new fd =>
      cases hv : s.pool.findVictimPage with
      | none =>
          refine hfewer ?_ (by simp only [WalPool.call, load, hv])
          simp only [PoolCall.exec, newPage, hv]
          exact .refl _
      | some v =>
          obtain ⟨f, b1⟩ := v
          have ht := taken_of_victim h.inv hs.1 hv ⟨fd, b1.fd2pageno fd⟩
            (Function.update b1.fd2pageno fd (b1.fd2pageno fd + 1))
          intro q g hq
          have hframes : (s.call (.new fd)).frames =
              Function.update s.frames f [.unlogged fun _ => .zero] := by
            simp only [WalPool.call, load, hv]
          rw [hframes]
          simp only [PoolCall.exec, newPage, hv] at hq ⊢
          exact h.taken ht (congrArg Page.data ht.page) hq

theorem Made.step (h : Made base s) (hc : Careful s a) (hrun : step s a = some s') : Made base s' := by
  cases a with
  | append | flushLog =>
      cases hrun
      exact ⟨h.inv, h.disk, h.absent, h.frame⟩
  | call c =>
      cases c with
      | write => cases hrun
      | fetch | new | unpin | flush | flushAll | delete | deleteAll =>
          cases hrun
          exact h.call hc.1 hc.2 nofun
  | edit f e =>
      rw [WalPool.step] at hrun
      split at hrun
      · rename_i hedit
        cases hrun
        refine ⟨h.inv.exec (c := .write f _) hedit.1, h.disk, h.absent, fun p g hg => ?_⟩
        have hold := h.frame p g hg
        by_cases hgf : g = f
        · subst hgf
          simp only [BufferPoolManager.write, setPage, Function.update_self, replay, List.foldl_append]
          rw [hold]
          rfl
        · simp only [BufferPoolManager.write, setPage, Function.update_of_ne hgf]
          exact hold
      · cases hrun

/-- The lists of edits account for the bytes, in every state of a run that keeps to the rules of the pool. -/
theorem made_always (n : Nat) (disk : Disk) (fd2pageno : Nat → Nat) (steps : List (WalStep n))
    (h : Trace.Guarded step Careful (start n disk fd2pageno) steps) :
    Trace.Always step (Made fun p => (disk p).getD .zero) (start n disk fd2pageno) steps :=
  Trace.always_of_guarded (fun _ _ _ h hc hrun => h.step hc hrun) (start_made n disk fd2pageno) h

end Made

section Run

variable {s s' : WalPool n} {a : WalStep n}

theorem LogFirst.grow (h : LogFirst s) (himages : s'.images = s.images)
    (hfile : s.log.file <+: s'.log.file) : LogFirst s' := by
  intro p lsn hlsn
  rw [himages] at hlsn
  obtain ⟨r, hr, rfl⟩ := List.mem_map.1 (h p lsn hlsn)
  exact List.mem_map_of_mem (hfile.subset hr)

/-- A call keeps the rule exactly when it writes no page too early. -/
theorem LogFirst.call (h : LogFirst s) (c : PoolCall n) : LogFirst (s.call c) ↔ WritesLogged s (.call c) := by
  obtain ⟨owner, howner⟩ := diskWrites_owned s.pool c
  constructor
  · intro h' w hw
    have hp := h' w.1
    rw [show (s.call c).images = save s.frames s.images (s.pool.diskWrites c) from rfl,
      save_of_mem howner hw] at hp
    exact hp
  · intro hw p lsn hlsn
    rw [show (s.call c).images = save s.frames s.images (s.pool.diskWrites c) from rfl] at hlsn
    by_cases hp : ∃ w ∈ s.pool.diskWrites c, w.1 = p
    · obtain ⟨⟨p', f⟩, hmem, rfl⟩ := hp
      rw [save_of_mem howner hmem] at hlsn
      exact hw _ hmem lsn hlsn
    · rw [save_of_not_mem fun w hmem hc => hp ⟨w, hmem, hc⟩] at hlsn
      exact h p lsn hlsn

theorem LogFirst.step (h : LogFirst s) (hrun : step s a = some s') : LogFirst s' ↔ WritesLogged s a := by
  cases a with
  | append t prevLsn body =>
      cases hrun
      exact iff_of_true (h.grow rfl LogManager.file_prefix_addLogToBuffer) trivial
  | flushLog =>
      cases hrun
      exact iff_of_true (h.grow rfl LogManager.file_prefix_flushLogToDisk) trivial
  | call c =>
      cases c with
      | write => cases hrun
      | fetch | new | unpin | flush | flushAll | delete | deleteAll =>
          cases hrun
          exact h.call _
  | edit f e =>
      rw [WalPool.step] at hrun
      split at hrun
      · cases hrun
        exact iff_of_true (h.grow rfl List.prefix_rfl) trivial
      · cases hrun

/-- The images on the disk keep to the log in every state exactly when every page that is written does. -/
theorem logFirst_iff_writesLogged (n : Nat) (disk : Disk) (fd2pageno : Nat → Nat) (steps : List (WalStep n)) :
    Trace.Always step LogFirst (start n disk fd2pageno) steps ↔
      Trace.Guarded step WritesLogged (start n disk fd2pageno) steps := by
  refine Trace.always_iff_guarded_of_enabled (fun _ _ _ _ _ => trivial) (fun s a s' _ h hrun => h.step hrun)
    (fun s a hstop => ?_) trivial nofun
  cases a with
  | append | flushLog => cases hstop
  | edit => trivial
  | call c =>
      cases c with
      | write => exact nofun
      | fetch | new | unpin | flush | flushAll | delete | deleteAll => cases hstop

/-- An INSERT on page 0 of a file of two pages, and then a fetch of page 1 into the only frame. -/
def evictedInsert : List (WalStep 1) :=
  [.append 0 invalidLsn .begin, .append 0 0 (.write ⟨⟨"t", ⟨0, 0⟩⟩, .put [5, 0, 0, 0]⟩),
    .call (.fetch ⟨3, 0⟩), .edit 0 (.operation 1 fun _ => fun _ => 5), .call (.unpin ⟨3, 0⟩ true),
    .call (.fetch ⟨3, 1⟩)]

/-- The page is on the disk, and its record in the log buffer. -/
theorem evictedInsert_not_logFirst :
    ¬ Trace.Always step LogFirst (start 1 (fun p => if p.pageNo < 2 then some .zero else none) fun _ => 2)
      evictedInsert := by
  intro h
  have hrun : ∃ s, Trace.run step
    (start 1 (fun p => if p.pageNo < 2 then some .zero else none) fun _ => 2) evictedInsert = some s ∧
      s.log.file = [] ∧ PageEdit.reflected (s.images ⟨3, 0⟩) = [1] := ⟨_, rfl, rfl, rfl⟩
  obtain ⟨s, hrun, hfile, hlsns⟩ := hrun
  have hlast := h.last hrun ⟨3, 0⟩ 1
  rw [hlsns, hfile] at hlast
  cases hlast List.mem_cons_self

end Run

end WalPool

end Rmdb

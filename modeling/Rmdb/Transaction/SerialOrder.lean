import Mathlib.Data.Set.Card
import Rmdb.Transaction.RecordServer

namespace Rmdb

open TwoPhase LockState LockRequestQueue RmFileHandle

abbrev FileRecords := Rid → Option Bytes

def RecordAccess.denote : RecordAccess → TwoPhase.Access Int FileRecords
  | .get fd rid record => .read fd fun m => m rid = some record
  | .count fd n => .read fd fun m => ({rid | m rid ≠ none}.ncard : Int) = n
  | .insert fd rid buf => .write fd fun m => Function.update m rid (some buf)
  | .refused fd _ => .write fd fun m => m
  | .update fd rid buf => .write fd fun m => Function.update m rid ((m rid).map fun _ => buf)
  | .delete fd rid => .write fd fun m => Function.update m rid none

def FileWrite.back : FileWrite → FileRecords → FileRecords
  | .insertTuple _ rid, m => Function.update m rid none
  | .deleteTuple _ rid record, m => Function.update m rid (some record)
  | .updateTuple _ rid record, m => Function.update m rid ((m rid).map fun _ => record)

namespace RecordServer

variable (s : RecordServer)

def store : TwoPhase.Store TxnId Int FileRecords where
  live fd := (s.files fd).entry
  stable := s.committed
  log txn := (s.log txn).map RecordAccess.denote
  undo txn := (s.writeSet txn).map fun w => (w.fd, w.back)
  serial := s.serial.map fun e => (e.1, e.2.map RecordAccess.denote)

def isCommitted : RecordThread → Bool
  | .releasing committed | .ended committed => committed
  | _ => false

/-- When its lock is there, `get_record` finds a record at the rid, and an insert finds its slot free. -/
def Live : RecordAction → Prop
  | .getRecord txn fd rid => (s.locks.lockSharedOnTable txn fd).1 = .returned → (s.files fd).entry rid ≠ none
  | .insert txn _ =>
      match s.threads txn with
      | .chosen fd rid _ =>
          (s.locks.lockExclusiveOnTable txn fd).1 = .returned → (s.files fd).entry rid = none
      | _ => True
  | .wake txn =>
      match s.threads txn with
      | .getting fd rid => (s.files fd).entry rid ≠ none
      | .writing fd (.insert rid _ _) => (s.files fd).entry rid = none
      | _ => True
  | _ => True

/-- The run is as good as a serial one. The committed transactions, one after the other in the
order of their commits, find what they have found and make of the files what has been `committed`;
a transaction under way would so far find the same behind them; and where no write is pending the
files are as the committed transactions make them. -/
structure SerialRun (start : Int → FileRecords) : Prop where
  committed : Replays ((s.serial.flatMap Prod.snd).map RecordAccess.denote) start s.committed
  whole : (s.serial.map Prod.fst).Nodup ∧ ∀ txn, txn ∈ s.serial.map Prod.fst ↔
    isCommitted (s.threads txn) = true
  running : ∀ txn, s.threads txn = .running →
    ∃ db, Replays ((s.log txn).map RecordAccess.denote) s.committed db ∧
    ∀ fd, LockDataId.table fd ∈ s.locks.lockSet txn → db fd = (s.files fd).entry
  quiet : ∀ fd, (∀ txn, ∀ w ∈ s.writeSet txn, w.fd ≠ fd) → (s.files fd).entry = s.committed fd

section Invariant

def Holds (locks : LockState) (txn : TxnId) (fd : Int) : Prop := LockDataId.table fd ∈ locks.lockSet txn

def Excl (locks : LockState) (txn : TxnId) (fd : Int) : Prop :=
  LockDataId.table fd ∈ locks.lockSet txn ∧ (locks.getLockRequestQueue (.table fd)).HoldsX txn

def Fits (f : RmFileHandle) (rid : Rid) (buf : Bytes) : Prop :=
  f.InFile rid ∧ buf.length = f.fileHdr.recordSize

def WriteOk (txn : TxnId) (fd : Int) : RecordWrite → Prop
  | .insert rid buf _ => Fits (s.files fd) rid buf
  | .update rid record buf => s.found txn = some (fd, rid, record) ∧ buf.length = record.length
  | .delete rid record => s.found txn = some (fd, rid, record)

def UndoOk (f : RmFileHandle) : FileWrite → Prop
  | .insertTuple _ rid => f.InFile rid
  | .deleteTuple _ rid record | .updateTuple _ rid record => Fits f rid record

def ThreadOk (txn : TxnId) : Prop :=
  match s.threads txn with
  | .running => s.locks.waiting txn = none ∧ s.store.Active txn
  | .getting fd _ | .counting fd =>
      s.locks.waiting txn = some (.request (.table fd) .shared) ∧ s.store.Active txn
  | .chosen fd rid buf => s.locks.waiting txn = none ∧ s.store.Active txn ∧ Fits (s.files fd) rid buf
  | .writing fd w => (s.locks.waiting txn = some (.request (.table fd) .exlucsive) ∨
      s.locks.waiting txn = some (.upgrade (.table fd) .exlucsive)) ∧ s.store.Active txn ∧ s.WriteOk txn fd w
  | .dying => s.locks.waiting txn = none
  | .rollingBack => s.locks.waiting txn = none ∧ s.log txn = [] ∧ s.found txn = none
  | .releasing _ | .ended _ =>
      s.locks.waiting txn = none ∧ s.log txn = [] ∧ s.found txn = none ∧ s.writeSet txn = []

structure Inv (start : Int → FileRecords) (s : RecordServer) : Prop where
  locks : LockInv s.locks
  threads : ∀ txn, s.ThreadOk txn
  files : ∀ fd, RmInv (s.files fd)
  found : ∀ txn fd rid record, s.found txn = some (fd, rid, record) → Holds s.locks txn fd ∧
    (s.files fd).entry rid = some record
  undo : ∀ txn, ∀ w ∈ s.writeSet txn, UndoOk (s.files w.fd) w
  store : s.store.Inv (Holds s.locks) (Excl s.locks) start
  once : (s.serial.map Prod.fst).Nodup
  who : ∀ txn, txn ∈ s.serial.map Prod.fst ↔ isCommitted (s.threads txn) = true

end Invariant

end RecordServer

section Files

variable {f f' : RmFileHandle} {rid : Rid} {buf : Bytes} {m : FileRecords}

structure RmFileHandle.Becomes (f f' : RmFileHandle) (m : FileRecords) : Prop where
  inv : RmInv f'
  ext : Extends f f'
  entry : f'.entry = m

theorem RmFileHandle.Extends.refl (f : RmFileHandle) : Extends f f := ⟨rfl, rfl, fun _ hp => hp⟩

theorem RmFileHandle.Extends.trans {f'' : RmFileHandle} (h : Extends f f')
    (h' : Extends f' f'') : Extends f f'' :=
  ⟨h'.recordSize.trans h.recordSize, h'.capacity.trans h.capacity, fun p hp => h'.pages p (h.pages p hp)⟩

theorem insertRecordAt_becomes (h : RmInv f) (hin : RecordServer.Fits f rid buf) :
    ∃ f', f.insertRecordAt rid buf = .ok f' ∧ Becomes f f' (Function.update f.entry rid (some buf)) := by
  obtain ⟨f', hrun, hentry, hinv⟩ := insertRecordAt_spec h hin.1 hin.2
  exact ⟨f', hrun, hinv, insertRecordAt_extends hin.1 hrun, hentry⟩

theorem deleteRecord_becomes (h : RmInv f) (hin : f.InFile rid) :
    ∃ f', f.deleteRecord rid = .ok f' ∧ Becomes f f' (Function.update f.entry rid none) := by
  obtain ⟨f', hrun, hentry, hinv⟩ := deleteRecord_spec h hin
  exact ⟨f', hrun, hinv, deleteRecord_extends hin hrun, hentry⟩

theorem updateRecord_becomes (h : RmInv f) (hin : RecordServer.Fits f rid buf) :
    ∃ f', f.updateRecord rid buf = .ok f' ∧
      Becomes f f' (Function.update f.entry rid ((f.entry rid).map fun _ => buf)) := by
  obtain ⟨f', hrun, hentry, hinv⟩ := updateRecord_spec h hin.1 hin.2
  refine ⟨f', hrun, hinv, ?_, hentry⟩
  obtain ⟨page, hp⟩ := Option.ne_none_iff_exists'.1 hin.1.page
  rw [RmFileHandle.updateRecord, fetchPageHandle_eq hp] at hrun
  cases hrun
  exact extends_setPage

theorem length_of_entry {record : Bytes} (h : f.entry rid = some record) :
    record.length = f.fileHdr.recordSize := by
  rw [RmFileHandle.entry] at h
  split at h
  · cases h
  · split at h
    · rw [slotEntry] at h
      split at h
      · cases h
        simp [bytesAt]
      · cases h
    · cases h

theorem fits_of_entry {record : Bytes} (h : f.entry rid = some record) (hbuf : buf.length = record.length) :
    RecordServer.Fits f rid buf :=
  ⟨inFile_of_entry (by rw [h]; simp), hbuf.trans (length_of_entry h)⟩

theorem RecordServer.Fits.mono (hext : Extends f f') (h : RecordServer.Fits f rid buf) :
    RecordServer.Fits f' rid buf :=
  ⟨hext.inFile h.1, h.2.trans hext.recordSize.symm⟩

theorem getRecordCount_entry (h : RmInv f) :
    f.getRecordCount = .ok (({rid | f.entry rid ≠ none}.ncard : Nat) : Int) := by
  have hset : {rid | f.entry rid ≠ none} = (f.rids.toFinset : Set Rid) := by
    ext rid
    simp only [Set.mem_ofPred_eq, Finset.mem_coe, List.mem_toFinset, mem_rids h]
  rw [hset, Set.ncard_coe_finset, List.toFinset_card_of_nodup nodup_rids, getRecordCount_spec h]

theorem FileWrite.undo_becomes (w : FileWrite) (h : RmInv f) (hok : RecordServer.UndoOk f w) :
    ∃ f', w.undo f = .ok f' ∧ Becomes f f' (w.back f.entry) := by
  cases w with
  | insertTuple fd rid => exact deleteRecord_becomes h hok
  | deleteTuple fd rid record => exact insertRecordAt_becomes h hok
  | updateTuple fd rid record => exact updateRecord_becomes h hok

theorem RecordServer.UndoOk.mono (hext : Extends f f') {w : FileWrite} (h : UndoOk f w) : UndoOk f' w := by
  cases w with
  | insertTuple fd rid => exact hext.inFile h
  | deleteTuple fd rid record => exact Fits.mono hext h
  | updateTuple fd rid record => exact Fits.mono hext h

end Files

section Locks

namespace LockState

variable {l l' : LockState} {txn u : TxnId} {id j : LockDataId} {fd : Int} {mode : LockMode}
  {res : LockResult}

structure Grows (l l' : LockState) (txn : TxnId) : Prop where
  inv : LockInv l'
  held : ∀ u, l.lockSet u ⊆ l'.lockSet u
  heldX : ∀ id u, (l.getLockRequestQueue id).HoldsX u → (l'.getLockRequestQueue id).HoldsX u
  waiting : ∀ u, u ≠ txn → l'.waiting u = l.waiting u

theorem Grows.refl (h : LockInv l) (txn : TxnId) : Grows l l txn :=
  ⟨h, fun _ => Finset.Subset.refl _, fun _ _ hx => hx, fun _ _ => rfl⟩

theorem Acquires.grows (h : Acquires l l' txn id)
    (hother : ∀ j, j ≠ id → l'.getLockRequestQueue j = l.getLockRequestQueue j) :
    Grows l l' txn where
  inv := h.inv
  held u := by
    by_cases hu : u = txn
    · rw [hu]
      exact h.held
    · rw [h.lockSet u hu]
  heldX j u hx := by
    by_cases hj : j = id
    · rw [hj] at hx ⊢
      exact h.heldX u hx
    · rw [hother j hj]
      exact hx
  waiting := h.waiting

theorem LockInv.grows_call (h : LockInv l) (hw : l.waiting txn = none)
    (hm : mode = .shared ∨ mode = .exlucsive) (hcall : l.lockOnTable txn fd mode = (res, l')) :
    Grows l l' txn := by
  refine (h.acquires_call hw hm hcall).grows fun j hj => ?_
  rw [LockState.lockOnTable] at hcall
  simp only at hcall
  split at hcall
  · cases hcall
    rw [conclude_queue, if_neg hj]
  · cases hcall
    rw [conclude_queue, if_neg hj]

theorem LockInv.grows_wakeUp (h : LockInv l) (hs : l.wakeUp txn = some (res, l'))
    (hw : l.waiting txn = some (.request id .shared) ∨ l.waiting txn = some (.request id .exlucsive) ∨
      l.waiting txn = some (.upgrade id .exlucsive)) : Grows l l' txn := by
  refine (h.acquires_wakeUp hs hw).grows fun j hj => ?_
  rcases wakeUp_cases hs with ⟨i, m, r, -, -, -, -, hres⟩ | ⟨i, m, r, hi, -, -, -, hres⟩
  · cases hres
    rfl
  · cases hres
    have hij : i = id := by
      rw [hi] at hw
      rcases hw with hw | hw | hw <;> cases hw
      rfl
    change (l.setQueue i _).getLockRequestQueue j = _
    rw [getLockRequestQueue_setQueue, if_neg (by rw [hij]; exact hj)]

theorem LockInv.unlock_keeps (h : LockInv l) (hw : l.waiting txn = none) (hu : u ≠ txn)
    (hx : (l.getLockRequestQueue j).HoldsX u) : ((l.unlock txn id).getLockRequestQueue j).HoldsX u := by
  by_cases hj : j = id
  · rw [hj] at hx ⊢
    exact (h.within_unlock hw).frame.holdsX (h.queues id) hu hx
  · rw [getLockRequestQueue_unlock, if_neg hj]
    exact hx

end LockState

end Locks

namespace RecordServer

variable {s s' : RecordServer} {start : Int → FileRecords} {txn u : TxnId} {locks : LockState} {fd : Int}
  {f : RmFileHandle}

section Locked

theorem Excl.alone (h : LockInv locks) (hx : Excl locks txn fd) (hh : Holds locks u fd) :
    u = txn := h.alone hx.2 hh

/-- What a thread of another transaction has stays as it is when the files only grow. -/
theorem ThreadOk.congr (h : s.ThreadOk u) (hthread : s'.threads u = s.threads u)
    (hwait : s'.locks.waiting u = s.locks.waiting u) (hlog : s'.log u = s.log u)
    (hws : s'.writeSet u = s.writeSet u) (hfound : s'.found u = s.found u)
    (hext : ∀ fd, Extends (s.files fd) (s'.files fd)) : s'.ThreadOk u := by
  have hact : s'.store.Active u ↔ s.store.Active u := by simp only [TwoPhase.Store.Active, store, hlog, hws]
  have hwrite : ∀ fd w, s.WriteOk u fd w → s'.WriteOk u fd w := by
    intro fd w hw
    cases w with
    | insert rid buf accepted => exact Fits.mono (hext fd) hw
    | update rid record buf => exact ⟨hfound.trans hw.1, hw.2⟩
    | delete rid record => exact hfound.trans hw
  unfold ThreadOk at h ⊢
  rw [hthread]
  cases hphase : s.threads u with
  | running | getting | counting =>
      rw [hphase] at h
      simp only at h ⊢
      rw [hwait, hact]
      exact h
  | chosen fd rid buf =>
      rw [hphase] at h
      simp only at h ⊢
      rw [hwait, hact]
      exact ⟨h.1, h.2.1, Fits.mono (hext fd) h.2.2⟩
  | writing fd w =>
      rw [hphase] at h
      simp only at h ⊢
      rw [hwait, hact]
      exact ⟨h.1, h.2.1, hwrite fd w h.2.2⟩
  | dying =>
      rw [hphase] at h
      exact hwait.trans h
  | rollingBack =>
      rw [hphase] at h
      simp only at h ⊢
      rw [hwait, hlog, hfound]
      exact h
  | releasing | ended =>
      rw [hphase] at h
      simp only at h ⊢
      rw [hwait, hlog, hfound, hws]
      exact h

theorem Inv.relock (h : Inv start s) (hg : Grows s.locks locks txn) :
    s.store.Inv (Holds locks) (Excl locks) start :=
  h.store.relock (fun _ _ hx => hx.1) (fun _ _ _ hx hh => Excl.alone hg.inv hx hh)
    (fun u _ _ hh => hg.held u hh)
    fun u _ _ hx => ⟨hg.held u hx.1, hg.heldX _ u hx.2⟩

theorem Inv.setThread (h : Inv start s) (hg : Grows s.locks locks txn) {thread : RecordThread}
    (hok : (s.setThread txn locks thread).ThreadOk txn)
    (hcom : isCommitted thread = isCommitted (s.threads txn)) :
    Inv start (s.setThread txn locks thread) where
  locks := hg.inv
  threads u := by
    by_cases hu : u = txn
    · rw [hu]
      exact hok
    · exact (h.threads u).congr (Function.update_of_ne hu ..) (hg.waiting u hu) rfl rfl rfl fun _ => .refl _
  files := h.files
  found u fd rid record hf := (h.found u fd rid record hf).imp_left fun hh => hg.held u hh
  undo := h.undo
  store := h.relock hg
  once := h.once
  who u := by
    rw [show (s.setThread txn locks thread).serial = s.serial from rfl, h.who u]
    by_cases hu : u = txn
    · subst hu
      rw [show (s.setThread u locks thread).threads u = thread from Function.update_self .., hcom]
    · rw [show (s.setThread txn locks thread).threads u = s.threads u from Function.update_of_ne hu ..]

end Locked

section Accesses

variable {found : Option (Int × Rid × Bytes)} {ws : List FileWrite} {a : RecordAccess}

theorem store_accessed : (s.accessed txn locks fd f found ws a).store =
    { s.store with
      live := Function.update s.store.live fd f.entry
      log := Function.update s.store.log txn (s.store.log txn ++ [a.denote])
      undo := Function.update s.store.undo txn (ws.map fun w => (w.fd, w.back)) } := by
  rw [store, TwoPhase.Store.mk.injEq]
  refine ⟨?_, rfl, ?_, ?_, rfl⟩
  · funext i
    by_cases hi : i = fd
    · subst hi
      simp only [accessed, Function.update_self]
    · simp only [accessed, Function.update_of_ne hi, store]
  · funext u
    by_cases hu : u = txn
    · subst hu
      simp only [accessed, Function.update_self, List.map_append, List.map_cons, List.map_nil, store]
    · simp only [accessed, Function.update_of_ne hu, store]
  · funext u
    by_cases hu : u = txn
    · subst hu
      simp only [accessed, Function.update_self]
    · simp only [accessed, Function.update_of_ne hu, store]

theorem accessed_found : (s.accessed txn locks fd f found ws a).found txn = found := Function.update_self ..

theorem accessed_writeSet : (s.accessed txn locks fd f found ws a).writeSet txn = ws :=
  Function.update_self ..

theorem extends_update (hext : Extends (s.files fd) f) (i : Int) :
    Extends (s.files i) (Function.update s.files fd f i) := by
  by_cases hi : i = fd
  · subst hi
    rwa [Function.update_self]
  · rw [Function.update_of_ne hi]
    exact .refl _

/-- An access leaves the other transactions what they have read, since they hold other files or
the file has not changed. -/
theorem Inv.accessed (h : Inv start s) (hg : Grows s.locks locks txn)
    (hcom : isCommitted (s.threads txn) = false) (hw : locks.waiting txn = none) (hinv : RmInv f)
    (hext : Extends (s.files fd) f) (hsame : f.entry = (s.files fd).entry ∨ Excl locks txn fd)
    (hfound : ∀ i rid record, found = some (i, rid, record) →
      Holds locks txn i ∧ (Function.update s.files fd f i).entry rid = some record)
    (hundo : ∀ w ∈ ws, UndoOk (Function.update s.files fd f w.fd) w)
    (hstore : (s.accessed txn locks fd f found ws a).store.Inv (Holds locks) (Excl locks) start) :
    Inv start (s.accessed txn locks fd f found ws a) where
  locks := hg.inv
  threads u := by
    by_cases hu : u = txn
    · subst hu
      have hactive : (s.accessed u locks fd f found ws a).store.Active u := by
        intro hlog
        rw [store_accessed] at hlog
        simp at hlog
      unfold ThreadOk
      rw [show (s.accessed u locks fd f found ws a).threads u = .running from Function.update_self ..]
      exact ⟨hw, hactive⟩
    · exact (h.threads u).congr (Function.update_of_ne hu ..) (hg.waiting u hu) (Function.update_of_ne hu ..)
        (Function.update_of_ne hu ..) (Function.update_of_ne hu ..) (extends_update hext)
  files i := by
    by_cases hi : i = fd
    · subst hi
      rw [show (s.accessed txn locks i f found ws a).files i = f from Function.update_self ..]
      exact hinv
    · rw [show (s.accessed txn locks fd f found ws a).files i = s.files i from Function.update_of_ne hi ..]
      exact h.files i
  found u i rid record hf := by
    by_cases hu : u = txn
    · subst hu
      exact hfound i rid record (accessed_found.symm.trans hf)
    · obtain ⟨hh, hentry⟩ := h.found u i rid record ((Function.update_of_ne hu ..).symm.trans hf)
      refine ⟨hg.held u hh, ?_⟩
      change (Function.update s.files fd f i).entry rid = some record
      by_cases hi : i = fd
      · subst hi
        rw [Function.update_self]
        rcases hsame with hsame | hx
        · rw [hsame]
          exact hentry
        · exact absurd (Excl.alone hg.inv hx (hg.held u hh)) hu
      · rw [Function.update_of_ne hi]
        exact hentry
  undo u w hmem := by
    by_cases hu : u = txn
    · subst hu
      rw [accessed_writeSet] at hmem
      exact hundo w hmem
    · rw [show (s.accessed txn locks fd f found ws a).writeSet u =
        s.writeSet u from Function.update_of_ne hu ..] at hmem
      exact (h.undo u w hmem).mono (extends_update hext w.fd)
  store := hstore
  once := h.once
  who u := by
    rw [show (s.accessed txn locks fd f found ws a).serial = s.serial from rfl, h.who u]
    by_cases hu : u = txn
    · subst hu
      rw [show (s.accessed u locks fd f found ws a).threads u = .running from Function.update_self .., hcom]
      rfl
    · rw [show (s.accessed txn locks fd f found ws a).threads u =
        s.threads u from Function.update_of_ne hu ..]

theorem Inv.read (h : Inv start s) (hg : Grows s.locks locks txn) (hcom : isCommitted (s.threads txn) = false)
    (hw : locks.waiting txn = none) (hact : s.store.Active txn) (hh : Holds locks txn fd)
    (hfound : ∀ i rid record, found = some (i, rid, record) → Holds locks txn i ∧
      (s.files i).entry rid = some record)
    {test : FileRecords → Prop} (ha : a.denote = .read fd test) (htest : test (s.files fd).entry) :
    Inv start (s.accessed txn locks fd (s.files fd) found (s.writeSet txn) a) := by
  have hfiles : Function.update s.files fd (s.files fd) = s.files := Function.update_eq_self ..
  refine h.accessed hg hcom hw (h.files fd) (.refl _) (.inl rfl) ?_ ?_ ?_
  · rw [hfiles]
    exact hfound
  · rw [hfiles]
    exact h.undo txn
  · have hstore : (s.accessed txn locks fd (s.files fd) found (s.writeSet txn) a).store =
        s.store.read txn fd test := by
      rw [store_accessed, ha, show (s.files fd).entry = s.store.live fd from rfl, Function.update_eq_self,
        show (s.writeSet txn).map (fun w => (w.fd, w.back)) = s.store.undo txn from rfl,
        Function.update_eq_self]
      rfl
    rw [hstore]
    exact (h.relock hg).read hact hh htest

theorem Inv.change (h : Inv start s) (hg : Grows s.locks locks txn)
    (hcom : isCommitted (s.threads txn) = false) (hw : locks.waiting txn = none)
    (hact : s.store.Active txn) (hx : Excl locks txn fd) {m : FileRecords} (hf : Becomes (s.files fd) f m)
    (w : FileWrite) (hfd : w.fd = fd) (hundo : UndoOk f w) {change : FileRecords → FileRecords}
    (ha : a.denote = .write fd change) (hm : m = change (s.files fd).entry)
    (hback : w.back m = (s.files fd).entry) :
    Inv start (s.accessed txn locks fd f none (w :: s.writeSet txn) a) := by
  refine h.accessed hg hcom hw hf.inv hf.ext (.inr hx) (fun _ _ _ hc => by cases hc) (fun w' hmem => ?_) ?_
  · rcases List.mem_cons.1 hmem with rfl | hmem
    · rw [hfd, Function.update_self]
      exact hundo
    · exact (h.undo txn w' hmem).mono (extends_update hf.ext w'.fd)
  · have hstore : (s.accessed txn locks fd f none (w :: s.writeSet txn) a).store =
        s.store.write txn fd change w.back := by
      rw [store_accessed, ha, hf.entry, hm, List.map_cons, hfd]
      rfl
    rw [hstore]
    refine (h.relock hg).write hact hx ?_
    change w.back (change (s.files fd).entry) = (s.files fd).entry
    rw [← hm, hback]

end Accesses

section Executors

variable {rid : Rid} (h : Inv start s) (hg : Grows s.locks locks txn)
  (hcom : isCommitted (s.threads txn) = false) (hw : locks.waiting txn = none) (hact : s.store.Active txn)

include h hg hcom hw hact

theorem Inv.readRecord (hh : Holds locks txn fd) (hlive : (s.files fd).entry rid ≠ none) :
    Inv start (s.readRecord txn locks fd rid) := by
  obtain ⟨record, hentry⟩ := Option.ne_none_iff_exists'.1 hlive
  rw [RecordServer.readRecord, getRecord_of_entry hentry]
  refine h.read hg hcom hw hact hh (fun i r b hf => ?_) rfl hentry
  cases hf
  exact ⟨hh, hentry⟩

theorem Inv.countRecords (hh : Holds locks txn fd) : Inv start (s.countRecords txn locks fd) := by
  rw [RecordServer.countRecords, getRecordCount_entry (h.files fd)]
  exact h.read hg hcom hw hact hh
    (fun i r b hf => (h.found txn i r b hf).imp_left fun hh => hg.held txn hh) rfl rfl

theorem Inv.write (hx : Excl locks txn fd) {w : RecordWrite} (hok : s.WriteOk txn fd w)
    (hfree : ∀ rid buf accepted, w = .insert rid buf accepted → (s.files fd).entry rid = none) :
    Inv start (s.write txn locks fd w) := by
  have hf := h.files fd
  cases w with
  | insert rid buf accepted =>
      have hnone := hfree rid buf accepted rfl
      obtain ⟨f, hrun, hins⟩ := insertRecordAt_becomes hf hok
      simp only [RecordServer.write, hrun]
      split
      · refine h.change hg hcom hw hact hx hins _ rfl (hins.ext.inFile hok.1) rfl rfl ?_
        simp only [FileWrite.back, Function.update_idem, ← hnone, Function.update_eq_self]
      · obtain ⟨f', hrun', hdel⟩ := deleteRecord_becomes hins.inv (hins.ext.inFile hok.1)
        have hback : Function.update f.entry rid none = (s.files fd).entry := by
          rw [hins.entry, Function.update_idem, ← hnone, Function.update_eq_self]
        rw [hback] at hdel
        simp only [hrun']
        refine h.change hg hcom hw hact hx ⟨hdel.inv, hins.ext.trans hdel.ext, hdel.entry⟩ _ rfl
          (hdel.ext.inFile (hins.ext.inFile hok.1)) rfl rfl ?_
        simp only [FileWrite.back, ← hnone, Function.update_eq_self]
  | update rid record buf =>
      obtain ⟨-, hentry⟩ := h.found txn fd rid record hok.1
      obtain ⟨f, hrun, hupd⟩ := updateRecord_becomes hf (fits_of_entry hentry hok.2)
      simp only [RecordServer.write, hrun]
      refine h.change hg hcom hw hact hx hupd _ rfl ((fits_of_entry hentry rfl).mono hupd.ext) rfl rfl ?_
      have hback : ((s.files fd).entry rid).map (fun _ => record) = (s.files fd).entry rid := by
        rw [hentry]
        rfl
      simp only [FileWrite.back, Function.update_self, Function.update_idem, Option.map_map,
        Function.comp_def, hback, Function.update_eq_self]
  | delete rid record =>
      obtain ⟨-, hentry⟩ := h.found txn fd rid record hok
      obtain ⟨f, hrun, hdel⟩ := deleteRecord_becomes hf (inFile_of_entry (by rw [hentry]; simp))
      simp only [RecordServer.write, hrun]
      refine h.change hg hcom hw hact hx hdel _ rfl ((fits_of_entry hentry rfl).mono hdel.ext) rfl rfl ?_
      simp only [FileWrite.back, Function.update_idem, ← hentry, Function.update_eq_self]

end Executors

section Steps

variable {blocked : RecordThread} {go : LockState → RecordServer} {mode : LockMode}

theorem setThread_threads {thread : RecordThread} : (s.setThread txn locks thread).threads txn = thread :=
  Function.update_self ..

/-- A call that does not return leaves the thread asleep, or dying. -/
theorem Inv.afterCall (h : Inv start s) (hw : s.locks.waiting txn = none)
    (hcom : isCommitted (s.threads txn) = false) (hm : mode = .shared ∨ mode = .exlucsive)
    (hgo : ∀ locks, s.locks.lockOnTable txn fd mode = (.returned, locks) → Grows s.locks locks txn →
      locks.waiting txn = none → Inv start (go locks))
    (hblocked : ∀ locks, locks.waiting txn = some (.request (.table fd) mode) ∨
      locks.waiting txn = some (.upgrade (.table fd) mode) ∧ mode ≠ .shared →
      (s.setThread txn locks blocked).ThreadOk txn)
    (hb : isCommitted blocked = false)
    (hs : s.afterCall txn blocked go (s.locks.lockOnTable txn fd mode) = some s') : Inv start s' := by
  rcases hcall : s.locks.lockOnTable txn fd mode with ⟨res, locks⟩
  have hg := h.locks.grows_call hw hm hcall
  have hwait := lockOnTable_waiting hcall
  rw [hcall] at hs
  cases res with
  | returned =>
      cases hs
      exact hgo locks hcall hg (hwait.trans hw)
  | waits =>
      cases hs
      refine h.setThread hg (hblocked locks ?_) (hb.trans hcom.symm)
      rw [if_pos rfl] at hwait
      split at hwait
      · rename_i hheld
        refine .inr ⟨hwait, fun hshared => ?_⟩
        have hret := (h.locks.lockOnTable_held hheld (.inl hshared) hcall).1
        cases hret
      · exact .inl hwait
  | dies =>
      cases hs
      refine h.setThread hg ?_ hcom.symm
      unfold ThreadOk
      rw [setThread_threads]
      exact hwait.trans hw
  | nullRequest => cases hs

theorem Inv.idle (h : Inv start s) (hrun : s.threads txn = .running) :
    s.locks.waiting txn = none ∧ s.store.Active txn ∧ isCommitted (s.threads txn) = false := by
  have hok := h.threads txn
  unfold ThreadOk at hok
  rw [hrun] at hok
  exact ⟨hok.1, hok.2, by rw [hrun]; rfl⟩

theorem Inv.getRecord (h : Inv start s) (hrun : s.threads txn = .running) {rid : Rid}
    (hlive : (s.locks.lockSharedOnTable txn fd).1 = .returned → (s.files fd).entry rid ≠ none)
    (hs : s.getRecord txn fd rid = some s') : Inv start s' := by
  obtain ⟨hw, hact, hcom⟩ := h.idle hrun
  refine h.afterCall hw hcom (.inl rfl) (fun locks hcall hg hw' => ?_) (fun locks hwait => ?_) rfl hs
  · refine h.readRecord hg hcom hw' hact (lockOnTable_granted hcall) (hlive ?_)
    rw [lockSharedOnTable, hcall]
  · unfold ThreadOk
    rw [setThread_threads]
    exact ⟨hwait.resolve_right fun hc => hc.2 rfl, hact⟩

theorem Inv.getRecordCount (h : Inv start s) (hrun : s.threads txn = .running)
    (hs : s.getRecordCount txn fd = some s') : Inv start s' := by
  obtain ⟨hw, hact, hcom⟩ := h.idle hrun
  refine h.afterCall hw hcom (.inl rfl) (fun locks hcall hg hw' => ?_) (fun locks hwait => ?_) rfl hs
  · exact h.countRecords hg hcom hw' hact (lockOnTable_granted hcall)
  · unfold ThreadOk
    rw [setThread_threads]
    exact ⟨hwait.resolve_right fun hc => hc.2 rfl, hact⟩

theorem Inv.lockAndWrite (h : Inv start s) (hw : s.locks.waiting txn = none) (hact : s.store.Active txn)
    (hcom : isCommitted (s.threads txn) = false) {w : RecordWrite} (hok : s.WriteOk txn fd w)
    (hfree : (s.locks.lockExclusiveOnTable txn fd).1 = .returned →
      ∀ rid buf accepted, w = .insert rid buf accepted → (s.files fd).entry rid = none)
    (hs : s.lockAndWrite txn fd w = some s') : Inv start s' := by
  refine h.afterCall hw hcom (.inr rfl) (fun locks hcall hg hw' => ?_) (fun locks hwait => ?_) rfl hs
  · refine h.write hg hcom hw' hact ⟨lockOnTable_granted hcall,
      h.locks.lockExclusive_returned hw hcall⟩ hok (hfree ?_)
    rw [lockExclusiveOnTable, hcall]
  · unfold ThreadOk
    rw [setThread_threads]
    refine ⟨hwait.imp_right And.left, hact, ?_⟩
    cases w <;> exact hok

theorem Inv.getFreeRecord (h : Inv start s) (hrun : s.threads txn = .running) {buf : Bytes}
    (hs : s.getFreeRecord txn fd buf = some s') : Inv start s' := by
  obtain ⟨hw, hact, hcom⟩ := h.idle hrun
  obtain ⟨hlen, hs⟩ := Option.ite_none_right_eq_some.1 hs
  obtain ⟨res, f, hrun', hf, hentry, hext, hfree⟩ := getFreeRecord_spec (h.files fd)
  have hfiles : ∀ i, (Function.update s.files fd f i).entry = (s.files i).entry := by
    intro i
    by_cases hi : i = fd
    · subst hi
      rw [Function.update_self, hentry]
    · rw [Function.update_of_ne hi]
  have hgrown : Inv start { s with files := Function.update s.files fd f } := by
    refine ⟨h.locks, fun u => (h.threads u).congr rfl rfl rfl rfl rfl (extends_update hext), fun i => ?_,
      fun u i rid record hfd => ?_, fun u w hmem => (h.undo u w hmem).mono (extends_update hext w.fd),
      ?_, h.once, h.who⟩
    · by_cases hi : i = fd
      · subst hi
        change RmInv (Function.update s.files i f i)
        rw [Function.update_self]
        exact hf
      · change RmInv (Function.update s.files fd f i)
        rw [Function.update_of_ne hi]
        exact h.files i
    · refine (h.found u i rid record hfd).imp_right fun he => ?_
      change (Function.update s.files fd f i).entry rid = some record
      rw [hfiles]
      exact he
    · have hstore : ({ s with files := Function.update s.files fd f } : RecordServer).store = s.store := by
        rw [RecordServer.store, RecordServer.store, TwoPhase.Store.mk.injEq]
        exact ⟨funext hfiles, rfl, rfl, rfl, rfl⟩
      rw [hstore]
      exact h.store
  rw [hrun'] at hs
  cases res with
  | error e =>
      cases hs
      exact hgrown
  | ok rid =>
      cases hs
      refine hgrown.setThread (.refl hgrown.locks txn) ?_ (by rw [hrun]; rfl)
      unfold ThreadOk
      rw [setThread_threads]
      refine ⟨hw, hact, ?_⟩
      change Fits (Function.update s.files fd f fd) rid buf
      rw [Function.update_self]
      exact ⟨(hfree rid rfl).1, hlen.trans hext.recordSize.symm⟩

theorem Inv.wake (h : Inv start s) (hlive : s.Live (.wake txn)) (hs : s.wake txn = some s') :
    Inv start s' := by
  rw [RecordServer.wake] at hs
  split at hs
  · cases hs
  · rename_i res locks hwake
    have hok := h.threads txn
    have hw' := wakeUp_awake hwake
    unfold ThreadOk at hok
    unfold Live at hlive
    cases hthread : s.threads txn with
    | getting fd rid =>
        simp only [hthread] at hs hok hlive
        cases hs
        exact h.readRecord (h.locks.grows_wakeUp hwake (.inl hok.1)) (by rw [hthread]; rfl) hw' hok.2
          (wakeUp_request hwake hok.1) hlive
    | counting fd =>
        simp only [hthread] at hs hok
        cases hs
        exact h.countRecords (h.locks.grows_wakeUp hwake (.inl hok.1)) (by rw [hthread]; rfl) hw' hok.2
          (wakeUp_request hwake hok.1)
    | writing fd w =>
        simp only [hthread] at hs hok hlive
        cases hs
        have hg := h.locks.grows_wakeUp hwake (.inr hok.1)
        have hx := h.locks.wakeUp_returned hwake hok.1
        refine h.write hg (by rw [hthread]; rfl) hw' hok.2.1 ⟨hg.inv.holdsX_mem hw' hx, hx⟩ hok.2.2 ?_
        rintro rid buf accepted rfl
        exact hlive
    | running | chosen | dying | rollingBack | releasing | ended =>
        simp only [hthread] at hs
        cases hs

end Steps

section Ends

@[simp] theorem store_log : s.store.log txn = (s.log txn).map RecordAccess.denote := rfl

@[simp] theorem store_undo : s.store.undo txn = (s.writeSet txn).map fun w => (w.fd, w.back) := rfl

theorem store_commit : (s.commit txn).store = s.store.commit txn := by
  rw [store, TwoPhase.Store.commit, TwoPhase.Store.mk.injEq]
  refine ⟨rfl, ?_, ?_, ?_, ?_⟩
  · funext fd
    simp only [RecordServer.commit, store, List.map_map]
    rfl
  · funext u
    by_cases hu : u = txn
    · subst hu
      simp only [RecordServer.commit, Function.update_self, List.map_nil]
    · simp only [RecordServer.commit, Function.update_of_ne hu, store]
  · funext u
    by_cases hu : u = txn
    · subst hu
      simp only [RecordServer.commit, Function.update_self, List.map_nil]
    · simp only [RecordServer.commit, Function.update_of_ne hu, store]
  · simp only [RecordServer.commit, store, List.map_append, List.map_cons, List.map_nil]

theorem store_abort : (s.abort txn).store = s.store.giveUp txn := by
  rw [store, TwoPhase.Store.giveUp, TwoPhase.Store.mk.injEq]
  refine ⟨rfl, rfl, ?_, rfl, rfl⟩
  funext u
  by_cases hu : u = txn
  · subst hu
    simp only [RecordServer.abort, Function.update_self, List.map_nil]
  · simp only [RecordServer.abort, Function.update_of_ne hu, store]

theorem Inv.commit (h : Inv start s) (hrun : s.threads txn = .running) : Inv start (s.commit txn) := by
  obtain ⟨hw, hact, hcom⟩ := h.idle hrun
  have hnot : txn ∉ s.serial.map Prod.fst := fun hc => by
    rw [(h.who txn).1 hc] at hcom
    cases hcom
  refine ⟨h.locks, fun u => ?_, h.files, fun u i rid record hf => ?_, fun u w hmem => ?_, ?_, ?_, fun u => ?_⟩
  · by_cases hu : u = txn
    · subst hu
      unfold ThreadOk
      rw [show (s.commit u).threads u = .releasing true from Function.update_self ..]
      exact ⟨hw, Function.update_self .., Function.update_self .., Function.update_self ..⟩
    · exact (h.threads u).congr (Function.update_of_ne hu ..) rfl (Function.update_of_ne hu ..)
        (Function.update_of_ne hu ..) (Function.update_of_ne hu ..) fun _ => .refl _
  · by_cases hu : u = txn
    · subst hu
      rw [show (s.commit u).found u = none from Function.update_self ..] at hf
      cases hf
    · rw [show (s.commit txn).found u = s.found u from Function.update_of_ne hu ..] at hf
      exact h.found u i rid record hf
  · by_cases hu : u = txn
    · subst hu
      rw [show (s.commit u).writeSet u = [] from Function.update_self ..] at hmem
      cases hmem
    · rw [show (s.commit txn).writeSet u = s.writeSet u from Function.update_of_ne hu ..] at hmem
      exact h.undo u w hmem
  · rw [store_commit]
    exact h.store.commit hact
  · rw [show (s.commit txn).serial.map Prod.fst = s.serial.map Prod.fst ++ [txn] from List.map_append ..]
    exact List.nodup_append.2 ⟨h.once, List.nodup_singleton _, fun a ha b hb hab =>
      hnot (by rw [← List.mem_singleton.1 hb, ← hab]; exact ha)⟩
  · rw [show (s.commit txn).serial.map Prod.fst = s.serial.map Prod.fst ++ [txn] from List.map_append ..,
      List.mem_append, List.mem_singleton, h.who u]
    by_cases hu : u = txn
    · subst hu
      rw [show (s.commit u).threads u = .releasing true from Function.update_self ..]
      simp [isCommitted]
    · rw [show (s.commit txn).threads u = s.threads u from Function.update_of_ne hu ..]
      simp [hu]

theorem Inv.abort (h : Inv start s) (hw : s.locks.waiting txn = none)
    (hcom : isCommitted (s.threads txn) = false) :
    Inv start (s.abort txn) := by
  refine ⟨h.locks, fun u => ?_, h.files, fun u i rid record hf => ?_, h.undo, ?_, h.once, fun u => ?_⟩
  · by_cases hu : u = txn
    · subst hu
      unfold ThreadOk
      rw [show (s.abort u).threads u = .rollingBack from Function.update_self ..]
      exact ⟨hw, Function.update_self .., Function.update_self ..⟩
    · exact (h.threads u).congr (Function.update_of_ne hu ..) rfl (Function.update_of_ne hu ..) rfl
        (Function.update_of_ne hu ..) fun _ => .refl _
  · by_cases hu : u = txn
    · subst hu
      rw [show (s.abort u).found u = none from Function.update_self ..] at hf
      cases hf
    · rw [show (s.abort txn).found u = s.found u from Function.update_of_ne hu ..] at hf
      exact h.found u i rid record hf
  · rw [store_abort]
    exact h.store.giveUp
  · rw [show (s.abort txn).serial = s.serial from rfl, h.who u]
    by_cases hu : u = txn
    · subst hu
      rw [show (s.abort u).threads u = .rollingBack from Function.update_self .., hcom]
      rfl
    · rw [show (s.abort txn).threads u = s.threads u from Function.update_of_ne hu ..]

/-- The records that an aborted transaction has written go back while it still has the file for itself. -/
theorem Inv.undoLast (h : Inv start s) (hthread : s.threads txn = .rollingBack)
    (hs : s.undo txn = some s') : Inv start s' := by
  have hok := h.threads txn
  unfold ThreadOk at hok
  rw [hthread] at hok
  obtain ⟨hw, hlog, hfound⟩ := hok
  rw [RecordServer.undo] at hs
  cases hws : s.writeSet txn with
  | nil =>
      rw [hws] at hs
      cases hs
  | cons w ws =>
      rw [hws] at hs
      have hmem : w ∈ s.writeSet txn := by rw [hws]; exact List.mem_cons_self
      have hx : Excl s.locks txn w.fd :=
        h.store.dirty txn w.fd ⟨(w.fd, w.back), List.mem_map.2 ⟨w, hmem, rfl⟩, rfl⟩
      obtain ⟨f, hrun, hf⟩ := w.undo_becomes (h.files w.fd) (h.undo txn w hmem)
      simp only [hrun] at hs
      cases hs
      refine ⟨h.locks, fun u => ?_, fun i => ?_, fun u i rid record hfd => ?_, fun u w' hmem' => ?_,
        ?_, h.once, h.who⟩
      · by_cases hu : u = txn
        · subst hu
          unfold ThreadOk
          simp only [hthread]
          exact ⟨hw, hlog, hfound⟩
        · exact (h.threads u).congr rfl rfl rfl (Function.update_of_ne hu ..) rfl (extends_update hf.ext)
      · change RmInv (Function.update s.files w.fd f i)
        by_cases hi : i = w.fd
        · rw [hi, Function.update_self]
          exact hf.inv
        · rw [Function.update_of_ne hi]
          exact h.files i
      · change s.found u = _ at hfd
        obtain ⟨hh, hentry⟩ := h.found u i rid record hfd
        refine ⟨hh, ?_⟩
        change (Function.update s.files w.fd f i).entry rid = _
        by_cases hi : i = w.fd
        · subst hi
          have hu := Excl.alone h.locks hx hh
          rw [hu, hfound] at hfd
          cases hfd
        · rw [Function.update_of_ne hi]
          exact hentry
      · have hmem'' : w' ∈ s.writeSet u := by
          change w' ∈ Function.update s.writeSet txn ws u at hmem'
          by_cases hu : u = txn
          · subst hu
            rw [Function.update_self] at hmem'
            rw [hws]
            exact List.mem_cons_of_mem _ hmem'
          · rwa [Function.update_of_ne hu] at hmem'
        exact (h.undo u w' hmem'').mono (extends_update hf.ext w'.fd)
      · have hstore : ({ s with
            files := Function.update s.files w.fd f
            writeSet := Function.update s.writeSet txn ws } : RecordServer).store = s.store.undoLast txn := by
          rw [TwoPhase.Store.undoLast,
            show s.store.undo txn = (w.fd, w.back) :: ws.map fun w => (w.fd, w.back) by
            rw [store_undo, hws, List.map_cons]]
          simp only [RecordServer.store, TwoPhase.Store.mk.injEq, true_and, and_true]
          refine ⟨funext fun i => ?_, funext fun u => ?_⟩
          · by_cases hi : i = w.fd
            · rw [hi, Function.update_self, Function.update_self, hf.entry]
            · rw [Function.update_of_ne hi, Function.update_of_ne hi]
          · by_cases hu : u = txn
            · rw [hu, Function.update_self, Function.update_self]
            · rw [Function.update_of_ne hu, Function.update_of_ne hu]
        rw [hstore]
        exact h.store.undoLast (by rw [store_log, hlog, List.map_nil])

/-- A transaction that releases has no accesses left that its locks would protect. -/
theorem Inv.unlock (h : Inv start s) {id : LockDataId} (hw : s.locks.waiting txn = none)
    (hlog : s.log txn = []) (hfound : s.found txn = none) (hws : s.writeSet txn = []) :
    Inv start { s with locks := s.locks.unlock txn id } := by
  have hinv : (s.locks.unlock txn id).LockInv := LockState.LockInv.unlock h.locks hw
  have hset : ∀ u, u ≠ txn → (s.locks.unlock txn id).lockSet u = s.locks.lockSet u := fun u hu =>
    (unlock_others id hu).1
  refine ⟨hinv, fun u => ?_, h.files, fun u i rid record hf => ?_, h.undo, ?_, h.once, h.who⟩
  · refine (h.threads u).congr rfl ?_ rfl rfl rfl fun _ => .refl _
    rw [show (s.locks.unlock txn id).waiting = s.locks.waiting from unlock_waiting id]
  · have hu : u ≠ txn := by
      rintro rfl
      rw [show _ = s.found u from rfl, hfound] at hf
      cases hf
    refine (h.found u i rid record hf).imp_left fun hh => ?_
    rw [Holds, hset u hu]
    exact hh
  · refine h.store.relock (fun _ _ hx => hx.1) (fun _ _ _ hx hh => Excl.alone hinv hx hh)
      (fun u a hmem hh => ?_)
      fun u o hd hx => ?_
    · have hu : u ≠ txn := by
        rintro rfl
        rw [store_log, hlog] at hmem
        cases hmem
      rw [Holds, hset u hu]
      exact hh
    · have hu : u ≠ txn := by
        rintro rfl
        obtain ⟨w, hmem, -⟩ := hd
        rw [store_undo, hws] at hmem
        cases hmem
      exact ⟨by rw [hset u hu]; exact hx.1, h.locks.unlock_keeps hw hu hx.2⟩

end Ends

section Runs

theorem isRunning_eq {thread : RecordThread} (h : isRunning thread = true) : thread = .running := by
  cases thread with
  | running => rfl
  | _ => cases h

theorem Inv.step (h : Inv start s) {a : RecordAction} (hlive : s.Live a) (hs : s.step a = some s') :
    Inv start s' := by
  have hok : ∀ txn, s.ThreadOk txn := h.threads
  unfold ThreadOk at hok
  cases a with
  | getRecord txn fd rid =>
      obtain ⟨hrun, hs⟩ := Option.ite_none_right_eq_some.1 hs
      exact h.getRecord (isRunning_eq hrun) hlive hs
  | getRecordCount txn fd =>
      obtain ⟨hrun, hs⟩ := Option.ite_none_right_eq_some.1 hs
      exact h.getRecordCount (isRunning_eq hrun) hs
  | getFreeRecord txn fd buf =>
      obtain ⟨hrun, hs⟩ := Option.ite_none_right_eq_some.1 hs
      exact h.getFreeRecord (isRunning_eq hrun) hs
  | insert txn accepted =>
      have hok := hok txn
      rw [RecordServer.step, RecordServer.insert] at hs
      cases hthread : s.threads txn with
      | chosen fd rid buf =>
          simp only [Live, hthread] at hs hok hlive
          refine h.lockAndWrite (w := .insert rid buf accepted) hok.1 hok.2.1
            (by rw [hthread]; rfl) hok.2.2 (fun hret r b c hw => ?_) hs
          cases hw
          exact hlive hret
      | running | getting | counting | writing | dying | rollingBack | releasing | ended =>
          rw [hthread] at hs
          cases hs
  | update txn buf =>
      obtain ⟨hrun, hs⟩ := Option.ite_none_right_eq_some.1 hs
      obtain ⟨hw, hact, hcom⟩ := h.idle (isRunning_eq hrun)
      rw [RecordServer.update] at hs
      split at hs
      · rename_i fd rid record hfound
        obtain ⟨hlen, hs⟩ := Option.ite_none_right_eq_some.1 hs
        exact h.lockAndWrite (w := .update rid record buf) hw hact hcom ⟨hfound, hlen⟩
          (fun _ r b c hw => by cases hw) hs
      · cases hs
  | delete txn =>
      obtain ⟨hrun, hs⟩ := Option.ite_none_right_eq_some.1 hs
      obtain ⟨hw, hact, hcom⟩ := h.idle (isRunning_eq hrun)
      rw [RecordServer.delete] at hs
      split at hs
      · rename_i fd rid record hfound
        exact h.lockAndWrite (w := .delete rid record) hw hact hcom hfound (fun _ r b c hw => by cases hw) hs
      · cases hs
  | wake txn => exact h.wake hlive hs
  | commit txn =>
      obtain ⟨hrun, hs⟩ := Option.ite_none_right_eq_some.1 hs
      cases hs
      exact h.commit (isRunning_eq hrun)
  | abort txn =>
      have hok := hok txn
      rw [RecordServer.step] at hs
      cases hthread : s.threads txn with
      | running =>
          rw [hthread] at hs hok
          cases hs
          exact h.abort hok.1 (by rw [hthread]; rfl)
      | dying =>
          rw [hthread] at hs hok
          cases hs
          exact h.abort hok (by rw [hthread]; rfl)
      | getting | counting | chosen | writing | rollingBack | releasing | ended =>
          rw [hthread] at hs
          cases hs
  | undo txn =>
      rw [RecordServer.step] at hs
      split at hs
      · rename_i hthread
        exact h.undoLast hthread hs
      · cases hs
  | undone txn =>
      have hok := hok txn
      rw [RecordServer.step] at hs
      split at hs
      · rename_i hthread
        rw [hthread] at hok
        obtain ⟨hws, hs⟩ := Option.ite_none_right_eq_some.1 hs
        cases hs
        refine h.setThread (.refl h.locks txn) ?_ (by rw [hthread]; rfl)
        unfold ThreadOk
        rw [setThread_threads]
        exact ⟨hok.1, hok.2.1, hok.2.2, hws⟩
      · cases hs
  | unlock txn id =>
      have hok := hok txn
      obtain ⟨⟨hrel, -⟩, hs⟩ := Option.ite_none_right_eq_some.1 hs
      cases hs
      cases hthread : s.threads txn with
      | releasing committed =>
          rw [hthread] at hok
          exact h.unlock hok.1 hok.2.1 hok.2.2.1 hok.2.2.2
      | running | getting | counting | chosen | writing | dying | rollingBack | ended =>
          rw [hthread] at hrel
          cases hrel
  | unlocked txn =>
      have hok := hok txn
      rw [RecordServer.step] at hs
      split at hs
      · rename_i committed hthread
        rw [hthread] at hok
        obtain ⟨-, hs⟩ := Option.ite_none_right_eq_some.1 hs
        cases hs
        refine h.setThread (.refl h.locks txn) ?_ (by rw [hthread]; rfl)
        unfold ThreadOk
        rw [setThread_threads]
        exact hok
      · cases hs

theorem inv_init {files : Int → RmFileHandle} (hfiles : ∀ fd, RmInv (files fd)) :
    Inv (fun fd => (files fd).entry) (init files) where
  locks := lockInv_init
  threads _ := ⟨rfl, fun _ => rfl⟩
  files := hfiles
  found _ _ _ _ hf := by cases hf
  undo _ _ hmem := by cases hmem
  store := TwoPhase.Store.Inv.init (fun _ _ hx => hx.1) fun _ _ _ hx hh => Excl.alone lockInv_init hx hh
  once := List.nodup_nil
  who _ := iff_of_false (fun hc => by cases hc) (fun hc => by cases hc)

theorem Inv.serialRun (h : Inv start s) : s.SerialRun start where
  committed := by
    have hserial := h.store.serial
    rw [show s.store.serial = s.serial.map fun e => (e.1, e.2.map RecordAccess.denote) from rfl,
      List.flatMap_map] at hserial
    rw [List.map_flatMap]
    exact hserial
  whole := ⟨h.once, h.who⟩
  running txn hrun := by
    obtain ⟨-, hact, -⟩ := h.idle hrun
    obtain ⟨db, hreplay, hheld, -⟩ := h.store.replay hact
    exact ⟨db, hreplay, hheld⟩
  quiet fd hws := by
    refine h.store.clean fun txn => ?_
    rintro ⟨w, hmem, hw⟩
    obtain ⟨w', hmem', rfl⟩ := List.mem_map.1 hmem
    exact hws txn w' hmem' hw

end Runs

/-- Table locks that are kept to the end make every interleaving of transactions a serial one, in
the order of their commits, whatever files they work on and however many of them abort. -/
theorem runs_serially (files : Int → RmFileHandle) (as : List RecordAction) (hfiles : ∀ fd, RmInv (files fd))
    (hlive : Trace.Guarded step Live (init files) as) :
    Trace.Always step (fun s => s.SerialRun fun fd => (files fd).entry) (init files) as := by
  have hinv : Trace.Always step (Inv fun fd => (files fd).entry) (init files) as :=
    Trace.always_of_guarded (fun s a s' h hl hs => h.step hl hs) (inv_init hfiles) hlive
  exact hinv.mono fun s h => h.serialRun

instance (s : RecordServer) : ∀ a, Decidable (s.Live a)
  | .getRecord .. => inferInstanceAs (Decidable (_ → _))
  | .insert txn _ =>
      match h : s.threads txn with
      | .chosen fd rid _ => decidable_of_iff
          ((s.locks.lockExclusiveOnTable txn fd).1 = .returned →
            (s.files fd).entry rid = none) (by rw [Live, h])
      | .running | .getting .. | .counting _ | .writing
        .. | .dying | .rollingBack | .releasing _ | .ended _ =>
          .isTrue (by rw [Live, h]; trivial)
  | .wake txn =>
      match h : s.threads txn with
      | .getting fd rid => decidable_of_iff ((s.files fd).entry rid ≠ none) (by rw [Live, h])
      | .writing fd (.insert rid _ _) => decidable_of_iff ((s.files fd).entry rid = none) (by rw [Live, h])
      | .running | .chosen .. | .counting _ | .writing _ (.update ..) | .writing _
        (.delete ..) | .dying | .rollingBack
      | .releasing _ | .ended _ => .isTrue (by rw [Live, h]; trivial)
  | .getRecordCount .. | .getFreeRecord .. | .update .. | .delete _ | .commit _ | .abort _ | .undo
    _ | .undone _ | .unlock ..
  | .unlocked _ => .isTrue trivial

/-- Transaction 2 reads and updates what transaction 1 has committed, transaction 3 dies of it,
transaction 1's successor 0 waits for it, and transaction 2 aborts. -/
theorem runs_serially_two_files :
    ∃ file, RmManager.createFile 1 = .ok file ∧
      Trace.Always step (fun s => s.SerialRun fun _ => (RmManager.openFile file).entry)
        (init fun _ => RmManager.openFile file)
        [.getFreeRecord 1 0 [7], .insert 1 true, .getFreeRecord 2 5 [8], .insert 2 true,
          .getFreeRecord 1 0 [7], .insert 1 false,
          .commit 1, .unlock 1 (.table 0), .unlocked 1, .getRecord 2 0 ⟨1, 0⟩, .update 2 [9],
          .getRecordCount 3 0, .abort 3,
          .undone 3, .unlocked 3, .getRecordCount 0 0, .abort 2, .undo 2, .undo 2, .undone 2,
          .unlock 2 (.table 0), .wake 0,
          .unlock 2 (.table 5), .unlocked 2, .commit 0, .unlock 0 (.table 0), .unlocked 0] := by
  refine ⟨_, rfl, runs_serially (fun _ => RmManager.openFile _) _
    (fun _ => openFile_inv (show RmManager.createFile 1 = .ok _ from rfl)) ?_⟩
  decide

end RecordServer

end Rmdb

import Rmdb.Transaction.GroupMode

namespace Rmdb

open LockRequestQueue

def LockAction.txn : LockAction → TxnId
  | lockShared txn _ => txn
  | lockExclusive txn _ => txn
  | lockIS txn _ => txn
  | lockIX txn _ => txn
  | wake txn => txn
  | unlock txn _ => txn

/-- The lock manager with its record-level calls. Such a call takes an intention lock on the table
first; `pending` is the record lock it has still to ask for once it holds that one. -/
structure RecordLocks where
  locks : LockState
  pending : TxnId → Option (LockDataId × LockMode)

inductive LockCall
  | onTable (a : LockAction)
  | sharedOnRecord (txn : TxnId) (rid : Rid) (fd : Int)
  | exclusiveOnRecord (txn : TxnId) (rid : Rid) (fd : Int)
  | goOn (txn : TxnId)

def LockResult.HoldsAfter (holds : Prop) : LockResult → Prop
  | .returned => True
  | _ => holds

def LockResult.waitingAfter (w : Waiting) : LockResult → Option Waiting
  | .waits => some w
  | _ => none

namespace RecordLocks

variable (s : RecordLocks) (txn : TxnId)

def init : RecordLocks := ⟨.init, fun _ => none⟩

def Idle : Prop := s.locks.waiting txn = none ∧ s.pending txn = none

instance : Decidable (s.Idle txn) := inferInstanceAs (Decidable (_ ∧ _))

/-- The record-level call after its table-level call: an exception leaves it, a blocked thread
goes on once it has been woken. -/
def afterIntention (id : LockDataId) (mode : LockMode) : LockResult × LockState → RecordLocks
  | (.returned, locks) => ⟨locks, Function.update s.pending txn (some (id, mode))⟩
  | (.waits, locks) => ⟨locks, Function.update s.pending txn (some (id, mode))⟩
  | (.dies, locks) => { s with locks := locks }
  | (.nullRequest, locks) => { s with locks := locks }

def lockSharedOnRecord (rid : Rid) (fd : Int) : RecordLocks :=
  if .record fd rid ∈ s.locks.lockSet txn then s
  else s.afterIntention txn (.record fd rid) .shared (s.locks.lockISOnTable txn fd)

def lockExclusiveOnRecord (rid : Rid) (fd : Int) : RecordLocks :=
  let id := .record fd rid
  if id ∈ s.locks.lockSet txn then
    let res := (s.locks.getLockRequestQueue id).upgradeLockOnRecord txn
    { s with locks := (s.locks.setQueue id res.2).conclude txn id (.upgrade id .exlucsive) res.1 }
  else s.afterIntention txn id .exlucsive (s.locks.lockIXOnTable txn fd)

def lockOnRecord (id : LockDataId) (mode : LockMode) : RecordLocks :=
  let res := (s.locks.getLockRequestQueue id).checkAndExecuteLock txn mode
  ⟨(s.locks.setQueue id res.2).conclude txn id (.request id mode) res.1, Function.update s.pending txn none⟩

def step (s : RecordLocks) : LockCall → Option RecordLocks
  | .onTable (.wake txn) => (s.locks.next (.wake txn)).map fun locks => { s with locks := locks }
  | .onTable a => if s.Idle a.txn then (s.locks.next a).map fun locks => { s with locks := locks } else none
  | .sharedOnRecord txn rid fd => if s.Idle txn then some (s.lockSharedOnRecord txn rid fd) else none
  | .exclusiveOnRecord txn rid fd => if s.Idle txn then some (s.lockExclusiveOnRecord txn rid fd) else none
  | .goOn txn =>
      match s.pending txn with
      | none => none
      | some (id, mode) => if s.locks.waiting txn = none then some (s.lockOnRecord txn id mode) else none

end RecordLocks

namespace LockRequestQueue

variable {q q' : LockRequestQueue} {txn : TxnId} {mode : LockMode}

structure Others (q q' : LockRequestQueue) (txn : TxnId) : Prop where
  granted : ∀ u, u ≠ txn → q.HasGranted u → q'.HasGranted u
  request : ∀ u, u ≠ txn → q'.HasRequest u → q.HasRequest u
  upgrade : ∀ u' ∈ q'.upgradeQueue, u'.txnId ≠ txn → ∃ u ∈ q.upgradeQueue, u.txnId = u'.txnId ∧
    u.lockMode = u'.lockMode

theorem Frame.others (h : Frame q q' txn)
    (hup : ∀ u' ∈ q'.upgradeQueue, u'.txnId ≠ txn → ∃ u ∈ q.upgradeQueue, u.txnId = u'.txnId ∧
      u.lockMode = u'.lockMode) :
    Others q q' txn := by
  refine ⟨h.granted, ?_, hup⟩
  rintro u hne ⟨r', hr', rfl⟩
  obtain ⟨r, hr, hrt, -⟩ := h.request r' hr' hne
  exact ⟨r, hr, hrt⟩

theorem Frame.others_of_subset (h : Frame q q' txn)
    (hup : ∀ u ∈ q'.upgradeQueue, u.txnId ≠ txn → u ∈ q.upgradeQueue) :
    Others q q' txn :=
  h.others fun u hu hne => ⟨u, hup u hu hne, rfl, rfl⟩

theorem others_checkAndExecuteLock : Others q (q.checkAndExecuteLock txn mode).2 txn := by
  refine frame_checkAndExecuteLock.others_of_subset fun u hu _ => ?_
  rw [checkAndExecuteLock] at hu
  split at hu
  · exact hu
  · split at hu <;> exact hu

theorem mem_enqueue {u : LockRequest} (hu : u ∈ q.upgradeQueue ++ [⟨txn, mode, false⟩])
    (hne : u.txnId ≠ txn) : u ∈ q.upgradeQueue := by
  rcases List.mem_append.1 hu with hu | hu
  · exact hu
  · rw [List.mem_singleton.1 hu] at hne
    exact absurd rfl hne

theorem others_upgradeLockOnTable : Others q (q.upgradeLockOnTable txn mode).2 txn := by
  refine frame_upgradeLockOnTable.others_of_subset fun u hu hne => ?_
  rw [upgradeLockOnTable] at hu
  split at hu
  · exact hu
  · split at hu
    · exact hu
    · split at hu
      · exact hu
      · split at hu
        · exact hu
        · exact mem_enqueue hu hne

theorem others_upgradeLockOnRecord : Others q (q.upgradeLockOnRecord txn).2 txn := by
  have hkeep : Others q q txn := (Frame.refl q txn).others_of_subset fun _ hu _ => hu
  rw [upgradeLockOnRecord]
  split
  · exact hkeep
  · split
    · exact hkeep
    · split
      · exact hkeep
      · split
        · exact (frame_setMode true _ _ fun _ _ h => h).others_of_subset fun _ hu _ => hu
        · exact ⟨hkeep.granted, hkeep.request, fun u hu hne => ⟨u, mem_enqueue hu hne, rfl, rfl⟩⟩

theorem others_finishUpgrade : Others q (q.finishUpgrade txn mode) txn :=
  frame_finishUpgrade.others_of_subset fun _ hu _ => List.mem_of_mem_eraseP hu

theorem others_unlock : Others q (q.unlock txn) txn := by
  obtain ⟨hreq, hup⟩ := unlock_regrant q txn
  refine ⟨?_, ?_, ?_⟩
  · rintro u hne ⟨r, hr, rfl, hgr⟩
    obtain ⟨r', hr', hrt, -, hgr'⟩ := regrant_new hreq (mem_remaining_of_ne hr hne)
    exact ⟨r', hr', hrt, hgr' hgr⟩
  · rintro u hne ⟨r', hr', rfl⟩
    obtain ⟨r, hr, hrt, -⟩ := regrant_old hreq hr'
    exact ⟨r, remaining_sublist.subset hr, hrt.symm⟩
  · intro u' hu' hne
    obtain ⟨u, hu, hut, hmode, -⟩ := regrant_old hup hu'
    exact ⟨u, hu, hut.symm, hmode.symm⟩

theorem ModeInv.unlock_gone (h : ModeInv q) : ¬ (q.unlock txn).HasRequest txn := by
  rintro ⟨r', hr', hrt'⟩
  obtain ⟨r, hr, hrt, -⟩ := regrant_old (unlock_regrant q txn).1 hr'
  exact (h.mem_remaining.1 hr).2 (hrt ▸ hrt')

structure OwnAt (q : LockRequestQueue) (id : LockDataId) (txn : TxnId) (holds : Prop)
    (w : Option Waiting) : Prop where
  held : holds → q.HasGranted txn
  request : q.HasRequest txn → holds ∨ ∃ m, w = some (.request id m)
  upgrade : ∀ u ∈ q.upgradeQueue, u.txnId = txn → w = some (.upgrade id u.lockMode)

variable {id : LockDataId} {holds holds' : Prop} {w w' : Option Waiting}

theorem OwnAt.others {u : TxnId} (h : OwnAt q id u holds w) (hf : Others q q' txn) (hu : u ≠ txn) :
    OwnAt q' id u holds w := by
  refine ⟨fun hh => hf.granted u hu (h.held hh), fun hr => h.request (hf.request u hu hr), ?_⟩
  rintro v hv rfl
  obtain ⟨a, ha, hat, hmode⟩ := hf.upgrade v hv hu
  rw [← hmode]
  exact h.upgrade a ha hat

/-- A queue the transaction does not wait at does not see it fall asleep or wake up elsewhere. -/
theorem OwnAt.elsewhere (h : OwnAt q id txn holds w) (hh : holds' ↔ holds)
    (hr : ∀ m, w ≠ some (.request id m)) (hu : ∀ m, w ≠ some (.upgrade id m)) : OwnAt q id txn holds' w' := by
  refine ⟨fun hc => h.held (hh.1 hc), ?_, ?_⟩
  · intro hreq
    rcases h.request hreq with hc | ⟨m, hm⟩
    · exact .inl (hh.2 hc)
    · exact absurd hm (hr m)
  · intro u hum hut
    exact absurd (h.upgrade u hum hut) (hu _)

theorem OwnAt.idle (h : OwnAt q id txn holds none) : ¬ q.Upgrading txn := by
  rintro ⟨u, hu, hut⟩
  cases h.upgrade u hu hut

theorem OwnAt.absent (h : OwnAt q id txn holds none) (hn : ¬ holds) : ¬ q.HasRequest txn := by
  intro hr
  rcases h.request hr with hc | ⟨m, hm⟩
  · exact hn hc
  · cases hm

section Calls

theorem own_checkAndExecuteLock (h : OwnAt q id txn False none) :
    OwnAt (q.checkAndExecuteLock txn mode).2 id txn ((q.checkAndExecuteLock txn mode).1.HoldsAfter False)
      ((q.checkAndExecuteLock txn mode).1.waitingAfter (.request id mode)) := by
  have hidle := h.idle
  rw [checkAndExecuteLock]
  split
  · refine ⟨fun _ => ⟨⟨txn, mode, true⟩, by simp, rfl, rfl⟩, fun _ => .inl trivial, ?_⟩
    exact fun u hu hut => absurd ⟨u, hu, hut⟩ hidle
  · split
    · exact h
    · exact ⟨False.elim, fun _ => .inr ⟨mode, rfl⟩, fun u hu hut => absurd ⟨u, hu, hut⟩ hidle⟩

theorem own_returned (hg : q.HasGranted txn) (hu : ¬ q.Upgrading txn) : OwnAt q id txn True w :=
  ⟨fun _ => hg, fun _ => .inl trivial, fun u hum hut => absurd ⟨u, hum, hut⟩ hu⟩

theorem own_enqueue (hg : q.HasGranted txn) (hu : ¬ q.Upgrading txn) :
    OwnAt { q with upgradeQueue := q.upgradeQueue ++ [⟨txn, mode, false⟩] } id txn True
      (some (.upgrade id mode)) := by
  refine ⟨fun _ => hg, fun _ => .inl trivial, ?_⟩
  intro u hum hut
  rcases List.mem_append.1 hum with hum | hum
  · exact absurd ⟨u, hum, hut⟩ hu
  · rw [List.mem_singleton.1 hum]

theorem hasGranted_setMode {b : Bool} (hg : q.HasGranted txn) :
    ∃ r ∈ q.setMode txn mode b, r.txnId = txn ∧ r.granted = true := by
  obtain ⟨r, hr, hrt, hgr⟩ := hg
  exact ⟨⟨txn, mode, b || r.granted⟩, List.mem_map.2 ⟨r, hr, if_pos hrt⟩, rfl, by simp [hgr]⟩

theorem own_upgradeLockOnTable (h : OwnAt q id txn True none) :
    OwnAt (q.upgradeLockOnTable txn mode).2 id txn True
      ((q.upgradeLockOnTable txn mode).1.waitingAfter (.upgrade id mode)) := by
  have hg := h.held trivial
  have hidle := h.idle
  rw [upgradeLockOnTable]
  split
  · exact h
  · split
    · exact h
    · split
      · exact h
      · split
        · exact own_returned (hasGranted_setMode hg) hidle
        · exact own_enqueue hg hidle

theorem own_upgradeLockOnRecord (h : OwnAt q id txn True none) :
    OwnAt (q.upgradeLockOnRecord txn).2 id txn True
      ((q.upgradeLockOnRecord txn).1.waitingAfter (.upgrade id .exlucsive)) := by
  have hg := h.held trivial
  have hidle := h.idle
  rw [upgradeLockOnRecord]
  split
  · exact h
  · split
    · exact h
    · split
      · exact h
      · split
        · exact own_returned (hasGranted_setMode hg) hidle
        · exact own_enqueue hg hidle

theorem own_finishUpgrade (hq : ModeInv q) (h : OwnAt q id txn holds (some (.upgrade id mode))) :
    OwnAt (q.finishUpgrade txn mode) id txn holds none := by
  refine ⟨fun hh => hasGranted_setMode (h.held hh), ?_, ?_⟩
  · rintro ⟨r', hr', hrt'⟩
    have hreq : q.HasRequest txn := by
      rcases mem_setMode hr' with ⟨-, hne⟩ | ⟨r, hr, hrt, -⟩
      · exact absurd hrt' hne
      · exact ⟨r, hr, hrt⟩
    rcases h.request hreq with hh | ⟨m, hm⟩
    · exact .inl hh
    · cases hm
  · intro u hu hut
    exact absurd hut ((mem_eraseP_txn hq.upNodup).1 hu).2

theorem own_unlock (hq : ModeInv q) (h : OwnAt q id txn holds none) :
    OwnAt (q.unlock txn) id txn False none := by
  refine ⟨False.elim, fun hr => absurd hr hq.unlock_gone, ?_⟩
  intro u' hu' hut'
  obtain ⟨u, hu, hut, -⟩ := regrant_old (unlock_regrant q txn).2 hu'
  exact absurd ⟨u, hu, hut ▸ hut'⟩ h.idle

end Calls

end LockRequestQueue

namespace LockState

variable {l l' : LockState} {txn : TxnId} {id : LockDataId} {q : LockRequestQueue} {mode : LockMode}

structure ModesInv (l : LockState) : Prop where
  queues : ∀ id, ModeInv (l.getLockRequestQueue id)
  own : ∀ id txn, OwnAt (l.getLockRequestQueue id) id txn (id ∈ l.lockSet txn) (l.waiting txn)

def Summarised (l : LockState) : Prop := ∀ id, Summary (l.getLockRequestQueue id)

theorem modesInv_init : ModesInv init :=
  ⟨fun _ => modeInv_empty, fun _ _ =>
    ⟨by simp [init], fun ⟨_, h, _⟩ => (by cases h), fun _ h => (by cases h)⟩⟩

theorem ModesInv.update (h : ModesInv l) (hq : ModeInv q) (hf : Others (l.getLockRequestQueue id) q txn)
    (hqueue : ∀ j, l'.getLockRequestQueue j = if j = id then q else l.getLockRequestQueue j)
    (hset : ∀ u, u ≠ txn → l'.lockSet u = l.lockSet u) (hwait : ∀ u, u ≠ txn → l'.waiting u = l.waiting u)
    (hown : OwnAt q id txn (id ∈ l'.lockSet txn) (l'.waiting txn))
    (hheld : ∀ j, j ≠ id → (j ∈ l'.lockSet txn ↔ j ∈ l.lockSet txn))
    (hreq : ∀ j, j ≠ id → ∀ m, l.waiting txn ≠ some (.request j m))
    (hup : ∀ j, j ≠ id → ∀ m, l.waiting txn ≠ some (.upgrade j m)) : ModesInv l' := by
  refine ⟨fun j => ?_, fun j u => ?_⟩
  · rw [hqueue]
    split
    · exact hq
    · exact h.queues j
  · rw [hqueue]
    by_cases hu : u = txn
    · subst hu
      split
      · rename_i hj
        rw [hj]
        exact hown
      · rename_i hj
        exact (h.own j u).elsewhere (hheld j hj) (hreq j hj) (hup j hj)
    · rw [hset u hu, hwait u hu]
      split
      · rename_i hj
        rw [hj]
        exact (h.own id u).others hf hu
      · exact h.own j u

theorem ModesInv.conclude (h : ModesInv l) (hw : l.waiting txn = none) (hq : ModeInv q)
    (hf : Others (l.getLockRequestQueue id) q txn) (w : Waiting) (res : LockResult)
    (hown : OwnAt q id txn (res.HoldsAfter (id ∈ l.lockSet txn)) (res.waitingAfter w)) :
    ModesInv ((l.setQueue id q).conclude txn id w res) := by
  refine h.update hq hf (conclude_queue w res) (fun u => conclude_lockSet w res)
    (fun u => conclude_waiting w res) ?_ ?_
    (fun j _ m => by simp [hw]) (fun j _ m => by simp [hw])
  · cases res with
    | returned =>
        simpa [LockState.conclude, LockResult.HoldsAfter, LockResult.waitingAfter,
          setQueue, hw] using hown
    | waits => simpa [LockState.conclude, LockResult.HoldsAfter, LockResult.waitingAfter, setQueue] using hown
    | dies | nullRequest =>
        simpa [LockState.conclude, LockResult.HoldsAfter, LockResult.waitingAfter,
          setQueue, hw] using hown
  · intro j hj
    cases res <;> simp [LockState.conclude, setQueue, hj]

def KeepsOnTable (l : LockState) (txn : TxnId) (fd : Int) (mode : LockMode) : Prop :=
  if .table fd ∈ l.lockSet txn then mode = .intentionExclusive →
    SafeUpgrade (l.getLockRequestQueue (.table fd))
  else mode = .intentionShared → SafeGrant (l.getLockRequestQueue (.table fd))

theorem ModesInv.ownHeld (h : ModesInv l) (hw : l.waiting txn = none) (hid : id ∈ l.lockSet txn) :
    OwnAt (l.getLockRequestQueue id) id txn True none := by
  have hown := h.own id txn
  rwa [hw, eq_true hid] at hown

theorem ModesInv.ownAbsent (h : ModesInv l) (hw : l.waiting txn = none) (hid : id ∉ l.lockSet txn) :
    OwnAt (l.getLockRequestQueue id) id txn False none := by
  have hown := h.own id txn
  rwa [hw, eq_false hid] at hown

theorem holdsAfter_of_held {res : LockResult} {p : Prop} (hp : p) : res.HoldsAfter p = True := by
  cases res <;> simp [LockResult.HoldsAfter, hp]

theorem ModesInv.acquire (h : ModesInv l) (hs : l.Summarised) (hw : l.waiting txn = none)
    (hid : id ∉ l.lockSet txn) (hm : mode ≠ .sIx) :
    let res := (l.getLockRequestQueue id).checkAndExecuteLock txn mode
    let l' := (l.setQueue id res.2).conclude txn id (.request id mode) res.1
    ModesInv l' ∧ (l'.Summarised ↔ (mode = .intentionShared → SafeGrant (l.getLockRequestQueue id))) := by
  have hown := h.ownAbsent hw hid
  refine ⟨?_, ?_⟩
  · refine h.conclude hw ((h.queues id).checkAndExecuteLock (hown.absent not_false) hm)
      others_checkAndExecuteLock _ _ ?_
    rw [eq_false hid]
    exact own_checkAndExecuteLock hown
  · rw [Summarised, forall_queue_iff hs (conclude_queue _ _)]
    exact summary_checkAndExecuteLock (h.queues id) (hs id) hm

theorem ModesInv.lockOnTable (h : ModesInv l) (hs : l.Summarised) (hw : l.waiting txn = none) (fd : Int)
    (hm : mode ≠ .sIx) :
    ModesInv (l.lockOnTable txn fd mode).2 ∧
    ((l.lockOnTable txn fd mode).2.Summarised ↔ l.KeepsOnTable txn fd mode) := by
  rw [LockState.lockOnTable, KeepsOnTable]
  simp only
  split
  · rename_i hid
    have hown := h.ownHeld hw hid
    obtain ⟨hq, hsum⟩ := summary_upgradeLockOnTable (h.queues _) (hs _) (hown.held trivial) hown.idle hm
    refine ⟨h.conclude hw hq others_upgradeLockOnTable _ _ ?_, ?_⟩
    · rw [holdsAfter_of_held hid]
      exact own_upgradeLockOnTable hown
    · rw [Summarised, forall_queue_iff hs (conclude_queue _ _)]
      exact hsum
  · rename_i hid
    exact h.acquire hs hw hid hm

theorem ModesInv.wakeUp (h : ModesInv l) (hs : l.Summarised) {res : LockResult × LockState}
    (hstep : l.wakeUp txn = some res) :
    ModesInv res.2 ∧ res.2.Summarised := by
  rcases wakeUp_cases hstep with ⟨id, mode, r, hw, hr, hrt, hg, rfl⟩ | ⟨id, mode, u, hw, hu, hut, hg, rfl⟩
  · refine ⟨h.update (h.queues id) ((Frame.refl _ txn).others_of_subset fun _ hu _ => hu) ?_ ?_
      ?_ ?_ ?_ ?_ ?_, hs⟩
    · intro j
      split
      · rename_i hj; rw [hj]; rfl
      · rfl
    · intro v hv; simp [hv]
    · intro v hv; simp [hv]
    · have hidle : ¬ (l.getLockRequestQueue id).Upgrading txn := by
        rintro ⟨v, hv, hvt⟩
        have := (h.own id txn).upgrade v hv hvt
        rw [hw] at this
        cases this
      simpa using own_returned (w := none) ⟨r, hr, hrt, hg⟩ hidle
    · intro j hj; simp [hj]
    · intro j hj m; simp [hw, Ne.symm hj]
    · intro j hj m; simp [hw]
  · have hown := h.own id txn
    rw [hw] at hown
    obtain rfl : mode = u.lockMode := by
      have hup := hown.upgrade u hu hut
      cases hup
      rfl
    obtain ⟨hq, hsum⟩ := summary_finishUpgrade (h.queues id) (hs id) hu hg
    rw [hut] at hq hsum
    refine ⟨h.update hq others_finishUpgrade (fun j => getLockRequestQueue_setQueue j) ?_ ?_ ?_ ?_ ?_ ?_, ?_⟩
    · intro v _; rfl
    · intro v hv; simp [hv]
    · simpa [setQueue] using own_finishUpgrade (h.queues id) hown
    · intro j _; exact Iff.rfl
    · intro j hj m; simp [hw]
    · intro j hj m; simp [hw, Ne.symm hj]
    · exact (forall_queue_iff hs fun j => getLockRequestQueue_setQueue j).2 hsum

theorem ModesInv.unlock (h : ModesInv l) (hs : l.Summarised) (hw : l.waiting txn = none) :
    ModesInv (l.unlock txn id) ∧
    ((l.unlock txn id).Summarised ↔ SafeHandOver (l.getLockRequestQueue id) txn) := by
  have hown := h.own id txn
  rw [hw] at hown
  obtain ⟨hq, hsum⟩ := summary_unlock (h.queues id) (hs id) hown.idle
  have hset : ∀ u, (l.unlock txn id).lockSet u = if u = txn then (l.lockSet txn).erase id
      else l.lockSet u := by
    intro u
    rw [LockState.unlock]
    by_cases hu : u = txn <;> cases hq : l.lockTable id <;> simp [hu]
  have hwait : (l.unlock txn id).waiting = l.waiting := by
    rw [LockState.unlock]
    cases l.lockTable id <;> rfl
  refine ⟨h.update hq others_unlock getLockRequestQueue_unlock ?_ ?_ ?_ ?_ ?_ ?_, ?_⟩
  · intro u hu; rw [hset, if_neg hu]
  · intro u _; rw [hwait]
  · rw [hset, if_pos rfl, hwait, hw]
    simpa using own_unlock (h.queues id) hown
  · intro j hj; simp [hset, hj]
  · intro j _ m; simp [hw]
  · intro j _ m; simp [hw]
  · rw [Summarised, forall_queue_iff hs getLockRequestQueue_unlock]
    exact hsum

end LockState

namespace RecordLocks

variable {s s' : RecordLocks} {txn : TxnId} {id : LockDataId} {mode : LockMode}

/-- The record lock a thread has still to ask for is not its own yet, and it sleeps at a table only. -/
structure PendingAt (txn : TxnId) (p : Option (LockDataId × LockMode)) (held : Finset LockDataId)
    (w : Option Waiting) : Prop where
  mode : ∀ id mode, p = some (id, mode) → mode = .shared ∨ mode = .exlucsive
  record : ∀ id mode, p = some (id, mode) → ∃ fd rid, id = .record fd rid
  notHeld : ∀ id mode, p = some (id, mode) → id ∉ held
  atTable : ∀ id mode, p = some (id, mode) → ∀ j m, w = some (.request j m) → ∃ fd, j = .table fd

structure Inv (s : RecordLocks) : Prop where
  locks : s.locks.ModesInv
  pending : ∀ txn, PendingAt txn (s.pending txn) (s.locks.lockSet txn) (s.locks.waiting txn)

theorem pendingAt_none {held : Finset LockDataId} {w : Option Waiting} : PendingAt txn none held w :=
  ⟨by simp, by simp, by simp, by simp⟩

theorem inv_init : Inv init := ⟨LockState.modesInv_init, fun _ => pendingAt_none⟩

def Summarised (s : RecordLocks) : Prop := s.locks.Summarised

def KeepsSummary (s : RecordLocks) : LockCall → Prop
  | .onTable (.lockIS txn fd) =>
      .table fd ∉ s.locks.lockSet txn → SafeGrant (s.locks.getLockRequestQueue (.table fd))
  | .onTable (.lockIX txn fd) =>
      .table fd ∈ s.locks.lockSet txn → SafeUpgrade (s.locks.getLockRequestQueue (.table fd))
  | .onTable (.unlock txn id) => SafeHandOver (s.locks.getLockRequestQueue id) txn
  | .sharedOnRecord txn rid fd => .record fd rid ∉ s.locks.lockSet txn → .table fd ∉ s.locks.lockSet txn →
      SafeGrant (s.locks.getLockRequestQueue (.table fd))
  | .exclusiveOnRecord txn rid fd => .record fd rid ∉ s.locks.lockSet txn → .table fd ∈ s.locks.lockSet txn →
      SafeUpgrade (s.locks.getLockRequestQueue (.table fd))
  | .onTable (.lockShared _ _) | .onTable (.lockExclusive _ _) | .onTable (.wake _) | .goOn _ => True

theorem keepsOnTable_shared {l : LockState} {fd : Int} (hm : mode = .shared ∨ mode = .exlucsive) :
    l.KeepsOnTable txn fd mode := by
  rw [LockState.KeepsOnTable]
  split
  · rintro rfl
    simp at hm
  · rintro rfl
    simp at hm

theorem keepsOnTable_is {l : LockState} {fd : Int} : l.KeepsOnTable txn fd .intentionShared ↔
    (.table fd ∉ l.lockSet txn → SafeGrant (l.getLockRequestQueue (.table fd))) := by
  rw [LockState.KeepsOnTable]
  split
  · rename_i hid
    exact iff_of_true (fun h => by cases h) fun hn => absurd hid hn
  · rename_i hid
    exact ⟨fun h _ => h rfl, fun h _ => h hid⟩

theorem keepsOnTable_ix {l : LockState} {fd : Int} : l.KeepsOnTable txn fd .intentionExclusive ↔
    (.table fd ∈ l.lockSet txn → SafeUpgrade (l.getLockRequestQueue (.table fd))) := by
  rw [LockState.KeepsOnTable]
  split
  · rename_i hid
    exact ⟨fun h _ => h rfl, fun h _ => h hid⟩
  · rename_i hid
    exact iff_of_true (fun h => by cases h) fun hn => absurd hn hid

theorem Inv.of_locks (h : Inv s) (txn : TxnId) (hl : s'.locks.ModesInv) (hother : ∀ u, u ≠ txn →
      s'.pending u = s.pending u ∧ s'.locks.lockSet u = s.locks.lockSet u ∧
      s'.locks.waiting u = s.locks.waiting u)
    (hown : PendingAt txn (s'.pending txn) (s'.locks.lockSet txn) (s'.locks.waiting txn)) : Inv s' := by
  refine ⟨hl, fun u => ?_⟩
  by_cases hu : u = txn
  · rw [hu]
    exact hown
  · obtain ⟨hp, hset, hwait⟩ := hother u hu
    rw [hp, hset, hwait]
    exact h.pending u

theorem conclude_own {l : LockState} {w : Waiting} {res : LockResult} {held : LockDataId}
    (hid : held ∉ l.lockSet txn) (hne : held ≠ id) (hw : l.waiting txn = none) (q : LockRequestQueue) :
    held ∉ ((l.setQueue id q).conclude txn id w res).lockSet txn ∧
      ∀ w', ((l.setQueue id q).conclude txn id w res).waiting txn = some w' → w' = w := by
  cases res with
  | returned => simp [LockState.conclude, LockState.setQueue, hid, hne, hw]
  | waits => simp [LockState.conclude, LockState.setQueue, hid]
  | dies | nullRequest => simp [LockState.conclude, LockState.setQueue, hid, hw]

/-- The table-level call inside a record-level one takes no record lock and sleeps at the table. -/
theorem lockOnTable_pending {l : LockState} {fd : Int} {rid : Rid} (hid : .record fd rid ∉ l.lockSet txn)
    (hw : l.waiting txn = none) :
    .record fd rid ∉ (l.lockOnTable txn fd mode).2.lockSet txn ∧
      ∀ j m, (l.lockOnTable txn fd mode).2.waiting txn = some (.request j m) → ∃ fd, j = .table fd := by
  rw [LockState.lockOnTable]
  simp only
  split
  · obtain ⟨hset, hwait⟩ := conclude_own hid (show _ ≠ LockDataId.table fd by simp) hw _
    exact ⟨hset, fun j m hm => by cases hwait _ hm⟩
  · obtain ⟨hset, hwait⟩ := conclude_own hid (show _ ≠ LockDataId.table fd by simp) hw _
    refine ⟨hset, fun j m hm => ?_⟩
    cases hwait _ hm
    exact ⟨fd, rfl⟩

theorem afterIntention_locks (s : RecordLocks) (res : LockResult × LockState) :
    (s.afterIntention txn id mode res).locks = res.2 := by
  obtain ⟨res, l⟩ := res
  cases res <;> rfl

theorem afterIntention_pending (s : RecordLocks) (res : LockResult × LockState) (u : TxnId) :
    (s.afterIntention txn id mode res).pending u = s.pending u ∨
      u = txn ∧ (s.afterIntention txn id mode res).pending u = some (id, mode) := by
  obtain ⟨res, l⟩ := res
  by_cases hu : u = txn <;> cases res <;> simp [afterIntention, hu]

theorem Inv.afterIntention (h : Inv s) (hs : s.Summarised) (hi : s.Idle txn) {fd : Int} {rid : Rid}
    (hid : .record fd rid ∉ s.locks.lockSet txn) {tab : LockMode} (htab : tab ≠ .sIx)
    (hm : mode = .shared ∨ mode = .exlucsive) :
    let s' := s.afterIntention txn (.record fd rid) mode (s.locks.lockOnTable txn fd tab)
    Inv s' ∧ (s'.Summarised ↔ s.locks.KeepsOnTable txn fd tab) := by
  obtain ⟨hl, hsum⟩ := h.locks.lockOnTable hs hi.1 fd htab
  refine ⟨h.of_locks txn ?_ ?_ ?_, ?_⟩
  · rw [afterIntention_locks]
    exact hl
  · intro u hu
    rw [afterIntention_locks]
    refine ⟨?_, LockState.lockOnTable_others _ _ hu⟩
    rcases afterIntention_pending s (s.locks.lockOnTable txn fd tab) u with hp | ⟨hc, -⟩
    · exact hp
    · exact absurd hc hu
  · rw [afterIntention_locks]
    obtain ⟨hset, hwait⟩ := lockOnTable_pending hid hi.1
    rcases afterIntention_pending s (s.locks.lockOnTable txn fd tab) txn with hp | ⟨-, hp⟩
    · rw [hp, hi.2]
      exact pendingAt_none
    · rw [hp]
      refine ⟨?_, ?_, ?_, ?_⟩
      · rintro _ _ ⟨⟩; exact hm
      · rintro _ _ ⟨⟩; exact ⟨fd, rid, rfl⟩
      · rintro _ _ ⟨⟩; exact hset
      · rintro _ _ ⟨⟩; exact hwait
  · rw [Summarised, afterIntention_locks]
    exact hsum

theorem Inv.lockSharedOnRecord (h : Inv s) (hs : s.Summarised) (hi : s.Idle txn) (rid : Rid) (fd : Int) :
    Inv (s.lockSharedOnRecord txn rid fd) ∧
      ((s.lockSharedOnRecord txn rid fd).Summarised ↔ s.KeepsSummary (.sharedOnRecord txn rid fd)) := by
  rw [RecordLocks.lockSharedOnRecord]
  split
  · rename_i hid
    exact ⟨h, iff_of_true hs fun hn => absurd hid hn⟩
  · rename_i hid
    obtain ⟨hinv, hsum⟩ :=
      h.afterIntention hs hi hid (show LockMode.intentionShared ≠ .sIx by decide) (.inl rfl)
    refine ⟨hinv, hsum.trans (keepsOnTable_is.trans ⟨fun hk _ => hk, fun hk => hk hid⟩)⟩

theorem Inv.lockExclusiveOnRecord (h : Inv s) (hs : s.Summarised) (hi : s.Idle txn) (rid : Rid) (fd : Int) :
    Inv (s.lockExclusiveOnRecord txn rid fd) ∧
      ((s.lockExclusiveOnRecord txn rid fd).Summarised ↔ s.KeepsSummary (.exclusiveOnRecord txn rid fd)) := by
  rw [RecordLocks.lockExclusiveOnRecord]
  simp only
  split
  · rename_i hid
    have hown := h.locks.ownHeld hi.1 hid
    obtain ⟨hq, hsum⟩ := summary_upgradeLockOnRecord (h.locks.queues _) (hs _) (hown.held trivial) hown.idle
    refine ⟨h.of_locks txn ?_ ?_ ?_, iff_of_true ?_ fun hn => absurd hid hn⟩
    · refine h.locks.conclude hi.1 hq others_upgradeLockOnRecord _ _ ?_
      rw [LockState.holdsAfter_of_held hid]
      exact own_upgradeLockOnRecord hown
    · intro u hu
      exact ⟨rfl, LockState.conclude_lockSet _ _ hu, LockState.conclude_waiting _ _ hu⟩
    · simp only [hi.2]
      exact pendingAt_none
    · exact (LockState.forall_queue_iff hs (LockState.conclude_queue _ _)).2 hsum
  · rename_i hid
    obtain ⟨hinv, hsum⟩ :=
      h.afterIntention hs hi hid (show LockMode.intentionExclusive ≠ .sIx by decide) (.inr rfl)
    refine ⟨hinv, hsum.trans (keepsOnTable_ix.trans ⟨fun hk _ => hk, fun hk => hk hid⟩)⟩

/-- The second half: only S and X are asked for on a record. -/
theorem Inv.lockOnRecord (h : Inv s) (hs : s.Summarised) (hp : s.pending txn = some (id, mode))
    (hw : s.locks.waiting txn = none) :
    Inv (s.lockOnRecord txn id mode) ∧ (s.lockOnRecord txn id mode).Summarised := by
  have hmode := (h.pending txn).mode id mode hp
  have hm : mode ≠ .sIx ∧ mode ≠ .intentionShared := by
    rcases hmode with rfl | rfl <;> decide
  obtain ⟨hl, hsum⟩ := h.locks.acquire hs hw ((h.pending txn).notHeld id mode hp) hm.1
  refine ⟨h.of_locks txn hl ?_ ?_, hsum.2 fun hc => absurd hc hm.2⟩
  · intro u hu
    exact ⟨by simp [RecordLocks.lockOnRecord, hu], LockState.conclude_lockSet _ _ hu,
      LockState.conclude_waiting _ _ hu⟩
  · simp only [RecordLocks.lockOnRecord, Function.update_self]
    exact pendingAt_none

theorem Inv.onTable (h : Inv s) (hi : s.Idle txn) {l : LockState} (hl : l.ModesInv)
    (hother : ∀ u, u ≠ txn → l.lockSet u = s.locks.lockSet u ∧ l.waiting u = s.locks.waiting u) :
    Inv { s with locks := l } := by
  refine h.of_locks txn hl (fun u hu => ⟨rfl, hother u hu⟩) ?_
  simp only [hi.2]
  exact pendingAt_none

theorem Inv.lockOnTable (h : Inv s) (hs : s.Summarised) (hi : s.Idle txn) (fd : Int) (hm : mode ≠ .sIx) :
    Inv { s with locks := (s.locks.lockOnTable txn fd mode).2 } ∧
      (Summarised { s with locks := (s.locks.lockOnTable txn fd mode).2 } ↔
        s.locks.KeepsOnTable txn fd mode) := by
  obtain ⟨hl, hsum⟩ := h.locks.lockOnTable hs hi.1 fd hm
  exact ⟨h.onTable hi hl fun u hu => LockState.lockOnTable_others _ _ hu, hsum⟩

theorem Inv.wake (h : Inv s) (hs : s.Summarised) {res : LockResult × LockState}
    (hstep : s.locks.wakeUp txn = some res) :
    Inv { s with locks := res.2 } ∧ Summarised { s with locks := res.2 } := by
  obtain ⟨hl, hsum⟩ := h.locks.wakeUp hs hstep
  have hown := h.pending txn
  refine ⟨h.of_locks txn hl ?_ ?_, hsum⟩
  · intro u hu
    rcases LockState.wakeUp_cases hstep
      with ⟨id, mode, r, hw, hr, hrt, hg, rfl⟩ | ⟨id, mode, v, hw, hv, hvt, hg, rfl⟩
    · simp [hu]
    · simp [LockState.setQueue, hu]
  · rcases LockState.wakeUp_cases hstep
      with ⟨id, mode, r, hw, hr, hrt, hg, rfl⟩ | ⟨id, mode, v, hw, hv, hvt, hg, rfl⟩
    · refine ⟨hown.mode, hown.record, ?_, by simp⟩
      intro j m hp hmem
      obtain ⟨fd, hfd⟩ := hown.atTable j m hp id mode hw
      obtain ⟨fd', rid, hrec⟩ := hown.record j m hp
      simp only [Function.update_self, Finset.mem_insert] at hmem
      rcases hmem with rfl | hmem
      · rw [hfd] at hrec
        cases hrec
      · exact hown.notHeld j m hp hmem
    · exact ⟨hown.mode, hown.record, hown.notHeld, by simp⟩

theorem idle_step {res : LockResult × LockState} (h : (if s.Idle txn then
      (Option.map Prod.snd (if s.locks.waiting txn = none then some res else none)).map fun locks =>
        { s with locks := locks }
    else none) = some s') : s.Idle txn ∧ s' = { s with locks := res.2 } := by
  obtain ⟨hi, hnext⟩ := Option.ite_none_right_eq_some.1 h
  rw [if_pos hi.1] at hnext
  exact ⟨hi, (Option.some.inj hnext).symm⟩

theorem Inv.step (h : Inv s) (hs : s.Summarised) {a : LockCall} (hstep : s.step a = some s') :
    Inv s' ∧ (s'.Summarised ↔ s.KeepsSummary a) := by
  cases a with
  | onTable a =>
      cases a with
      | lockShared txn fd =>
          obtain ⟨hi, rfl⟩ := idle_step hstep
          obtain ⟨hinv, hsum⟩ := h.lockOnTable hs hi fd (show LockMode.shared ≠ .sIx by decide)
          exact ⟨hinv, hsum.trans (iff_of_true (keepsOnTable_shared (.inl rfl)) trivial)⟩
      | lockExclusive txn fd =>
          obtain ⟨hi, rfl⟩ := idle_step hstep
          obtain ⟨hinv, hsum⟩ := h.lockOnTable hs hi fd (show LockMode.exlucsive ≠ .sIx by decide)
          exact ⟨hinv, hsum.trans (iff_of_true (keepsOnTable_shared (.inr rfl)) trivial)⟩
      | lockIS txn fd =>
          obtain ⟨hi, rfl⟩ := idle_step hstep
          obtain ⟨hinv, hsum⟩ := h.lockOnTable hs hi fd (show LockMode.intentionShared ≠ .sIx by decide)
          exact ⟨hinv, hsum.trans keepsOnTable_is⟩
      | lockIX txn fd =>
          obtain ⟨hi, rfl⟩ := idle_step hstep
          obtain ⟨hinv, hsum⟩ := h.lockOnTable hs hi fd (show LockMode.intentionExclusive ≠ .sIx by decide)
          exact ⟨hinv, hsum.trans keepsOnTable_ix⟩
      | wake txn =>
          obtain ⟨l, hl, rfl⟩ := Option.map_eq_some_iff.1 hstep
          obtain ⟨res, hres, rfl⟩ := Option.map_eq_some_iff.1 hl
          obtain ⟨hinv, hsum⟩ := h.wake hs hres
          exact ⟨hinv, iff_of_true hsum trivial⟩
      | unlock txn id =>
          obtain ⟨hi, rfl⟩ := idle_step hstep
          obtain ⟨hl, hsum⟩ := h.locks.unlock hs hi.1
          exact ⟨h.onTable hi hl fun u hu => LockState.unlock_others _ hu, hsum⟩
  | sharedOnRecord txn rid fd =>
      obtain ⟨hi, ⟨⟩⟩ := Option.ite_none_right_eq_some.1 hstep
      exact h.lockSharedOnRecord hs hi rid fd
  | exclusiveOnRecord txn rid fd =>
      obtain ⟨hi, ⟨⟩⟩ := Option.ite_none_right_eq_some.1 hstep
      exact h.lockExclusiveOnRecord hs hi rid fd
  | goOn txn =>
      rw [RecordLocks.step] at hstep
      split at hstep
      · cases hstep
      · rename_i id mode hp
        obtain ⟨hw, ⟨⟩⟩ := Option.ite_none_right_eq_some.1 hstep
        obtain ⟨hinv, hsum⟩ := h.lockOnRecord hs hp hw
        exact ⟨hinv, iff_of_true hsum trivial⟩

/-- The group modes summarise the granted locks in every state of a run, exactly when IS is never granted
beside a stronger lock, IX never taken over a group mode that is still S, and S never handed over an IX. -/
theorem summarised_iff_keepsSummary (calls : List LockCall) (s : RecordLocks)
    (hrun : Trace.run step init calls = some s) :
    Trace.Always step Summarised init calls ↔ Trace.Guarded step KeepsSummary init calls := by
  have hstart : init.Summarised := by
    rintro id r ⟨hr | hr, -⟩ <;> cases hr
  refine Trace.always_iff_guarded ?_ ?_ inv_init hstart (Trace.guarded_of_forall fun _ _ => trivial) hrun
  · intro s a s' h hs _ hstep
    exact (h.step hs hstep).1
  · intro s a s' h hs _ hstep
    exact (h.step hs hstep).2

theorem summarised_iff_keepsSummary_two_readers :
    Trace.Always step Summarised init [.sharedOnRecord 1 ⟨1, 0⟩ 0, .goOn 1,
      .sharedOnRecord 2 ⟨1, 0⟩ 0, .goOn 2] ↔
      Trace.Guarded step KeepsSummary init [.sharedOnRecord 1 ⟨1, 0⟩ 0, .goOn 1,
        .sharedOnRecord 2 ⟨1, 0⟩ 0, .goOn 2] :=
  summarised_iff_keepsSummary _ _ rfl

/-- Transaction 1 writes a record under IX on its table; the IS of transaction 2, which reads another record,
overwrites the group mode, and nothing stops a third transaction from taking S on the table. -/
theorem reader_erases_writer :
    ∃ s, Trace.run step init
        [.exclusiveOnRecord 1 ⟨1, 0⟩ 0, .goOn 1, .sharedOnRecord 2 ⟨1, 1⟩ 0, .goOn 2,
          .onTable (.lockShared 3 0)] = some s ∧
      s.locks.getLockRequestQueue (.table 0) =
        ⟨[⟨1, .intentionExclusive, true⟩, ⟨2, .intentionShared, true⟩, ⟨3, .shared, true⟩], [], .s⟩ ∧
        ¬ s.Summarised := by
  obtain ⟨s, hrun, hq⟩ : ∃ s, Trace.run step init
      [.exclusiveOnRecord 1 ⟨1, 0⟩ 0, .goOn 1, .sharedOnRecord 2 ⟨1, 1⟩ 0, .goOn 2,
        .onTable (.lockShared 3 0)] = some s ∧
      s.locks.getLockRequestQueue (.table 0) =
        ⟨[⟨1, .intentionExclusive, true⟩, ⟨2, .intentionShared, true⟩, ⟨3, .shared, true⟩], [], .s⟩ :=
          ⟨_, rfl, by decide⟩
  refine ⟨s, hrun, hq, fun h => ?_⟩
  have hcov := h (.table 0) ⟨1, .intentionExclusive, true⟩ (by simp [LockRequestQueue.Granted, hq]) .s
  rw [hq] at hcov
  exact absurd (hcov rfl) (by decide)

end RecordLocks

end Rmdb

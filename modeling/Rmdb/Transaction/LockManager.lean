import Mathlib.Data.Finset.Insert
import Mathlib.Data.Finset.Erase
import Rmdb.Lib.Trace
import Rmdb.Transaction.LockQueueSpec

namespace Rmdb

open LockRequestQueue

/-- The condition variable a blocked transaction sleeps on: that of its own request, or
that of its upgrade request. -/
inductive Waiting
  | request (id : LockDataId) (mode : LockMode)
  | upgrade (id : LockDataId) (mode : LockMode)
deriving DecidableEq

/-- The lock table together with what each transaction's thread holds: its `lock_set_` and
whether it is blocked inside a lock call. -/
structure LockState where
  lockTable : LockDataId → Option LockRequestQueue
  lockSet : TxnId → Finset LockDataId
  waiting : TxnId → Option Waiting

inductive LockAction
  | lockShared (txn : TxnId) (fd : Int)
  | lockExclusive (txn : TxnId) (fd : Int)
  | lockIS (txn : TxnId) (fd : Int)
  | lockIX (txn : TxnId) (fd : Int)
  | wake (txn : TxnId)
  | unlock (txn : TxnId) (id : LockDataId)

namespace LockState

variable (s : LockState) (txn : TxnId)

def init : LockState := ⟨fun _ => none, fun _ => ∅, fun _ => none⟩

def getLockRequestQueue (id : LockDataId) : LockRequestQueue := (s.lockTable id).getD {}

def setQueue (id : LockDataId) (q : LockRequestQueue) : LockState :=
  { s with lockTable := Function.update s.lockTable id (some q) }

/-- What the call does once it has left the queue: a granted lock joins `lock_set_`, a
blocked thread sleeps, an exception changes nothing. -/
def conclude (id : LockDataId) (w : Waiting) : LockResult → LockState
  | .returned => { s with lockSet := Function.update s.lockSet txn (insert id (s.lockSet txn)) }
  | .waits => { s with waiting := Function.update s.waiting txn (some w) }
  | .dies | .nullRequest => s

/-- The common body of the four table-level calls. -/
def lockOnTable (fd : Int) (mode : LockMode) : LockResult × LockState :=
  let id := .table fd
  let q := s.getLockRequestQueue id
  if id ∈ s.lockSet txn then
    let res := q.upgradeLockOnTable txn mode
    (res.1, (s.setQueue id res.2).conclude txn id (.upgrade id mode) res.1)
  else
    let res := q.checkAndExecuteLock txn mode
    (res.1, (s.setQueue id res.2).conclude txn id (.request id mode) res.1)

def lockSharedOnTable (fd : Int) : LockResult × LockState := s.lockOnTable txn fd .shared

def lockExclusiveOnTable (fd : Int) : LockResult × LockState := s.lockOnTable txn fd .exlucsive

def lockISOnTable (fd : Int) : LockResult × LockState := s.lockOnTable txn fd .intentionShared

def lockIXOnTable (fd : Int) : LockResult × LockState := s.lockOnTable txn fd .intentionExclusive

/-- A blocked thread goes on once the request it waits for is granted. -/
def wakeUp : Option (LockResult × LockState) :=
  match s.waiting txn with
  | none => none
  | some (.request id _) =>
      if (s.getLockRequestQueue id).requestQueue.any (fun r => r.txnId = txn ∧ r.granted) then
        some (.returned, { s with
          lockSet := Function.update s.lockSet txn (insert id (s.lockSet txn))
          waiting := Function.update s.waiting txn none })
      else none
  | some (.upgrade id mode) =>
      if (s.getLockRequestQueue id).upgradeQueue.any (fun r => r.txnId = txn ∧ r.granted) then
        some (.returned, { (s.setQueue id ((s.getLockRequestQueue id).finishUpgrade txn mode)) with
          waiting := Function.update s.waiting txn none })
      else none

/-- One round of the loop over `lock_set_` in `commit` and `abort`: `unlock`, then the
erasure from the set. -/
def unlock (id : LockDataId) : LockState :=
  let s' := match s.lockTable id with
    | none => s
    | some q => s.setQueue id (q.unlock txn)
  { s' with lockSet := Function.update s.lockSet txn ((s.lockSet txn).erase id) }

def step (s : LockState) : LockAction → Option (LockResult × LockState)
  | .lockShared txn fd => if s.waiting txn = none then some (s.lockSharedOnTable txn fd) else none
  | .lockExclusive txn fd => if s.waiting txn = none then some (s.lockExclusiveOnTable txn fd) else none
  | .lockIS txn fd => if s.waiting txn = none then some (s.lockISOnTable txn fd) else none
  | .lockIX txn fd => if s.waiting txn = none then some (s.lockIXOnTable txn fd) else none
  | .wake txn => s.wakeUp txn
  | .unlock txn id => if s.waiting txn = none then some (.returned, s.unlock txn id) else none

def next (s : LockState) (a : LockAction) : Option LockState := (s.step a).map Prod.snd

end LockState

def LockAction.SharedOrExclusive : LockAction → Prop
  | .lockIS _ _ => False
  | .lockIX _ _ => False
  | _ => True

namespace LockRequestQueue

variable {q q' : LockRequestQueue} {txn : TxnId} {mode : LockMode}

structure Frame (q q' : LockRequestQueue) (txn : TxnId) : Prop where
  granted : ∀ u, u ≠ txn → q.HasGranted u → q'.HasGranted u
  request : ∀ r' ∈ q'.requestQueue, r'.txnId ≠ txn →
    ∃ r ∈ q.requestQueue, r.txnId = r'.txnId ∧ r.lockMode = r'.lockMode
  upgrade : ∀ u, u ≠ txn → q'.Upgrading u → q.Upgrading u

theorem Frame.refl (q : LockRequestQueue) (txn : TxnId) : Frame q q txn :=
  ⟨fun _ _ h => h, fun r' hr' _ => ⟨r', hr', rfl, rfl⟩, fun _ _ h => h⟩

theorem frame_append (b : Bool) (g : GroupLockMode) :
    Frame q { q with requestQueue := q.requestQueue ++ [⟨txn, mode, b⟩], groupLockMode := g } txn := by
  refine ⟨?_, ?_, fun _ _ h => h⟩
  · rintro u - ⟨r, hr, hrest⟩
    exact ⟨r, List.mem_append_left _ hr, hrest⟩
  · intro r' hr' hne
    rcases List.mem_append.1 hr' with hr' | hr'
    · exact ⟨r', hr', rfl, rfl⟩
    · rw [List.mem_singleton.1 hr'] at hne
      exact absurd rfl hne

theorem frame_checkAndExecuteLock : Frame q (q.checkAndExecuteLock txn mode).2 txn := by
  rw [checkAndExecuteLock]
  split
  · exact frame_append true _
  · split
    · exact Frame.refl q txn
    · exact frame_append false _

theorem frame_setMode (b : Bool) (g : GroupLockMode) (l : List LockRequest)
    (hl : ∀ u, u ≠ txn → (∃ a ∈ l, a.txnId = u) → q.Upgrading u) :
    Frame q ⟨q.setMode txn mode b, l, g⟩ txn := by
  refine ⟨?_, ?_, hl⟩
  · rintro u hu ⟨r, hr, rfl, hg⟩
    exact ⟨r, List.mem_map.2 ⟨r, hr, by simp [hu]⟩, rfl, hg⟩
  · intro r' hr' hne
    obtain ⟨r, hr, rfl⟩ := List.mem_map.1 hr'
    by_cases h : r.txnId = txn
    · simp [h] at hne
    · exact ⟨r, hr, by simp [h]⟩

theorem frame_upgradeLockOnTable : Frame q (q.upgradeLockOnTable txn mode).2 txn := by
  rw [upgradeLockOnTable]
  split
  · exact Frame.refl q txn
  · split
    · exact Frame.refl q txn
    · split
      · exact Frame.refl q txn
      · split
        · exact frame_setMode true _ _ fun _ _ h => h
        · refine ⟨fun _ _ h => h, fun r' hr' _ => ⟨r', hr', rfl, rfl⟩, ?_⟩
          rintro u hu ⟨a, ha, rfl⟩
          rcases List.mem_append.1 ha with ha | ha
          · exact ⟨a, ha, rfl⟩
          · rw [List.mem_singleton.1 ha] at hu
            exact absurd rfl hu

theorem frame_finishUpgrade : Frame q (q.finishUpgrade txn mode) txn := by
  refine frame_setMode false _ _ ?_
  rintro u - ⟨a, ha, rfl⟩
  exact ⟨a, List.mem_of_mem_eraseP ha, rfl⟩

theorem unlock_gone (h : SXInv q) (hu : ¬ q.Upgrading txn) : ¬ (q.unlock txn).HasRequest txn := by
  rintro ⟨r, hr, hrt⟩
  have hmem : ∃ a ∈ q.remaining txn, a.txnId = r.txnId := by
    generalize hres : q.unlock txn = res at hr
    cases hres ▸ h.unlock_cases hu with
    | emptied hl => cases hr
    | grantFront front rest hl =>
        rw [hl]
        rcases List.mem_cons.1 hr with rfl | hr
        · exact ⟨front, List.mem_cons_self, rfl⟩
        · exact ⟨r, List.mem_cons_of_mem _ hr, rfl⟩
    | grantShared =>
        obtain ⟨a, ha, rfl⟩ := List.mem_map.1 hr
        exact ⟨a, ha, by split <;> rfl⟩
    | kept => exact ⟨r, hr, rfl⟩
    | handedOver => exact ⟨r, hr, rfl⟩
  obtain ⟨a, ha, hat⟩ := hmem
  exact (h.mem_remaining.1 ha).2 (hat.trans hrt)

theorem frame_unlock (h : SXInv q) (hu : ¬ q.Upgrading txn) : Frame q (q.unlock txn) txn := by
  have hrem : ∀ u, u ≠ txn → q.HasGranted u → ∃ r ∈ q.remaining txn, r.txnId = u ∧ r.granted = true := by
    rintro u hne ⟨r, hr, rfl, hg⟩
    exact ⟨r, h.mem_remaining.2 ⟨hr, hne⟩, rfl, hg⟩
  have hback : ∀ r ∈ q.remaining txn, ∃ a ∈ q.requestQueue, a.txnId = r.txnId ∧ a.lockMode = r.lockMode :=
    fun r hr => ⟨r, (h.mem_remaining.1 hr).1, rfl, rfl⟩
  generalize hres : q.unlock txn = res
  cases hres ▸ h.unlock_cases hu with
  | emptied hl =>
      refine ⟨fun u hne hg => ?_, by simp, fun u _ hup => by simp [Upgrading] at hup⟩
      obtain ⟨r, hr, -⟩ := hrem u hne hg
      rw [hl] at hr
      cases hr
  | grantFront front rest hl hnone =>
      refine ⟨fun u hne hg => ?_, ?_, fun u _ hup => by simp [Upgrading] at hup⟩
      · obtain ⟨r, hr, -, hgr⟩ := hrem u hne hg
        rw [hnone r hr] at hgr
        cases hgr
      · intro r' hr' _
        rcases List.mem_cons.1 hr' with rfl | hr'
        · exact hback front (by rw [hl]; exact List.mem_cons_self)
        · exact hback r' (by rw [hl]; exact List.mem_cons_of_mem _ hr')
  | grantShared front rest hl hnone =>
      refine ⟨fun u hne hg => ?_, ?_, fun u _ hup => by simp [Upgrading] at hup⟩
      · obtain ⟨r, hr, -, hgr⟩ := hrem u hne hg
        rw [hnone r hr] at hgr
        cases hgr
      · intro r' hr' _
        obtain ⟨a, ha, rfl⟩ := List.mem_map.1 hr'
        obtain ⟨b, hb, hbt, hbm⟩ := hback a ha
        refine ⟨b, hb, ?_, ?_⟩
        · rw [hbt]; split <;> rfl
        · rw [hbm]; split <;> rfl
  | kept first hf hg => exact ⟨hrem, fun r' hr' _ => hback r' hr', fun _ _ hup => hup⟩
  | handedOver first up ups hf hg huniq hq =>
      refine ⟨hrem, fun r' hr' _ => hback r' hr', ?_⟩
      rintro u - ⟨a, ha, rfl⟩
      rcases List.mem_cons.1 ha with rfl | ha
      · exact ⟨up, by rw [hq]; exact List.mem_cons_self, rfl⟩
      · exact ⟨a, by rw [hq]; exact List.mem_cons_of_mem _ ha, rfl⟩

end LockRequestQueue

namespace LockState

variable {s s' : LockState} {txn : TxnId} {id : LockDataId} {q : LockRequestQueue}

structure Own (s : LockState) (txn : TxnId) : Prop where
  held : ∀ id ∈ s.lockSet txn, (s.getLockRequestQueue id).HasGranted txn
  request : ∀ id, (s.getLockRequestQueue id).HasRequest txn →
    id ∈ s.lockSet txn ∨ ∃ mode, s.waiting txn = some (.request id mode)
  upgrade : ∀ id, (s.getLockRequestQueue id).Upgrading txn → s.waiting txn = some (.upgrade id .exlucsive)
  mode : ∀ id mode, s.waiting txn = some (.request id mode) →
    ∀ r ∈ (s.getLockRequestQueue id).requestQueue, r.txnId = txn → r.lockMode = mode

structure LockInv (s : LockState) : Prop where
  queues : ∀ id, SXInv (s.getLockRequestQueue id)
  own : ∀ txn, Own s txn

theorem lockInv_init : LockInv init :=
  ⟨fun _ => sxInv_empty, fun _ =>
    ⟨by simp [init], fun _ ⟨_, h, _⟩ => (by cases h), fun _ ⟨_, h, _⟩ => (by cases h),
    fun _ _ h => (by cases h)⟩⟩

theorem Own.idle (h : Own s txn) (hw : s.waiting txn = none) :
    ¬ (s.getLockRequestQueue id).Upgrading txn := by
  intro hu
  rw [h.upgrade id hu] at hw
  cases hw

theorem Own.absent (h : Own s txn) (hw : s.waiting txn = none) (hid : id ∉ s.lockSet txn) :
    ¬ (s.getLockRequestQueue id).HasRequest txn := by
  intro hr
  rcases h.request id hr with hc | ⟨m, hm⟩
  · exact hid hc
  · rw [hw] at hm
    cases hm

/-- An operation of `txn` on the queue `id` keeps the invariant if it keeps that of the
queue, leaves the others their requests and squares with the records of `txn`. -/
theorem LockInv.update (h : LockInv s) (id : LockDataId) (txn : TxnId) (hq : SXInv q)
    (hf : Frame (s.getLockRequestQueue id) q txn)
    (hqueue : ∀ j, s'.getLockRequestQueue j = if j = id then q else s.getLockRequestQueue j)
    (hset : ∀ u, u ≠ txn → s'.lockSet u = s.lockSet u) (hwait : ∀ u, u ≠ txn → s'.waiting u = s.waiting u)
    (hown : Own s' txn) : LockInv s' := by
  refine ⟨fun j => ?_, fun u => ?_⟩
  · rw [hqueue]
    split
    · exact hq
    · exact h.queues j
  · by_cases hu : u = txn
    · rw [hu]
      exact hown
    · have hback : ∀ j, ∀ r' ∈ (s'.getLockRequestQueue j).requestQueue, r'.txnId = u →
          ∃ r ∈ (s.getLockRequestQueue j).requestQueue, r.txnId = u ∧ r.lockMode = r'.lockMode := by
        intro j r' hr' hrt
        rw [hqueue] at hr'
        split at hr'
        · rename_i hj
          obtain ⟨r, hr, hrt', hm⟩ := hf.request r' hr' (by rw [hrt]; exact hu)
          exact ⟨r, by rw [hj]; exact hr, hrt'.trans hrt, hm⟩
        · exact ⟨r', hr', hrt, rfl⟩
      refine ⟨?_, ?_, ?_, ?_⟩
      · intro j hj
        rw [hset u hu] at hj
        have hg := (h.own u).held j hj
        rw [hqueue]
        split
        · rename_i hj
          exact hf.granted u hu (by rw [← hj]; exact hg)
        · exact hg
      · rintro j ⟨r', hr', hrt⟩
        obtain ⟨r, hr, hrt', -⟩ := hback j r' hr' hrt
        rw [hset u hu, hwait u hu]
        exact (h.own u).request j ⟨r, hr, hrt'⟩
      · intro j hup
        rw [hwait u hu]
        rw [hqueue] at hup
        split at hup
        · rename_i hj
          exact (h.own u).upgrade j (by rw [hj]; exact hf.upgrade u hu hup)
        · exact (h.own u).upgrade j hup
      · intro j m hm r' hr' hrt
        rw [hwait u hu] at hm
        obtain ⟨r, hr, hrt', hmode⟩ := hback j r' hr' hrt
        rw [← hmode]
        exact (h.own u).mode j m hm r hr hrt'

theorem getLockRequestQueue_setQueue (j : LockDataId) :
    (s.setQueue id q).getLockRequestQueue j = if j = id then q else s.getLockRequestQueue j := by
  by_cases h : j = id <;> simp [getLockRequestQueue, setQueue, h]

theorem forall_queue_iff {P : LockRequestQueue → Prop} (hP : ∀ j, P (s.getLockRequestQueue j))
    (hqueue : ∀ j, s'.getLockRequestQueue j = if j = id then q else s.getLockRequestQueue j) :
    (∀ j, P (s'.getLockRequestQueue j)) ↔ P q := by
  constructor
  · intro h
    simpa [hqueue] using h id
  · intro h j
    rw [hqueue]
    split
    · exact h
    · exact hP j

theorem own_conclude (h : LockInv s) (hw : s.waiting txn = none) (w : Waiting) (res : LockResult)
    (hgr : ∀ j ∈ s.lockSet txn, ((s.setQueue id q).getLockRequestQueue j).HasGranted txn)
    (hret : res = .returned → q.HasGranted txn ∧ ¬ q.Upgrading txn)
    (hwt : res = .waits → ∃ m, (w = .request id m ∧ ¬ q.Upgrading txn ∧
      ∀ r ∈ q.requestQueue, r.txnId = txn → r.lockMode = m) ∨
      (w = .upgrade id .exlucsive ∧ id ∈ s.lockSet txn))
    (hdie : res = .dies ∨ res = .nullRequest → q = s.getLockRequestQueue id) :
    Own ((s.setQueue id q).conclude txn id w res) txn := by
  have hother : ∀ j, j ≠ id → (s.setQueue id q).getLockRequestQueue j = s.getLockRequestQueue j :=
    fun j hj => by rw [getLockRequestQueue_setQueue, if_neg hj]
  have hself : (s.setQueue id q).getLockRequestQueue id = q := by
    rw [getLockRequestQueue_setQueue, if_pos rfl]
  have hown := h.own txn
  have hreq : ∀ j, j ≠ id → ((s.setQueue id q).getLockRequestQueue j).HasRequest txn → j ∈ s.lockSet txn := by
    intro j hj hr
    rw [hother j hj] at hr
    by_contra hc
    exact hown.absent hw hc hr
  have hidle : ∀ j, j ≠ id → ¬ ((s.setQueue id q).getLockRequestQueue j).Upgrading txn := by
    intro j hj
    rw [hother j hj]
    exact hown.idle hw
  cases res with
  | returned =>
      obtain ⟨hg, hnu⟩ := hret rfl
      refine ⟨?_, ?_, ?_, ?_⟩
      · intro j hj
        rcases Finset.mem_insert.1 (by simpa [conclude] using hj) with rfl | hj
        · change ((s.setQueue j q).getLockRequestQueue j).HasGranted txn
          rw [hself]
          exact hg
        · exact hgr j hj
      · intro j hr
        by_cases hj : j = id
        · exact .inl (by simp [conclude, hj])
        · exact .inl (by simpa [conclude] using .inr (hreq j hj hr))
      · intro j hup
        by_cases hj : j = id
        · rw [hj] at hup
          change ((s.setQueue id q).getLockRequestQueue id).Upgrading txn at hup
          rw [hself] at hup
          exact absurd hup hnu
        · exact absurd hup (hidle j hj)
      · intro j m hm
        change s.waiting txn = _ at hm
        rw [hw] at hm
        cases hm
  | waits =>
      obtain ⟨m, hm⟩ := hwt rfl
      have hwait : ((s.setQueue id q).conclude txn id w .waits).waiting txn = some w := by simp [conclude]
      refine ⟨hgr, ?_, ?_, ?_⟩
      · intro j hr
        by_cases hj : j = id
        · rcases hm with ⟨rfl, -⟩ | ⟨-, hid⟩
          · exact .inr ⟨m, by rw [hwait, hj]⟩
          · exact .inl (by rw [hj]; exact hid)
        · exact .inl (hreq j hj hr)
      · intro j hup
        rw [hwait]
        by_cases hj : j = id
        · rw [hj] at hup
          change ((s.setQueue id q).getLockRequestQueue id).Upgrading txn at hup
          rw [hself] at hup
          rcases hm with ⟨-, hnu, -⟩ | ⟨rfl, -⟩
          · exact absurd hup hnu
          · rw [hj]
        · exact absurd hup (hidle j hj)
      · intro j m' hm' r hr hrt
        rw [hwait] at hm'
        rcases hm with ⟨rfl, -, hmode⟩ | ⟨rfl, -⟩
        · cases hm'
          change r ∈ ((s.setQueue id q).getLockRequestQueue id).requestQueue at hr
          rw [hself] at hr
          exact hmode r hr hrt
        · cases hm'
  | dies | nullRequest =>
      have hsame : ∀ j, (s.setQueue id q).getLockRequestQueue j = s.getLockRequestQueue j := by
        intro j
        rw [getLockRequestQueue_setQueue, hdie (by simp)]
        split
        · rename_i hj; rw [hj]
        · rfl
      refine ⟨hgr, ?_, ?_, ?_⟩
      · intro j hr
        exact hown.request j (by rw [← hsame]; exact hr)
      · intro j hup
        exact hown.upgrade j (by rw [← hsame]; exact hup)
      · intro j m hm
        change s.waiting txn = _ at hm
        rw [hw] at hm
        cases hm

theorem conclude_queue (w : Waiting) (res : LockResult) (j : LockDataId) :
    ((s.setQueue id q).conclude txn id w res).getLockRequestQueue j = if j = id then q
    else s.getLockRequestQueue j := by
  rw [← getLockRequestQueue_setQueue]
  cases res <;> rfl

theorem conclude_lockSet (w : Waiting) (res : LockResult) {u : TxnId} (hu : u ≠ txn) :
    ((s.setQueue id q).conclude txn id w res).lockSet u = s.lockSet u := by
  cases res <;> simp [conclude, setQueue, hu]

theorem conclude_waiting (w : Waiting) (res : LockResult) {u : TxnId} (hu : u ≠ txn) :
    ((s.setQueue id q).conclude txn id w res).waiting u = s.waiting u := by
  cases res <;> simp [conclude, setQueue, hu]

theorem lockOnTable_others (fd : Int) (mode : LockMode) {u : TxnId} (hu : u ≠ txn) :
    (s.lockOnTable txn fd mode).2.lockSet u = s.lockSet u ∧
    (s.lockOnTable txn fd mode).2.waiting u = s.waiting u := by
  rw [lockOnTable]
  simp only
  split
  · exact ⟨conclude_lockSet _ _ hu, conclude_waiting _ _ hu⟩
  · exact ⟨conclude_lockSet _ _ hu, conclude_waiting _ _ hu⟩

theorem unlock_waiting (id : LockDataId) : (s.unlock txn id).waiting = s.waiting := by
  rw [unlock]
  cases s.lockTable id <;> rfl

theorem unlock_others (id : LockDataId) {u : TxnId} (hu : u ≠ txn) :
    (s.unlock txn id).lockSet u = s.lockSet u ∧ (s.unlock txn id).waiting u = s.waiting u :=
  ⟨Function.update_of_ne hu .., by rw [unlock_waiting]⟩

theorem LockInv.lockOnTable (h : LockInv s) (hw : s.waiting txn = none) (fd : Int) {mode : LockMode}
    (hm : mode = .shared ∨ mode = .exlucsive) : LockInv (s.lockOnTable txn fd mode).2 := by
  have hown := h.own txn
  have hq := h.queues (.table fd)
  rw [LockState.lockOnTable]
  simp only
  split
  · rename_i hid
    have hidle : ¬ (s.getLockRequestQueue (.table fd)).Upgrading txn := hown.idle hw
    obtain ⟨r, hr, hrt, hgr⟩ := hown.held _ hid
    have hq' := hq.upgradeLockOnTable ⟨r, hr, hrt, hgr⟩ hidle hm
    refine h.update (.table fd) txn hq' frame_upgradeLockOnTable (conclude_queue _ _)
      (fun u => conclude_lockSet _ _) (fun u => conclude_waiting _ _) ?_
    -- the call either finds the mode it asks for or is an upgrade from S to X
    by_cases hheld : (getGroupLockMode mode).ord ≤ (getGroupLockMode r.lockMode).ord
    · rw [← hrt] at hidle ⊢
      rw [upgradeLockOnTable_held hq hr hheld]
      refine own_conclude h (by rw [hrt]; exact hw) (.upgrade (.table fd) mode) .returned ?_
        (fun _ => ⟨⟨r, hr, rfl, hgr⟩, hidle⟩) (by simp)
        (by simp)
      intro j hj
      rw [getLockRequestQueue_setQueue]
      split
      · exact ⟨r, hr, rfl, hgr⟩
      · exact (h.own _).held j hj
    · have hsx : r.lockMode = .shared ∧ mode = .exlucsive := by
        rcases hq.modes r hr with h1 | h1 <;> rcases hm with rfl | rfl <;>
          simp_all [getGroupLockMode, GroupLockMode.ord]
      obtain ⟨hrm, rfl⟩ := hsx
      rw [← hrt] at hidle hq' hid hw ⊢
      rw [upgradeLockOnTable_shared hq hr hrm] at hq' ⊢
      have hgranted : ∀ (q' : LockRequestQueue), q'.HasGranted r.txnId → ∀ j ∈ s.lockSet r.txnId,
          ((s.setQueue (.table fd) q').getLockRequestQueue j).HasGranted r.txnId := by
        intro q' hq' j hj
        rw [getLockRequestQueue_setQueue]
        split
        · exact hq'
        · exact (h.own _).held j hj
      split
      · exact own_conclude h hw (.upgrade (.table fd) .exlucsive) .dies (hgranted _ ⟨r, hr, rfl, hgr⟩)
          (by simp) (by simp) (fun _ => rfl)
      · split
        · have hnew : HasGranted ⟨[⟨r.txnId, .exlucsive, true⟩],
            (s.getLockRequestQueue (.table fd)).upgradeQueue, .x⟩
              r.txnId := ⟨_, List.mem_singleton_self _, rfl, rfl⟩
          exact own_conclude h hw (.upgrade (.table fd) .exlucsive) .returned (hgranted _ hnew)
            (fun _ => ⟨hnew, hidle⟩) (by simp) (by simp)
        · exact own_conclude h hw (.upgrade (.table fd) .exlucsive) .waits
            (hgranted _ ⟨r, hr, rfl, hgr⟩) (by simp)
            (fun _ => ⟨.exlucsive, .inr ⟨rfl, hid⟩⟩) (by simp)
  · rename_i hid
    have habs := hown.absent hw hid
    have hidle : ¬ (s.getLockRequestQueue (.table fd)).Upgrading txn := hown.idle hw
    refine h.update (.table fd) txn (hq.checkAndExecuteLock habs hm) frame_checkAndExecuteLock
      (conclude_queue _ _) (fun u => conclude_lockSet _ _) (fun u => conclude_waiting _ _) ?_
    refine own_conclude h hw _ _ ?_ ?_ ?_ ?_
    · intro j hj
      have hne : j ≠ .table fd := fun hc => hid (hc ▸ hj)
      rw [getLockRequestQueue_setQueue, if_neg hne]
      exact hown.held j hj
    · rw [checkAndExecuteLock]
      intro hres
      split at hres
      · rename_i hc
        rw [if_pos hc]
        exact ⟨⟨⟨txn, mode, true⟩, by simp, rfl, rfl⟩, hidle⟩
      · split at hres <;> cases hres
    · rw [checkAndExecuteLock]
      intro hres
      split at hres
      · cases hres
      · split at hres
        · cases hres
        · rename_i hc hd
          rw [if_neg hc, if_neg hd]
          refine ⟨mode, .inl ⟨rfl, hidle, ?_⟩⟩
          intro r hr hrt
          rcases List.mem_append.1 hr with hr | hr
          · exact absurd ⟨r, hr, hrt⟩ habs
          · rw [List.mem_singleton.1 hr]
    · rw [checkAndExecuteLock]
      intro hres
      split at hres
      · simp at hres
      · split at hres
        · rename_i hc hd
          rw [if_neg hc, if_pos hd]
        · simp at hres

theorem wakeUp_cases {res : LockResult × LockState} (h : s.wakeUp txn = some res) :
    (∃ id mode r, s.waiting txn = some (.request id mode) ∧ r ∈ (s.getLockRequestQueue id).requestQueue ∧
      r.txnId = txn ∧ r.granted = true ∧
      res = (.returned, { s with
        lockSet := Function.update s.lockSet txn (insert id (s.lockSet txn))
        waiting := Function.update s.waiting txn none })) ∨
    (∃ id mode u, s.waiting txn = some (.upgrade id mode) ∧ u ∈ (s.getLockRequestQueue id).upgradeQueue ∧
      u.txnId = txn ∧ u.granted = true ∧
      res = (.returned, { (s.setQueue id ((s.getLockRequestQueue id).finishUpgrade txn mode)) with
        waiting := Function.update s.waiting txn none })) := by
  rw [wakeUp] at h
  split at h
  · cases h
  · rename_i id mode hw
    split at h
    · rename_i hany
      obtain ⟨r, hr, hp⟩ := List.any_eq_true.1 hany
      obtain ⟨hrt, hg⟩ := of_decide_eq_true hp
      exact .inl ⟨id, mode, r, hw, hr, hrt, hg, (Option.some.inj h).symm⟩
    · cases h
  · rename_i id mode hw
    split at h
    · rename_i hany
      obtain ⟨u, hu, hp⟩ := List.any_eq_true.1 hany
      obtain ⟨hut, hg⟩ := of_decide_eq_true hp
      exact .inr ⟨id, mode, u, hw, hu, hut, hg, (Option.some.inj h).symm⟩
    · cases h

theorem wakeUp_others {res : LockResult × LockState} (h : s.wakeUp txn = some res)
    {u : TxnId} (hu : u ≠ txn) :
    res.2.lockSet u = s.lockSet u ∧ res.2.waiting u = s.waiting u := by
  rcases wakeUp_cases h with ⟨id, mode, r, -, -, -, -, rfl⟩ | ⟨id, mode, r, -, -, -, -, rfl⟩
  · exact ⟨Function.update_of_ne hu .., Function.update_of_ne hu ..⟩
  · exact ⟨rfl, Function.update_of_ne hu ..⟩

theorem LockInv.wakeUp (h : LockInv s) {res : LockResult × LockState} (hs : s.wakeUp txn = some res) :
    LockInv res.2 := by
  have hown := h.own txn
  rcases wakeUp_cases hs with ⟨id, mode, r, hw, hr, hrt, hg, rfl⟩ | ⟨id, mode, u, hw, hu, hut, hg, rfl⟩
  · refine h.update id txn (h.queues id) (Frame.refl _ _) ?_ ?_ ?_ ?_
    · intro j
      split
      · rename_i hj; rw [hj]; rfl
      · rfl
    · intro u hu; simp [hu]
    · intro u hu; simp [hu]
    · refine ⟨?_, ?_, ?_, ?_⟩
      · intro j hj
        simp only [Function.update_self, Finset.mem_insert] at hj
        rcases hj with rfl | hj
        · exact ⟨r, hr, hrt, hg⟩
        · exact hown.held j hj
      · intro j hreq
        simp only [Function.update_self, Finset.mem_insert]
        rcases hown.request j hreq with hj | ⟨m, hm⟩
        · exact .inl (.inr hj)
        · rw [hw] at hm
          cases hm
          exact .inl (.inl rfl)
      · intro j hup
        have := hown.upgrade j hup
        rw [hw] at this
        cases this
      · intro j m hm
        simp at hm
  · have hmode : mode = .exlucsive := by
      have := hown.upgrade id ⟨u, hu, hut⟩
      rw [hw] at this
      cases this
      rfl
    subst hmode
    have hq' : SXInv ((s.getLockRequestQueue id).finishUpgrade txn .exlucsive) := by
      rw [← hut]
      exact (h.queues id).finishUpgrade hu hg
    obtain ⟨g, hgm, hgt, hgg, -, -, hone⟩ := (h.queues id).upgraded hu hg
    have hqueue : ∀ j,
      (s.setQueue id ((s.getLockRequestQueue id).finishUpgrade txn .exlucsive)).getLockRequestQueue j =
        if j = id then (s.getLockRequestQueue id).finishUpgrade txn .exlucsive else s.getLockRequestQueue j :=
      fun j => getLockRequestQueue_setQueue j
    refine h.update id txn hq' frame_finishUpgrade hqueue ?_ ?_ ?_
    · intro u _; rfl
    · intro u hu; simp [hu]
    · refine ⟨?_, ?_, ?_, ?_⟩
      · intro j hj
        change ((s.setQueue id _).getLockRequestQueue j).HasGranted txn
        rw [hqueue]
        split
        · exact ⟨⟨txn, .exlucsive, true⟩, List.mem_map.2 ⟨g, hgm, by simp [hgt, hut, hgg]⟩, rfl, rfl⟩
        · exact hown.held j hj
      · intro j hreq
        refine .inl ?_
        have hreq' : (s.getLockRequestQueue j).HasRequest txn := by
          change ((s.setQueue id _).getLockRequestQueue j).HasRequest txn at hreq
          rw [hqueue] at hreq
          split at hreq
          · rename_i hj
            exact ⟨g, by rw [hj]; exact hgm, hgt.trans hut⟩
          · exact hreq
        rcases hown.request j hreq' with hj | ⟨m, hm⟩
        · exact hj
        · rw [hw] at hm
          cases hm
      · intro j hup
        change ((s.setQueue id _).getLockRequestQueue j).Upgrading txn at hup
        rw [hqueue] at hup
        split at hup
        · obtain ⟨a, ha, -⟩ := hup
          rw [LockRequestQueue.finishUpgrade, hone, List.eraseP_cons_of_pos (by simp [hut])] at ha
          cases ha
        · rename_i hj
          have := hown.upgrade j hup
          rw [hw] at this
          cases this
          exact absurd rfl hj
      · intro j m hm
        simp at hm

theorem getLockRequestQueue_unlock (j : LockDataId) : (s.unlock txn id).getLockRequestQueue j =
    if j = id then (s.getLockRequestQueue id).unlock txn else s.getLockRequestQueue j := by
  rw [LockState.unlock]
  cases ht : s.lockTable id with
  | none =>
      change s.getLockRequestQueue j = _
      split
      · rename_i hj
        simp [hj, getLockRequestQueue, ht, LockRequestQueue.unlock]
      · rfl
  | some q =>
      have hq : s.getLockRequestQueue id = q := by simp [getLockRequestQueue, ht]
      rw [hq]
      exact getLockRequestQueue_setQueue j

theorem LockInv.unlock (h : LockInv s) (hw : s.waiting txn = none) : LockInv (s.unlock txn id) := by
  have hown := h.own txn
  have hidle : ∀ j, ¬ (s.getLockRequestQueue j).Upgrading txn := fun j => hown.idle hw
  have hq' := (h.queues id).unlock (hidle id)
  have hgone := unlock_gone (h.queues id) (hidle id)
  have hwait : (s.unlock txn id).waiting = s.waiting := by
    rw [LockState.unlock]
    cases s.lockTable id <;> rfl
  have hset : (s.unlock txn id).lockSet = Function.update s.lockSet txn ((s.lockSet txn).erase id) := rfl
  refine h.update id txn hq' (frame_unlock (h.queues id) (hidle id)) getLockRequestQueue_unlock
    ?_ ?_ ?_
  · intro u hu
    rw [hset, Function.update_of_ne hu]
  · intro u _
    rw [hwait]
  · refine ⟨?_, ?_, ?_, ?_⟩
    · intro j hj
      rw [hset, Function.update_self, Finset.mem_erase] at hj
      rw [getLockRequestQueue_unlock, if_neg hj.1]
      exact hown.held j hj.2
    · intro j hreq
      rw [getLockRequestQueue_unlock] at hreq
      split at hreq
      · exact absurd hreq hgone
      · rename_i hj
        rw [hset, Function.update_self, Finset.mem_erase, hwait]
        rcases hown.request j hreq with hmem | hm
        · exact .inl ⟨hj, hmem⟩
        · exact .inr hm
    · intro j hup
      rw [getLockRequestQueue_unlock] at hup
      split at hup
      · obtain ⟨u, hu, hut⟩ := hup
        obtain ⟨-, r, hr, hrt, -⟩ := hq'.up u hu
        exact absurd ⟨r, hr, hrt.trans hut⟩ hgone
      · exact absurd hup (hidle j)
    · intro j m hm
      rw [hwait, hw] at hm
      cases hm

theorem LockInv.next (h : LockInv s) {a : LockAction} (ha : a.SharedOrExclusive) (hs : s.next a = some s') :
    LockInv s' := by
  obtain ⟨res, hstep, rfl⟩ := Option.map_eq_some_iff.1 hs
  cases a with
  | lockShared txn fd =>
      obtain ⟨hw, ⟨⟩⟩ := Option.ite_none_right_eq_some.1 hstep
      exact h.lockOnTable hw fd (.inl rfl)
  | lockExclusive txn fd =>
      obtain ⟨hw, ⟨⟩⟩ := Option.ite_none_right_eq_some.1 hstep
      exact h.lockOnTable hw fd (.inr rfl)
  | lockIS | lockIX => exact absurd ha id
  | wake txn => exact h.wakeUp hstep
  | unlock txn id =>
      obtain ⟨hw, ⟨⟩⟩ := Option.ite_none_right_eq_some.1 hstep
      exact h.unlock hw

theorem lockInv_run {as : List LockAction} (ha : ∀ a ∈ as, a.SharedOrExclusive)
    (hrun : Trace.run LockState.next init as = some s) : LockInv s := by
  refine Trace.run_of_guarded ?_ lockInv_init (Trace.guarded_of_forall ha) hrun
  intro s a s' h ha hs
  exact h.next ha hs

end LockState

section MutualExclusion

/-- The granted requests of a queue are all SHARED and nobody has been handed an upgrade,
or there is exactly one, which is EXCLUSIVE or has been handed its upgrade. -/
def LockRequestQueue.Excludes (q : LockRequestQueue) : Prop :=
  (∀ r ∈ q.requestQueue, r.granted = true → r.lockMode = .shared) ∧
    (∀ u ∈ q.upgradeQueue, u.granted = false) ∨
  ∃ g, q.requestQueue.filter LockRequest.granted = [g] ∧
    (g.lockMode = .exlucsive ∨ ∃ u ∈ q.upgradeQueue, u.txnId = g.txnId ∧ u.granted = true)

/-- The step is one in which a call of `lock_exclusive_on_table` by `txn` can return: the
call itself, or the wake-up of a call that had to wait. -/
def ExclusiveCall (s : LockState) (txn : TxnId) (id : LockDataId) : LockAction → Prop
  | .lockExclusive u fd => u = txn ∧ id = .table fd
  | .wake u => u = txn ∧
      (s.waiting txn = some (.request id .exlucsive) ∨ s.waiting txn = some (.upgrade id .exlucsive))
  | _ => False

variable {q : LockRequestQueue} {txn : TxnId}

theorem LockRequestQueue.SXInv.excludes (h : SXInv q) : q.Excludes := by
  cases h.phase with
  | free hg hq => exact .inl ⟨by simp [hq], by simp [h.noUpgrade (by simp [hq])]⟩
  | shared hg hne hiff hup => exact .inl ⟨fun r hr hgr => (hiff r hr).1 hgr, hup⟩
  | exclusive g hg hmem hgr huniq hx =>
      refine .inr ⟨g, ?_, hx⟩
      have hnd : (q.requestQueue.filter LockRequest.granted).Nodup := (List.Nodup.of_map _ h.nodup).filter _
      refine List.perm_singleton.1 ((List.perm_ext_iff_of_nodup hnd (List.nodup_singleton g)).2 fun r => ?_)
      rw [List.mem_filter, List.mem_singleton]
      exact ⟨fun hr => huniq r hr.1 hr.2, fun hr => hr ▸ ⟨hmem, hgr⟩⟩

/-- A transaction that holds X, or has been handed it, is the only holder. -/
theorem LockRequestQueue.SXInv.sole (h : SXInv q) {g : LockRequest} (hg : g ∈ q.requestQueue)
    (hgr : g.granted = true) (hx : g.lockMode = .exlucsive) :
    ∀ r ∈ q.requestQueue, r.granted = true → r.txnId = g.txnId := by
  intro r hr hgr'
  cases h.phase with
  | free _ hq => rw [hq] at hr; cases hr
  | shared _ _ hiff =>
      rw [(hiff g hg).1 hgr] at hx
      cases hx
  | exclusive a _ _ _ huniq => rw [huniq r hr hgr', huniq g hg hgr]

end MutualExclusion

namespace LockState

variable {s s' : LockState} {txn : TxnId} {id : LockDataId} {fd : Int}

/-- A call of `lock_exclusive_on_table` that returns leaves the transaction with a granted X. -/
theorem LockInv.lockExclusive_returned (h : LockInv s) (hw : s.waiting txn = none)
    (hs : s.lockOnTable txn fd .exlucsive = (.returned, s')) :
    ∃ g ∈ (s'.getLockRequestQueue (.table fd)).requestQueue, g.txnId = txn ∧ g.granted = true ∧
      g.lockMode = .exlucsive := by
  have hown := h.own txn
  have hq := h.queues (.table fd)
  rw [LockState.lockOnTable] at hs
  simp only at hs
  split at hs
  · rename_i hid
    obtain ⟨r, hr, rfl, hgr⟩ := hown.held _ hid
    obtain ⟨hres, rfl⟩ := Prod.mk.inj hs
    rw [conclude_queue, if_pos rfl]
    rcases hq.modes r hr with hm | hm
    · rw [upgradeLockOnTable_shared hq hr hm] at hres ⊢
      split at hres
      · cases hres
      · split at hres
        · rename_i hd hl
          rw [if_neg hd, if_pos hl]
          exact ⟨_, List.mem_singleton_self _, rfl, rfl, rfl⟩
        · cases hres
    · rw [upgradeLockOnTable_held hq hr (by rw [hm])]
      exact ⟨r, hr, rfl, hgr, hm⟩
  · obtain ⟨hres, rfl⟩ := Prod.mk.inj hs
    rw [conclude_queue, if_pos rfl]
    rw [checkAndExecuteLock] at hres ⊢
    split at hres
    · rename_i hc
      rw [if_pos hc]
      exact ⟨⟨txn, .exlucsive, true⟩, by simp, rfl, rfl, rfl⟩
    · split at hres <;> cases hres

theorem LockInv.wakeUp_returned (h : LockInv s) {res : LockResult} (hs : s.wakeUp txn = some (res, s'))
    (hw : s.waiting txn = some (.request id .exlucsive) ∨ s.waiting txn = some (.upgrade id .exlucsive)) :
    ∃ g ∈ (s'.getLockRequestQueue id).requestQueue, g.txnId = txn ∧ g.granted = true ∧
      g.lockMode = .exlucsive := by
  rcases wakeUp_cases hs with ⟨j, mode, r, hj, hr, hrt, hg, hres⟩ | ⟨j, mode, u, hj, hu, hut, hg, hres⟩
  · obtain ⟨-, rfl⟩ := Prod.mk.inj hres
    rcases hw with hw | hw
    · rw [hw] at hj
      cases hj
      exact ⟨r, hr, hrt, hg, (h.own txn).mode id .exlucsive hw r hr hrt⟩
    · rw [hw] at hj
      cases hj
  · obtain ⟨-, rfl⟩ := Prod.mk.inj hres
    rcases hw with hw | hw
    · rw [hw] at hj
      cases hj
    · rw [hw] at hj
      cases hj
      obtain ⟨g, hgm, hgt, hgg, -⟩ := (h.queues id).upgraded hu hg
      refine ⟨⟨txn, .exlucsive, true⟩, ?_, rfl, rfl, rfl⟩
      change _ ∈ ((s.setQueue id _).getLockRequestQueue id).requestQueue
      rw [getLockRequestQueue_setQueue, if_pos rfl]
      exact List.mem_map.2 ⟨g, hgm, by simp [hgt, hut, hgg]⟩

/-- In every reachable state the granted requests of each queue exclude one another, and a
call of `lock_exclusive_on_table` returns only to a transaction that holds the table alone. -/
theorem table_locks_exclude (as : List LockAction) (ha : ∀ a ∈ as, a.SharedOrExclusive) (s : LockState)
    (hrun : Trace.run next init as = some s) :
    (∀ id, (s.getLockRequestQueue id).Excludes) ∧
    ∀ a s' txn id, ExclusiveCall s txn id a → s.step a = some (.returned, s') →
      ∀ r ∈ (s'.getLockRequestQueue id).requestQueue, r.granted = true → r.txnId = txn := by
  have h := lockInv_run ha hrun
  refine ⟨fun id => (h.queues id).excludes, ?_⟩
  intro a s' txn id hcall hstep
  cases a with
  | lockExclusive u fd =>
      obtain ⟨rfl, rfl⟩ := hcall
      have h' := h.next (a := .lockExclusive u fd) trivial (by rw [next, hstep]; rfl)
      obtain ⟨hw, hs⟩ := Option.ite_none_right_eq_some.1 hstep
      obtain ⟨g, hg, rfl, hgr, hx⟩ := h.lockExclusive_returned hw (Option.some.inj hs)
      exact (h'.queues _).sole hg hgr hx
  | wake u =>
      obtain ⟨rfl, hw⟩ := hcall
      have h' := h.next (a := .wake u) trivial (by rw [next, hstep]; rfl)
      obtain ⟨g, hg, rfl, hgr, hx⟩ := h.wakeUp_returned hstep hw
      exact (h'.queues _).sole hg hgr hx
  | lockShared | lockIS | lockIX | unlock => exact absurd hcall (by simp [ExclusiveCall])

/-- An older transaction waits for the table, gets it at the unlock and returns. -/
theorem table_locks_exclude_handover :
    ∃ s, Trace.run next init [.lockShared 2 0, .lockExclusive 1 0, .unlock 2 (.table 0), .wake 1] = some s ∧
      (s.getLockRequestQueue (.table 0)).requestQueue = [⟨1, .exlucsive, true⟩] ∧
      ∀ id, (s.getLockRequestQueue id).Excludes := by
  refine ⟨_, rfl, by decide,
    (table_locks_exclude [.lockShared 2 0, .lockExclusive 1 0, .unlock 2 (.table 0), .wake 1]
    ?_ _ rfl).1⟩
  simp [LockAction.SharedOrExclusive]

end LockState

end Rmdb

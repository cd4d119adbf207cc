import Rmdb.Transaction.LockManager

namespace Rmdb

open LockRequestQueue

section Holding

def LockRequestQueue.HoldsX (q : LockRequestQueue) (txn : TxnId) : Prop :=
  ∃ g ∈ q.requestQueue, g.txnId = txn ∧ g.granted = true ∧ g.lockMode = .exlucsive

variable {q q' : LockRequestQueue} {txn u : TxnId}

theorem LockRequestQueue.Frame.holdsX (hf : Frame q q' txn) (hq : SXInv q) (hu : u ≠ txn)
    (h : q.HoldsX u) : q'.HoldsX u := by
  obtain ⟨g, hg, rfl, hgr, hx⟩ := h
  obtain ⟨r', hr', hrt, hgr'⟩ := hf.granted g.txnId hu ⟨g, hg, rfl, hgr⟩
  obtain ⟨r, hr, hrt', hm⟩ := hf.request r' hr' (by rw [hrt]; exact hu)
  have hrg : r = g := eq_of_txnId hq.nodup hr hg (hrt'.trans hrt)
  exact ⟨r', hr', hrt, hgr', by rw [← hm, hrg, hx]⟩

end Holding

namespace LockState

variable {s s' : LockState} {txn u : TxnId} {id : LockDataId} {fd : Int}

structure Within (s s' : LockState) (txn : TxnId) (id : LockDataId) : Prop where
  inv : LockInv s'
  frame : Frame (s.getLockRequestQueue id) (s'.getLockRequestQueue id) txn
  lockSet : ∀ u, u ≠ txn → s'.lockSet u = s.lockSet u
  waiting : ∀ u, u ≠ txn → s'.waiting u = s.waiting u

theorem LockInv.within_lockOnTable (h : LockInv s) (hw : s.waiting txn = none) (fd : Int) {mode : LockMode}
    (hm : mode = .shared ∨ mode = .exlucsive) : Within s (s.lockOnTable txn fd mode).2 txn (.table fd) where
  inv := h.lockOnTable hw fd hm
  frame := by
    rw [LockState.lockOnTable]
    simp only
    split
    · rw [conclude_queue, if_pos rfl]
      exact frame_upgradeLockOnTable
    · rw [conclude_queue, if_pos rfl]
      exact frame_checkAndExecuteLock
  lockSet u hu := (lockOnTable_others fd mode hu).1
  waiting u hu := (lockOnTable_others fd mode hu).2

theorem LockInv.within_wakeUp (h : LockInv s) {res : LockResult × LockState} (hs : s.wakeUp txn = some res)
    (hw : s.waiting txn = some (.request id .shared) ∨ s.waiting txn = some (.request id .exlucsive) ∨
      s.waiting txn = some (.upgrade id .exlucsive)) : Within s res.2 txn id where
  inv := h.wakeUp hs
  frame := by
    rcases wakeUp_cases hs with ⟨j, mode, r, -, -, -, -, rfl⟩ | ⟨j, mode, u, hj, -, -, -, rfl⟩
    · exact Frame.refl ..
    · have hid : id = j := by
        rw [hj] at hw
        rcases hw with hw | hw | hw
        · cases hw
        · cases hw
        · cases hw
          rfl
      subst hid
      change Frame _ ((s.setQueue id _).getLockRequestQueue id) txn
      rw [getLockRequestQueue_setQueue, if_pos rfl]
      exact frame_finishUpgrade
  lockSet u hu := (wakeUp_others hs hu).1
  waiting u hu := (wakeUp_others hs hu).2

theorem LockInv.within_unlock (h : LockInv s) (hw : s.waiting txn = none) :
    Within s (s.unlock txn id) txn id where
  inv := h.unlock hw
  frame := by
    rw [getLockRequestQueue_unlock, if_pos rfl]
    exact frame_unlock (h.queues id) ((h.own txn).idle hw)
  lockSet u hu := (unlock_others id hu).1
  waiting u hu := (unlock_others id hu).2

theorem LockInv.alone (h : LockInv s) (hx : (s.getLockRequestQueue id).HoldsX txn)
    (hid : id ∈ s.lockSet u) : u = txn := by
  obtain ⟨g, hg, rfl, hgr, hm⟩ := hx
  obtain ⟨r, hr, rfl, hgr'⟩ := (h.own u).held id hid
  exact (h.queues id).sole hg hgr hm r hr hgr'

theorem LockInv.holdsX_unique (h : LockInv s) (hx : (s.getLockRequestQueue id).HoldsX txn)
    (hu : (s.getLockRequestQueue id).HoldsX u) : u = txn := by
  obtain ⟨g, hg, rfl, hgr, hm⟩ := hx
  obtain ⟨r, hr, rfl, hgr', -⟩ := hu
  exact (h.queues id).sole hg hgr hm r hr hgr'

theorem LockInv.lockOnTable_held (h : LockInv s) (hid : .table fd ∈ s.lockSet txn) {mode : LockMode}
    (hm : mode = .shared ∨ (s.getLockRequestQueue (.table fd)).HoldsX txn ∧ mode = .exlucsive)
    {res : LockResult} (hcall : s.lockOnTable txn fd mode = (res, s')) :
    res = .returned ∧ s'.getLockRequestQueue (.table fd) = s.getLockRequestQueue (.table fd) := by
  have hheld : (s.getLockRequestQueue (.table fd)).upgradeLockOnTable txn mode =
      (.returned, s.getLockRequestQueue (.table fd)) := by
    rcases hm with rfl | ⟨⟨g, hg, rfl, -, hx⟩, rfl⟩
    · obtain ⟨r, hr, rfl, -⟩ := (h.own txn).held _ hid
      refine upgradeLockOnTable_held (h.queues _) hr ?_
      rcases (h.queues _).modes r hr with hm | hm
      · rw [hm]
      · rw [hm]
        decide
    · exact upgradeLockOnTable_held (h.queues _) hg (by rw [hx])
  rw [LockState.lockOnTable] at hcall
  simp only [hid, if_true, hheld] at hcall
  cases hcall
  exact ⟨rfl, by rw [conclude_queue, if_pos rfl]⟩

section Calls

variable {mode : LockMode} {res : LockResult}

theorem lockOnTable_granted (hcall : s.lockOnTable txn fd mode = (.returned, s')) :
    .table fd ∈ s'.lockSet txn := by
  rw [lockOnTable] at hcall
  simp only at hcall
  split at hcall
  · obtain ⟨hres, rfl⟩ := Prod.mk.inj hcall
    simp [hres, conclude]
  · obtain ⟨hres, rfl⟩ := Prod.mk.inj hcall
    simp [hres, conclude]

theorem lockOnTable_subset (hcall : s.lockOnTable txn fd mode = (res, s')) :
    s.lockSet txn ⊆ s'.lockSet txn := by
  have hsub : ∀ (id : LockDataId) (q : LockRequestQueue) (w : Waiting) (res : LockResult),
      s.lockSet txn ⊆ ((s.setQueue id q).conclude txn id w res).lockSet txn := by
    intro id q w res
    cases res with
    | returned =>
        intro j hj
        simp [conclude, setQueue, hj]
    | waits | dies | nullRequest => exact Finset.Subset.refl _
  rw [lockOnTable] at hcall
  simp only at hcall
  split at hcall
  · cases hcall
    exact hsub ..
  · cases hcall
    exact hsub ..

theorem lockOnTable_waiting (hcall : s.lockOnTable txn fd mode = (res, s')) : s'.waiting txn =
    if res = .waits
    then some (if .table fd ∈ s.lockSet txn then .upgrade (.table fd) mode else .request (.table fd) mode)
    else s.waiting txn := by
  have hwait : ∀ (id : LockDataId) (q : LockRequestQueue) (w : Waiting) (res : LockResult),
      ((s.setQueue id q).conclude txn id w res).waiting txn = if res = .waits then some w
      else s.waiting txn := by
    intro id q w res
    cases res <;> simp [conclude, setQueue]
  rw [lockOnTable] at hcall
  simp only at hcall
  split at hcall
  · rename_i hid
    obtain ⟨rfl, rfl⟩ := Prod.mk.inj hcall
    rw [hwait, if_pos hid]
  · rename_i hid
    obtain ⟨rfl, rfl⟩ := Prod.mk.inj hcall
    rw [hwait, if_neg hid]

theorem wakeUp_awake {res : LockResult × LockState} (hs : s.wakeUp txn = some res) :
    res.2.waiting txn = none := by
  rcases wakeUp_cases hs with ⟨j, mode, r, -, -, -, -, rfl⟩ | ⟨j, mode, u, -, -, -, -, rfl⟩
  · exact Function.update_self ..
  · exact Function.update_self ..

theorem wakeUp_request {res : LockResult × LockState} (hs : s.wakeUp txn = some res)
    (hw : s.waiting txn = some (.request id mode)) : id ∈ res.2.lockSet txn := by
  rcases wakeUp_cases hs with ⟨j, mode', r, hj, -, -, -, rfl⟩ | ⟨j, mode', u, hj, -, -, -, rfl⟩
  · cases hw.symm.trans hj
    simp
  · cases hw.symm.trans hj

theorem LockInv.holdsX_mem (h : LockInv s) (hw : s.waiting txn = none)
    (hx : (s.getLockRequestQueue id).HoldsX txn) :
    id ∈ s.lockSet txn := by
  obtain ⟨g, hg, hgt, -⟩ := hx
  by_contra hid
  exact (h.own txn).absent hw hid ⟨g, hg, hgt⟩

structure Acquires (s s' : LockState) (txn : TxnId) (id : LockDataId) : Prop extends Within s s' txn id where
  held : s.lockSet txn ⊆ s'.lockSet txn
  heldX : ∀ u, (s.getLockRequestQueue id).HoldsX u → (s'.getLockRequestQueue id).HoldsX u

theorem LockInv.acquires_call (h : LockInv s) (hw : s.waiting txn = none)
    (hm : mode = .shared ∨ mode = .exlucsive) (hcall : s.lockOnTable txn fd mode = (res, s')) :
    Acquires s s' txn (.table fd) := by
  have hwithin := h.within_lockOnTable hw fd hm
  rw [hcall] at hwithin
  refine ⟨hwithin, lockOnTable_subset hcall, fun u hx => ?_⟩
  by_cases hu : u = txn
  · subst hu
    rw [(h.lockOnTable_held (h.holdsX_mem hw hx) (hm.imp_right fun hm => ⟨hx, hm⟩) hcall).2]
    exact hx
  · exact hwithin.frame.holdsX (h.queues _) hu hx

theorem LockInv.acquires_wakeUp (h : LockInv s) {res : LockResult × LockState} (hs : s.wakeUp txn = some res)
    (hw : s.waiting txn = some (.request id .shared) ∨ s.waiting txn = some (.request id .exlucsive) ∨
      s.waiting txn = some (.upgrade id .exlucsive)) : Acquires s res.2 txn id := by
  have hwithin := h.within_wakeUp hs hw
  have hcases := wakeUp_cases hs
  refine ⟨hwithin, ?_, fun u hx => ?_⟩
  · rcases hcases with ⟨j, mode, r, -, -, -, -, rfl⟩ | ⟨j, mode, u, -, -, -, -, rfl⟩
    · intro i hi
      simp [hi]
    · exact Finset.Subset.refl _
  · by_cases hu : u = txn
    · subst hu
      rcases hcases with ⟨j, mode, r, -, -, -, -, rfl⟩ | ⟨j, mode, u, hj, -, -, -, rfl⟩
      · exact hx
      · refine h.wakeUp_returned hs ?_
        rcases hw with hw | hw | hw
        · cases hw.symm.trans hj
        · exact .inl hw
        · exact .inr hw
    · exact hwithin.frame.holdsX (h.queues _) hu hx

end Calls

end LockState

end Rmdb

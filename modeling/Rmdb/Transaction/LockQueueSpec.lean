import Mathlib.Data.List.TakeWhile
import Rmdb.Transaction.LockQueue

namespace Rmdb

namespace LockRequestQueue

variable {q : LockRequestQueue} {txn : TxnId} {mode : LockMode}

def HasRequest (q : LockRequestQueue) (txn : TxnId) : Prop := ∃ r ∈ q.requestQueue, r.txnId = txn

def HasGranted (q : LockRequestQueue) (txn : TxnId) : Prop :=
  ∃ r ∈ q.requestQueue, r.txnId = txn ∧ r.granted = true

def Upgrading (q : LockRequestQueue) (txn : TxnId) : Prop := ∃ u ∈ q.upgradeQueue, u.txnId = txn

/-- What the group mode promises while only the modes S and X are in use. -/
inductive Phase (q : LockRequestQueue) : Prop
  | free (hg : q.groupLockMode = .nonLock) (hq : q.requestQueue = [])
  | shared (hg : q.groupLockMode = .s) (hne : ∃ r ∈ q.requestQueue, r.granted = true)
      (hiff : ∀ r ∈ q.requestQueue, (r.granted = true ↔ r.lockMode = .shared))
      (hup : ∀ u ∈ q.upgradeQueue, u.granted = false)
  | exclusive (g : LockRequest) (hg : q.groupLockMode = .x) (hmem : g ∈ q.requestQueue)
      (hgr : g.granted = true)
      (huniq : ∀ r ∈ q.requestQueue, r.granted = true → r = g)
      (hx : g.lockMode = .exlucsive ∨ ∃ u ∈ q.upgradeQueue, u.txnId = g.txnId ∧ u.granted = true)

/-- The invariant of a queue on which only S and X are requested. -/
structure SXInv (q : LockRequestQueue) : Prop where
  nodup : (q.requestQueue.map LockRequest.txnId).Nodup
  modes : ∀ r ∈ q.requestQueue, r.lockMode = .shared ∨ r.lockMode = .exlucsive
  upNodup : (q.upgradeQueue.map LockRequest.txnId).Nodup
  up : ∀ u ∈ q.upgradeQueue, u.lockMode = .exlucsive ∧
    ∃ r ∈ q.requestQueue, r.txnId = u.txnId ∧ r.granted = true ∧ r.lockMode = .shared
  phase : Phase q

theorem sxInv_empty : SXInv {} := ⟨List.nodup_nil, by simp, List.nodup_nil, by simp, .free rfl rfl⟩

section Lists

variable {l : List LockRequest}

theorem eraseP_txn (h : (l.map LockRequest.txnId).Nodup) :
    l.eraseP (fun r => r.txnId = txn) = l.filter fun r => r.txnId ≠ txn := by
  induction l with
  | nil => rfl
  | cons r l ih =>
      obtain ⟨hr, hl⟩ := List.nodup_cons.1 h
      by_cases he : r.txnId = txn
      · have hall : l.filter (fun r => r.txnId ≠ txn) = l := by
          refine List.filter_eq_self.2 (fun a ha => ?_)
          have : a.txnId ≠ txn := fun hc => hr (List.mem_map.2 ⟨a, ha, hc.trans he.symm⟩)
          simpa using this
        rw [List.eraseP_cons_of_pos (by simpa using he), List.filter_cons_of_neg (by simpa using he), hall]
      · rw [List.eraseP_cons_of_neg (by simpa using he), List.filter_cons_of_pos (by simpa using he), ih hl]

theorem mem_eraseP_txn (h : (l.map LockRequest.txnId).Nodup) {r : LockRequest} :
    r ∈ l.eraseP (fun r => r.txnId = txn) ↔ r ∈ l ∧ r.txnId ≠ txn := by
  rw [eraseP_txn h, List.mem_filter, decide_eq_true_eq]

theorem eq_of_txnId (h : (l.map LockRequest.txnId).Nodup) {r r' : LockRequest} (hr : r ∈ l) (hr' : r' ∈ l)
    (he : r.txnId = r'.txnId) : r = r' :=
  List.inj_on_of_nodup_map h hr hr' he

theorem find_txn (h : (l.map LockRequest.txnId).Nodup) {r : LockRequest} (hr : r ∈ l) :
    l.find? (fun a => a.txnId = r.txnId) = some r := by
  cases hf : l.find? (fun a => a.txnId = r.txnId) with
  | none => exact absurd (List.find?_eq_none.1 hf r hr) (by simp)
  | some a => rw [eq_of_txnId h (List.mem_of_find?_eq_some hf) hr (by simpa using List.find?_some hf)]

/-- The first granted request with the ungranted ones before it and the rest behind it. -/
theorem dropWhile_granted {first : LockRequest} {others : List LockRequest}
    (h : l.dropWhile (fun r => !r.granted) = first :: others) :
    ∃ before, l = before ++ first :: others ∧ first.granted = true ∧ ∀ r ∈ before, r.granted = false := by
  refine ⟨l.takeWhile (fun r => !r.granted), ?_, ?_, ?_⟩
  · rw [← h, List.takeWhile_append_dropWhile]
  · have hf := List.head_dropWhile_not (l := l) (fun r => !r.granted) (by rw [h]; exact List.cons_ne_nil _ _)
    simpa [h] using hf
  · intro r hr
    simpa using List.mem_takeWhile_imp hr

theorem dropWhile_none (h : l.dropWhile (fun r => !r.granted) = []) : ∀ r ∈ l, r.granted = false := by
  intro r hr
  simpa using List.dropWhile_eq_nil_iff.1 h r hr

/-- With only S and X in the queue, the batch grant reaches every S request. -/
theorem grantCompatible_shared (h : ∀ r ∈ l, r.lockMode = .shared ∨ r.lockMode = .exlucsive) :
    grantCompatible .s l =
      (.s, l.map fun r => if r.lockMode = .shared then { r with granted := true } else r) := by
  induction l with
  | nil => rfl
  | cons r l ih =>
      have ihl := ih fun a ha => h a (List.mem_cons_of_mem _ ha)
      rw [grantCompatible]
      rcases h r List.mem_cons_self with hm | hm
      · have hmax : GroupLockMode.max .s (getGroupLockMode r.lockMode) = .s := by rw [hm]; rfl
        have hc : lockCompatible .s (getGroupLockMode r.lockMode) = true := by rw [hm]; rfl
        rw [if_pos hc, hmax, ihl]
        simp [hm]
      · have hc : ¬ lockCompatible .s (getGroupLockMode r.lockMode) = true := by rw [hm]; decide
        rw [if_neg hc, ihl]
        simp [hm]

end Lists

section Inv

theorem SXInv.noUpgrade (h : SXInv q) (hn : ∀ r ∈ q.requestQueue, r.granted = false) :
    q.upgradeQueue = [] := by
  refine List.eq_nil_iff_forall_not_mem.2 (fun u hu => ?_)
  obtain ⟨-, r, hr, -, hg, -⟩ := h.up u hu
  rw [hn r hr] at hg
  cases hg

theorem SXInv.modes_append (h : SXInv q) (hm : mode = .shared ∨ mode = .exlucsive) (b : Bool) :
    ∀ r ∈ q.requestQueue ++ [⟨txn, mode, b⟩], r.lockMode = .shared ∨ r.lockMode = .exlucsive := by
  intro r hr
  rcases List.mem_append.1 hr with hr | hr
  · exact h.modes r hr
  · rw [List.mem_singleton.1 hr]
    exact hm

theorem SXInv.nodup_append (h : SXInv q) (ht : ¬ q.HasRequest txn) (b : Bool) :
    ((q.requestQueue ++ [(⟨txn, mode, b⟩ : LockRequest)]).map LockRequest.txnId).Nodup := by
  rw [List.map_append]
  refine List.nodup_append.2 ⟨h.nodup, List.nodup_singleton _, ?_⟩
  intro x hx y hy hxy
  obtain ⟨r, hr, rfl⟩ := List.mem_map.1 hx
  simp only [List.map_cons, List.map_nil, List.mem_singleton] at hy
  exact ht ⟨r, hr, hxy.trans hy⟩

theorem SXInv.up_append (h : SXInv q) (l : List LockRequest) :
    ∀ u ∈ q.upgradeQueue, u.lockMode = .exlucsive ∧
      ∃ r ∈ q.requestQueue ++ l, r.txnId = u.txnId ∧ r.granted = true ∧ r.lockMode = .shared := by
  intro u hu
  obtain ⟨hm, r, hr, hrest⟩ := h.up u hu
  exact ⟨hm, r, List.mem_append_left _ hr, hrest⟩

theorem SXInv.checkAndExecuteLock (h : SXInv q) (ht : ¬ q.HasRequest txn)
    (hm : mode = .shared ∨ mode = .exlucsive) : SXInv (q.checkAndExecuteLock txn mode).2 := by
  rw [LockRequestQueue.checkAndExecuteLock]
  split
  · rename_i hc
    refine ⟨h.nodup_append ht true, h.modes_append hm true, h.upNodup, h.up_append _, ?_⟩
    cases h.phase with
    | free hg hq =>
        have hu := h.noUpgrade (by simp [hq])
        rcases hm with rfl | rfl
        · exact .shared rfl ⟨⟨txn, .shared, true⟩, by simp, rfl⟩ (by simp [hq]) (by simp [hu])
        · exact .exclusive ⟨txn, .exlucsive, true⟩ rfl (by simp) rfl (by simp [hq]) (.inl rfl)
    | shared hg hne hiff hup =>
        rcases hm with rfl | rfl
        · obtain ⟨r, hr, hgr⟩ := hne
          refine .shared rfl ⟨r, List.mem_append_left _ hr, hgr⟩ ?_ hup
          intro a ha
          rcases List.mem_append.1 ha with ha | ha
          · exact hiff a ha
          · simp [List.mem_singleton.1 ha]
        · rw [hg] at hc
          exact absurd hc (by decide)
    | exclusive g hg =>
        rw [hg] at hc
        rcases hm with rfl | rfl <;> exact absurd hc (by decide)
  · split
    · exact h
    · rename_i hc _
      refine ⟨h.nodup_append ht false, h.modes_append hm false, h.upNodup, h.up_append _, ?_⟩
      cases h.phase with
      | free hg hq =>
          rw [hg] at hc
          rcases hm with rfl | rfl <;> exact absurd rfl hc
      | shared hg hne hiff hup =>
          rcases hm with rfl | rfl
          · rw [hg] at hc
            exact absurd rfl hc
          · obtain ⟨r, hr, hgr⟩ := hne
            refine .shared hg ⟨r, List.mem_append_left _ hr, hgr⟩ ?_ hup
            intro a ha
            rcases List.mem_append.1 ha with ha | ha
            · exact hiff a ha
            · simp [List.mem_singleton.1 ha]
      | exclusive g hg hmem hgr huniq hx =>
          refine .exclusive g hg (List.mem_append_left _ hmem) hgr ?_ hx
          intro a ha hga
          rcases List.mem_append.1 ha with ha | ha
          · exact huniq a ha hga
          · rw [List.mem_singleton.1 ha] at hga
            cases hga

/-- Rewriting a request's mode leaves the transactions of the queue as they are. -/
theorem setMode_txnId (q : LockRequestQueue) (txn : TxnId) (mode : LockMode) (b : Bool) :
    (q.setMode txn mode b).map LockRequest.txnId = q.requestQueue.map LockRequest.txnId := by
  rw [setMode, List.map_map]
  refine List.map_congr_left (fun r _ => ?_)
  by_cases h : r.txnId = txn <;> simp [h]

/-- The call for a transaction whose request has the mode it asks for, or a stronger one. -/
theorem upgradeLockOnTable_held {r : LockRequest} (h : SXInv q) (hr : r ∈ q.requestQueue)
    (hm : (getGroupLockMode mode).ord ≤ (getGroupLockMode r.lockMode).ord) :
    q.upgradeLockOnTable r.txnId mode = (.returned, q) := by
  rw [upgradeLockOnTable, find_txn h.nodup hr]
  exact if_pos hm

/-- S to X: the caller is not the youngest in the queue, is alone in it, or has to wait. -/
theorem upgradeLockOnTable_shared {r : LockRequest} (h : SXInv q) (hr : r ∈ q.requestQueue)
    (hm : r.lockMode = .shared) :
    q.upgradeLockOnTable r.txnId .exlucsive =
      if q.checkWaitDie r.txnId then (.dies, q)
      else if q.requestQueue.length = 1 then
        (.returned, { q with requestQueue := [⟨r.txnId, .exlucsive, true⟩], groupLockMode := .x })
      else (.waits, { q with upgradeQueue := q.upgradeQueue ++ [⟨r.txnId, .exlucsive, false⟩] }) := by
  have hc : lockCompatible q.groupLockMode (getGroupLockMode .exlucsive) = false := by
    cases h.phase with
    | free _ hq => rw [hq] at hr; cases hr
    | shared hg => rw [hg]; rfl
    | exclusive _ hg => rw [hg]; rfl
  have hmax : q.groupLockMode.max (getGroupLockMode .exlucsive) = .x := by
    cases h.phase with
    | free _ hq => rw [hq] at hr; cases hr
    | shared hg => rw [hg]; rfl
    | exclusive _ hg => rw [hg]; rfl
  rw [upgradeLockOnTable, find_txn h.nodup hr]
  simp only [hm, hc, hmax, Bool.false_eq_true, or_false]
  rw [if_neg (by decide)]
  by_cases hlen : q.requestQueue.length = 1
  · obtain ⟨a, ha⟩ := List.length_eq_one_iff.1 hlen
    have har : r = a := by rw [ha] at hr; exact List.mem_singleton.1 hr
    simp [setMode, ha, har]
  · simp [hlen]

theorem SXInv.upgradeLockOnTable (h : SXInv q) (ht : q.HasGranted txn) (hu : ¬ q.Upgrading txn)
    (hm : mode = .shared ∨ mode = .exlucsive) : SXInv (q.upgradeLockOnTable txn mode).2 := by
  obtain ⟨r, hr, rfl, hgr⟩ := ht
  by_cases hheld : (getGroupLockMode mode).ord ≤ (getGroupLockMode r.lockMode).ord
  · rw [upgradeLockOnTable_held h hr hheld]
    exact h
  · have hsx : r.lockMode = .shared ∧ mode = .exlucsive := by
      rcases h.modes r hr with h1 | h1 <;> rcases hm with rfl | rfl <;>
        simp_all [getGroupLockMode, GroupLockMode.ord]
    obtain ⟨hrm, rfl⟩ := hsx
    rw [upgradeLockOnTable_shared h hr hrm]
    split
    · exact h
    · split
      · rename_i _ hlen
        obtain ⟨a, ha⟩ := List.length_eq_one_iff.1 hlen
        have hnone : q.upgradeQueue = [] := by
          refine List.eq_nil_iff_forall_not_mem.2 (fun u hum => ?_)
          obtain ⟨-, b, hb, hbt, -⟩ := h.up u hum
          rw [ha] at hr hb
          rw [List.mem_singleton.1 hb, ← List.mem_singleton.1 hr] at hbt
          exact hu ⟨u, hum, hbt.symm⟩
        refine ⟨List.nodup_singleton _, by simp, h.upNodup, by simp [hnone], ?_⟩
        exact .exclusive ⟨r.txnId, .exlucsive, true⟩ rfl (by simp) rfl (by simp) (.inl rfl)
      · refine ⟨h.nodup, h.modes, ?_, ?_, ?_⟩
        · rw [List.map_append]
          refine List.nodup_append.2 ⟨h.upNodup, List.nodup_singleton _, ?_⟩
          intro x hx y hy hxy
          obtain ⟨u, hum, rfl⟩ := List.mem_map.1 hx
          simp only [List.map_cons, List.map_nil, List.mem_singleton] at hy
          exact hu ⟨u, hum, hxy.trans hy⟩
        · intro u hum
          rcases List.mem_append.1 hum with hum | hum
          · exact h.up u hum
          · rw [List.mem_singleton.1 hum]
            exact ⟨rfl, r, hr, rfl, hgr, hrm⟩
        · cases h.phase with
          | free hg hq => exact .free hg hq
          | shared hg hne hiff hup =>
              refine .shared hg hne hiff (fun u hum => ?_)
              rcases List.mem_append.1 hum with hum | hum
              · exact hup u hum
              · rw [List.mem_singleton.1 hum]
          | exclusive g hg hmem hgg huniq hx =>
              -- the holder would be the caller itself, in mode S and not upgrading
              cases huniq r hr hgr
              rcases hx with hx | ⟨u, hum, hut, -⟩
              · rw [hrm] at hx
                cases hx
              · exact absurd ⟨u, hum, hut⟩ hu

theorem SXInv.upgraded (h : SXInv q) {u : LockRequest} (hum : u ∈ q.upgradeQueue) (hgu : u.granted = true) :
    ∃ g ∈ q.requestQueue, g.txnId = u.txnId ∧ g.granted = true ∧
      (∀ r ∈ q.requestQueue, r.granted = true → r = g) ∧
      q.groupLockMode = .x ∧ q.upgradeQueue = [u] := by
  obtain ⟨-, r, hr, hrt, hgr, -⟩ := h.up u hum
  cases h.phase with
  | free _ hq => rw [hq] at hr; cases hr
  | shared _ _ _ hup => rw [hup u hum] at hgu; cases hgu
  | exclusive g hg hmem hgg huniq _ =>
      cases huniq r hr hgr
      refine ⟨r, hmem, hrt, hgg, huniq, hg, ?_⟩
      have hall : ∀ v ∈ q.upgradeQueue, v = u := by
        intro v hv
        obtain ⟨-, b, hb, hbt, hgb, -⟩ := h.up v hv
        cases huniq b hb hgb
        exact eq_of_txnId h.upNodup hv hum (hbt.symm.trans hrt)
      match hl : q.upgradeQueue, hall, h.upNodup with
      | [], _, _ => rw [hl] at hum; cases hum
      | [v], hall, _ => rw [hall v (by simp)]
      | v :: w :: l, hall, hnd =>
          rw [hall v (by simp), hall w (by simp)] at hnd
          simp at hnd

theorem SXInv.finishUpgrade (h : SXInv q) {u : LockRequest} (hum : u ∈ q.upgradeQueue)
    (hgu : u.granted = true) :
    SXInv (q.finishUpgrade u.txnId .exlucsive) := by
  obtain ⟨g, hmem, hgt, hgg, huniq, hg, hq⟩ := h.upgraded hum hgu
  have hnil : q.upgradeQueue.eraseP (fun r => r.txnId = u.txnId) = [] := by
    rw [hq, List.eraseP_cons_of_pos (by simp)]
  refine ⟨?_, ?_, ?_, ?_, ?_⟩
  · rw [LockRequestQueue.finishUpgrade, setMode_txnId]
    exact h.nodup
  · intro r hr
    obtain ⟨a, ha, rfl⟩ := List.mem_map.1 hr
    by_cases hat : a.txnId = u.txnId
    · simp [hat]
    · simpa [hat] using h.modes a ha
  · simp [LockRequestQueue.finishUpgrade, hnil]
  · simp [LockRequestQueue.finishUpgrade, hnil]
  · refine .exclusive ⟨u.txnId, .exlucsive, true⟩ hg ?_ rfl ?_ (.inl rfl)
    · exact List.mem_map.2 ⟨g, hmem, by simp [hgt, hgg]⟩
    · intro r hr hgr
      obtain ⟨a, ha, rfl⟩ := List.mem_map.1 hr
      by_cases hat : a.txnId = u.txnId
      · simp_all
      · simp only [hat, if_false] at hgr ⊢
        cases huniq a ha hgr
        exact absurd hgt hat

def remaining (q : LockRequestQueue) (txn : TxnId) : List LockRequest :=
  q.requestQueue.eraseP fun r => r.txnId = txn

theorem SXInv.mem_remaining (h : SXInv q) {r : LockRequest} :
    r ∈ q.remaining txn ↔ r ∈ q.requestQueue ∧ r.txnId ≠ txn :=
  mem_eraseP_txn h.nodup

theorem remaining_sublist : (q.remaining txn).Sublist q.requestQueue := List.eraseP_sublist

theorem unlock_eq (q : LockRequestQueue) (txn : TxnId) : q.unlock txn =
    match q.remaining txn with
    | [] => { q with requestQueue := [], groupLockMode := .nonLock }
    | front :: rest => match (q.remaining txn).dropWhile (fun r : LockRequest => !r.granted) with
        | [] => q.grantWaiting front rest
        | first :: others => q.handOver (q.remaining txn) first others := rfl

theorem unlock_of_granted {first : LockRequest} {others : List LockRequest}
    (hd : (q.remaining txn).dropWhile (fun r => !r.granted) = first :: others) :
    q.unlock txn = q.handOver (q.remaining txn) first others := by
  rw [unlock_eq]
  cases hl : q.remaining txn with
  | nil => rw [hl] at hd; cases hd
  | cons front rest =>
      simp only
      rw [← hl, hd]

inductive Unlocked (q : LockRequestQueue) (txn : TxnId) : LockRequestQueue → Prop
  | emptied (hl : q.remaining txn = []) : Unlocked q txn ⟨[], [], .nonLock⟩
  | grantFront (front : LockRequest) (rest : List LockRequest) (hl : q.remaining txn = front :: rest)
      (hnone : ∀ r ∈ q.remaining txn, r.granted = false) (hm : front.lockMode = .exlucsive) :
      Unlocked q txn ⟨{ front with granted := true } :: rest, [], .x⟩
  | grantShared (front : LockRequest) (rest : List LockRequest) (hl : q.remaining txn = front :: rest)
      (hnone : ∀ r ∈ q.remaining txn, r.granted = false) (hm : front.lockMode = .shared) :
      Unlocked q txn
        ⟨(q.remaining txn).map fun r => if r.lockMode = .shared then { r with granted := true } else r,
          [], .s⟩
  | kept (first : LockRequest) (hf : first ∈ q.remaining txn) (hg : first.granted = true) :
      Unlocked q txn { q with requestQueue := q.remaining txn }
  | handedOver (first up : LockRequest) (ups : List LockRequest) (hf : first ∈ q.remaining txn)
      (hg : first.granted = true) (huniq : ∀ r ∈ q.remaining txn, r.granted = true → r = first)
      (hq : q.upgradeQueue = up :: ups) (ht : first.txnId = up.txnId) :
      Unlocked q txn ⟨q.remaining txn, { up with granted := true } :: ups, .x⟩

theorem SXInv.unlock_cases (h : SXInv q) (hu : ¬ q.Upgrading txn) : Unlocked q txn (q.unlock txn) := by
  have hup : (∀ r ∈ q.remaining txn, r.granted = false) → q.upgradeQueue = [] := by
    intro hnone
    refine List.eq_nil_iff_forall_not_mem.2 (fun u hum => ?_)
    obtain ⟨-, r, hr, hrt, hgr, -⟩ := h.up u hum
    rw [hnone r (h.mem_remaining.2 ⟨hr, fun hc => hu ⟨u, hum, hrt ▸ hc⟩⟩)] at hgr
    cases hgr
  rw [LockRequestQueue.unlock]
  change Unlocked q txn (match q.remaining txn with
    | [] => { q with requestQueue := [], groupLockMode := .nonLock }
    | front :: rest => match (q.remaining txn).dropWhile (fun r => !r.granted) with
        | [] => q.grantWaiting front rest
        | first :: others => q.handOver (q.remaining txn) first others)
  cases hl : q.remaining txn with
  | nil =>
      rw [hup (by simp [hl])]
      exact .emptied hl
  | cons front rest =>
      simp only
      rw [← hl]
      cases hd : (q.remaining txn).dropWhile (fun r => !r.granted) with
      | nil =>
          have hnone := dropWhile_none hd
          simp only [grantWaiting]
          have hfront : front ∈ q.requestQueue := (h.mem_remaining.1 (by rw [hl]; exact List.mem_cons_self)).1
          rcases h.modes front hfront with hm | hm
          · have hmodes : ∀ r ∈ q.remaining txn, r.lockMode = .shared ∨ r.lockMode = .exlucsive :=
              fun r hr => h.modes r (h.mem_remaining.1 hr).1
            rw [if_neg (by rw [hm]; decide), hm, ← hl, hup hnone]
            change Unlocked q txn ⟨(grantCompatible .s (q.remaining txn)).2, [],
              (grantCompatible .s (q.remaining txn)).1⟩
            rw [grantCompatible_shared hmodes]
            exact .grantShared front rest hl hnone hm
          · rw [if_pos (by rw [hm]; rfl), hup hnone]
            exact .grantFront front rest hl hnone hm
      | cons first others =>
          obtain ⟨before, hsplit, hg, hbefore⟩ := dropWhile_granted hd
          have hf : first ∈ q.remaining txn := by rw [hsplit]; simp
          simp only [handOver]
          cases hq : q.upgradeQueue with
          | nil =>
              simp only
              rw [← hq]
              exact .kept first hf hg
          | cons up ups =>
              simp only
              split
              · rename_i hserve
                have hmode : getGroupLockMode up.lockMode = .x := by
                  rw [(h.up up (by rw [hq]; exact List.mem_cons_self)).1]
                  rfl
                rw [hmode]
                refine .handedOver first up ups hf hg ?_ hq hserve.1
                intro r hr hgr
                rw [hsplit] at hr
                rcases List.mem_append.1 hr with hr | hr
                · rw [hbefore r hr] at hgr
                  cases hgr
                · rcases List.mem_cons.1 hr with rfl | hr
                  · rfl
                  · have := List.all_eq_true.1 hserve.2 r hr
                    rw [hgr] at this
                    cases this
              · rw [← hq]
                exact .kept first hf hg

theorem SXInv.unlock (h : SXInv q) (hu : ¬ q.Upgrading txn) : SXInv (q.unlock txn) := by
  have hnd : ((q.remaining txn).map LockRequest.txnId).Nodup := h.nodup.sublist (remaining_sublist.map _)
  have hmodes : ∀ r ∈ q.remaining txn, r.lockMode = .shared ∨ r.lockMode = .exlucsive :=
    fun r hr => h.modes r (h.mem_remaining.1 hr).1
  have hup : ∀ u ∈ q.upgradeQueue, u.lockMode = .exlucsive ∧
      ∃ r ∈ q.remaining txn, r.txnId = u.txnId ∧ r.granted = true ∧ r.lockMode = .shared := by
    intro u hum
    obtain ⟨hm, r, hr, hrt, hrest⟩ := h.up u hum
    exact ⟨hm, r, h.mem_remaining.2 ⟨hr, fun hc => hu ⟨u, hum, hrt ▸ hc⟩⟩, hrt, hrest⟩
  generalize hres : q.unlock txn = res
  cases hres ▸ h.unlock_cases hu with
  | emptied hl => exact ⟨List.nodup_nil, by simp, List.nodup_nil, by simp, .free rfl rfl⟩
  | grantFront front rest hl hnone hm =>
      rw [hl] at hnd hmodes hnone
      refine ⟨by simpa using hnd, ?_, List.nodup_nil, by simp, ?_⟩
      · intro r hr
        rcases List.mem_cons.1 hr with rfl | hr
        · exact .inr hm
        · exact hmodes r (List.mem_cons_of_mem _ hr)
      · refine .exclusive { front with granted := true } rfl List.mem_cons_self rfl ?_ (.inl hm)
        intro r hr hgr
        rcases List.mem_cons.1 hr with rfl | hr
        · rfl
        · rw [hnone r (List.mem_cons_of_mem _ hr)] at hgr
          cases hgr
  | grantShared front rest hl hnone hm =>
      have htxn : ((q.remaining txn).map fun r =>
          if r.lockMode = .shared then { r with granted := true } else r).map
          LockRequest.txnId = (q.remaining txn).map LockRequest.txnId := by
        rw [List.map_map]
        refine List.map_congr_left (fun r _ => ?_)
        by_cases hr : r.lockMode = .shared <;> simp [hr]
      refine ⟨by rw [htxn]; exact hnd, ?_, List.nodup_nil, by simp, ?_⟩
      · intro r hr
        obtain ⟨a, ha, rfl⟩ := List.mem_map.1 hr
        by_cases hs : a.lockMode = .shared
        · simp [hs]
        · simpa [hs] using hmodes a ha
      · refine .shared rfl ⟨{ front with granted := true }, ?_, rfl⟩ ?_ (by simp)
        · exact List.mem_map.2 ⟨front, by rw [hl]; exact List.mem_cons_self, by simp [hm]⟩
        · intro r hr
          obtain ⟨a, ha, rfl⟩ := List.mem_map.1 hr
          by_cases hs : a.lockMode = .shared
          · simp [hs]
          · simp [hs, hnone a ha]
  | kept first hf hg =>
      refine ⟨hnd, hmodes, h.upNodup, hup, ?_⟩
      cases h.phase with
      | free hgr hq => exact absurd (h.mem_remaining.1 hf).1 (by simp [hq])
      | shared hgr hne hiff hupg =>
          exact .shared hgr ⟨first, hf, hg⟩ (fun r hr => hiff r (h.mem_remaining.1 hr).1) hupg
      | exclusive g hgr hmem hgg huniq hx =>
          cases huniq first (h.mem_remaining.1 hf).1 hg
          exact .exclusive first hgr hf hgg (fun r hr => huniq r (h.mem_remaining.1 hr).1) hx
  | handedOver first up ups hf hg huniq hq ht =>
      have hnd' := h.upNodup
      rw [hq] at hup hnd'
      refine ⟨hnd, hmodes, by simpa using hnd', ?_, ?_⟩
      · intro u hum
        rcases List.mem_cons.1 hum with rfl | hum
        · exact hup up List.mem_cons_self
        · exact hup u (List.mem_cons_of_mem _ hum)
      · exact .exclusive first rfl hf hg huniq (.inr ⟨_, List.mem_cons_self, ht.symm, rfl⟩)

end Inv

end LockRequestQueue

end Rmdb

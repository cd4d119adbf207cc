import Rmdb.Transaction.LockManager

namespace Rmdb

namespace LockRequestQueue

variable {q q' : LockRequestQueue} {txn : TxnId} {mode : LockMode}

/-- `txn` waits in the queue for `mode`: an ungranted request or a pending upgrade. -/
def Wants (q : LockRequestQueue) (txn : TxnId) (mode : LockMode) : Prop :=
  ∃ r, (r ∈ q.requestQueue ∨ r ∈ q.upgradeQueue) ∧ r.txnId = txn ∧ r.granted = false ∧ r.lockMode = mode

/-- `txn` has a granted request in `mode`, or has been handed an upgrade to it. -/
def Holds (q : LockRequestQueue) (txn : TxnId) (mode : LockMode) : Prop :=
  ∃ r ∈ q.requestQueue, r.txnId = txn ∧ r.granted = true ∧
    (r.lockMode = mode ∨ ∃ u ∈ q.upgradeQueue, u.txnId = txn ∧ u.granted = true ∧ u.lockMode = mode)

def Waits (q : LockRequestQueue) (txn : TxnId) : Prop := ∃ mode, q.Wants txn mode

/-- Every waiting transaction is older than every other transaction that holds the lock. -/
def WaitersOlder (q : LockRequestQueue) : Prop :=
  ∀ txn, q.Waits txn → ∀ r ∈ q.requestQueue, r.granted = true → r.txnId ≠ txn → txn < r.txnId

/-- A request still ungranted is older than everything that stood in the queue before it. -/
def Ordered (q : LockRequestQueue) : Prop :=
  q.requestQueue.Pairwise fun a b => b.granted = false → b.txnId < a.txnId

/-- With only S and X in use, a waiting transaction conflicts with every other holder. -/
theorem SXInv.conflict (h : SXInv q) {r g : LockRequest} (hr : r ∈ q.requestQueue ∨ r ∈ q.upgradeQueue)
    (hng : r.granted = false) (hg : g ∈ q.requestQueue) (hgg : g.granted = true) :
    ∃ m, q.Holds g.txnId m ∧ lockCompatible (getGroupLockMode m) (getGroupLockMode r.lockMode) = false := by
  have hsx : r.lockMode = .shared ∨ r.lockMode = .exlucsive := by
    rcases hr with hr | hr
    · exact h.modes r hr
    · exact .inr (h.up r hr).1
  cases h.phase with
  | free _ hq => rw [hq] at hg; cases hg
  | shared _ _ hiff _ =>
      refine ⟨g.lockMode, ⟨g, hg, rfl, hgg, .inl rfl⟩, ?_⟩
      have hx : r.lockMode = .exlucsive := by
        rcases hr with hr | hr
        · refine hsx.resolve_left fun hs => ?_
          rw [(hiff r hr).2 hs] at hng
          cases hng
        · exact (h.up r hr).1
      rw [(hiff g hg).1 hgg, hx]
      rfl
  | exclusive a _ _ _ huniq hx =>
      refine ⟨.exlucsive, ⟨g, hg, rfl, hgg, ?_⟩, by rcases hsx with hs | hs <;> rw [hs] <;> rfl⟩
      rw [huniq g hg hgg]
      rcases hx with hx | ⟨u, hu, hut, hug⟩
      · exact .inl hx
      · exact .inr ⟨u, hu, hut, hug, (h.up u hu).1⟩

/-- The waiters of a queue that has become smaller and its holders are among the old ones. -/
theorem WaitersOlder.mono (h : WaitersOlder q) (hw : ∀ t, q'.Waits t → q.Waits t)
    (hg : ∀ r' ∈ q'.requestQueue, r'.granted = true → ∃ r ∈ q.requestQueue, r.granted = true ∧
      r.txnId = r'.txnId) :
    WaitersOlder q' := by
  intro t ht r' hr' hgr' hne
  obtain ⟨r, hr, hgr, hrt⟩ := hg r' hr' hgr'
  rw [← hrt] at hne ⊢
  exact h t (hw t ht) r hr hgr hne

theorem checkWaitDie_false (h : ¬ q.checkWaitDie txn = true) : ∀ r ∈ q.requestQueue, txn ≤ r.txnId := by
  intro r hr
  by_contra hc
  exact h (List.any_eq_true.2 ⟨r, hr, by simpa using hc⟩)

section Acquire

theorem Waits.present (h : SXInv q) {t : TxnId} (hw : q.Waits t) : q.HasRequest t := by
  obtain ⟨m, r, hr | hr, hrt, -⟩ := hw
  · exact ⟨r, hr, hrt⟩
  · obtain ⟨-, a, ha, hat, -⟩ := h.up r hr
    exact ⟨a, ha, hat.trans hrt⟩

theorem ordered_checkAndExecuteLock (ho : Ordered q) (ht : ¬ q.HasRequest txn) :
    Ordered (q.checkAndExecuteLock txn mode).2 := by
  rw [checkAndExecuteLock]
  split
  · refine List.pairwise_append.2 ⟨ho, List.pairwise_singleton _ _, ?_⟩
    intro a _ b hb hng
    rw [List.mem_singleton.1 hb] at hng
    cases hng
  · split
    · exact ho
    · rename_i hd
      refine List.pairwise_append.2 ⟨ho, List.pairwise_singleton _ _, ?_⟩
      intro a ha b hb _
      rw [List.mem_singleton.1 hb]
      exact lt_of_le_of_ne (checkWaitDie_false hd a ha) fun hc => ht ⟨a, ha, hc.symm⟩

/-- A newcomer that is granted at once must be younger than everyone who waits. -/
theorem waitersOlder_checkAndExecuteLock (h : SXInv q) (hold : WaitersOlder q) (ht : ¬ q.HasRequest txn) :
    WaitersOlder (q.checkAndExecuteLock txn mode).2 ↔
      (lockCompatible q.groupLockMode (getGroupLockMode mode) = true → ∀ t, q.Waits t → t < txn) := by
  rw [checkAndExecuteLock]
  split
  · rename_i hc
    have hwaits : ∀ t, Waits ⟨q.requestQueue ++ [⟨txn, mode, true⟩], q.upgradeQueue,
      getGroupLockMode mode⟩ t ↔
        q.Waits t := by
      intro t
      constructor
      · rintro ⟨m, r, hr | hr, hrt, hng, hm⟩
        · rcases List.mem_append.1 hr with hr | hr
          · exact ⟨m, r, .inl hr, hrt, hng, hm⟩
          · rw [List.mem_singleton.1 hr] at hng
            cases hng
        · exact ⟨m, r, .inr hr, hrt, hng, hm⟩
      · rintro ⟨m, r, hr | hr, hrest⟩
        · exact ⟨m, r, .inl (List.mem_append_left _ hr), hrest⟩
        · exact ⟨m, r, .inr hr, hrest⟩
    constructor
    · intro hnew _ t hw
      refine hnew t ((hwaits t).2 hw) ⟨txn, mode, true⟩
        (List.mem_append_right _ (List.mem_singleton_self _)) rfl ?_
      rintro rfl
      exact ht (hw.present h)
    · intro hall t hw r hr hgr hne
      rcases List.mem_append.1 hr with hr | hr
      · exact hold t ((hwaits t).1 hw) r hr hgr hne
      · rw [List.mem_singleton.1 hr]
        exact hall hc t ((hwaits t).1 hw)
  · rename_i hc
    refine iff_of_true ?_ (fun hc' => absurd hc' hc)
    split
    · exact hold
    · rename_i hd
      rintro t ⟨m, r, hr, hrt, hng, hm⟩ g hg hgg hne
      have hgq : g ∈ q.requestQueue := by
        rcases List.mem_append.1 hg with hg | hg
        · exact hg
        · rw [List.mem_singleton.1 hg] at hgg
          cases hgg
      rcases hr with hr | hr
      · rcases List.mem_append.1 hr with hr | hr
        · exact hold t ⟨m, r, .inl hr, hrt, hng, hm⟩ g hgq hgg hne
        · rw [List.mem_singleton.1 hr] at hrt
          subst hrt
          exact lt_of_le_of_ne (checkWaitDie_false hd g hgq) (Ne.symm hne)
      · exact hold t ⟨m, r, .inr hr, hrt, hng, hm⟩ g hgq hgg hne

end Acquire

section Upgrade

/-- The caller is the oldest in the queue when its upgrade is granted or starts to wait. -/
theorem waitDie_upgradeLockOnTable (h : SXInv q) (ho : Ordered q) (hold : WaitersOlder q)
    (ht : q.HasGranted txn) (hu : ¬ q.Upgrading txn) (hm : mode = .shared ∨ mode = .exlucsive) :
    Ordered (q.upgradeLockOnTable txn mode).2 ∧ WaitersOlder (q.upgradeLockOnTable txn mode).2 := by
  obtain ⟨r, hr, rfl, hgr⟩ := ht
  by_cases hheld : (getGroupLockMode mode).ord ≤ (getGroupLockMode r.lockMode).ord
  · rw [upgradeLockOnTable_held h hr hheld]
    exact ⟨ho, hold⟩
  · have hsx : r.lockMode = .shared ∧ mode = .exlucsive := by
      rcases h.modes r hr with h1 | h1 <;> rcases hm with rfl | rfl <;>
        simp_all [getGroupLockMode, GroupLockMode.ord]
    obtain ⟨hrm, rfl⟩ := hsx
    rw [upgradeLockOnTable_shared h hr hrm]
    split
    · exact ⟨ho, hold⟩
    · rename_i hd
      split
      · rename_i hlen
        obtain ⟨a, ha⟩ := List.length_eq_one_iff.1 hlen
        refine ⟨List.pairwise_singleton _ _, ?_⟩
        rintro t ⟨m, w, hw | hw, hwt, hng, -⟩ g hg hgg hne
        · rw [List.mem_singleton.1 hw] at hng
          cases hng
        · obtain ⟨-, b, hb, hbt, -⟩ := h.up w hw
          rw [ha] at hr hb
          rw [List.mem_singleton.1 hb, ← List.mem_singleton.1 hr] at hbt
          exact absurd ⟨w, hw, hbt.symm⟩ hu
      · refine ⟨ho, ?_⟩
        rintro t ⟨m, w, hw | hw, hwt, hng, hwm⟩ g hg hgg hne
        · exact hold t ⟨m, w, .inl hw, hwt, hng, hwm⟩ g hg hgg hne
        · rcases List.mem_append.1 hw with hw | hw
          · exact hold t ⟨m, w, .inr hw, hwt, hng, hwm⟩ g hg hgg hne
          · rw [List.mem_singleton.1 hw] at hwt
            subst hwt
            exact lt_of_le_of_ne (checkWaitDie_false hd g hg) (Ne.symm hne)

theorem waitDie_finishUpgrade (txn : TxnId) (mode : LockMode) (ho : Ordered q) (hold : WaitersOlder q) :
    Ordered (q.finishUpgrade txn mode) ∧ WaitersOlder (q.finishUpgrade txn mode) := by
  constructor
  · refine List.pairwise_map.2 (ho.imp ?_)
    intro a b hab
    by_cases ha : a.txnId = txn <;> by_cases hb : b.txnId = txn <;> simp_all
  · refine hold.mono ?_ ?_
    · rintro t ⟨m, r, hr | hr, hrt, hng, hm⟩
      · obtain ⟨a, ha, rfl⟩ := List.mem_map.1 hr
        by_cases hat : a.txnId = txn
        · exact ⟨a.lockMode, a, .inl ha, by simp_all, by simp_all, rfl⟩
        · exact ⟨a.lockMode, a, .inl ha, by simpa [hat] using hrt, by simpa [hat] using hng, rfl⟩
      · exact ⟨m, r, .inr (List.mem_of_mem_eraseP hr), hrt, hng, hm⟩
    · intro r' hr' hgr'
      obtain ⟨a, ha, rfl⟩ := List.mem_map.1 hr'
      by_cases hat : a.txnId = txn
      · exact ⟨a, ha, by simpa [hat] using hgr', by simp [hat]⟩
      · exact ⟨a, ha, by simpa [hat] using hgr', by simp [hat]⟩

end Upgrade

section Release

/-- No S request stands behind an X request when an unlock leaves the lock to the waiters
and the front one asks for S. -/
def BatchInOrder (q : LockRequestQueue) (txn : TxnId) : Prop :=
  (∀ r ∈ q.remaining txn, r.granted = false) → (∀ r ∈ (q.remaining txn).head?, r.lockMode = .shared) →
    (q.remaining txn).Pairwise fun a b => a.lockMode = .exlucsive → b.lockMode ≠ .shared

theorem Ordered.remaining (ho : Ordered q) (txn : TxnId) :
    (q.remaining txn).Pairwise fun a b => b.granted = false → b.txnId < a.txnId :=
  List.Pairwise.sublist remaining_sublist ho

theorem ordered_unlock (h : SXInv q) (ho : Ordered q) (hu : ¬ q.Upgrading txn) : Ordered (q.unlock txn) := by
  have hrem := ho.remaining txn
  generalize hres : q.unlock txn = res
  cases hres ▸ h.unlock_cases hu with
  | emptied => exact List.Pairwise.nil
  | grantFront front rest hl =>
      rw [hl, List.pairwise_cons] at hrem
      exact List.pairwise_cons.2 hrem
  | grantShared =>
      refine List.pairwise_map.2 (hrem.imp ?_)
      intro a b hab
      by_cases ha : a.lockMode = .shared <;> by_cases hb : b.lockMode = .shared <;> simp_all
  | kept => exact hrem
  | handedOver => exact hrem

theorem rel_or_rel {R : LockRequest → LockRequest → Prop} {l : List LockRequest} {a b : LockRequest}
    (h : l.Pairwise R) (ha : a ∈ l) (hb : b ∈ l) (hne : a ≠ b) : R a b ∨ R b a := by
  induction l with
  | nil => cases ha
  | cons c l ih =>
      obtain ⟨hc, hl⟩ := List.pairwise_cons.1 h
      rcases List.mem_cons.1 ha with rfl | hal <;> rcases List.mem_cons.1 hb with rfl | hbl
      · exact absurd rfl hne
      · exact .inl (hc b hbl)
      · exact .inr (hc a hal)
      · exact ih hl hal hbl

/-- Of two waiting requests the later one is older, so the batch grant is in order exactly
when it passes over no X request. -/
theorem waitersOlder_batch (h : SXInv q) (ho : Ordered q) (hnone : ∀ r ∈ q.remaining txn, r.granted = false) :
    WaitersOlder ⟨(q.remaining txn).map fun r =>
      if r.lockMode = .shared then { r with granted := true } else r, [], .s⟩ ↔
      (q.remaining txn).Pairwise fun a b => a.lockMode = .exlucsive → b.lockMode ≠ .shared := by
  have hrem := ho.remaining txn
  constructor
  · intro hold
    refine hrem.imp_of_mem ?_
    intro a b ha hb hab hax hbs
    have hba := hab (hnone b hb)
    refine absurd (hold a.txnId ?_ { b with granted := true } ?_ rfl hba.ne) (not_lt.2 hba.le)
    · exact ⟨.exlucsive, a, .inl (List.mem_map.2 ⟨a, ha, by simp [hax]⟩), rfl, hnone a ha, hax⟩
    · exact List.mem_map.2 ⟨b, hb, by simp [hbs]⟩
  · rintro hpair t ⟨m, w, hw | hw, rfl, hng, -⟩ g hg hgg hne
    · obtain ⟨a, ha, rfl⟩ := List.mem_map.1 hw
      obtain ⟨b, hb, rfl⟩ := List.mem_map.1 hg
      have has : a.lockMode ≠ .shared := fun hc => by simp [hc] at hng
      have hbs : b.lockMode = .shared := by
        by_contra hc
        rw [if_neg hc, hnone b hb] at hgg
        cases hgg
      have hax : a.lockMode = .exlucsive := (h.modes a (h.mem_remaining.1 ha).1).resolve_left has
      simp only [has, hbs, if_true, if_false] at hne ⊢
      have hab : a ≠ b := fun hc => hne (by rw [hc])
      rcases rel_or_rel (hpair.and hrem) ha hb hab with hrel | hrel
      · exact absurd hbs (hrel.1 hax)
      · exact hrel.2 (hnone a ha)
    · cases hw

theorem waitersOlder_unlock (h : SXInv q) (ho : Ordered q) (hold : WaitersOlder q) (hu : ¬ q.Upgrading txn) :
    WaitersOlder (q.unlock txn) ↔ BatchInOrder q txn := by
  have hsub : ∀ r ∈ q.remaining txn, r ∈ q.requestQueue := fun r hr => (h.mem_remaining.1 hr).1
  have hrem := ho.remaining txn
  generalize hres : q.unlock txn = res
  cases hres ▸ h.unlock_cases hu with
  | emptied hl =>
      refine iff_of_true ?_ ?_
      · rintro t - r hr
        cases hr
      · rw [BatchInOrder, hl]
        exact fun _ _ => List.Pairwise.nil
  | grantFront front rest hl hnone hm =>
      refine iff_of_true ?_ ?_
      · rintro t ⟨m, w, hw | hw, rfl, hng, -⟩ g hg hgg hne
        · rw [hl, List.pairwise_cons] at hrem
          have hgf : g.txnId = front.txnId := by
            rcases List.mem_cons.1 hg with rfl | hg
            · rfl
            · rw [hnone g (by rw [hl]; exact List.mem_cons_of_mem _ hg)] at hgg
              cases hgg
          rcases List.mem_cons.1 hw with rfl | hw
          · cases hng
          · rw [hgf]
            exact hrem.1 w hw hng
        · cases hw
      · intro _ hfront
        have hs := hfront front (by rw [hl]; rfl)
        rw [hm] at hs
        cases hs
  | grantShared front rest hl hnone hm =>
      rw [waitersOlder_batch h ho hnone]
      refine ⟨fun hp _ _ => hp, fun hb => hb hnone ?_⟩
      intro r hr
      rw [hl] at hr
      cases hr
      exact hm
  | kept first hf hg =>
      refine iff_of_true (hold.mono ?_ ?_) ?_
      · rintro t ⟨m, r, hr | hr, hrest⟩
        · exact ⟨m, r, .inl (hsub r hr), hrest⟩
        · exact ⟨m, r, .inr hr, hrest⟩
      · exact fun r hr hgr => ⟨r, hsub r hr, hgr, rfl⟩
      · intro hnone
        rw [hnone first hf] at hg
        cases hg
  | handedOver first up ups hf hg huniq hq ht =>
      refine iff_of_true (hold.mono ?_ ?_) ?_
      · rintro t ⟨m, r, hr | hr, hrt, hng, hm⟩
        · exact ⟨m, r, .inl (hsub r hr), hrt, hng, hm⟩
        · rcases List.mem_cons.1 hr with rfl | hr
          · cases hng
          · exact ⟨m, r, .inr (by rw [hq]; exact List.mem_cons_of_mem _ hr), hrt, hng, hm⟩
      · exact fun r hr hgr => ⟨r, hsub r hr, hgr, rfl⟩
      · intro hnone
        rw [hnone first hf] at hg
        cases hg

end Release

end LockRequestQueue

namespace LockState

open LockRequestQueue

variable {s s' : LockState} {txn : TxnId} {id : LockDataId}

/-- `t` waits in some queue for a mode that conflicts with what `u` holds there. -/
def WaitsFor (s : LockState) (t u : TxnId) : Prop :=
  t ≠ u ∧ ∃ id m m', (s.getLockRequestQueue id).Wants t m ∧ (s.getLockRequestQueue id).Holds u m' ∧
    lockCompatible (getGroupLockMode m') (getGroupLockMode m) = false

/-- Only older transactions wait for younger ones, and nobody waits in a circle. -/
def WaitDie (s : LockState) : Prop :=
  (∀ t u, WaitsFor s t u → t < u) ∧ ∀ t, ¬ Relation.TransGen (WaitsFor s) t t

/-- Nobody is granted the lock past a transaction that would then wait for an older one. -/
def NoOvertaking (s : LockState) : LockAction → Prop
  | .lockShared txn fd => .table fd ∉ s.lockSet txn →
      lockCompatible (s.getLockRequestQueue (.table fd)).groupLockMode .s = true →
      ∀ t, (s.getLockRequestQueue (.table fd)).Waits t → t < txn
  | .unlock txn id => BatchInOrder (s.getLockRequestQueue id) txn
  | _ => True

theorem LockInv.waitDie_iff (h : LockInv s) : WaitDie s ↔ ∀ id, (s.getLockRequestQueue id).WaitersOlder := by
  constructor
  · rintro ⟨hlt, -⟩ id t ⟨m, r, hr, rfl, hng, hm⟩ g hg hgg hne
    obtain ⟨m', hh, hc⟩ := (h.queues id).conflict hr hng hg hgg
    exact hlt r.txnId g.txnId ⟨Ne.symm hne, id, r.lockMode, m', ⟨r, hr, rfl, hng, rfl⟩, hh, hc⟩
  · intro hold
    have hlt : ∀ t u, WaitsFor s t u → t < u := by
      rintro t u ⟨hne, id, m, m', hw, ⟨g, hg, rfl, hgg, -⟩, -⟩
      exact hold id t ⟨m, hw⟩ g hg hgg (Ne.symm hne)
    exact ⟨hlt, Trace.acyclic_of_lt hlt⟩

structure WaitInv (s : LockState) : Prop extends LockInv s where
  ordered : ∀ id, Ordered (s.getLockRequestQueue id)

theorem waitInv_init : WaitInv init := ⟨lockInv_init, fun _ => List.Pairwise.nil⟩

theorem waitDie_lockOnTable (h : WaitInv s) (hold : ∀ id, (s.getLockRequestQueue id).WaitersOlder)
    (hw : s.waiting txn = none) (fd : Int) {mode : LockMode} (hm : mode = .shared ∨ mode = .exlucsive) :
    (∀ id, Ordered ((s.lockOnTable txn fd mode).2.getLockRequestQueue id)) ∧
    ((∀ id, ((s.lockOnTable txn fd mode).2.getLockRequestQueue id).WaitersOlder) ↔
      (.table fd ∉ s.lockSet txn →
        lockCompatible (s.getLockRequestQueue (.table fd)).groupLockMode (getGroupLockMode mode) = true →
        ∀ t, (s.getLockRequestQueue (.table fd)).Waits t → t < txn)) := by
  have hown := h.own txn
  have hq := h.queues (.table fd)
  have hidle : ¬ (s.getLockRequestQueue (.table fd)).Upgrading txn := hown.idle hw
  rw [lockOnTable]
  simp only
  split
  · rename_i hid
    obtain ⟨ho, hwo⟩ := waitDie_upgradeLockOnTable hq (h.ordered _) (hold _) (hown.held _ hid) hidle hm
    refine ⟨(forall_queue_iff h.ordered (conclude_queue _ _)).2 ho, iff_of_true ?_ (fun hc => absurd hid hc)⟩
    exact (forall_queue_iff hold (conclude_queue _ _)).2 hwo
  · rename_i hid
    have habs := hown.absent hw hid
    refine ⟨(forall_queue_iff h.ordered (conclude_queue _ _)).2
      (ordered_checkAndExecuteLock (h.ordered _) habs), ?_⟩
    rw [forall_queue_iff hold (conclude_queue _ _), waitersOlder_checkAndExecuteLock hq (hold _) habs]
    exact ⟨fun hc _ => hc, fun hc => hc hid⟩

theorem waitDie_wakeUp (h : WaitInv s) (hold : ∀ id, (s.getLockRequestQueue id).WaitersOlder)
    {res : LockResult × LockState} (hs : s.wakeUp txn = some res) :
    (∀ id, Ordered (res.2.getLockRequestQueue id)) ∧ ∀ id, (res.2.getLockRequestQueue id).WaitersOlder := by
  rcases wakeUp_cases hs with ⟨id, mode, r, hw, hr, hrt, hg, rfl⟩ | ⟨id, mode, u, hw, hu, hut, hg, rfl⟩
  · exact ⟨h.ordered, hold⟩
  · obtain ⟨ho, hwo⟩ := waitDie_finishUpgrade txn mode (h.ordered id) (hold id)
    have hqueue : ∀ j,
      (s.setQueue id ((s.getLockRequestQueue id).finishUpgrade txn mode)).getLockRequestQueue j =
        if j = id then (s.getLockRequestQueue id).finishUpgrade txn mode else s.getLockRequestQueue j :=
      fun j => getLockRequestQueue_setQueue j
    exact ⟨(forall_queue_iff h.ordered hqueue).2 ho, (forall_queue_iff hold hqueue).2 hwo⟩

/-- Each step decides in the one queue it touches whether the waiters stay older than the
holders. -/
theorem waitDie_step {a : LockAction} (h : WaitInv s) (hold : ∀ id, (s.getLockRequestQueue id).WaitersOlder)
    (ha : a.SharedOrExclusive) (hs : s.next a = some s') :
    (∀ id, Ordered (s'.getLockRequestQueue id)) ∧
      ((∀ id, (s'.getLockRequestQueue id).WaitersOlder) ↔ NoOvertaking s a) := by
  obtain ⟨res, hstep, rfl⟩ := Option.map_eq_some_iff.1 hs
  cases a with
  | lockShared txn fd =>
      obtain ⟨hw, ⟨⟩⟩ := Option.ite_none_right_eq_some.1 hstep
      exact waitDie_lockOnTable h hold hw fd (.inl rfl)
  | lockExclusive txn fd =>
      obtain ⟨hw, ⟨⟩⟩ := Option.ite_none_right_eq_some.1 hstep
      obtain ⟨ho, hiff⟩ := waitDie_lockOnTable h hold hw fd (.inr rfl)
      refine ⟨ho, iff_of_true (hiff.2 ?_) trivial⟩
      -- X is granted at once only in an empty queue
      intro _ hc t hwt
      obtain ⟨r, hr, -⟩ := hwt.present (h.queues _)
      cases (h.queues (.table fd)).phase with
      | free _ hq => rw [hq] at hr; cases hr
      | shared hg => rw [hg] at hc; cases hc
      | exclusive _ hg => rw [hg] at hc; cases hc
  | lockIS | lockIX => exact absurd ha id
  | wake txn =>
      obtain ⟨ho, hwo⟩ := waitDie_wakeUp h hold hstep
      exact ⟨ho, iff_of_true hwo trivial⟩
  | unlock txn id =>
      obtain ⟨hw, ⟨⟩⟩ := Option.ite_none_right_eq_some.1 hstep
      have hidle : ¬ (s.getLockRequestQueue id).Upgrading txn := (h.own txn).idle hw
      refine ⟨(forall_queue_iff h.ordered getLockRequestQueue_unlock).2
        (ordered_unlock (h.queues id) (h.ordered id) hidle), ?_⟩
      rw [forall_queue_iff hold getLockRequestQueue_unlock]
      exact waitersOlder_unlock (h.queues id) (h.ordered id) (hold id) hidle

/-- A run keeps to wait-die in every state exactly when no grant in it overtakes a waiting
transaction: an S lock granted at once is for a transaction younger than all that wait, and
a batch grant passes over no X request. -/
theorem waitDie_iff_noOvertaking (as : List LockAction) (ha : ∀ a ∈ as, a.SharedOrExclusive) (s : LockState)
    (hrun : Trace.run next init as = some s) :
    Trace.Always next WaitDie init as ↔ Trace.Guarded next NoOvertaking init as := by
  have hstart : WaitDie init := by
    refine lockInv_init.waitDie_iff.2 ?_
    rintro id t - r hr
    cases hr
  refine Trace.always_iff_guarded ?_ ?_ waitInv_init hstart (Trace.guarded_of_forall ha) hrun
  · intro s a s' h hwd ha hs
    exact ⟨h.toLockInv.next ha hs, (waitDie_step h (h.waitDie_iff.1 hwd) ha hs).1⟩
  · intro s a s' h hwd ha hs
    rw [(h.toLockInv.next ha hs).waitDie_iff]
    exact (waitDie_step h (h.waitDie_iff.1 hwd) ha hs).2

/-- Two S holders and an older X request that has to wait: nobody is overtaken. -/
theorem waitDie_iff_noOvertaking_in_order :
    Trace.Always next WaitDie init [.lockShared 3 0, .lockShared 2 0, .lockExclusive 1 0] ↔
      Trace.Guarded next NoOvertaking init [.lockShared 3 0, .lockShared 2 0, .lockExclusive 1 0] :=
  waitDie_iff_noOvertaking _ (by simp [LockAction.SharedOrExclusive]) _ rfl

/-- Transaction 5 waits to upgrade, the older transaction 3 is granted S past it and then
asks for X as well: both wait for each other. -/
theorem upgrade_overtaken_deadlocks :
    ∃ s, Trace.run next init
        [.lockShared 7 0, .lockShared 5 0, .lockExclusive 5 0, .lockShared 3 0, .lockExclusive 3 0] = some s ∧
      WaitsFor s 5 3 ∧ WaitsFor s 3 5 ∧ Relation.TransGen (WaitsFor s) 5 5 ∧ ¬ WaitDie s := by
  obtain ⟨s, hrun, hq⟩ : ∃ s, Trace.run next init
      [.lockShared 7 0, .lockShared 5 0, .lockExclusive 5 0, .lockShared 3 0, .lockExclusive 3 0] = some s ∧
      s.getLockRequestQueue (.table 0) = ⟨[⟨7, .shared, true⟩, ⟨5, .shared, true⟩, ⟨3, .shared, true⟩],
        [⟨5, .exlucsive, false⟩, ⟨3, .exlucsive, false⟩], .s⟩ := ⟨_, rfl, by decide⟩
  have h53 : WaitsFor s 5 3 :=
    ⟨by decide, .table 0, .exlucsive, .shared, ⟨⟨5, .exlucsive, false⟩, .inr (by simp [hq]), rfl, rfl, rfl⟩,
      ⟨⟨3, .shared, true⟩, by simp [hq], rfl, rfl, .inl rfl⟩, rfl⟩
  have h35 : WaitsFor s 3 5 :=
    ⟨by decide, .table 0, .exlucsive, .shared, ⟨⟨3, .exlucsive, false⟩, .inr (by simp [hq]), rfl, rfl, rfl⟩,
      ⟨⟨5, .shared, true⟩, by simp [hq], rfl, rfl, .inl rfl⟩, rfl⟩
  have hcycle := (Relation.TransGen.single h53).tail h35
  exact ⟨s, hrun, h53, h35, hcycle, fun h => h.2 5 hcycle⟩

end LockState

end Rmdb

import Rmdb.Transaction.WaitDie

namespace Rmdb

namespace LockRequestQueue

variable {q : LockRequestQueue} {txn : TxnId} {mode : LockMode}

def SoleHolder (q : LockRequestQueue) (txn : TxnId) : Prop :=
  q.HasGranted txn ∧ ∀ r ∈ q.requestQueue, r.granted = true → r.txnId = txn

structure Moving (q : LockRequestQueue) : Prop where
  holder : q.requestQueue ≠ [] → ∃ r ∈ q.requestQueue, r.granted = true
  exclusive : ∀ r ∈ q.requestQueue, r.granted = false → r.lockMode = .exlucsive →
    ∃ g ∈ q.requestQueue, g.granted = true ∧ g.txnId ≠ r.txnId
  shared : ∀ r ∈ q.requestQueue, r.granted = false → r.lockMode = .shared →
    (∃ g ∈ q.requestQueue, g.granted = true ∧ g.lockMode = .exlucsive) ∨
    ∃ u ∈ q.upgradeQueue, u.lockMode = .exlucsive
  upgrade : ∀ u ∈ q.upgradeQueue, q.SoleHolder u.txnId → u.granted = true
  blocked : ∀ t m, q.Wants t m → ∃ u m', u ≠ t ∧ q.Holds u m' ∧
    lockCompatible (getGroupLockMode m') (getGroupLockMode m) = false

def UpgradesServed (q : LockRequestQueue) : Prop :=
  ∀ u ∈ q.upgradeQueue, q.SoleHolder u.txnId → u.granted = true

theorem SXInv.holder (h : SXInv q) (hne : q.requestQueue ≠ []) : ∃ r ∈ q.requestQueue, r.granted = true := by
  cases h.phase with
  | free _ hq => exact absurd hq hne
  | shared _ hg => exact hg
  | exclusive g _ hmem hgr => exact ⟨g, hmem, hgr⟩

theorem SXInv.other_holder (h : SXInv q) {r : LockRequest} (hr : r ∈ q.requestQueue)
    (hng : r.granted = false) :
    ∃ g ∈ q.requestQueue, g.granted = true ∧ g.txnId ≠ r.txnId := by
  obtain ⟨g, hg, hgr⟩ := h.holder (List.ne_nil_of_mem hr)
  refine ⟨g, hg, hgr, fun hc => ?_⟩
  rw [eq_of_txnId h.nodup hg hr hc, hng] at hgr
  cases hgr

theorem UpgradesServed.other_holder (hs : UpgradesServed q) (h : SXInv q) {u : LockRequest}
    (hu : u ∈ q.upgradeQueue) (hng : u.granted = false) :
    ∃ g ∈ q.requestQueue, g.granted = true ∧ g.txnId ≠ u.txnId := by
  obtain ⟨-, r, hr, hrt, hgr, -⟩ := h.up u hu
  by_contra hc
  have hsole : q.SoleHolder u.txnId := by
    refine ⟨⟨r, hr, hrt, hgr⟩, fun g hg hgg => ?_⟩
    by_contra hne
    exact hc ⟨g, hg, hgg, hne⟩
  rw [hs u hu hsole] at hng
  cases hng

theorem SXInv.moving_iff (h : SXInv q) : Moving q ↔ UpgradesServed q := by
  refine ⟨Moving.upgrade, fun hs => ⟨h.holder, fun r hr hng _ => h.other_holder hr hng, ?_, hs, ?_⟩⟩
  · intro r hr hng hm
    cases h.phase with
    | free _ hq => rw [hq] at hr; cases hr
    | shared _ _ hiff =>
        rw [(hiff r hr).2 hm] at hng
        cases hng
    | exclusive g _ hmem hgr _ hx =>
        rcases hx with hx | ⟨u, hu, -, -⟩
        · exact .inl ⟨g, hmem, hgr, hx⟩
        · exact .inr ⟨u, hu, (h.up u hu).1⟩
  · rintro t m ⟨r, hr, rfl, hng, rfl⟩
    obtain ⟨g, hg, hgg, hne⟩ : ∃ g ∈ q.requestQueue, g.granted = true ∧ g.txnId ≠ r.txnId := by
      rcases hr with hr | hr
      · exact h.other_holder hr hng
      · exact hs.other_holder h hr hng
    obtain ⟨m', hm', hc⟩ := h.conflict hr hng hg hgg
    exact ⟨g.txnId, m', hne, hm', hc⟩

theorem served_checkAndExecuteLock (h : SXInv q) (hs : UpgradesServed q) (ht : ¬ q.HasRequest txn) :
    UpgradesServed (q.checkAndExecuteLock txn mode).2 := by
  rw [checkAndExecuteLock]
  split
  · intro u hu hsole
    -- the newcomer holds the lock besides the transaction that upgrades
    obtain ⟨-, r, hr, hrt, -⟩ := h.up u hu
    have hnew := hsole.2 ⟨txn, mode, true⟩ (List.mem_append_right _ (List.mem_singleton_self _)) rfl
    exact absurd ⟨r, hr, hrt.trans hnew.symm⟩ ht
  · split
    · exact hs
    · intro u hu hsole
      refine hs u hu ⟨?_, fun r hr hgr => hsole.2 r (List.mem_append_left _ hr) hgr⟩
      obtain ⟨-, r, hr, hrt, hgr, -⟩ := h.up u hu
      exact ⟨r, hr, hrt, hgr⟩

/-- The transaction holds S alone and need not die, but others wait behind it. -/
def Stalls (q : LockRequestQueue) (txn : TxnId) : Prop :=
  q.SoleHolder txn ∧ (∀ r ∈ q.requestQueue, r.txnId = txn → r.lockMode = .shared) ∧
    q.checkWaitDie txn = false ∧
    1 < q.requestQueue.length

theorem served_upgradeLockOnTable (h : SXInv q) (hs : UpgradesServed q) (ht : q.HasGranted txn)
    (hu : ¬ q.Upgrading txn) :
    UpgradesServed (q.upgradeLockOnTable txn .exlucsive).2 ↔ ¬ q.Stalls txn := by
  obtain ⟨r, hr, rfl, hgr⟩ := ht
  rcases h.modes r hr with hm | hm
  · rw [upgradeLockOnTable_shared h hr hm]
    have hown : ∀ a ∈ q.requestQueue, a.txnId = r.txnId → a.lockMode = .shared := by
      intro a ha hat
      rw [eq_of_txnId h.nodup ha hr hat, hm]
    split
    · rename_i hdie
      refine iff_of_true hs fun hc => ?_
      rw [hc.2.2.1] at hdie
      cases hdie
    · rename_i hdie
      split
      · rename_i hlen
        refine iff_of_true (fun u hum _ => ?_) (fun hc => absurd hlen (Nat.ne_of_gt hc.2.2.2))
        -- the only request is that of the caller, which is running
        obtain ⟨-, a, ha, hat, -⟩ := h.up u hum
        obtain ⟨b, hb⟩ := List.length_eq_one_iff.1 hlen
        rw [hb, List.mem_singleton] at ha hr
        exact absurd ⟨u, hum, by rw [← hat, ha, ← hr]⟩ hu
      · rename_i hlen
        constructor
        · intro hserved hc
          have hgranted :=
            hserved ⟨r.txnId, .exlucsive, false⟩
              (List.mem_append_right _ (List.mem_singleton_self _)) hc.1
          cases hgranted
        · intro hnot u hum hsole
          rcases List.mem_append.1 hum with hum | hum
          · exact hs u hum hsole
          · rw [List.mem_singleton.1 hum] at hsole
            have hpos := List.length_pos_of_mem hr
            refine absurd ⟨hsole, hown, ?_, ?_⟩ hnot
            · simpa using hdie
            · exact Nat.lt_of_le_of_ne hpos (Ne.symm hlen)
  · rw [upgradeLockOnTable_held h hr (by rw [hm])]
    refine iff_of_true hs fun hc => ?_
    have hshared := hc.2.1 r hr rfl
    rw [hm] at hshared
    cases hshared

/-- The other waiting upgrades hold the lock as well. -/
theorem SXInv.sole_upgrade (h : SXInv q) {u : LockRequest} (hu : u ∈ q.upgradeQueue) {l : List LockRequest}
    (hl : ∀ v ∈ q.upgradeQueue, ∃ r ∈ l, r.txnId = v.txnId ∧ r.granted = true)
    (hsole : ∀ r ∈ l, r.granted = true → r.txnId = u.txnId) : q.upgradeQueue = [u] := by
  have hall : ∀ v ∈ q.upgradeQueue, v = u := by
    intro v hv
    obtain ⟨r, hr, hrt, hgr⟩ := hl v hv
    exact eq_of_txnId h.upNodup hv hu (hrt.symm.trans (hsole r hr hgr))
  exact List.eq_replicate_of_mem hall |>.trans (by
    have hnd := List.Nodup.of_map _ h.upNodup
    rw [List.eq_replicate_of_mem hall, List.nodup_replicate] at hnd
    have hpos := List.length_pos_of_mem hu
    rw [show q.upgradeQueue.length = 1 by omega]
    rfl)

theorem served_unlock (h : SXInv q) (hu : ¬ q.Upgrading txn) : UpgradesServed (q.unlock txn) := by
  have hup : ∀ v ∈ q.upgradeQueue, ∃ r ∈ q.remaining txn, r.txnId = v.txnId ∧ r.granted = true := by
    intro v hv
    obtain ⟨-, r, hr, hrt, hgr, -⟩ := h.up v hv
    exact ⟨r, h.mem_remaining.2 ⟨hr, fun hc => hu ⟨v, hv, hrt ▸ hc⟩⟩, hrt, hgr⟩
  generalize hres : q.unlock txn = res
  intro u hum hsole
  cases hres ▸ h.unlock_cases hu with
  | emptied | grantFront | grantShared => cases hum
  | handedOver first up ups hf hg huniq hq ht =>
      rcases List.mem_cons.1 hum with rfl | hum
      · rfl
      · have huq : u ∈ q.upgradeQueue := by rw [hq]; exact List.mem_cons_of_mem _ hum
        obtain ⟨r, hr, hrt, hgr⟩ := hup u huq
        rw [huniq r hr hgr, ht] at hrt
        have hnd := h.upNodup
        rw [hq, List.map_cons, List.nodup_cons, hrt] at hnd
        exact absurd (List.mem_map_of_mem hum) hnd.1
  | kept first hf hg =>
      -- nobody else holds the lock, so that the upgrade is handed over after all
      have hone := h.sole_upgrade hum hup hsole.2
      cases hd : (q.remaining txn).dropWhile (fun r => !r.granted) with
      | nil => rw [dropWhile_none hd first hf] at hg; cases hg
      | cons first' others =>
          obtain ⟨before, hsplit, hg', -⟩ := dropWhile_granted hd
          have hfirst : first'.txnId = u.txnId := hsole.2 first' (by rw [hsplit]; simp) hg'
          have hothers : others.all (fun r => !r.granted) = true := by
            rw [List.all_eq_true]
            intro r hr
            by_contra hc
            have hgr : r.granted = true := by simpa using hc
            have hmem : r ∈ q.remaining txn := by rw [hsplit]; simp [hr]
            have hnd : ((q.remaining txn).map LockRequest.txnId).Nodup :=
              h.nodup.sublist (remaining_sublist.map _)
            rw [hsplit, List.map_append, List.map_cons, List.nodup_append, List.nodup_cons] at hnd
            refine hnd.2.1.1 (List.mem_map.2 ⟨r, hr, ?_⟩)
            rw [hsole.2 r hmem hgr, hfirst]
          rw [unlock_of_granted hd, handOver, hone] at hres
          simp only [hfirst, hothers, and_self, if_true] at hres
          have hqueue := congrArg LockRequestQueue.upgradeQueue hres
          simp only [List.cons.injEq, and_true] at hqueue
          rw [← hqueue]

theorem served_finishUpgrade (h : SXInv q) {u : LockRequest} (hum : u ∈ q.upgradeQueue)
    (hgu : u.granted = true) :
    UpgradesServed (q.finishUpgrade u.txnId .exlucsive) := by
  obtain ⟨-, -, -, -, -, -, hone⟩ := h.upgraded hum hgu
  intro v hv
  rw [finishUpgrade, hone, List.eraseP_cons_of_pos (by simp)] at hv
  cases hv

end LockRequestQueue

namespace LockState

open LockRequestQueue

variable {s s' : LockState} {txn : TxnId} {id : LockDataId}

def NoStuckQueue (s : LockState) : Prop := ∀ id, (s.getLockRequestQueue id).Moving

/-- Nobody asks for X while it is the only holder of S and others wait in the queue. -/
def NoStalledUpgrade (s : LockState) : LockAction → Prop
  | .lockExclusive txn fd => .table fd ∈ s.lockSet txn → ¬ (s.getLockRequestQueue (.table fd)).Stalls txn
  | _ => True

theorem LockInv.noStuckQueue_iff (h : LockInv s) :
    NoStuckQueue s ↔ ∀ id, (s.getLockRequestQueue id).UpgradesServed :=
  forall_congr' fun id => (h.queues id).moving_iff

theorem served_lockExclusive (h : LockInv s) (hs : ∀ id, (s.getLockRequestQueue id).UpgradesServed)
    (hw : s.waiting txn = none) (fd : Int) :
    (∀ id, ((s.lockExclusiveOnTable txn fd).2.getLockRequestQueue id).UpgradesServed) ↔
      NoStalledUpgrade s (.lockExclusive txn fd) := by
  have hown := h.own txn
  rw [lockExclusiveOnTable, lockOnTable, NoStalledUpgrade]
  simp only
  split
  · rename_i hid
    rw [forall_queue_iff hs (conclude_queue _ _),
      served_upgradeLockOnTable (h.queues _) (hs _) (hown.held _ hid) (hown.idle hw)]
    exact ⟨fun hc _ => hc, fun hc => hc hid⟩
  · rename_i hid
    rw [forall_queue_iff hs (conclude_queue _ _)]
    exact iff_of_true (served_checkAndExecuteLock (h.queues _) (hs _) (hown.absent hw hid)) fun hc =>
      absurd hc hid

theorem served_lockShared (h : LockInv s) (hs : ∀ id, (s.getLockRequestQueue id).UpgradesServed)
    (hw : s.waiting txn = none) (fd : Int) :
    ∀ id, ((s.lockSharedOnTable txn fd).2.getLockRequestQueue id).UpgradesServed := by
  have hown := h.own txn
  have hq := h.queues (.table fd)
  rw [lockSharedOnTable, lockOnTable]
  simp only
  split
  · rename_i hid
    -- a holder has S at least
    obtain ⟨r, hr, rfl, -⟩ := hown.held _ hid
    have hm : (getGroupLockMode .shared).ord ≤ (getGroupLockMode r.lockMode).ord := by
      rcases hq.modes r hr with hm | hm
      · rw [hm]
      · rw [hm]
        decide
    rw [forall_queue_iff hs (conclude_queue _ _), upgradeLockOnTable_held hq hr hm]
    exact hs _
  · rename_i hid
    rw [forall_queue_iff hs (conclude_queue _ _)]
    exact served_checkAndExecuteLock hq (hs _) (hown.absent hw hid)

theorem served_step {a : LockAction} (h : LockInv s) (hs : ∀ id, (s.getLockRequestQueue id).UpgradesServed)
    (ha : a.SharedOrExclusive) (hnext : s.next a = some s') :
    (∀ id, (s'.getLockRequestQueue id).UpgradesServed) ↔ NoStalledUpgrade s a := by
  obtain ⟨res, hstep, rfl⟩ := Option.map_eq_some_iff.1 hnext
  cases a with
  | lockShared txn fd =>
      obtain ⟨hw, ⟨⟩⟩ := Option.ite_none_right_eq_some.1 hstep
      exact iff_of_true (served_lockShared h hs hw fd) trivial
  | lockExclusive txn fd =>
      obtain ⟨hw, ⟨⟩⟩ := Option.ite_none_right_eq_some.1 hstep
      exact served_lockExclusive h hs hw fd
  | lockIS | lockIX => exact absurd ha id
  | wake txn =>
      refine iff_of_true ?_ trivial
      rcases wakeUp_cases hstep with ⟨id, mode, r, hw, hr, hrt, hg, rfl⟩ | ⟨id, mode, u, hw, hu, hut, hg, rfl⟩
      · exact hs
      · obtain rfl : mode = .exlucsive := by
          have hup := (h.own txn).upgrade id ⟨u, hu, hut⟩
          rw [hw] at hup
          cases hup
          rfl
        have hserved := served_finishUpgrade (h.queues id) hu hg
        rw [hut] at hserved
        exact (forall_queue_iff hs fun j => getLockRequestQueue_setQueue j).2 hserved
  | unlock txn id =>
      obtain ⟨hw, ⟨⟩⟩ := Option.ite_none_right_eq_some.1 hstep
      rw [forall_queue_iff hs getLockRequestQueue_unlock]
      exact iff_of_true (served_unlock (h.queues id) ((h.own txn).idle hw)) trivial

/-- In every state of a run whoever waits waits for somebody, exactly when no upgrade is asked for
by an only holder that others wait behind. -/
theorem noStuckQueue_iff_noStalledUpgrade (as : List LockAction)
    (ha : ∀ a ∈ as, a.SharedOrExclusive) (s : LockState) (hrun : Trace.run next init as = some s) :
    Trace.Always next NoStuckQueue init as ↔ Trace.Guarded next NoStalledUpgrade init as := by
  have hstart : NoStuckQueue init := by
    refine lockInv_init.noStuckQueue_iff.2 ?_
    intro id u hu
    cases hu
  refine Trace.always_iff_guarded ?_ ?_ lockInv_init hstart (Trace.guarded_of_forall ha) hrun
  · intro s a s' h _ ha hs
    exact h.next ha hs
  · intro s a s' h hmoving ha hs
    rw [(h.next ha hs).noStuckQueue_iff]
    exact served_step h (h.noStuckQueue_iff.1 hmoving) ha hs

/-- Two holders of S, of which the older one upgrades and is handed the lock. -/
theorem noStuckQueue_iff_noStalledUpgrade_handover :
    Trace.Always next NoStuckQueue init [.lockShared 2 0, .lockShared 1 0, .lockExclusive 1 0,
      .unlock 2 (.table 0)] ↔
      Trace.Guarded next NoStalledUpgrade init [.lockShared 2 0, .lockShared 1 0, .lockExclusive 1 0,
        .unlock 2 (.table 0)] :=
  noStuckQueue_iff_noStalledUpgrade _ (by simp [LockAction.SharedOrExclusive]) _ rfl

/-- Transaction 2 waits for X behind 3, transaction 1 is granted S past it, and 3 leaves: 1 is the only
holder, but its upgrade counts the request of 2 and waits. Nobody is left to wake it. -/
theorem only_holder_waits :
    ∃ s, Trace.run next init
        [.lockShared 3 0, .lockExclusive 2 0, .lockShared 1 0, .unlock 3 (.table 0),
          .lockExclusive 1 0] = some s ∧
      s.getLockRequestQueue (.table 0) = ⟨[⟨2, .exlucsive, false⟩, ⟨1, .shared, true⟩],
        [⟨1, .exlucsive, false⟩], .s⟩ ∧
      ¬ NoStuckQueue s := by
  obtain ⟨s, hrun, hq⟩ : ∃ s, Trace.run next init
      [.lockShared 3 0, .lockExclusive 2 0, .lockShared 1 0, .unlock 3 (.table 0),
        .lockExclusive 1 0] = some s ∧
      s.getLockRequestQueue (.table 0) = ⟨[⟨2, .exlucsive, false⟩, ⟨1, .shared, true⟩],
        [⟨1, .exlucsive, false⟩], .s⟩ :=
    ⟨_, rfl, by decide⟩
  refine ⟨s, hrun, hq, fun h => ?_⟩
  have hgranted :=
    (h (.table 0)).upgrade ⟨1, .exlucsive, false⟩ (by simp [hq]) (by simp [SoleHolder, HasGranted, hq])
  cases hgranted

end LockState

end Rmdb

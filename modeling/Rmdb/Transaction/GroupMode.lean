import Mathlib.Data.Fintype.Basic
import Rmdb.Transaction.LockManager

namespace Rmdb

instance : Fintype LockMode :=
  ⟨{.shared, .exlucsive, .intentionShared, .intentionExclusive, .sIx}, fun m => by cases m <;> decide⟩

instance : Fintype GroupLockMode := ⟨{.nonLock, .is, .ix, .s, .x, .six}, fun m => by cases m <;> decide⟩

/-- `a` blocks whatever `b` blocks. -/
def GroupLockMode.Covers (a b : GroupLockMode) : Prop :=
  ∀ m, lockCompatible a m = true → lockCompatible b m = true

instance (a b : GroupLockMode) : Decidable (a.Covers b) := inferInstanceAs (Decidable (∀ _, _ → _))

namespace LockRequestQueue

open GroupLockMode

variable {q : LockRequestQueue} {txn : TxnId} {mode : LockMode} {g : GroupLockMode} {l : List LockRequest}

def upgradeLockOnRecord (q : LockRequestQueue) (txn : TxnId) : LockResult × LockRequestQueue :=
  match q.requestQueue.find? (fun r => r.txnId = txn) with
  | none => (.nullRequest, q)
  | some r =>
      if r.lockMode = .exlucsive then (.returned, q)
      else if q.checkWaitDie txn then (.dies, q)
      else if q.requestQueue.length = 1 then
        (.returned, { q with requestQueue := q.setMode txn .exlucsive true, groupLockMode := .x })
      else (.waits, { q with upgradeQueue := q.upgradeQueue ++ [⟨txn, .exlucsive, false⟩] })

def Granted (q : LockRequestQueue) (r : LockRequest) : Prop :=
  (r ∈ q.requestQueue ∨ r ∈ q.upgradeQueue) ∧ r.granted = true

/-- The group mode blocks whatever a granted request blocks. -/
def Summary (q : LockRequestQueue) : Prop :=
  ∀ r, q.Granted r → q.groupLockMode.Covers (getGroupLockMode r.lockMode)

structure ModeInv (q : LockRequestQueue) : Prop where
  nodup : (q.requestQueue.map LockRequest.txnId).Nodup
  upNodup : (q.upgradeQueue.map LockRequest.txnId).Nodup
  modes : ∀ r, r ∈ q.requestQueue ∨ r ∈ q.upgradeQueue → r.lockMode ≠ .sIx
  group : q.groupLockMode ≠ .six
  up : ∀ u ∈ q.upgradeQueue, ∃ r ∈ q.requestQueue, r.txnId = u.txnId ∧ r.granted = true ∧
    (getGroupLockMode r.lockMode).ord < (getGroupLockMode u.lockMode).ord

theorem modeInv_empty : ModeInv {} := ⟨List.nodup_nil, List.nodup_nil, by simp, by simp, by simp⟩

theorem ModeInv.mem_remaining (h : ModeInv q) {r : LockRequest} :
    r ∈ q.remaining txn ↔ r ∈ q.requestQueue ∧ r.txnId ≠ txn := mem_eraseP_txn h.nodup

theorem getGroupLockMode_ne_six (hm : mode ≠ .sIx) : getGroupLockMode mode ≠ .six := by
  cases mode <;> simp_all [getGroupLockMode]

section Grant

/-- IS is asked for at once only beside other holders of IS. -/
def SafeGrant (q : LockRequestQueue) : Prop :=
  lockCompatible q.groupLockMode .is = true → ∀ r, q.Granted r → r.lockMode = .intentionShared

theorem covers_newcomer : ∀ new old : LockMode, old ≠ .sIx → new ≠ .sIx →
    lockCompatible (getGroupLockMode old) (getGroupLockMode new) = true →
    ((getGroupLockMode new).Covers (getGroupLockMode old) ↔
      (new = .intentionShared → old = .intentionShared)) := by
  decide

theorem ModeInv.append (h : ModeInv q) (ht : ¬ q.HasRequest txn) (hm : mode ≠ .sIx)
    (b : Bool) (hg : g ≠ .six) :
    ModeInv { q with requestQueue := q.requestQueue ++ [⟨txn, mode, b⟩], groupLockMode := g } where
  nodup := by
    rw [List.map_append, List.nodup_append]
    refine ⟨h.nodup, List.nodup_singleton _, fun x hx y hy hxy => ht ?_⟩
    obtain ⟨r, hr, rfl⟩ := List.mem_map.1 hx
    exact ⟨r, hr, hxy.trans (List.mem_singleton.1 hy)⟩
  upNodup := h.upNodup
  modes := by
    rintro r (hr | hr)
    · rcases List.mem_append.1 hr with hr | hr
      · exact h.modes r (.inl hr)
      · rw [List.mem_singleton.1 hr]
        exact hm
    · exact h.modes r (.inr hr)
  group := hg
  up := by
    intro u hu
    obtain ⟨r, hr, hrest⟩ := h.up u hu
    exact ⟨r, List.mem_append_left _ hr, hrest⟩

theorem ModeInv.checkAndExecuteLock (h : ModeInv q) (ht : ¬ q.HasRequest txn) (hm : mode ≠ .sIx) :
    ModeInv (q.checkAndExecuteLock txn mode).2 := by
  rw [LockRequestQueue.checkAndExecuteLock]
  split
  · exact h.append ht hm true (getGroupLockMode_ne_six hm)
  · split
    · exact h
    · exact h.append ht hm false h.group

theorem summary_checkAndExecuteLock (h : ModeInv q) (hs : Summary q) (hm : mode ≠ .sIx) :
    Summary (q.checkAndExecuteLock txn mode).2 ↔ (mode = .intentionShared → SafeGrant q) := by
  rw [checkAndExecuteLock]
  split
  · rename_i hc
    have hold : ∀ r, q.Granted r → ((getGroupLockMode mode).Covers (getGroupLockMode r.lockMode) ↔
        (mode = .intentionShared → r.lockMode = .intentionShared)) :=
      fun r hr => covers_newcomer mode r.lockMode (h.modes r hr.1) hm (hs r hr _ hc)
    constructor
    · rintro hnew rfl - r hr
      refine (hold r hr).1 (hnew r ⟨?_, hr.2⟩) rfl
      exact hr.1.imp_left fun hmem => List.mem_append_left _ hmem
    · rintro hsafe r ⟨hr, hgr⟩
      by_cases hrold : r ∈ q.requestQueue ∨ r ∈ q.upgradeQueue
      · exact (hold r ⟨hrold, hgr⟩).2 fun hIS => hsafe hIS (by rw [hIS] at hc; exact hc) r ⟨hrold, hgr⟩
      · rcases hr with hr | hr
        · rcases List.mem_append.1 hr with hr | hr
          · exact absurd (.inl hr) hrold
          · rw [List.mem_singleton.1 hr]
            exact fun _ hk => hk
        · exact absurd (.inr hr) hrold
  · rename_i hc
    have hvac : mode = .intentionShared → SafeGrant q := by
      rintro rfl hc'
      exact absurd hc' hc
    split
    · exact iff_of_true hs hvac
    · refine iff_of_true ?_ hvac
      rintro r ⟨hr, hgr⟩
      refine hs r ⟨?_, hgr⟩
      rcases hr with hr | hr
      · rcases List.mem_append.1 hr with hr | hr
        · exact .inl hr
        · rw [List.mem_singleton.1 hr] at hgr
          cases hgr
      · exact .inr hr

end Grant

section Upgrade

theorem covers_upgrade : ∀ (g : GroupLockMode)
    (mode other : LockMode), g ≠ .six → other ≠ .sIx → g.Covers (getGroupLockMode other) →
    lockCompatible g (getGroupLockMode mode) = true →
    (g.max (getGroupLockMode mode)).Covers (getGroupLockMode other) := by
  decide

/-- Only the enumeration order of S and IX betrays their strength. -/
theorem covers_max_self : ∀ (g : GroupLockMode) (mode : LockMode), g ≠ .six → mode ≠ .sIx →
    ((g.max (getGroupLockMode mode)).Covers (getGroupLockMode mode) ↔
      ¬ (g = .s ∧ mode = .intentionExclusive)) := by
  decide

theorem max_ne_six : ∀ (g : GroupLockMode)
    (mode : LockMode), g ≠ .six → mode ≠ .sIx → g.max (getGroupLockMode mode) ≠ .six := by
  decide

theorem mem_setMode {b : Bool} {r' : LockRequest} (hr' : r' ∈ q.setMode txn mode b) :
    (r' ∈ q.requestQueue ∧ r'.txnId ≠ txn) ∨ ∃ r ∈ q.requestQueue, r.txnId = txn ∧
      r' = ⟨txn, mode, b || r.granted⟩ := by
  obtain ⟨r, hr, rfl⟩ := List.mem_map.1 hr'
  by_cases h : r.txnId = txn
  · exact .inr ⟨r, hr, h, if_pos h⟩
  · rw [if_neg h]
    exact .inl ⟨hr, h⟩

theorem ModeInv.setMode (h : ModeInv q) (hm : mode ≠ .sIx) (b : Bool) (hg : g ≠ .six)
    (hl : l.Sublist q.upgradeQueue) (hlt : ∀ u ∈ l, u.txnId ≠ txn) :
    ModeInv ⟨q.setMode txn mode b, l, g⟩ where
  nodup := by
    rw [setMode_txnId]
    exact h.nodup
  upNodup := h.upNodup.sublist (hl.map _)
  modes := by
    rintro r (hr | hr)
    · rcases mem_setMode hr with ⟨hr, -⟩ | ⟨a, -, -, rfl⟩
      · exact h.modes r (.inl hr)
      · exact hm
    · exact h.modes r (.inr (hl.subset hr))
  group := hg
  up := by
    intro u hu
    obtain ⟨r, hr, hrt, hrest⟩ := h.up u (hl.subset hu)
    refine ⟨r, List.mem_map.2 ⟨r, hr, if_neg ?_⟩, hrt, hrest⟩
    rw [hrt]
    exact hlt u hu

theorem ModeInv.enqueue (h : ModeInv q) (hu : ¬ q.Upgrading txn) (hm : mode ≠ .sIx) {r : LockRequest}
    (hr : r ∈ q.requestQueue) (hrt : r.txnId = txn) (hgr : r.granted = true)
    (hlt : (getGroupLockMode r.lockMode).ord < (getGroupLockMode mode).ord) :
    ModeInv { q with upgradeQueue := q.upgradeQueue ++ [⟨txn, mode, false⟩] } where
  nodup := h.nodup
  upNodup := by
    rw [List.map_append, List.nodup_append]
    refine ⟨h.upNodup, List.nodup_singleton _, fun x hx y hy hxy => hu ?_⟩
    obtain ⟨u, hum, rfl⟩ := List.mem_map.1 hx
    exact ⟨u, hum, hxy.trans (List.mem_singleton.1 hy)⟩
  modes := by
    rintro a (ha | ha)
    · exact h.modes a (.inl ha)
    · rcases List.mem_append.1 ha with ha | ha
      · exact h.modes a (.inr ha)
      · rw [List.mem_singleton.1 ha]
        exact hm
  group := h.group
  up := by
    intro u hum
    rcases List.mem_append.1 hum with hum | hum
    · exact h.up u hum
    · rw [List.mem_singleton.1 hum]
      exact ⟨r, hr, hrt, hgr, hlt⟩

theorem Summary.enqueue (hs : Summary q) :
    Summary { q with upgradeQueue := q.upgradeQueue ++ [⟨txn, mode, false⟩] } := by
  rintro r ⟨hr, hgr⟩
  refine hs r ⟨hr.imp_right fun hr => ?_, hgr⟩
  rcases List.mem_append.1 hr with hr | hr
  · exact hr
  · rw [List.mem_singleton.1 hr] at hgr
    cases hgr

theorem ModeInv.alone (h : ModeInv q) (hu : ¬ q.Upgrading txn) {r a : LockRequest}
    (hr : q.requestQueue = [r]) (hrt : r.txnId = txn)
    (ha : a ∈ q.requestQueue ∨ a ∈ q.upgradeQueue) : a = r := by
  rcases ha with ha | ha
  · rw [hr] at ha
    exact List.mem_singleton.1 ha
  · obtain ⟨b, hb, hbt, -⟩ := h.up a ha
    rw [hr, List.mem_singleton] at hb
    exact absurd ⟨a, ha, by rw [← hbt, hb, hrt]⟩ hu

/-- IX is not taken by an only holder of IS while the group mode is still S. -/
def SafeUpgrade (q : LockRequestQueue) : Prop :=
  q.groupLockMode = .s → ∀ r, q.requestQueue = [r] → r.lockMode ≠ .intentionShared

theorem summary_upgradeLockOnTable (h : ModeInv q) (hs : Summary q) (ht : q.HasGranted txn)
    (hu : ¬ q.Upgrading txn) (hm : mode ≠ .sIx) : ModeInv (q.upgradeLockOnTable txn mode).2 ∧
      (Summary (q.upgradeLockOnTable txn mode).2 ↔ (mode = .intentionExclusive → SafeUpgrade q)) := by
  obtain ⟨r, hr, rfl, hgr⟩ := ht
  rw [upgradeLockOnTable, find_txn h.nodup hr]
  simp only
  have hstrong : ¬ (getGroupLockMode mode).ord ≤ (getGroupLockMode r.lockMode).ord ∨
      (mode = .intentionExclusive → SafeUpgrade q) := by
    by_cases hle : (getGroupLockMode mode).ord ≤ (getGroupLockMode r.lockMode).ord
    · refine .inr ?_
      rintro rfl - a ha hIS
      rw [ha, List.mem_singleton] at hr
      rw [hr, hIS] at hle
      exact absurd hle (by decide)
    · exact .inl hle
  split
  · rename_i hle
    exact ⟨h, iff_of_true hs (hstrong.resolve_left (not_not.2 hle))⟩
  · rename_i hle
    have hdie : q.checkWaitDie r.txnId = true → ∀ a, q.requestQueue ≠ [a] := by
      intro hdie a ha
      rw [ha, List.mem_singleton] at hr
      rw [checkWaitDie, ha, hr] at hdie
      simp at hdie
    split
    · rename_i hd
      exact ⟨h, iff_of_true hs fun _ _ a ha => absurd ha (hdie hd a)⟩
    · split
      · rename_i hnow
        refine ⟨h.setMode hm true (max_ne_six _ _ h.group hm) (List.Sublist.refl _) fun u hum hut =>
          hu ⟨u, hum, hut⟩, ?_⟩
        have hself := covers_max_self q.groupLockMode mode h.group hm
        constructor
        · rintro hnew rfl hS a ha hIS
          refine hself.1 (hnew ⟨r.txnId, .intentionExclusive, true⟩ ⟨.inl ?_, rfl⟩) ⟨hS, rfl⟩
          exact List.mem_map.2 ⟨r, hr, by simp⟩
        · rintro hsafe b ⟨hb, hgb⟩
          have hown : (q.groupLockMode.max (getGroupLockMode mode)).Covers (getGroupLockMode mode) := by
            refine hself.2 ?_
            rintro ⟨hS, rfl⟩
            rcases hnow with hlen | hc
            · obtain ⟨a, ha⟩ := List.length_eq_one_iff.1 hlen
              have hra : r = a := by rwa [ha, List.mem_singleton] at hr
              have hIS := hsafe rfl hS a ha
              rw [hra] at hle
              have hmode := h.modes a (.inl (by rw [ha]; exact List.mem_singleton_self a))
              cases hma : a.lockMode <;> simp_all [getGroupLockMode, ord]
            · rw [hS] at hc
              cases hc
          have hother : (b ∈ q.requestQueue ∧ b.txnId ≠ r.txnId) ∨ b ∈ q.upgradeQueue →
              (q.groupLockMode.max (getGroupLockMode mode)).Covers (getGroupLockMode b.lockMode) := by
            intro hb
            have hmem : b ∈ q.requestQueue ∨ b ∈ q.upgradeQueue := hb.imp_left And.left
            rcases hnow with hlen | hc
            · obtain ⟨a, ha⟩ := List.length_eq_one_iff.1 hlen
              have hra : r = a := by rwa [ha, List.mem_singleton] at hr
              have hba := h.alone hu ha (congrArg LockRequest.txnId hra.symm) hmem
              rcases hb with hb | hb
              · exact absurd (by rw [hba, hra]) hb.2
              · exact absurd ⟨b, hb, by rw [hba, hra]⟩ hu
            · exact covers_upgrade _ _ _ h.group (h.modes b hmem) (hs b ⟨hmem, hgb⟩) hc
          rcases hb with hb | hb
          · rcases mem_setMode hb with hb | ⟨a, -, -, rfl⟩
            · exact hother (.inl hb)
            · exact hown
          · exact hother (.inr hb)
      · rename_i hnow
        refine ⟨h.enqueue hu hm hr rfl hgr (Nat.lt_of_not_le hle), iff_of_true hs.enqueue ?_⟩
        rintro - - a ha -
        exact absurd (.inl (by rw [ha]; rfl)) hnow

theorem covers_x : ∀ mode : LockMode, GroupLockMode.x.Covers (getGroupLockMode mode) := by
  decide

theorem summary_upgradeLockOnRecord (h : ModeInv q) (hs : Summary q) (ht : q.HasGranted txn)
    (hu : ¬ q.Upgrading txn) :
    ModeInv (q.upgradeLockOnRecord txn).2 ∧ Summary (q.upgradeLockOnRecord txn).2 := by
  obtain ⟨r, hr, rfl, hgr⟩ := ht
  rw [upgradeLockOnRecord, find_txn h.nodup hr]
  simp only
  split
  · exact ⟨h, hs⟩
  · rename_i hx
    split
    · exact ⟨h, hs⟩
    · split
      · refine ⟨h.setMode (by decide) true (by decide) (List.Sublist.refl _) fun u hum hut =>
          hu ⟨u, hum, hut⟩, ?_⟩
        rintro b ⟨-, -⟩
        exact covers_x b.lockMode
      · have hlt : (getGroupLockMode r.lockMode).ord < (getGroupLockMode .exlucsive).ord := by
          have hmode := h.modes r (.inl hr)
          cases hma : r.lockMode <;> simp_all [getGroupLockMode, ord]
        exact ⟨h.enqueue hu (by decide) hr rfl hgr hlt, hs.enqueue⟩

theorem summary_finishUpgrade (h : ModeInv q) (hs : Summary q) {u : LockRequest} (hu : u ∈ q.upgradeQueue)
    (hgu : u.granted = true) :
    ModeInv (q.finishUpgrade u.txnId u.lockMode) ∧ Summary (q.finishUpgrade u.txnId u.lockMode) := by
  refine ⟨h.setMode (h.modes u (.inr hu)) false h.group List.eraseP_sublist fun v hv =>
    ((mem_eraseP_txn h.upNodup).1 hv).2, ?_⟩
  rintro r ⟨hr, hgr⟩
  rcases hr with hr | hr
  · rcases mem_setMode hr with ⟨hr, -⟩ | ⟨a, -, -, rfl⟩
    · exact hs r ⟨.inl hr, hgr⟩
    · exact hs u ⟨.inr hu, hgu⟩
  · exact hs r ⟨.inr (List.mem_of_mem_eraseP hr), hgr⟩

end Upgrade

section Unlock

def Regrant (r r' : LockRequest) : Prop :=
  r'.txnId = r.txnId ∧ r'.lockMode = r.lockMode ∧ (r.granted = true → r'.granted = true)

theorem regrant_refl (l : List LockRequest) : List.Forall₂ Regrant l l :=
  List.forall₂_same.2 fun _ _ => ⟨rfl, rfl, fun h => h⟩

theorem regrant_grantCompatible : List.Forall₂ Regrant l (grantCompatible g l).2 := by
  induction l generalizing g with
  | nil => exact .nil
  | cons r l ih =>
      rw [grantCompatible]
      split
      · exact .cons ⟨rfl, rfl, fun _ => rfl⟩ ih
      · exact .cons ⟨rfl, rfl, fun h => h⟩ ih

theorem unlock_regrant (q : LockRequestQueue) (txn : TxnId) :
    List.Forall₂ Regrant (q.remaining txn) (q.unlock txn).requestQueue ∧
      List.Forall₂ Regrant q.upgradeQueue (q.unlock txn).upgradeQueue := by
  rw [unlock_eq]
  cases hl : q.remaining txn with
  | nil => exact ⟨.nil, regrant_refl _⟩
  | cons front rest =>
      simp only
      split
      · rw [grantWaiting]
        split
        · exact ⟨.cons ⟨rfl, rfl, fun _ => rfl⟩ (regrant_refl rest), regrant_refl _⟩
        · exact ⟨regrant_grantCompatible, regrant_refl _⟩
      · rw [handOver]
        split
        · exact ⟨regrant_refl _, regrant_refl _⟩
        · rename_i up ups hq
          split
          · rw [hq]
            exact ⟨regrant_refl _, .cons ⟨rfl, rfl, fun _ => rfl⟩ (regrant_refl ups)⟩
          · exact ⟨regrant_refl _, regrant_refl _⟩

theorem regrant_txnId {l' : List LockRequest} (h : List.Forall₂ Regrant l l') :
    l'.map LockRequest.txnId = l.map LockRequest.txnId := by
  induction h with
  | nil => rfl
  | cons hr _ ih => rw [List.map_cons, List.map_cons, ih, hr.1]

theorem regrant_old {l' : List LockRequest} (h : List.Forall₂ Regrant l l')
    {r' : LockRequest} (hr' : r' ∈ l') :
    ∃ r ∈ l, Regrant r r' := by
  induction h with
  | nil => cases hr'
  | cons hr _ ih =>
      rcases List.mem_cons.1 hr' with rfl | hr'
      · exact ⟨_, List.mem_cons_self, hr⟩
      · obtain ⟨r, hmem, hrr⟩ := ih hr'
        exact ⟨r, List.mem_cons_of_mem _ hmem, hrr⟩

theorem regrant_new {l' : List LockRequest} (h : List.Forall₂ Regrant l l') {r : LockRequest} (hr : r ∈ l) :
    ∃ r' ∈ l', Regrant r r' := by
  induction h with
  | nil => cases hr
  | cons hrr _ ih =>
      rcases List.mem_cons.1 hr with rfl | hr
      · exact ⟨_, List.mem_cons_self, hrr⟩
      · obtain ⟨r', hmem, hrr'⟩ := ih hr
        exact ⟨r', List.mem_cons_of_mem _ hmem, hrr'⟩

theorem mem_remaining_of_ne {r : LockRequest} (hr : r ∈ q.requestQueue) (hne : r.txnId ≠ txn) :
    r ∈ q.remaining txn :=
  (List.mem_eraseP_of_neg (by simpa using hne)).2 hr

/-- The holder behind a pending upgrade stays in the queue. -/
theorem ModeInv.upgrader (h : ModeInv q) (hu : ¬ q.Upgrading txn) {u : LockRequest}
    (hum : u ∈ q.upgradeQueue) :
    ∃ r ∈ q.remaining txn, r.txnId = u.txnId ∧ r.granted = true ∧
      (getGroupLockMode r.lockMode).ord < (getGroupLockMode u.lockMode).ord := by
  obtain ⟨r, hr, hrt, hrest⟩ := h.up u hum
  exact ⟨r, mem_remaining_of_ne hr fun hc => hu ⟨u, hum, hrt ▸ hc⟩, hrt, hrest⟩

theorem ModeInv.noUpgrade (h : ModeInv q) (hu : ¬ q.Upgrading txn)
    (hnone : ∀ r ∈ q.remaining txn, r.granted = false) :
    q.upgradeQueue = [] := by
  refine List.eq_nil_iff_forall_not_mem.2 fun u hum => ?_
  obtain ⟨r, hr, -, hgr, -⟩ := h.upgrader hu hum
  rw [hnone r hr] at hgr
  cases hgr

theorem covers_max : ∀ (g : GroupLockMode)
    (mode : LockMode), g ≠ .six → mode ≠ .sIx → lockCompatible g (getGroupLockMode mode) = true →
    (g.max (getGroupLockMode mode)).Covers g ∧
    (g.max (getGroupLockMode mode)).Covers (getGroupLockMode mode) := by
  decide

/-- The batch grant: by the enumeration order only compatible modes are compared. -/
theorem grantCompatible_covers (hg : g ≠ .six) (hm : ∀ r ∈ l, r.lockMode ≠ .sIx)
    (hnone : ∀ r ∈ l, r.granted = false) :
    (grantCompatible g l).1 ≠ .six ∧ (grantCompatible g l).1.Covers g ∧
      ∀ r ∈ (grantCompatible g l).2, r.granted = true →
        (grantCompatible g l).1.Covers (getGroupLockMode r.lockMode) := by
  induction l generalizing g with
  | nil => exact ⟨hg, fun _ h => h, by simp [grantCompatible]⟩
  | cons r l ih =>
      have hmr := hm r List.mem_cons_self
      have hml : ∀ a ∈ l, a.lockMode ≠ .sIx := fun a ha => hm a (List.mem_cons_of_mem _ ha)
      have hnl : ∀ a ∈ l, a.granted = false := fun a ha => hnone a (List.mem_cons_of_mem _ ha)
      rw [grantCompatible]
      split
      · rename_i hc
        obtain ⟨hold, hnew⟩ := covers_max g r.lockMode hg hmr hc
        obtain ⟨hsix, hcov, hall⟩ := ih (max_ne_six g r.lockMode hg hmr) hml hnl
        refine ⟨hsix, fun m hk => hold m (hcov m hk), ?_⟩
        intro a ha hga
        rcases List.mem_cons.1 ha with rfl | ha
        · exact fun m hk => hnew m (hcov m hk)
        · exact hall a ha hga
      · obtain ⟨hsix, hcov, hall⟩ := ih hg hml hnl
        refine ⟨hsix, hcov, ?_⟩
        intro a ha hga
        rcases List.mem_cons.1 ha with rfl | ha
        · rw [hnone a List.mem_cons_self] at hga
          cases hga
        · exact hall a ha hga

/-- No S upgrade is served to the only holder while its request still says IX. -/
def SafeHandOver (q : LockRequestQueue) (txn : TxnId) : Prop :=
  ∀ first others up ups, (q.remaining txn).dropWhile (fun r => !r.granted) = first :: others →
    q.upgradeQueue = up :: ups →
    first.txnId = up.txnId → others.all (fun r => !r.granted) = true →
      ¬ (first.lockMode = .intentionExclusive ∧ up.lockMode = .shared)

theorem covers_stronger : ∀ old new :
    LockMode, old ≠ .sIx → new ≠ .sIx → (getGroupLockMode old).ord < (getGroupLockMode new).ord →
    ((getGroupLockMode new).Covers (getGroupLockMode old) ↔
      ¬ (old = .intentionExclusive ∧ new = .shared)) := by
  decide

theorem ModeInv.unlock (h : ModeInv q) (hu : ¬ q.Upgrading txn)
    (hg : (q.unlock txn).groupLockMode ≠ .six) : ModeInv (q.unlock txn) := by
  obtain ⟨hreq, hup⟩ := unlock_regrant q txn
  refine ⟨?_, ?_, ?_, hg, ?_⟩
  · rw [regrant_txnId hreq]
    exact h.nodup.sublist (remaining_sublist.map _)
  · rw [regrant_txnId hup]
    exact h.upNodup
  · rintro r' (hr' | hr')
    · obtain ⟨r, hr, -, hmode, -⟩ := regrant_old hreq hr'
      rw [hmode]
      exact h.modes r (.inl (remaining_sublist.subset hr))
    · obtain ⟨r, hr, -, hmode, -⟩ := regrant_old hup hr'
      rw [hmode]
      exact h.modes r (.inr hr)
  · intro u' hu'
    obtain ⟨u, hum, hut, hmode, -⟩ := regrant_old hup hu'
    obtain ⟨r, hr, hrt, hgr, hlt⟩ := h.upgrader hu hum
    obtain ⟨r', hr', hrt', hmode', hgr'⟩ := regrant_new hreq hr
    refine ⟨r', hr', ?_, hgr' hgr, ?_⟩
    · rw [hrt', hut, hrt]
    · rw [hmode', hmode]
      exact hlt

theorem Summary.kept (hs : Summary q) : Summary { q with requestQueue := q.remaining txn } := by
  rintro r ⟨hr, hgr⟩
  exact hs r ⟨hr.imp_left fun hr => remaining_sublist.subset hr, hgr⟩

theorem summary_handOver (h : ModeInv q) (hs : Summary q) (hu : ¬ q.Upgrading txn) {first : LockRequest}
    {others : List LockRequest} (hd : (q.remaining txn).dropWhile (fun r => !r.granted) = first :: others) :
    (q.handOver (q.remaining txn) first others).groupLockMode ≠ .six ∧
      (Summary (q.handOver (q.remaining txn) first others) ↔ SafeHandOver q txn) := by
  rw [handOver]
  split
  · rename_i hq
    refine ⟨h.group, iff_of_true hs.kept ?_⟩
    rintro f os up ups - hq'
    rw [hq] at hq'
    cases hq'
  · rename_i up ups hq
    have hupm : up ∈ q.upgradeQueue := by rw [hq]; exact List.mem_cons_self
    split
    · rename_i hserve
      obtain ⟨before, hsplit, hgf, hbefore⟩ := dropWhile_granted hd
      have hf : first ∈ q.remaining txn := by rw [hsplit]; simp
      have huniq : ∀ r ∈ q.remaining txn, r.granted = true → r = first := by
        intro r hr hgr
        rw [hsplit] at hr
        rcases List.mem_append.1 hr with hr | hr
        · rw [hbefore r hr] at hgr
          cases hgr
        · rcases List.mem_cons.1 hr with rfl | hr
          · rfl
          · have := List.all_eq_true.1 hserve.2 r hr
            rw [hgr] at this
            cases this
      have hfirst := h.modes first (.inl (remaining_sublist.subset hf))
      have hup := h.modes up (.inr hupm)
      have hlt : (getGroupLockMode first.lockMode).ord < (getGroupLockMode up.lockMode).ord := by
        obtain ⟨r, hr, -, hgr, hlt⟩ := h.upgrader hu hupm
        rw [huniq r hr hgr] at hlt
        exact hlt
      have hcov := covers_stronger first.lockMode up.lockMode hfirst hup hlt
      refine ⟨getGroupLockMode_ne_six hup, ?_, ?_⟩
      · rintro hnew f os v vs hd' hq' - -
        cases hd.symm.trans hd'
        cases hq.symm.trans hq'
        exact hcov.1 (hnew first ⟨.inl hf, hgf⟩)
      · intro hsafe
        have hsafe := hcov.2 (hsafe first others up ups hd hq hserve.1 hserve.2)
        rintro r ⟨hr | hr, hgr⟩
        · rw [huniq r hr hgr]
          exact hsafe
        · rcases List.mem_cons.1 hr with rfl | hr
          · exact fun _ hk => hk
          · -- a second granted upgrade would belong to the same holder
            obtain ⟨a, ha, hat, hga, -⟩ := h.upgrader hu (by rw [hq]; exact List.mem_cons_of_mem _ hr)
            rw [huniq a ha hga, hserve.1] at hat
            have hnd := h.upNodup
            rw [hq, List.map_cons, List.nodup_cons] at hnd
            exact absurd (List.mem_map.2 ⟨r, hr, hat.symm⟩) hnd.1
    · rename_i hserve
      refine ⟨h.group, iff_of_true hs.kept ?_⟩
      rintro f os v vs hd' hq' ht hall -
      cases hd.symm.trans hd'
      cases hq.symm.trans hq'
      exact hserve ⟨ht, hall⟩

theorem summary_unlock (h : ModeInv q) (hs : Summary q) (hu : ¬ q.Upgrading txn) :
    ModeInv (q.unlock txn) ∧ (Summary (q.unlock txn) ↔ SafeHandOver q txn) := by
  suffices (q.unlock txn).groupLockMode ≠ .six ∧ (Summary (q.unlock txn) ↔ SafeHandOver q txn) from
    ⟨h.unlock hu this.1, this.2⟩
  have hnothing : (∀ r ∈ q.remaining txn, r.granted = false) → SafeHandOver q txn := by
    rintro hnone f os up ups - hq
    rw [h.noUpgrade hu hnone] at hq
    cases hq
  cases hd : (q.remaining txn).dropWhile (fun r => !r.granted) with
  | cons first others =>
      rw [unlock_of_granted hd]
      exact summary_handOver h hs hu hd
  | nil =>
      have hnone := dropWhile_none hd
      have hup := h.noUpgrade hu hnone
      rw [unlock_eq]
      cases hl : q.remaining txn with
      | nil =>
          refine ⟨by simp, iff_of_true ?_ (hnothing hnone)⟩
          rintro r ⟨hr | hr, -⟩
          · cases hr
          · rw [hup] at hr
            cases hr
      | cons front rest =>
          simp only
          rw [← hl, hd]
          simp only [grantWaiting]
          have hmodes : ∀ r ∈ front :: rest, r.lockMode ≠ .sIx :=
            fun r hr => h.modes r (.inl (remaining_sublist.subset (by rw [hl]; exact hr)))
          rw [hl] at hnone
          split
          · rename_i hx
            refine ⟨by simp, iff_of_true ?_ (hnothing (by rw [hl]; exact hnone))⟩
            rintro r -
            exact covers_x r.lockMode
          · obtain ⟨hsix, -, hall⟩ :=
              grantCompatible_covers
                (getGroupLockMode_ne_six (hmodes front List.mem_cons_self)) hmodes hnone
            refine ⟨hsix, iff_of_true ?_ (hnothing (by rw [hl]; exact hnone))⟩
            rintro r ⟨hr | hr, hgr⟩
            · exact hall r hr hgr
            · rw [hup] at hr
              cases hr

end Unlock

end LockRequestQueue

end Rmdb

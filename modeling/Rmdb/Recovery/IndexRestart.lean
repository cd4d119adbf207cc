import Rmdb.Lib.Trace
import Rmdb.Recovery.IndexCrash

namespace Rmdb

open IxManager RecoveryManager Slot

namespace IndexSession

variable {s s' : IndexSession} {c : Store} {done run : List LogRecord} {t : String} {ix : IndexMeta}

section Catalogs

theorem not_synced (hphase : s.phase = .running) : ¬(s.phase = .flushed ∨ s.phase = .marking) := by
  rw [hphase]
  rintro (h | h) <;> cases h

theorem Inv.clearTable {ts : List String} (h : Inv s c done run) (hphase : s.phase = .running)
    (hno : ∀ r ∈ s.log, ∀ w, r.write? = some w → w.loc.table ≠ t)
    (hts : ∀ r ∈ s.log, ∀ w, r.write? = some w → w.loc.table ∈ ts) :
    Inv { s.clear t with tables := ts } (fun loc => if loc.table = t then none else c loc) done run := by
  have hops : ∀ loc : Loc, loc.table = t → slotOps done loc = [] ∧ slotOps run loc = [] := by
    intro loc hloc
    have hnil : slotOps s.log loc = [] :=
      slotOps_eq_nil fun r hr w hw hwl => hno r hr w hw (by rw [hwl, hloc])
    rwa [h.log.split, slotOps_append, List.append_eq_nil_iff] at hnil
  have hindexes : ∀ u, ∀ ix ∈ Function.update s.indexes t [] u, u ≠ t ∧ ix ∈ s.indexes u := by
    intro u ix hix
    by_cases hu : u = t
    · rw [hu, Function.update_self] at hix
      cases hix
    · rw [Function.update_of_ne hu] at hix
      exact ⟨hu, hix⟩
  have hother : ∀ {u} (st : Store), u ≠ t → (fun r => if (⟨u, r⟩ : Loc).table = t then none else st ⟨u, r⟩) =
      fun r => st ⟨u, r⟩ := fun st hu => funext fun r => if_neg hu
  refine ⟨h.log, fun r hr w hw => ⟨hts r hr w hw, ?_⟩,
    ⟨fun loc hne y => ?_, fun loc => ?_, fun loc => ?_⟩, fun hc loc hnil => ?_,
    fun loc hne => ?_,
    ⟨fun u ix hix => h.trees.tab u ix (hindexes u ix hix).2, fun u => ?_, fun u ix hix => ?_⟩,
    fun u => uniqueKeys_iff.2 fun ix hix => ?_, h.header, fun hc hzero u ix hix => ?_,
    fun hp => absurd hp (not_synced (s := s) hphase)⟩
  · change w.loc.rid ∈ (Function.update s.slots t _ w.loc.table).1
    rw [Function.update_of_ne (hno r hr w hw)]
    exact (h.placed r hr w hw).2
  · rw [if_neg fun hloc => hne (hops loc hloc).1]
    exact h.rows.settled loc hne y
  · by_cases hloc : loc.table = t
    · rw [(hops loc hloc).2]
      trivial
    · rw [if_neg hloc]
      exact h.rows.legal loc
  · change (if loc.table = t then none else s.rows loc) = _
    by_cases hloc : loc.table = t
    · rw [if_pos hloc, if_pos hloc, (hops loc hloc).2]
      rfl
    · rw [if_neg hloc, if_neg hloc]
      exact h.rows.rows loc
  · change Below (if loc.table = t then none else s.disk loc) _
    by_cases hloc : loc.table = t
    · exact .inl (if_pos hloc)
    · rw [if_neg hloc, if_neg hloc]
      exact h.disk hc loc hnil
  · change loc.rid ∈ (Function.update s.slots t _ loc.table).1
    change (if loc.table = t then none else c loc) ≠ none ∨
      (if loc.table = t then none else s.rows loc) ≠ none at hne
    have hloc : loc.table ≠ t := by
      intro hloc
      rw [if_pos hloc, if_pos hloc] at hne
      exact hne.elim (absurd rfl) (absurd rfl)
    rw [if_neg hloc, if_neg hloc] at hne
    rw [Function.update_of_ne hloc]
    exact h.cover loc hne
  · change (Function.update s.indexes t [] u).Nodup
    by_cases hu : u = t
    · rw [hu, Function.update_self]
      exact List.nodup_nil
    · rw [Function.update_of_ne hu]
      exact h.trees.nodup u
  · obtain ⟨hu, hix⟩ := hindexes u ix hix
    have htree := h.trees.tree u ix hix
    rw [← hother s.rows hu] at htree
    exact htree
  · obtain ⟨hu, hix⟩ := hindexes u ix hix
    simp only [if_neg hu]
    exact uniqueKeys_iff.1 (h.unique u) ix hix
  · obtain ⟨hu, hix⟩ := hindexes u ix hix
    have hquiet := h.quiet hc hzero u ix hix
    rw [← hother s.disk hu] at hquiet
    exact hquiet

theorem holdsExactly_created {α : Type} (L : KeyLayout) (key : α → Key L) (n : Nat) :
    HoldsExactly (⟨(IxManager.createIndex L).fileHdr, (IxManager.createIndex L).pages,
      n⟩ : IxIndexHandle (Key L)) key
      fun _ => none := by
  obtain ⟨m, hreads, hm⟩ := (indexOf_createIndex L key).holdsExactly
  exact ⟨m, hreads.congr rfl rfl rfl rfl, hm⟩

theorem mem_snoc_indexes {ix' : IndexMeta} {u : String}
    (h : ix' ∈ Function.update s.indexes ix.tabName (s.indexes ix.tabName ++ [ix]) u) :
    ix' ∈ s.indexes u ∨ ix' = ix ∧ u = ix.tabName := by
  by_cases hu : u = ix.tabName
  · rw [hu, Function.update_self] at h
    rw [hu]
    exact (List.mem_append.1 h).imp_right fun h => ⟨List.mem_singleton.1 h, rfl⟩
  · rw [Function.update_of_ne hu] at h
    exact .inl h

theorem Inv.createIndex (h : Inv s c done run) (hphase : s.phase = .running)
    (hnew : ix ∉ s.indexes ix.tabName) (hk : s.Keeps (.createIndex ix))
    (hcreate : s.createIndex ix = some s') : Inv s' c done run := by
  obtain ⟨hsilent, hkeys, hempty⟩ := hk
  have hc : c = s.rows := h.rows.start_eq (h.run_silent hphase hsilent)
  -- no two rows have one key, so no row goes
  let s₁ : IndexSession :=
    { s with indexes := Function.update s.indexes ix.tabName (s.indexes ix.tabName ++ [ix]) }
  have hmem : ix.entryKey ∈ s₁.cat.indexes ix.tabName := by
    refine List.mem_map_of_mem ?_
    change ix ∈ Function.update s.indexes _ _ _
    rw [Function.update_self]
    exact List.mem_append_right _ (List.mem_singleton_self ix)
  have hunique : UniqueKeys s₁.cat ix.tabName s.rows := by
    refine uniqueKeys_iff.2 fun ix' hix' => ?_
    rcases mem_snoc_indexes hix' with hix' | ⟨rfl, -⟩
    · exact fun r r' row row' hr hr' => (h.trees.tree _ ix' hix').unique hr hr'
    · exact hkeys
  obtain ⟨ih, hbuild, hih⟩ := buildIndex_spec (t := ix.tabName) s₁.cat (sigma_mk_injective (i := ix))
    (indexOf_createIndex ix.layout ix.key)
  have hsame : createIndexRows s₁.cat ix.tabName (fun b => (⟨ix, ix.key b⟩ : EntryKey)) s.rows = s.rows :=
    createIndexRows_unique hmem hunique
  rw [hsame] at hbuild hih
  rw [scannedRows_of_cover fun r hr => h.cover ⟨ix.tabName, r⟩ (.inr hr)] at hih
  have hcreate' : s.createIndex ix = some { s₁ with
      ihs := Function.update s.ihs ix ih
      hdrs := Function.update s.hdrs ix (IxManager.createIndex ix.layout).fileHdr
      nodes := Function.update s.nodes ix (IxManager.createIndex ix.layout).pages } := by
    rw [IndexSession.createIndex]
    change buildIndex ix.tabName ix.key (s.slots ix.tabName).1
      (IxManager.createIndex ix.layout) s.rows = _ at hbuild
    rw [hbuild]
  rw [hcreate'] at hcreate
  cases hcreate
  have hother : ∀ u, ∀ ix' ∈ s.indexes u, ix' ≠ ix := by
    rintro u ix' hix' rfl
    rw [← h.trees.tab u ix' hix'] at hix'
    exact hnew hix'
  have htrees : TreesOk s₁.indexes (Function.update s.ihs ix ih) s.rows := by
    refine ⟨fun u ix' hix' => ?_, fun u => ?_, fun u ix' hix' => ?_⟩
    · rcases mem_snoc_indexes hix' with hix' | ⟨rfl, rfl⟩
      · exact h.trees.tab u ix' hix'
      · rfl
    · change (Function.update s.indexes _ _ u).Nodup
      by_cases hu : u = ix.tabName
      · rw [hu, Function.update_self]
        refine List.nodup_append.2 ⟨h.trees.nodup _, List.nodup_singleton ix, fun x hx y hy => ?_⟩
        rw [List.mem_singleton.1 hy]
        exact hother _ x hx
      · rw [Function.update_of_ne hu]
        exact h.trees.nodup u
    · rcases mem_snoc_indexes hix' with hix' | ⟨rfl, rfl⟩
      · rw [Function.update_of_ne (hother u ix' hix')]
        exact h.trees.tree u ix' hix'
      · rw [Function.update_self]
        exact .inl hih
  refine ⟨h.log, h.placed, h.rows, h.disk, h.cover,
    htrees, fun u => ?_, fun ix' => ?_, fun hcp hzero u ix' hix' => ?_,
    fun hp => absurd hp (not_synced hphase)⟩
  · rw [hc]
    exact uniqueKeys_of_trees (s := { s₁ with ihs := Function.update s.ihs ix ih }) htrees u
  · change Function.update s.hdrs ix _ ix' = _
    by_cases hix : ix' = ix
    · rw [hix, Function.update_self]
    · rw [Function.update_of_ne hix]
      exact h.header ix'
  · rcases mem_snoc_indexes hix' with hix' | ⟨rfl, rfl⟩
    · have hopened : ∀ hdr nodes,
        (⟨Function.update s.hdrs ix hdr ix', Function.update s.nodes ix nodes ix', 1⟩ : ix'.Handle) =
          s.opened ix' := by
        intro hdr nodes
        rw [Function.update_of_ne (hother u ix' hix'), Function.update_of_ne (hother u ix' hix')]
        rfl
      change HoldsExactly (⟨Function.update s.hdrs ix _ ix', Function.update s.nodes ix _ ix',
        1⟩ : ix'.Handle) _ _
      rw [hopened]
      exact h.quiet hcp hzero u ix' hix'
    · change HoldsExactly (⟨Function.update s.hdrs ix' _ ix', Function.update s.nodes ix' _ ix',
        1⟩ : ix'.Handle) _
        fun r => s.disk ⟨ix'.tabName, r⟩
      have hnone : ∀ r, s.disk ⟨ix'.tabName, r⟩ = none := by
        intro r
        have hzero' : s.durable = 0 := hzero
        have hbelow := h.disk hcp ⟨ix'.tabName, r⟩ (by rw [durableLog, hzero', List.take_zero]; rfl)
        rw [hc, hempty hcp hzero' r] at hbelow
        exact or_self_iff.1 hbelow
      simp only [Function.update_self, hnone]
      exact holdsExactly_created ix'.layout ix'.key 1

theorem Inv.dropIndex (h : Inv s c done run) (hphase : s.phase = .running) :
    Inv { s with indexes := Function.update s.indexes ix.tabName ((s.indexes ix.tabName).erase ix) } c
      done run := by
  have hsub : ∀ u, (Function.update s.indexes ix.tabName ((s.indexes ix.tabName).erase ix) u).Sublist
      (s.indexes u) := by
    intro u
    by_cases hu : u = ix.tabName
    · rw [hu, Function.update_self]
      exact List.erase_sublist
    · rw [Function.update_of_ne hu]
  refine ⟨h.log, h.placed, h.rows, h.disk, h.cover,
    ⟨fun u ix' hix' => h.trees.tab u ix' ((hsub u).subset hix'),
    fun u => (h.trees.nodup u).sublist (hsub u), fun u ix' hix' => h.trees.tree u ix' ((hsub u).subset hix')⟩,
    fun u => uniqueKeys_iff.2 fun ix' hix' => uniqueKeys_iff.1 (h.unique u) ix' ((hsub u).subset hix'),
    h.header,
    fun hc hzero u ix' hix' => h.quiet hc hzero u ix' ((hsub u).subset hix'), fun hp =>
      absurd hp (not_synced hphase)⟩

end Catalogs

/-- What a step of the machine does to the invariant; `c` and the split of the log move with the
transactions. -/
theorem Inv.step {a : IndexStep} (h : Inv s c done run) (hk : s.Keeps a) (hstep : s.step a = some s') :
    ∃ c' done' run', Inv s' c' done' run' := by
  cases a with
  | begin =>
      obtain ⟨⟨hphase, hd⟩, hs⟩ := Option.ite_none_right_eq_some.1 hstep
      cases hs
      exact ⟨_, _, _, h.begin hphase hd⟩
  | change t a =>
      obtain ⟨⟨hphase, ht⟩, hmap⟩ := Option.ite_none_right_eq_some.1 hstep
      obtain ⟨⟨op, s₁⟩, hchange, rfl⟩ := Option.map_eq_some_iff.1 hmap
      exact ⟨_, _, h.change hphase ht hchange⟩
  | load t rows =>
      obtain ⟨⟨hphase, -⟩, hload⟩ := Option.ite_none_right_eq_some.1 hstep
      obtain ⟨c', hinv⟩ := h.load hphase hk hload
      exact ⟨c', _, _, hinv⟩
  | createTable t =>
      obtain ⟨⟨hphase, ht⟩, hs⟩ := Option.ite_none_right_eq_some.1 hstep
      cases hs
      refine ⟨_, _, _, h.clearTable hphase (fun r hr w hw hc => ht ?_) fun r hr w hw => ?_⟩
      · rw [← hc]
        exact (h.placed r hr w hw).1
      · exact List.mem_append_left _ (h.placed r hr w hw).1
  | dropTable t =>
      obtain ⟨⟨hphase, -⟩, hs⟩ := Option.ite_none_right_eq_some.1 hstep
      cases hs
      refine ⟨_, _, _, h.clearTable hphase hk fun r hr w hw => ?_⟩
      exact List.mem_filter.2 ⟨(h.placed r hr w hw).1, by simpa using hk r hr w hw⟩
  | createIndex ix =>
      obtain ⟨⟨hphase, -, hnew⟩, hcreate⟩ := Option.ite_none_right_eq_some.1 hstep
      exact ⟨_, _, _, h.createIndex hphase hnew hk hcreate⟩
  | dropIndex ix =>
      obtain ⟨⟨hphase, -⟩, hs⟩ := Option.ite_none_right_eq_some.1 hstep
      cases hs
      exact ⟨_, _, _, h.dropIndex hphase⟩
  | commit =>
      obtain ⟨hphase, hs⟩ := Option.ite_none_right_eq_some.1 hstep
      cases hs
      exact ⟨_, _, h.commit hphase⟩
  | writeLog n =>
      obtain ⟨⟨hlow, hhigh⟩, hs⟩ := Option.ite_none_right_eq_some.1 hstep
      cases hs
      exact ⟨_, _, _, h.writeLog hlow hhigh⟩
  | writePage page =>
      obtain rfl := Option.some.inj hstep
      exact ⟨_, _, _, h.writePage hk⟩
  | writeNode ix p half =>
      obtain rfl := Option.some.inj hstep
      exact ⟨_, _, _, h.writeNode hk⟩
  | flushAllPages =>
      obtain ⟨⟨hphase, hd, hpos⟩, hs⟩ := Option.ite_none_right_eq_some.1 hstep
      cases hs
      exact ⟨_, _, _, h.flushAllPages hphase hd hpos⟩
  | staticCheckpoint =>
      obtain ⟨hphase, hs⟩ := Option.ite_none_right_eq_some.1 hstep
      cases hs
      exact ⟨_, _, h.staticCheckpoint hphase⟩
  | setRestartLog =>
      obtain ⟨⟨hphase, -⟩, hs⟩ := Option.ite_none_right_eq_some.1 hstep
      cases hs
      exact ⟨_, _, _, h.setRestartLog hphase hk⟩

section FlushedRow

theorem narrowIndex_typed (c : ColMeta) (hc : c ∈ [⟨"t", "a", .int, 4, 0⟩]) :
    c.type = .int ∧ c.len = 4 ∨ c.type = .string := by
  simp_all

theorem narrowIndex_bounded :
    (([⟨"t", "a", .int, 4, 0⟩] : List ColMeta).map fun c => c.len).sum ≤ 512 := by simp

def narrowIndex : IndexMeta := ⟨[⟨"t", "a", .int, 4, 0⟩], narrowIndex_typed, narrowIndex_bounded⟩

def flushedRow : List IndexStep :=
  [.begin, .createTable "t", .createIndex narrowIndex,
    .change "t" (.insert ⟨1, 0⟩ [7, 0, 0, 0] [⟨1, 0⟩, ⟨1, 1⟩]), .commit, .writeLog 3, .flushAllPages,
    .staticCheckpoint, .writeLog 4, .setRestartLog,
    .begin, .change "t" (.insert ⟨1, 1⟩ [8, 0, 0, 0] [])]

theorem keeps_setRestartLog (h : s.indexes = Function.update (Function.update (fun _ => []) "t" []) "t" [ix])
    (hserves : Serves (s.hdrs ix) (s.ihs ix)) : s.Keeps .setRestartLog := by
  intro u ix' hix
  rw [h] at hix
  by_cases hu : u = "t"
  · rw [hu, Function.update_self] at hix
    rw [List.mem_singleton.1 hix]
    exact hserves
  · rw [Function.update_of_ne hu, Function.update_of_ne hu] at hix
    cases hix

open Trace in
theorem keeps_flushedRow : Guarded step Keeps start flushedRow := by
  refine (guarded_cons rfl).2 ⟨trivial, (guarded_cons rfl).2 ⟨trivial, (guarded_cons rfl).2 ⟨⟨?_, ?_, nofun⟩,
    (guarded_cons rfl).2 ⟨trivial,
      (guarded_cons rfl).2 ⟨trivial, (guarded_cons rfl).2 ⟨trivial, (guarded_cons rfl).2 ⟨trivial,
    (guarded_cons rfl).2 ⟨trivial,
      (guarded_cons rfl).2 ⟨trivial, (guarded_cons rfl).2 ⟨?_, (guarded_cons rfl).2 ⟨trivial,
    (guarded_cons rfl).2 ⟨trivial, trivial⟩⟩⟩⟩⟩⟩⟩⟩⟩⟩⟩⟩
  · intro r hr _
    obtain rfl : r = _ := List.mem_singleton.1 hr
    rfl
  · intro r r' row row' hr
    change (if narrowIndex.tabName = "t" then none else (none : Option Bytes)) = some row at hr
    rw [ite_self] at hr
    cases hr
  · refine keeps_setRestartLog rfl ?_
    exact ⟨by decide +kernel, by decide +kernel, .inl (by decide +kernel)⟩

end FlushedRow

section SplitRoot

def wideIndex : IndexMeta := ⟨[⟨"t", "a", .string, 512, 0⟩], by simp, by simp⟩

def wideRow (b : UInt8) : Bytes := b :: List.replicate 511 0

/-- The sixth row splits the root, page 2, after `create_index` has written the header, and a
checkpoint follows. -/
def splitRoot : List IndexStep :=
  [.begin, .createTable "t", .createIndex wideIndex,
    .change "t" (.insert ⟨1, 0⟩ (wideRow 1) ((List.range 7).map fun i => ⟨1, i⟩)),
    .change "t" (.insert ⟨1, 1⟩ (wideRow 2) []),
    .change "t" (.insert ⟨1, 2⟩ (wideRow 3) []), .change "t" (.insert ⟨1, 3⟩ (wideRow 4) []),
    .change "t" (.insert ⟨1, 4⟩ (wideRow 5) []), .change "t" (.insert ⟨1, 5⟩ (wideRow 6) []),
    .commit, .writeLog 8, .flushAllPages, .staticCheckpoint, .writeLog 9, .setRestartLog]

theorem splitRoot_state :
    (Trace.run step start splitRoot).map
      (fun s => (s.checkpointed, s.log.length, s.tables, s.indexes "t")) =
    some (true, 0, ["t"], [wideIndex]) := by decide +kernel

/-- What the files have then: the header still names page 2, a leaf with the first three rows. -/
theorem splitRoot_files : (Trace.run step start splitRoot).map (fun s => ((s.hdrs wideIndex).rootPage,
      (s.nodes wideIndex 2).map (fun node => (node.isLeaf, node.pairs.map Prod.snd)), s.disk ⟨"t", ⟨1, 5⟩⟩)) =
    some (2, some (true, [⟨1, 0⟩, ⟨1, 1⟩, ⟨1, 2⟩]), some (wideRow 6)) := by decide +kernel

end SplitRoot

end IndexSession

end Rmdb

import Rmdb.Index.Handle
import Rmdb.Index.NodeSpec
import Rmdb.Lib.BPlusOrder

namespace Rmdb

open BPlus

variable {K : Type} {h : Nat}

@[simp] theorem ok_bind {α β : Type} (a : α) (f : α → Ix β) : (Except.ok a >>= f) = f a := rfl

@[simp] theorem pure_eq_ok {α : Type} (a : α) : (pure a : Ix α) = .ok a := rfl

/-- How an internal node stores a child. -/
def childRid (p : Int) : Rid := ⟨p, -1⟩

@[simp] theorem childRid_pageNo (p : Int) : (childRid p).pageNo = p := rfl

def IxNode.Matches (n : IxNode K) (r : Rec K Rid) : Prop :=
  n.parent = r.parent ∧ n.isLeaf = r.isLeaf ∧ n.pairs = r.pairs

structure Mem (ih : IxIndexHandle K) (rs : List (Rec K Rid)) : Prop where
  held : ∀ r ∈ rs, ∃ n, ih.pages r.page = some n ∧ n.Matches r
  nodup : (rs.map Rec.page).Nodup
  range : ∀ r ∈ rs, 2 ≤ r.page ∧ r.page < ih.fd2pageno

def link (ih : IxIndexHandle K) (p : Int) : Option (Int × Int) :=
  (ih.pages p).map (fun n => (n.prevLeaf, n.nextLeaf))

/-- A step that writes parents, keys and pairs only. -/
structure Local (ih ih' : IxIndexHandle K) : Prop where
  hdr : ih'.fileHdr = ih.fileHdr
  count : ih'.fd2pageno = ih.fd2pageno
  link : ∀ p, link ih' p = link ih p

/-- A step that may also allocate pages or move the root, but leaves the leaf chain alone. -/
structure Quiet (ih ih' : IxIndexHandle K) : Prop where
  order : ih'.fileHdr.btreeOrder = ih.fileHdr.btreeOrder
  first : ih'.fileHdr.firstLeaf = ih.fileHdr.firstLeaf
  last : ih'.fileHdr.lastLeaf = ih.fileHdr.lastLeaf
  count : ih.fd2pageno ≤ ih'.fd2pageno
  link : ∀ p : Int, p < ih.fd2pageno → link ih' p = link ih p

theorem Local.refl (ih : IxIndexHandle K) : Local ih ih := ⟨rfl, rfl, fun _ => rfl⟩

theorem Local.trans {a b c : IxIndexHandle K} (hab : Local a b) (hbc : Local b c) : Local a c :=
  ⟨hbc.hdr.trans hab.hdr, hbc.count.trans hab.count, fun p => (hbc.link p).trans (hab.link p)⟩

theorem Local.quiet {a b : IxIndexHandle K} (hab : Local a b) : Quiet a b :=
  ⟨by rw [hab.hdr], by rw [hab.hdr], by rw [hab.hdr], hab.count.ge, fun p _ => hab.link p⟩

theorem Quiet.trans {a b c : IxIndexHandle K} (hab : Quiet a b) (hbc : Quiet b c) : Quiet a c where
  order := hbc.order.trans hab.order
  first := hbc.first.trans hab.first
  last := hbc.last.trans hab.last
  count := hab.count.trans hbc.count
  link p hp := (hbc.link p (lt_of_lt_of_le hp (by exact_mod_cast hab.count))).trans (hab.link p hp)

section Write

variable {ih : IxIndexHandle K} {p : Int} {n m : IxNode K}

@[simp] theorem writeNode_fileHdr : (ih.writeNode p n).fileHdr = ih.fileHdr := rfl

@[simp] theorem writeNode_fd2pageno : (ih.writeNode p n).fd2pageno = ih.fd2pageno := rfl

@[simp] theorem writeNode_self : (ih.writeNode p n).pages p = some n := by
  simp [IxIndexHandle.writeNode]

theorem writeNode_ne {q : Int} (hq : q ≠ p) : (ih.writeNode p n).pages q = ih.pages q := by
  simp [IxIndexHandle.writeNode, hq]

theorem writeNode_same (hp : ih.pages p = some n) : ih.writeNode p n = ih := by
  rw [IxIndexHandle.writeNode, Function.update_eq_self_iff.2 hp.symm]

theorem fetchNode_eq (hp : ih.pages p = some n) : ih.fetchNode p = .ok n := by
  simp [IxIndexHandle.fetchNode, hp]

theorem local_write (hp : ih.pages p = some n) (hprev : m.prevLeaf = n.prevLeaf)
    (hnext : m.nextLeaf = n.nextLeaf) : Local ih (ih.writeNode p m) := by
  refine ⟨rfl, rfl, ?_⟩
  intro q
  by_cases hq : q = p
  · subst hq; simp [link, hp, hprev, hnext]
  · simp [link, writeNode_ne hq]

end Write

namespace Mem

variable {ih : IxIndexHandle K} {rs w : List (Rec K Rid)} {r c : Rec K Rid}

theorem perm (hm : Mem ih rs) (hp : rs.Perm w) : Mem ih w where
  held r hr := hm.held r (hp.mem_iff.2 hr)
  nodup := ((hp.map Rec.page).nodup_iff).1 hm.nodup
  range r hr := hm.range r (hp.mem_iff.2 hr)

theorem sublist (hm : Mem ih rs) (hs : w.Sublist rs) : Mem ih w where
  held r hr := hm.held r (hs.subset hr)
  nodup := hm.nodup.sublist (hs.map _)
  range r hr := hm.range r (hs.subset hr)

theorem get (hm : Mem ih (r :: rs)) : ∃ n, ih.pages r.page = some n ∧ n.Matches r :=
  hm.held r (by simp)

theorem get_of_mem (hm : Mem ih rs) (hr : r ∈ rs) : ∃ n, ih.pages r.page = some n ∧ n.Matches r :=
  hm.held r hr

theorem ne_head (hm : Mem ih (r :: rs)) : ∀ s ∈ rs, s.page ≠ r.page := by
  have hn := hm.nodup
  simp only [List.map_cons, List.nodup_cons, List.mem_map, not_exists, not_and] at hn
  exact hn.1

theorem write (hm : Mem ih (r :: rs)) {n : IxNode K} (hpage : c.page = r.page) (hn : n.Matches c) :
    Mem (ih.writeNode r.page n) (c :: rs) where
  held s hs := by
    rcases List.mem_cons.1 hs with rfl | hs
    · exact ⟨n, by rw [hpage]; simp, hn⟩
    · rw [writeNode_ne (hm.ne_head s hs)]
      exact hm.held s (by simp [hs])
  nodup := by simpa [hpage] using hm.nodup
  range s hs := by
    rcases List.mem_cons.1 hs with rfl | hs
    · rw [hpage]; exact hm.range r (by simp)
    · exact hm.range s (by simp [hs])

theorem write3 {r1 r2 r3 u v w : Rec K Rid} {x y z : IxNode K} (hm : Mem ih (r1 :: r2 :: r3 :: rs))
    (hp1 : u.page = r1.page) (hp2 : v.page = r2.page) (hp3 : w.page = r3.page) (h1 : x.Matches u)
    (h2 : y.Matches v) (h3 : z.Matches w) :
    Mem (((ih.writeNode r1.page x).writeNode r2.page y).writeNode r3.page z) (u :: v :: w :: rs) := by
  have hm1 := hm.write hp1 h1
  have hm2 := (hm1.perm (List.Perm.swap r2 u _)).write hp2 h2
  have hm3 := (hm2.perm (w := r3 :: u :: v :: rs) (by
    rw [← Multiset.coe_eq_coe]
    simp only [← Multiset.cons_coe, ← Multiset.singleton_add]
    abel)).write hp3 h3
  refine hm3.perm ?_
  rw [← Multiset.coe_eq_coe]
  simp only [← Multiset.cons_coe, ← Multiset.singleton_add]
  abel

theorem touch (hm : Mem ih rs) {p : Int} {n m : IxNode K} (hp : ih.pages p = some n)
    (hpar : m.parent = n.parent) (hleaf : m.isLeaf = n.isLeaf) (hpairs : m.pairs = n.pairs) :
    Mem (ih.writeNode p m) rs where
  held s hs := by
    obtain ⟨k, hk, hmat⟩ := hm.held s hs
    by_cases hsp : s.page = p
    · rw [hsp, hp] at hk
      cases hk
      exact ⟨m, by rw [hsp]; simp, hpar.trans hmat.1, hleaf.trans hmat.2.1, hpairs.trans hmat.2.2⟩
    · exact ⟨k, by rw [writeNode_ne hsp]; exact hk, hmat⟩
  nodup := hm.nodup
  range := hm.range

theorem create (hm : Mem ih rs) (h2 : 2 ≤ ih.fd2pageno) :
    Mem ih.createNode.2 (⟨ih.fd2pageno, 0, false, []⟩ :: rs) where
  held s hs := by
    rcases List.mem_cons.1 hs with rfl | hs
    · exact ⟨⟨0, false, 0, 0, [], []⟩, by simp [IxIndexHandle.createNode], rfl, rfl, rfl⟩
    · have hlt := (hm.range s hs).2
      obtain ⟨n, hn, hmat⟩ := hm.held s hs
      exact ⟨n, by simp [IxIndexHandle.createNode, Function.update_of_ne (ne_of_lt hlt), hn], hmat⟩
  nodup := by
    simp only [List.map_cons, List.nodup_cons]
    refine ⟨?_, hm.nodup⟩
    intro hc
    obtain ⟨s, hs, he⟩ := List.mem_map.1 hc
    have := (hm.range s hs).2
    omega
  range s hs := by
    rcases List.mem_cons.1 hs with rfl | hs
    · simp only [IxIndexHandle.createNode]; omega
    · have := hm.range s hs
      simp only [IxIndexHandle.createNode]; omega

theorem reparent {t : Tree K Rid h} {p q : Int} {n : IxNode K} (hm : Mem ih (t.recs childRid q ++ rs))
    (hn : ih.pages t.page = some n) :
    Mem (ih.writeNode t.page { n with parent := p }) (t.recs childRid p ++ rs) := by
  obtain ⟨m, hm', -, hleaf, hpairs⟩ :=
    hm.get_of_mem (r := ⟨t.page, q, h == 0, t.pairs childRid⟩) (by simp [Tree.recs])
  cases hn.symm.trans hm'
  exact hm.write (r := ⟨t.page, q, h == 0, t.pairs childRid⟩) (c := ⟨t.page, p, h == 0, t.pairs childRid⟩)
    rfl ⟨rfl, hleaf, hpairs⟩

theorem hdr (hm : Mem ih rs) (f : IxFileHdr) : Mem { ih with fileHdr := f } rs :=
  ⟨hm.held, hm.nodup, hm.range⟩

theorem length_le (hm : Mem ih rs) : rs.length + 2 ≤ ih.fd2pageno ∨ rs = [] := by
  rcases rs with _ | ⟨r, rs⟩
  · exact Or.inr rfl
  left
  have hsub : (r :: rs).map Rec.page ⊆
      (List.range (ih.fd2pageno - 2)).map (fun i => ((i : Nat) : Int) + 2) := by
    intro p hp
    obtain ⟨s, hs, rfl⟩ := List.mem_map.1 hp
    have := hm.range s hs
    refine List.mem_map.2 ⟨(s.page - 2).toNat, ?_, ?_⟩
    · rw [List.mem_range]; omega
    · omega
  have hle := (hm.nodup.subperm hsub).length_le
  have := hm.range r (by simp)
  simp only [List.length_map, List.length_range] at hle
  omega

end Mem

theorem quiet_create (ih : IxIndexHandle K) : Quiet ih ih.createNode.2 where
  order := rfl
  first := rfl
  last := rfl
  count := Nat.le_succ _
  link p hp := by simp [link, IxIndexHandle.createNode, Function.update_of_ne (ne_of_lt hp)]

section MaintainChild

variable [IxKey K] {ih : IxIndexHandle K} {v : List (Rec K Rid)}

open IxIndexHandle

theorem maintainChildren_leaf {p : Int} {n : IxNode K} (hp : ih.pages p = some n) (hl : n.isLeaf = true)
    (start count : Nat) : ih.maintainChildren p start count = .ok ih := by
  induction count generalizing start with
  | zero => rfl
  | succ count ih' =>
      simp only [maintainChildren, maintainChild, fetchNode_eq hp, ok_bind, hl, if_true, pure_eq_ok]
      exact ih' _

theorem maintainChildren_one (p : Int) (i : Nat) : ih.maintainChildren p i 1 = ih.maintainChild p i := by
  rw [maintainChildren]
  cases ih.maintainChild p i <;> rfl

/-- The loop over a run of children makes them point back to the node that holds them. -/
theorem maintainChildren_spec {p q u : Int} (A B : List (K × Rid)) (kids : List (K × Tree K Rid h))
    (hm : Mem ih (⟨p, u, false, A ++ kids.map (pairOf childRid (h + 1)) ++ B⟩ ::
      (kidRecs childRid q kids ++ v))) :
    ∃ ih', ih.maintainChildren p A.length kids.length = .ok ih' ∧ Local ih ih' ∧
      Mem ih' (⟨p, u, false, A ++ kids.map (pairOf childRid (h + 1)) ++ B⟩ ::
        (kidRecs childRid p kids ++ v)) := by
  induction kids generalizing ih A v with
  | nil => exact ⟨ih, rfl, Local.refl ih, by simpa using hm⟩
  | cons e kids ihk =>
      obtain ⟨n, hn, -, hleaf, hpairs⟩ := hm.get
      have hsplit : n.pairs = A ++ (e.1, childRid (Tree.page e.2)) ::
          (kids.map (pairOf childRid (h + 1)) ++ B) := by
        rw [hpairs]; simp [pairOf]
      -- bring the child's own record to the front, then overwrite its parent
      have hm1 := hm.perm (w := ⟨Tree.page e.2, q, h == 0, Tree.pairs childRid e.2⟩ ::
          ⟨p, u, false, A ++ (e :: kids).map (pairOf childRid (h + 1)) ++ B⟩ ::
          (kidRecs childRid (Tree.page e.2) (Tree.items e.2) ++ kidRecs childRid q kids ++ v)) (by
        simp only [kidRecs_cons, Tree.recs, List.cons_append, List.append_assoc]
        exact List.Perm.swap _ _ _)
      obtain ⟨c, hc, hcpar, hcleaf, hcpairs⟩ := hm1.get
      have hm2 := hm1.write (c := ⟨Tree.page e.2, p, h == 0, Tree.pairs childRid e.2⟩)
        (n := { c with parent := p }) rfl ⟨rfl, hcleaf, hcpairs⟩
      have hl2 : Local ih (ih.writeNode (Tree.page e.2) { c with parent := p }) := local_write hc rfl rfl
      have hone : ih.maintainChild p A.length =
          .ok (ih.writeNode (Tree.page e.2) { c with parent := p }) := by
        simp [maintainChild, fetchNode_eq hn, hleaf, IxNode.valueAt_split hsplit, fetchNode_eq hc]
      have hm3 := hm2.perm (w := ⟨p, u, false, (A ++ [pairOf childRid (h + 1) e]) ++
          kids.map (pairOf childRid (h + 1)) ++ B⟩ ::
          (kidRecs childRid q kids ++ (Tree.recs childRid p e.2 ++ v))) (by
        rw [← Multiset.coe_eq_coe]
        simp only [Tree.recs, List.map_cons, List.append_assoc, List.cons_append, List.nil_append,
          ← Multiset.coe_add, ← Multiset.cons_coe, ← Multiset.singleton_add]
        abel)
      obtain ⟨ih', hrun, hloc, hm4⟩ := ihk _ hm3
      refine ⟨ih', ?_, hl2.trans hloc, ?_⟩
      · rw [List.length_cons, maintainChildren, hone, ok_bind]
        simpa using hrun
      · refine hm4.perm ?_
        rw [← Multiset.coe_eq_coe]
        simp only [kidRecs_cons, List.map_cons, List.append_assoc, List.cons_append, List.nil_append,
          ← Multiset.coe_add, ← Multiset.cons_coe, ← Multiset.singleton_add]
        abel

theorem maintainKids_spec {p q u : Int} (A B : List (K × Rid)) (kids : List (K × Item K Rid h))
    (hm : Mem ih (⟨p, u, h == 0, A ++ kids.map (pairOf childRid h) ++ B⟩ :: (kidRecs childRid q kids ++ v))) :
    ∃ ih', ih.maintainChildren p A.length kids.length = .ok ih' ∧ Local ih ih' ∧
      Mem ih' (⟨p, u, h == 0, A ++ kids.map (pairOf childRid h) ++ B⟩ :: (kidRecs childRid p kids ++ v)) := by
  cases h with
  | zero =>
      obtain ⟨n, hn, -, hleaf, -⟩ := hm.get
      exact ⟨ih, maintainChildren_leaf hn hleaf _ _, Local.refl ih, by simpa using hm⟩
  | succ h => exact maintainChildren_spec A B kids hm

end MaintainChild

end Rmdb

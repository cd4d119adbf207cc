import Rmdb.Index.Heap
import Rmdb.Lib.Ring

namespace Rmdb

open BPlus SepList IxIndexHandle

variable {K : Type} {h : Nat} {ih : IxIndexHandle K}

def nextOf (ih : IxIndexHandle K) (p : Int) : Option Int := (link ih p).map Prod.snd

def prevOf (ih : IxIndexHandle K) (p : Int) : Option Int := (link ih p).map Prod.fst

section Links

variable {p q : Int} {n : IxNode K}

@[simp] theorem nextOf_self : nextOf (ih.writeNode p n) p = some n.nextLeaf := by simp [nextOf, link]

@[simp] theorem prevOf_self : prevOf (ih.writeNode p n) p = some n.prevLeaf := by simp [prevOf, link]

theorem nextOf_ne (hq : q ≠ p) : nextOf (ih.writeNode p n) q = nextOf ih q := by
  rw [nextOf, nextOf, link, link, writeNode_ne hq]

theorem prevOf_ne (hq : q ≠ p) : prevOf (ih.writeNode p n) q = prevOf ih q := by
  rw [prevOf, prevOf, link, link, writeNode_ne hq]

theorem nextOf_create (hq : q ≠ ih.fd2pageno) : nextOf ih.createNode.2 q = nextOf ih q := by
  simp [nextOf, link, createNode, Function.update_of_ne hq]

theorem prevOf_create (hq : q ≠ ih.fd2pageno) : prevOf ih.createNode.2 q = prevOf ih q := by
  simp [prevOf, link, createNode, Function.update_of_ne hq]

theorem page_of_next (hp : nextOf ih p = some q) : ∃ m, ih.pages p = some m ∧ m.nextLeaf = q := by
  cases hm : ih.pages p with
  | none => simp [nextOf, link, hm] at hp
  | some m => exact ⟨m, rfl, by simpa [nextOf, link, hm] using hp⟩

theorem page_of_prev (hp : prevOf ih p = some q) : ∃ m, ih.pages p = some m ∧ m.prevLeaf = q := by
  cases hm : ih.pages p with
  | none => simp [prevOf, link, hm] at hp
  | some m => exact ⟨m, rfl, by simpa [prevOf, link, hm] using hp⟩

end Links

/-- The leaves form one circular doubly linked list through the header page `1`. -/
structure LeafChain (ih : IxIndexHandle K) (ls : List Int) : Prop where
  links : Ring.IsRing (nextOf ih) (prevOf ih) 1 ls
  first : ls.head? = some ih.fileHdr.firstLeaf
  last : ls.getLast? = some ih.fileHdr.lastLeaf

theorem pairOf_fst (ptr : Int → Rid) : (h : Nat) → (e : K × Item K Rid h) → (pairOf ptr h e).1 = e.1
  | 0, _ => rfl
  | _ + 1, _ => rfl

theorem mem_kidRecs {p : Int} {l : List (K × Tree K Rid h)} {e : K × Tree K Rid h} (he : e ∈ l) :
    ⟨Tree.page e.2, p, h == 0, Tree.pairs childRid e.2⟩ ∈ kidRecs childRid p l :=
  List.mem_flatMap.2 ⟨e, he, by simp [recsItem]⟩

theorem Mem.disjoint {A B : List (Rec K Rid)} (hm : Mem ih (A ++ B)) {r s : Rec K Rid}
    (hr : r ∈ A) (hs : s ∈ B) :
    r.page ≠ s.page := by
  have hn := hm.nodup
  rw [List.map_append, List.nodup_append] at hn
  exact hn.2.2 _ (List.mem_map_of_mem hr) _ (List.mem_map_of_mem hs)

section Leaves

variable {ctx : Ctx K Rid h} {t : Tree K Rid h}

theorem Mem.leaves_nodup (hm : Mem ih (zrecs childRid ctx t)) : (1 :: zleaves ctx t).Nodup := by
  have hsub := zleaves_subperm childRid ctx t
  refine List.nodup_cons.2 ⟨?_, ?_⟩
  · intro h1
    obtain ⟨r, hr, hp⟩ := List.mem_map.1 (hsub.subset h1)
    have := (hm.range r hr).1
    omega
  · obtain ⟨l, hl, hs⟩ := hsub
    exact hl.nodup_iff.1 (hm.nodup.sublist hs)

theorem Mem.leaves_lt (hm : Mem ih (zrecs childRid ctx t)) : ∀ p ∈ 1 :: zleaves ctx t, p < ih.fd2pageno := by
  intro p hp
  rcases List.mem_cons.1 hp with rfl | hp
  · have := hm.range ⟨t.page, ctx.parent, h == 0, t.pairs childRid⟩ (by simp [zrecs, Tree.recs])
    omega
  · obtain ⟨r, hr, rfl⟩ := List.mem_map.1 ((zleaves_subperm childRid ctx t).subset hp)
    exact (hm.range r hr).2

end Leaves

theorem LeafChain.quiet {ih' : IxIndexHandle K} {ls : List Int} (hc : LeafChain ih ls) (hq : Quiet ih ih')
    (hlt : ∀ p ∈ 1 :: ls, p < ih.fd2pageno) : LeafChain ih' ls where
  links := hc.links.congr (fun a ha => by rw [nextOf, nextOf, hq.link a (hlt a ha)])
    (fun a ha => by rw [prevOf, prevOf, hq.link a (hlt a ha)])
  first := by rw [hq.first]; exact hc.first
  last := by rw [hq.last]; exact hc.last

/-- The pointer to the subtree in the gap is the only one to its page in the parent. -/
theorem Mem.left_ne {p : Int} {l : List (K × Tree K Rid h)} {k : K} {r : List (K × Tree K Rid h)}
    {up : Ctx K Rid (h + 1)} {t : Tree K Rid h} (hm : Mem ih (zrecs childRid (.frame p l k r up) t)) :
    ∀ a ∈ l.map (pairOf childRid (h + 1)), a.2.pageNo ≠ t.page := by
  intro a ha
  obtain ⟨e, he, rfl⟩ := List.mem_map.1 ha
  have hd := Mem.disjoint (r := ⟨t.page, p, h == 0, t.pairs childRid⟩)
    (s := ⟨Tree.page e.2, p, h == 0, Tree.pairs childRid e.2⟩) hm (by simp [Tree.recs])
    (by simp [Ctx.recs, mem_kidRecs he])
  exact fun he => hd he.symm

theorem depth_le_recs (ctx : Ctx K Rid h) (hole : Int) : ctx.depth ≤ (ctx.recs childRid hole).length := by
  induction ctx generalizing hole with
  | top => exact Nat.zero_le _
  | frame p l k r up ihc =>
      have := ihc p
      simp only [Ctx.depth, Ctx.recs, List.length_cons, List.length_append]
      omega

/-- The path to the root is shorter than the number of allocated pages. -/
theorem Mem.depth_lt {ctx : Ctx K Rid h} {t : Tree K Rid h} (hm : Mem ih (zrecs childRid ctx t)) :
    ctx.depth + 2 < ih.fd2pageno := by
  have hd := depth_le_recs ctx t.page
  rcases hm.length_le with hle | hnil
  · simp only [zrecs, Tree.recs, List.cons_append, List.length_cons, List.length_append] at hle
    omega
  · simp [zrecs, Tree.recs] at hnil

section Gap

variable {ctx : Ctx K Rid h} {t : Tree K Rid h} {p : Int} {l r : List (K × Tree K Rid h)} {k : K}
  {up : Ctx K Rid (h + 1)}

theorem Mem.hole (hm : Mem ih (zrecs childRid ctx t)) :
    ∃ n, ih.pages t.page = some n ∧ n.parent = ctx.parent ∧ n.isLeaf = (h == 0) ∧
      n.pairs = t.pairs childRid :=
  hm.get_of_mem (r := ⟨t.page, ctx.parent, h == 0, t.pairs childRid⟩) (by simp [zrecs, Tree.recs])

theorem Mem.above (hm : Mem ih (zrecs childRid (.frame p l k r up) t)) :
    ∃ n, ih.pages p = some n ∧ n.parent = up.parent ∧ n.isLeaf = false ∧
      n.pairs = gapPairs childRid l k t.page r :=
  hm.get_of_mem (r := ⟨p, up.parent, false, gapPairs childRid l k t.page r⟩) (by simp [zrecs, Ctx.recs])

theorem Mem.above_range (hm : Mem ih (zrecs childRid (.frame p l k r up) t)) : 2 ≤ p ∧ p < ih.fd2pageno :=
  hm.range ⟨p, up.parent, false, gapPairs childRid l k t.page r⟩ (by simp [zrecs, Ctx.recs])

theorem Mem.writeAbove (hm : Mem ih (zrecs childRid (.frame p l k r up) t)) {n : IxNode K} {k' : K}
    (hpar : n.parent = up.parent) (hleaf : n.isLeaf = false)
    (hpairs : n.pairs = gapPairs childRid l k' t.page r) :
    Mem (ih.writeNode p n) (zrecs childRid (.frame p l k' r up) t) := by
  have hm1 := hm.perm (w := ⟨p, up.parent, false, gapPairs childRid l k t.page r⟩ :: (t.recs childRid p ++
      (kidRecs childRid p l ++ kidRecs childRid p r ++ up.recs childRid p))) (by
    simp only [zrecs, Ctx.recs, Ctx.parent_frame]
    exact List.perm_middle)
  have hm2 :=
    hm1.write (c := ⟨p, up.parent, false, gapPairs childRid l k' t.page r⟩) rfl ⟨hpar, hleaf, hpairs⟩
  refine hm2.perm ?_
  simp only [zrecs, Ctx.recs, Ctx.parent_frame]
  exact List.perm_middle.symm

theorem Mem.findChild_gap (hm : Mem ih (zrecs childRid (.frame p l k r up) t)) {n : IxNode K}
    (hpairs : n.pairs = gapPairs childRid l k t.page r) : findChild n t.page = .ok l.length := by
  have hfc : n.findChild t.page = l.length := by
    simpa using IxNode.findChild_split hpairs (by simpa using hm.left_ne)
  rw [findChild, hfc, if_pos]
  simp [IxNode.getSize, hpairs, gapPairs]

end Gap

variable [IxKey K] [LinearOrder K] [LawfulIxKey K]

omit [LinearOrder K] [LawfulIxKey K] in
theorem getKey_first {n : IxNode K} {t : Tree K Rid h} {e : K × Item K Rid h} {rest : List (K × Item K Rid h)}
    (hpairs : n.pairs = t.pairs childRid) (ht : t.items = e :: rest) : n.getKey 0 = e.1 := by
  have hps : n.pairs = pairOf childRid h e :: rest.map (pairOf childRid h) := by
    rw [hpairs, Tree.pairs, ht, List.map_cons]
  rw [IxNode.getKey_zero hps, pairOf_fst]

/-- `maintain_parent` rewrites the separators on the path to the root. -/
theorem maintainParentLoop_spec (ctx : Ctx K Rid h) (t : Tree K Rid h) (e : K × Item K Rid h)
    (rest : List (K × Item K Rid h)) (ht : t.items = e :: rest) (fuel : Nat) (hf : ctx.depth < fuel)
    (hm : Mem ih (zrecs childRid ctx t)) :
    ∃ ih', ih.maintainParentLoop fuel t.page = .ok ih' ∧ Local ih ih' ∧
      Mem ih' (zrecs childRid (ctx.refit e.1) t) := by
  induction ctx generalizing ih fuel with
  | top =>
      obtain ⟨fuel, rfl⟩ : ∃ f, fuel = f + 1 := ⟨fuel - 1, by omega⟩
      obtain ⟨n, hn, hpar, -, -⟩ := hm.hole
      exact ⟨ih, by simp [maintainParentLoop, fetchNode_eq hn, hpar], Local.refl ih, hm⟩
  | frame p l k r up ihc =>
      obtain ⟨fuel, rfl⟩ : ∃ f, fuel = f + 1 := ⟨fuel - 1, by omega⟩
      obtain ⟨n, hn, hpar, -, hpairs⟩ := hm.hole
      obtain ⟨m, hmp, hmpar, hmleaf, hmpairs⟩ := hm.above
      have hp : p ≠ -1 := by have := hm.above_range; omega
      have hfirst := getKey_first hpairs ht
      have hrank := hm.findChild_gap hmpairs
      have hsep : m.getKey l.length = k := by
        simpa using IxNode.getKey_split hmpairs
      rw [Ctx.parent_frame] at hpar
      by_cases hk : k = e.1
      · refine ⟨ih, ?_, Local.refl ih, by rw [Ctx.refit_frame, if_pos hk]; exact hm⟩
        simp [maintainParentLoop, fetchNode_eq hn, hpar, hp, fetchNode_eq hmp, hrank, hsep, hfirst,
          (LawfulIxKey.memcmp_zero k e.1).2 hk]
      · -- one separator is written, and the climb goes on from the parent
        have hset : (m.setKey l.length e.1).pairs = gapPairs childRid l e.1 t.page r := by
          simpa [gapPairs] using IxNode.setKey_split hmpairs e.1
        have hm2 := hm.writeAbove (n := m.setKey l.length e.1) hmpar hmleaf hset
        have hloc : Local ih (ih.writeNode p (m.setKey l.length e.1)) := local_write hmp rfl rfl
        have hm3 := hm2.perm (zrecs_close p l e.1 t r up childRid).symm
        obtain ⟨e', rest', hit, hkey⟩ : ∃ e' rest', (Tree.close p l e.1 t r).items = e' :: rest' ∧
            e'.1 = (l.map Prod.fst).headD e.1 := by
          cases l with
          | nil => exact ⟨_, _, rfl, rfl⟩
          | cons a l => exact ⟨_, _, rfl, rfl⟩
        obtain ⟨ih', hrun, hloc', hm4⟩ := ihc _ e' rest' hit fuel
          (by simp only [Ctx.depth] at hf; omega) hm3
        refine ⟨ih', ?_, hloc.trans hloc', ?_⟩
        · rw [maintainParentLoop]
          simp only [fetchNode_eq hn, ok_bind, hpar, hp, if_false, fetchNode_eq hmp, hrank,
            hsep, hfirst, LawfulIxKey.memcmp_zero, hk]
          exact hrun
        · rw [Ctx.refit_frame, if_neg hk, ← hkey]
          exact hm4.perm (zrecs_close p l e.1 t r (up.refit e'.1) childRid)

theorem maintainParent_spec (ctx : Ctx K Rid h) (t : Tree K Rid h) (e : K × Item K Rid h)
    (rest : List (K × Item K Rid h)) (ht : t.items = e :: rest) (hm : Mem ih (zrecs childRid ctx t)) :
    ∃ ih', ih.maintainParent t.page = .ok ih' ∧ Local ih ih' ∧
      Mem ih' (zrecs childRid (ctx.refit e.1) t) :=
  maintainParentLoop_spec ctx t e rest ht _ (by have := hm.depth_lt; omega) hm

end Rmdb

import Rmdb.Index.Climb
import Rmdb.Lib.BPlusExact

namespace Rmdb

open BPlus SepList IxIndexHandle

variable {K : Type} {h : Nat} {ih : IxIndexHandle K}

/-- The index holds the tree `t` plugged into `ctx`. How full the node in the gap is, is
left open: it changes before the tree is put in order again. -/
structure Shape [LinearOrder K] (ih : IxIndexHandle K) (ctx : Ctx K Rid h) (t : Tree K Rid h) : Prop where
  order : 6 ≤ ih.fileHdr.btreeOrder
  root : ih.fileHdr.rootPage = ctx.root t.page
  mem : Mem ih (zrecs childRid ctx t)
  sorted : Sorted (zflat ctx t)
  ctxSized : ctx.Sized ih.fileHdr.btreeOrder
  kids : ∀ e ∈ t.items, Sized ih.fileHdr.btreeOrder h e

/-- A tree in its context together with its leaf chain. -/
structure Zip [LinearOrder K] (ih : IxIndexHandle K) (ctx : Ctx K Rid h) (t : Tree K Rid h) : Prop
    extends Shape ih ctx t where
  chain : LeafChain ih (zleaves ctx t)

def Fits (ih : IxIndexHandle K) (ctx : Ctx K Rid h) (t : Tree K Rid h) : Prop :=
  ctx.Low ih.fileHdr.btreeOrder t.items.length ∧ t.items.length < ih.fileHdr.btreeOrder

/-- A well-formed index holding the entries `es`. -/
def Valid [LinearOrder K] (ih : IxIndexHandle K) (es : List (K × Rid)) : Prop :=
  ∃ (h : Nat) (t : Tree K Rid h), Zip ih .top t ∧ Fits ih .top t ∧ ents t.items = es

def ValidIf [LinearOrder K] (ih : IxIndexHandle K) (es : List (K × Rid)) (P : Prop) : Prop :=
  ∃ (h : Nat) (t : Tree K Rid h), Zip ih .top t ∧ Fits ih .top t ∧ ents t.items = es ∧ (P → t.Exact)

section ValidIf

variable [LinearOrder K] {es : List (K × Rid)} {P Q : Prop}

theorem ValidIf.valid (hv : ValidIf ih es P) : Valid ih es := by
  obtain ⟨h, t, hz, hf, hes, -⟩ := hv
  exact ⟨h, t, hz, hf, hes⟩

theorem Valid.validIf (hv : Valid ih es) : ValidIf ih es False := by
  obtain ⟨h, t, hz, hf, hes⟩ := hv
  exact ⟨h, t, hz, hf, hes, False.elim⟩

theorem ValidIf.imp (hv : ValidIf ih es P) (hpq : Q → P) : ValidIf ih es Q := by
  obtain ⟨h, t, hz, hf, hes, hexact⟩ := hv
  exact ⟨h, t, hz, hf, hes, fun hq => hexact (hpq hq)⟩

end ValidIf

section Split

variable {I : Type} [LinearOrder K]

/-- The item a search for `k` follows: the last one not above `k`, or the first. -/
theorem path_split (k : K) (items : List (K × I)) (hne : items ≠ [])
    (hs : items.Pairwise (fun a b => a.1 < b.1)) :
    ∃ l e r, items = l ++ e :: r ∧ (e.1 ≤ k ∨ l = [] ∧ k < e.1) ∧ ∀ x ∈ r, k < x.1 := by
  induction items with
  | nil => exact absurd rfl hne
  | cons a rest ihr =>
      cases rest with
      | nil => exact ⟨[], a, [], rfl, (le_or_gt a.1 k).imp id (fun hlt => ⟨rfl, hlt⟩), by simp⟩
      | cons b rest =>
          have htail := (List.pairwise_cons.1 hs).2
          by_cases hb : k < b.1
          · refine ⟨[], a, b :: rest, rfl, (le_or_gt a.1 k).imp id (fun hlt => ⟨rfl, hlt⟩), ?_⟩
            intro x hx
            rcases List.mem_cons.1 hx with rfl | hx
            · exact hb
            · exact lt_trans hb (List.rel_of_pairwise_cons htail hx)
          · obtain ⟨l, e, r, he, hek, hr⟩ := ihr (by simp) htail
            refine ⟨a :: l, e, r, by rw [he]; rfl, Or.inl ?_, hr⟩
            rcases hek with hek | ⟨rfl, hlt⟩
            · exact hek
            · rw [List.nil_append, List.cons.injEq] at he
              exact absurd (he.1 ▸ hlt) hb

theorem key_split (k : K) (items : List (K × I)) (hs : items.Pairwise (fun a b => a.1 < b.1)) :
    ∃ A B, (∀ e ∈ A, e.1 < k) ∧ (∀ e ∈ B, k < e.1) ∧ (items = A ++ B ∨ ∃ i, items = A ++ (k, i) :: B) := by
  induction items with
  | nil => exact ⟨[], [], by simp, by simp, Or.inl rfl⟩
  | cons a rest ihr =>
      obtain ⟨ha, htail⟩ := List.pairwise_cons.1 hs
      rcases lt_trichotomy a.1 k with hlt | rfl | hgt
      · obtain ⟨A, B, hA, hB, hc⟩ := ihr htail
        refine ⟨a :: A, B, ?_, hB, hc.imp (fun hc => by rw [hc]; rfl) (fun ⟨i, hi⟩ => ⟨i, by rw [hi]; rfl⟩)⟩
        intro e he
        rcases List.mem_cons.1 he with rfl | he
        · exact hlt
        · exact hA e he
      · exact ⟨[], rest, by simp, ha, Or.inr ⟨a.2, rfl⟩⟩
      · refine ⟨[], a :: rest, by simp, ?_, Or.inl rfl⟩
        intro e he
        rcases List.mem_cons.1 he with rfl | he
        · exact hgt
        · exact lt_trans hgt (ha e he)

end Split

section Nonempty

variable [LinearOrder K] {order : Nat}

omit [LinearOrder K] in
theorem exists_ent (ho : 2 ≤ order) : {h : Nat} → (l : List (K × Item K Rid h)) → l ≠ [] →
    (∀ e ∈ l, Sized order h e) → ∃ x, Tok.ent x ∈ flat l
  | 0, e :: l, _, _ => ⟨e.1, by simp [flat_zero]⟩
  | _ + 1, e :: l, _, hs => by
      obtain ⟨hlo, -, hk⟩ := hs e (by simp)
      have hne : Tree.items e.2 ≠ [] := by
        intro hc
        rw [hc, List.length_nil] at hlo
        omega
      obtain ⟨x, hx⟩ := exists_ent ho (Tree.items e.2) hne hk
      exact ⟨x, by simp [hx]⟩

/-- The keys of an internal node ascend strictly, since every subtree stores a key. -/
theorem keys_lt (ho : 2 ≤ order) (l : List (K × Tree K Rid h)) (hs : Sorted (flat l))
    (hk : ∀ e ∈ l, Sized order (h + 1) e) : l.Pairwise (fun a b => a.1 < b.1) := by
  induction l with
  | nil => exact List.Pairwise.nil
  | cons e l ihl =>
      rw [flat_cons] at hs
      obtain ⟨he, hs'⟩ := List.pairwise_cons.1 hs
      refine List.pairwise_cons.2 ⟨?_, ihl (sorted_append.1 hs').2.1 (fun x hx => hk x (by simp [hx]))⟩
      intro x hx
      obtain ⟨hlo, -, hke⟩ := hk e (by simp)
      have hne : Tree.items e.2 ≠ [] := by
        intro hc
        rw [hc, List.length_nil] at hlo
        omega
      obtain ⟨y, hy⟩ := exists_ent ho (Tree.items e.2) hne hke
      have hxl : Tok.sep x.1 ∈ flat l := List.mem_flatMap.2 ⟨x, hx, by simp [flatItem]⟩
      have h1 : e.1 ≤ y := he (.ent y) (List.mem_append_left _ hy)
      have h2 : y < x.1 := (sorted_append.1 hs').2.2 (.ent y) hy (.sep x.1) hxl
      exact lt_of_le_of_lt h1 h2

theorem leaf_keys_lt (l : List (K × Item K Rid 0)) (hs : Sorted (flat l)) :
    l.Pairwise (fun a b => a.1 < b.1) := by
  rw [flat_zero] at hs
  exact (List.pairwise_map.1 hs).imp (fun hab => hab)

theorem leaf_split (k : K) (l : List (K × Item K Rid 0)) (hs : Sorted (flat l)) :
    ∃ A B, (∀ e ∈ A, e.1 < k) ∧ (∀ e ∈ B, k < e.1) ∧ (l = A ++ B ∨ ∃ r, l = A ++ ofVal (k, r) :: B) :=
  key_split k l (leaf_keys_lt l hs)

end Nonempty

variable [LinearOrder K]

namespace Shape

variable {ctx : Ctx K Rid h} {t : Tree K Rid h} {p : Int} {l r : List (K × Tree K Rid h)} {k : K}
  {up : Ctx K Rid (h + 1)}

theorem items_sorted (hz : Shape ih ctx t) : Sorted (flat t.items) :=
  (sorted_append.1 (sorted_append.1 hz.sorted).1).2.1

theorem left_sorted (hz : Shape ih ctx t) : Sorted ctx.left :=
  (sorted_append.1 (sorted_append.1 hz.sorted).1).1

theorem right_sorted (hz : Shape ih ctx t) : Sorted ctx.right := (sorted_append.1 hz.sorted).2.1

theorem close (hz : Shape ih (.frame p l k r up) t) (hlo : ih.fileHdr.btreeOrder / 2 ≤ t.items.length)
    (hhi : t.items.length < ih.fileHdr.btreeOrder) : Shape ih up (Tree.close p l k t r) where
  order := hz.order
  root := hz.root
  mem := hz.mem.perm (zrecs_close p l k t r up childRid).symm
  sorted := by rw [zflat_close]; exact hz.sorted
  ctxSized := hz.ctxSized.2.2.2.2
  kids e he := by
    rw [Tree.close, Tree.items_mk] at he
    rcases List.mem_append.1 he with he | he
    · exact hz.ctxSized.1 e he
    · rcases List.mem_cons.1 he with rfl | he
      · exact ⟨hlo, hhi, hz.kids⟩
      · exact hz.ctxSized.2.1 e he

theorem close_fits (hz : Shape ih (.frame p l k r up) t) : Fits ih up (Tree.close p l k t r) := by
  obtain ⟨-, -, hlow, hlt, -⟩ := hz.ctxSized
  simp only [Fits, Tree.close, Tree.items_mk, List.length_append, List.length_cons]
  exact ⟨by rw [show l.length + (r.length + 1) = l.length + 1 + r.length by omega]; exact hlow, by omega⟩

theorem cut (hz : Shape ih up (Tree.close p l k t r)) (hf : Fits ih up (Tree.close p l k t r)) :
    Shape ih (.frame p l k r up) t ∧ Fits ih (.frame p l k r up) t := by
  have hkid : Sized ih.fileHdr.btreeOrder (h + 1) (k, t) := hz.kids _ (by simp [Tree.close])
  obtain ⟨hlo, hhi, hkids⟩ := hkid
  simp only [Fits, Tree.close, Tree.items_mk, List.length_append, List.length_cons] at hf
  refine ⟨⟨hz.order, hz.root, hz.mem.perm (zrecs_close p l k t r up childRid), ?_, ?_, hkids⟩, hlo, hhi⟩
  · rw [← zflat_close]; exact hz.sorted
  · refine ⟨fun e he => hz.kids e (by simp [Tree.close, he]), fun e he =>
      hz.kids e (by simp [Tree.close, he]), ?_, by omega, hz.ctxSized⟩
    rw [show l.length + 1 + r.length = l.length + (r.length + 1) by omega]
    exact hf.1

theorem items_ne (hz : Shape ih (.frame p l k r up) t) (hf : Fits ih (.frame p l k r up) t) :
    t.items ≠ [] := by
  intro hc
  have hord := hz.order
  have hlow := hf.1
  rw [hc, Ctx.Low, List.length_nil] at hlow
  omega

theorem toTop (hz : Shape ih ctx t) (hf : Fits ih ctx t) :
    ∃ (H : Nat) (T : Tree K Rid H), Shape ih .top T ∧ Fits ih .top T ∧ ents T.items = zents ctx t ∧
      T.leaves = zleaves ctx t ∧ (ZExact ctx t → T.Exact) := by
  induction ctx with
  | top => exact ⟨_, t, hz, hf, by simp [zents, Ctx.leftEnts, Ctx.rightEnts],
      by simp [zleaves, Ctx.leftLeaves, Ctx.rightLeaves], And.left⟩
  | frame p l k r up ihc =>
      obtain ⟨H, T, hT, hfT, he, hl, hexact⟩ := ihc (hz.close hf.1 hf.2) hz.close_fits
      rw [zents_close] at he
      rw [zleaves_close] at hl
      exact ⟨H, T, hT, hfT, he, hl, fun hx => hexact ((zexact_close (hz.items_ne hf)).2 hx)⟩

end Shape

theorem Zip.finish {ctx : Ctx K Rid h} {t : Tree K Rid h} (hz : Zip ih ctx t) (hf : Fits ih ctx t) :
    ValidIf ih (zents ctx t) (ZExact ctx t) := by
  obtain ⟨H, T, hT, hfT, he, hl, hexact⟩ := hz.toShape.toTop hf
  refine ⟨H, T, ⟨hT, ?_⟩, hfT, he, hexact⟩
  rw [zleaves, Ctx.leftLeaves, Ctx.rightLeaves, List.nil_append, List.append_nil, hl]
  exact hz.chain

section Descend

variable [IxKey K] [LawfulIxKey K]

/-- The descent reaches the leaf where `k` belongs. -/
theorem descend_spec (k : K) (ctx : Ctx K Rid h) (t : Tree K Rid h) (hz : Zip ih ctx t) (hf : Fits ih ctx t)
    (hp : ctx.OnPath k) (fuel : Nat) (hfuel : h < fuel) :
    ∃ (ctx' : Ctx K Rid 0) (t' : Tree K Rid 0), ih.descend k fuel t.page = .ok t'.page ∧ Zip ih ctx' t' ∧
      Fits ih ctx' t' ∧ ctx'.OnPath k ∧ zents ctx' t' = zents ctx t ∧ (ZExact ctx t → ZExact ctx' t') := by
  induction h generalizing fuel with
  | zero =>
      obtain ⟨fuel, rfl⟩ : ∃ f, fuel = f + 1 := ⟨fuel - 1, by omega⟩
      obtain ⟨n, hn, -, hleaf, -⟩ := hz.mem.hole
      exact ⟨ctx, t, by simp [descend, fetchNode_eq hn, hleaf], hz, hf, hp, rfl, id⟩
  | succ h ihh =>
      obtain ⟨fuel, rfl⟩ : ∃ f, fuel = f + 1 := ⟨fuel - 1, by omega⟩
      have hord := hz.order
      have hne : t.items ≠ [] := by
        intro hc
        have hlow := hf.1
        rw [hc] at hlow
        cases ctx <;> simp [Ctx.Low] at hlow
        omega
      have hlt := keys_lt (by omega) t.items hz.toShape.items_sorted hz.kids
      obtain ⟨l, ⟨s, c⟩, r, hit, hsk, hr⟩ := path_split k t.items hne hlt
      obtain ⟨n, hn, -, hleaf, hpairs⟩ := hz.mem.hole
      have hpairs' : n.pairs = l.map (pairOf childRid (h + 1)) ++ (s, childRid (Tree.page c)) ::
          r.map (pairOf childRid (h + 1)) := by
        rw [hpairs, Tree.pairs, hit]; simp [pairOf]
      have hlook : n.internalLookup k = Tree.page c := by
        refine IxNode.internalLookup_split hpairs' ?_ ?_ ?_
        · intro a ha
          obtain ⟨x, hx, rfl⟩ := List.mem_map.1 ha
          rw [hit] at hlt
          exact (List.pairwise_append.1 hlt).2.2 x hx (s, c) (by simp)
        · intro a ha
          obtain ⟨x, hx, rfl⟩ := List.mem_map.1 ha
          exact hr x hx
        · simpa using hsk
      have hclose : t = Tree.close t.page l s c r := by
        rw [Tree.close, ← hit, Tree.mk_eta]
      rw [hclose] at hz hf
      obtain ⟨hs', hf'⟩ := hz.toShape.cut hf
      have hz' : Zip ih (.frame t.page l s r ctx) c := ⟨hs', by rw [← zleaves_close]; exact hz.chain⟩
      have hpath : (Ctx.frame t.page l s r ctx).OnPath k :=
        ⟨hsk, fun e he => hr e (List.mem_of_mem_head? he), hp⟩
      obtain ⟨ctx', t', hrun, hz'', hf'', hp'', hents, hexact⟩ := ihh _ c hz' hf' hpath fuel (by omega)
      refine ⟨ctx', t', ?_, hz'', hf'', hp'', ?_, ?_⟩
      · simp only [descend, fetchNode_eq hn, ok_bind, hleaf, hlook]
        exact hrun
      · rw [hents, hclose, zents_close]; rfl
      · intro hx
        rw [hclose, zexact_close (hs'.items_ne hf')] at hx
        exact hexact hx

omit [LinearOrder K] [IxKey K] [LawfulIxKey K] in
/-- The tree is lower than the number of allocated pages. -/
theorem height_lt (order : Nat) (ho : 2 ≤ order) : {h : Nat} → (p : Int) →
    (l : List (K × Item K Rid h)) → l ≠ [] →
    (∀ e ∈ l, Sized order h e) → h ≤ (kidRecs childRid p l).length
  | 0, _, _, _, _ => Nat.zero_le _
  | h + 1, p, e :: l, _, hs => by
      obtain ⟨hlo, -, hk⟩ := hs e (by simp)
      have hne : Tree.items e.2 ≠ [] := by
        intro hc
        rw [hc, List.length_nil] at hlo
        omega
      have := height_lt order ho (Tree.page e.2) (Tree.items e.2) hne hk
      simp only [kidRecs_cons, Tree.recs, List.cons_append, List.length_cons, List.length_append]
      omega

omit [IxKey K] [LawfulIxKey K] in
theorem Zip.height_le (t : Tree K Rid h) (hz : Zip ih .top t) (hf : Fits ih .top t) : h < ih.fd2pageno := by
  have hord := hz.order
  rcases hz.mem.length_le with hle | hnil
  · cases h with
    | zero => omega
    | succ h =>
        have hne : t.items ≠ [] := by
          intro hc
          have hlow := hf.1
          rw [hc] at hlow
          simp [Ctx.Low] at hlow
        have := height_lt _ (by omega) t.page t.items hne hz.kids
        simp only [zrecs, Tree.recs, Ctx.recs, List.length_cons, List.append_nil] at hle
        omega
  · simp [zrecs, Tree.recs] at hnil

theorem findLeafPage_exact (k : K) {es : List (K × Rid)} {P : Prop} (hv : ValidIf ih es P) :
    ∃ (ctx : Ctx K Rid 0) (t : Tree K Rid 0), ih.findLeafPage k = .ok t.page ∧ Zip ih ctx t ∧
      Fits ih ctx t ∧ ctx.OnPath k ∧ zents ctx t = es ∧ (P → ZExact ctx t) := by
  obtain ⟨h, t, hz, hf, rfl, hexact⟩ := hv
  obtain ⟨ctx, t', hrun, hz', hf', hp, hents, hexact'⟩ := descend_spec k .top t hz hf trivial ih.fd2pageno
    (hz.height_le t hf)
  refine ⟨ctx, t', ?_, hz', hf', hp, ?_, fun hx => hexact' (zexact_top.2 (hexact hx))⟩
  · rw [findLeafPage, hz.root]; exact hrun
  · rw [hents]; simp [zents, Ctx.leftEnts, Ctx.rightEnts]

theorem findLeafPage_spec (k : K) {es : List (K × Rid)} (hv : Valid ih es) :
    ∃ (ctx : Ctx K Rid 0) (t : Tree K Rid 0), ih.findLeafPage k = .ok t.page ∧ Zip ih ctx t ∧
      Fits ih ctx t ∧ ctx.OnPath k ∧ zents ctx t = es := by
  obtain ⟨ctx, t, hrun, hz, hf, hp, hents, -⟩ := findLeafPage_exact k hv.validIf
  exact ⟨ctx, t, hrun, hz, hf, hp, hents⟩

end Descend

end Rmdb

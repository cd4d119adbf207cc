import Rmdb.Lib.BPlusOrder

namespace Rmdb.BPlus

variable {K V : Type} {h : Nat}

/-- Below the item every separator is the first key of the subtree behind it, and so is the key of
the item. -/
def ExactItem : (h : Nat) → K × Item K V h → Prop
  | 0, _ => True
  | h + 1, e => (Tree.items e.2).head?.map Prod.fst = some e.1 ∧ ∀ i ∈ Tree.items e.2, ExactItem h i

def Tree.Exact (t : Tree K V h) : Prop := ∀ i ∈ t.items, ExactItem h i

namespace Ctx

def Exact : {h : Nat} → K → Ctx K V h → Prop
  | _, _, .top => True
  | h, f, .frame _ l k r up =>
      k = f ∧ (∀ e ∈ l, ExactItem (h + 1) e) ∧ (∀ e ∈ r, ExactItem (h + 1) e) ∧
        up.Exact ((l.map Prod.fst).headD k)

def ExactAround : {h : Nat} → Ctx K V h → Prop
  | _, .top => True
  | h, .frame _ l k r up =>
      (∀ e ∈ l, ExactItem (h + 1) e) ∧ (∀ e ∈ r, ExactItem (h + 1) e) ∧ up.Exact ((l.map Prod.fst).headD k)

end Ctx

/-- All separators of a tree with a gap, when `t` is in the gap. -/
def ZExact (ctx : Ctx K V h) (t : Tree K V h) : Prop := t.Exact ∧ ∀ e ∈ t.items.head?, ctx.Exact e.1

variable {ctx : Ctx K V h} {t : Tree K V h} {p : Int} {l r : List (K × Tree K V h)} {k f g : K}
  {up : Ctx K V (h + 1)}

theorem Ctx.Exact.around (hc : ctx.Exact f) : ctx.ExactAround := by
  cases ctx with
  | top => trivial
  | frame p l k r up => exact hc.2

theorem zexact_top : ZExact .top t ↔ t.Exact := ⟨And.left, fun ht => ⟨ht, fun _ _ => trivial⟩⟩

theorem exactItem_succ (hc : t.items.head?.map Prod.fst = some k) (ht : t.Exact) :
    ExactItem (h + 1) (k, t) := ⟨hc, ht⟩

theorem head_append_cons (e : K × Tree K V h) :
    (l ++ e :: r).head?.map Prod.fst = some ((l.map Prod.fst).headD e.1) := by
  cases l <;> rfl

theorem zexact_close (hne : t.items ≠ []) :
    ZExact up (Tree.close p l k t r) ↔ ZExact (.frame p l k r up) t := by
  obtain ⟨e, rest, ht⟩ := List.exists_cons_of_ne_nil hne
  have hup : (∀ x ∈ (Tree.close p l k t r).items.head?, up.Exact x.1) ↔
      up.Exact ((l.map Prod.fst).headD k) := by
    rw [Tree.close, Tree.items_mk]
    cases l <;> simp
  rw [ZExact, hup, ZExact, ht]
  constructor
  · rintro ⟨hkids, habove⟩
    obtain ⟨hfirst, hexact⟩ := hkids (k, t) (by simp [Tree.close])
    have hk : e.1 = k := by simpa [ht] using hfirst
    refine ⟨hexact, fun x hx => ?_⟩
    obtain rfl : e = x := by simpa using hx
    exact ⟨hk.symm, fun y hy => hkids y (by simp [Tree.close, hy]), fun y hy =>
      hkids y (by simp [Tree.close, hy]), habove⟩
  · rintro ⟨hexact, habove⟩
    obtain ⟨hk, hl, hr, hup⟩ := habove e (by simp)
    refine ⟨fun x hx => ?_, hup⟩
    rw [Tree.close, Tree.items_mk] at hx
    rcases List.mem_append.1 hx with hx | hx
    · exact hl x hx
    · rcases List.mem_cons.1 hx with rfl | hx
      · exact exactItem_succ (by rw [ht, hk]; rfl) hexact
      · exact hr x hx

theorem refit_exact [DecidableEq K] (hc : ctx.Exact g) : (ctx.refit f).Exact f := by
  induction ctx generalizing f g with
  | top => trivial
  | frame p l k r up ih =>
      obtain ⟨-, hl, hr, hup⟩ := hc
      rw [Ctx.refit_frame]
      split
      · next hk => exact ⟨hk, hl, hr, hup⟩
      · exact ⟨rfl, hl, hr, ih hup⟩

section Repair

def ExactBelow : (h : Nat) → K × Item K V h → Prop
  | 0, _ => True
  | _ + 1, e => Tree.Exact e.2

/-- The node in the gap is short, and what repairs it puts the separator before the gap in order
or takes it away: the node has a left sibling, or it is merged into the new root. -/
def Ctx.Mends (order n : Nat) : {h : Nat} → Ctx K V h → Prop
  | _, .top => False
  | _, .frame _ l _ r up =>
      n < order / 2 ∧ (l ≠ [] ∨ up = .top ∧ ∃ e, r = [e] ∧ n + (Tree.items e.2).length < order)

def Mended (order : Nat) (ctx : Ctx K V h) (t : Tree K V h) : Prop :=
  ZExact ctx t ∨ (ctx = .top ∧ ∃ e, t.items = [e] ∧ ExactBelow h e) ∨
    t.Exact ∧ ctx.ExactAround ∧ ctx.Mends order t.items.length

variable {order : Nat} {a b : Tree K V h} {ka kb : K} {e : K × Item K V h} {x y : List (K × Item K V h)}

theorem Mended.exact (hm : Mended order ctx t) (ho : 6 ≤ order) (hfull : order / 2 ≤ t.items.length) :
    ZExact ctx t := by
  rcases hm with hx | ⟨-, e, he, -⟩ | ⟨-, -, hmends⟩
  · exact hx
  · rw [he, List.length_singleton] at hfull
    omega
  · cases ctx with
    | top => exact hmends.elim
    | frame p l k r up => exact absurd hmends.1 (not_lt.2 hfull)

theorem Mended.around (hm : Mended order (.frame p l k r up) t) (hne : t.items ≠ []) :
    t.Exact ∧ (Ctx.frame p l k r up).ExactAround := by
  rcases hm with hx | ⟨hc, -⟩ | ⟨ht, haround, -⟩
  · obtain ⟨e, rest, ht⟩ := List.exists_cons_of_ne_nil hne
    exact ⟨hx.1, (hx.2 e (by rw [ht]; rfl)).around⟩
  · cases hc
  · exact ⟨ht, haround⟩

/-- A first child has no sibling whose separator would be set right with its own. -/
theorem Mended.first (hm : Mended order (.frame p [] k r up) t) :
    ZExact (.frame p [] k r up) t ∨ t.Exact ∧ up = .top ∧ ∃ e, r = [e] ∧ ExactItem (h + 1) e ∧
      t.items.length + (Tree.items e.2).length < order := by
  rcases hm with hx | ⟨hc, -⟩ | ⟨ht, haround, -, hl | ⟨hup, e, hr, hlt⟩⟩
  · exact .inl hx
  · cases hc
  · exact absurd rfl hl
  · exact .inr ⟨ht, hup, e, hr, haround.2.1 e (by rw [hr]; exact List.mem_singleton_self e), hlt⟩

theorem zexact_items {items : List (K × Tree K V h)} (hkids : ∀ e ∈ items, ExactItem (h + 1) e)
    (hfirst : items.head?.map Prod.fst = some k) (hup : up.Exact k) : ZExact up (Tree.mk p items) := by
  refine ⟨hkids, fun e he => ?_⟩
  rw [Tree.items_mk] at he
  rw [he, Option.map_some, Option.some.injEq] at hfirst
  rw [hfirst]
  exact hup

theorem forall_kids {items : List (K × Tree K V h)} {c : K × Tree K V h} (hl : ∀ e ∈ l, ExactItem (h + 1) e)
    (hc : ExactItem (h + 1) c) (hr : ∀ e ∈ items, ExactItem (h + 1) e) :
    ∀ e ∈ l ++ c :: items, ExactItem (h + 1) e := by
  intro e he
  rcases List.mem_append.1 he with he | he
  · exact hl e he
  · rcases List.mem_cons.1 he with rfl | he
    · exact hc
    · exact hr e he

theorem exact_borrow_right {f : K × Item K V h} (hx : ZExact (.frame p [] k ((kb, b) :: r) up) a)
    (hne : a.items ≠ []) (hb : b.items = e :: f :: y) :
    ZExact up (Tree.mk p ((k, Tree.mk a.page (a.items ++ [e])) :: (f.1, Tree.mk b.page (f :: y)) :: r)) := by
  obtain ⟨c, rest, ha⟩ := List.exists_cons_of_ne_nil hne
  obtain ⟨hk, -, hr, hup⟩ := hx.2 c (by rw [ha]; rfl)
  have hb' := (hr (kb, b) List.mem_cons_self).2
  rw [show Tree.items (kb, b).2 = e :: f :: y from hb] at hb'
  refine zexact_items (forall_kids (l := []) nofun (exactItem_succ ?_ ?_)
    (forall_kids (l := []) nofun (exactItem_succ rfl ?_) ?_)) rfl hup
  · rw [Tree.items_mk, ha, hk]
    rfl
  · intro i hi
    rcases List.mem_append.1 hi with hi | hi
    · exact hx.1 i hi
    · rw [List.mem_singleton.1 hi]
      exact hb' e List.mem_cons_self
  · exact fun i hi => hb' i (List.mem_cons_of_mem _ hi)
  · exact fun i hi => hr i (List.mem_cons_of_mem _ hi)

theorem exact_append (ha : a.Exact) (hb : b.Exact) : (Tree.mk p (a.items ++ b.items)).Exact := by
  intro i hi
  rcases List.mem_append.1 hi with hi | hi
  · exact ha i hi
  · exact hb i hi

theorem exact_merge_right (hx : ZExact (.frame p [] k ((kb, b) :: r) up) a) (hne : a.items ≠ []) :
    ZExact up (Tree.mk p ([] ++ (k, Tree.mk a.page (a.items ++ b.items)) :: r)) := by
  obtain ⟨c, rest, ha⟩ := List.exists_cons_of_ne_nil hne
  obtain ⟨hk, -, hr, hup⟩ := hx.2 c (by rw [ha]; rfl)
  refine zexact_items (forall_kids (l := []) nofun (exactItem_succ ?_ ?_) ?_) rfl hup
  · rw [Tree.items_mk, ha, hk]
    rfl
  · exact exact_append hx.1 (hr (kb, b) List.mem_cons_self).2
  · exact fun i hi => hr i (List.mem_cons_of_mem _ hi)

theorem exact_borrow_left (hb : b.Exact) (hx : (Ctx.frame p (l ++ [(ka, a)]) k r up).ExactAround)
    (ha : a.items = x ++ [e]) (hne : x ≠ []) :
    ZExact up (Tree.mk p (l ++ (ka, Tree.mk a.page x) :: (e.1, Tree.mk b.page (e :: b.items)) :: r)) := by
  obtain ⟨hl, hr, hup⟩ := hx
  obtain ⟨hka, ha'⟩ := hl (ka, a) (List.mem_append_right _ (List.mem_singleton_self _))
  rw [show Tree.items (ka, a).2 = x ++ [e] from ha] at hka ha'
  refine zexact_items (k := (l.map Prod.fst).headD ka)
    (forall_kids (fun i hi => hl i (List.mem_append_left _ hi))
    (exactItem_succ ?_ ?_) (forall_kids (l := []) nofun (exactItem_succ rfl ?_) hr)) (head_append_cons _) ?_
  · obtain ⟨c, rest, rfl⟩ := List.exists_cons_of_ne_nil hne
    exact hka
  · exact fun i hi => ha' i (List.mem_append_left _ hi)
  · intro i hi
    rcases List.mem_cons.1 hi with rfl | hi
    · exact ha' i (List.mem_append_right _ (List.mem_singleton_self i))
    · exact hb i hi
  · cases l <;> exact hup

theorem exact_merge_left (hb : b.Exact) (hx : (Ctx.frame p (l ++ [(ka, a)]) k r up).ExactAround) :
    ZExact up (Tree.mk p (l ++ (ka, Tree.mk a.page (a.items ++ b.items)) :: r)) := by
  obtain ⟨hl, hr, hup⟩ := hx
  obtain ⟨hka, ha⟩ := hl (ka, a) (List.mem_append_right _ (List.mem_singleton_self _))
  refine zexact_items (k := (l.map Prod.fst).headD ka)
    (forall_kids (fun i hi => hl i (List.mem_append_left _ hi))
    (exactItem_succ ?_ (exact_append ha hb)) hr) (head_append_cons _) ?_
  · cases hitems : a.items with
    | nil => rw [show Tree.items (ka, a).2 = [] from hitems] at hka; cases hka
    | cons c rest => rw [show Tree.items (ka, a).2 = c :: rest from hitems] at hka; exact hka
  · cases l <;> exact hup

end Repair

end Rmdb.BPlus

import Rmdb.Index.Key

namespace Rmdb

open IxKey IxManager

/-- The columns of an index, `FLOAT` columns among them. -/
structure KeyColumns where
  cols : List (ColType × Nat)
  typed : ∀ c ∈ cols, c = (.int, 4) ∨ c = (.float, 4) ∨ c.1 = .string

def RawKey (L : KeyColumns) : Type := { b : Bytes // b.length = colTotLen L.cols }

instance (L : KeyColumns) : IxKey (RawKey L) where
  ixCompare a b := match IxManager.ixCompare L.cols a.1 b.1 with
    | .ok res => res
    | .error _ => 0
  memcmp a b := Rmdb.memcmp a.1 b.1
  zero := ⟨List.replicate (colTotLen L.cols) 0, by simp⟩

namespace IxNode

section Search

variable {K : Type} [IxKey K]

/-- The child with the greatest separator not above the target, or the first child when all are above it. -/
def IsChild (n : IxNode K) (target : K) (child : Int) : Prop :=
  (∃ e ∈ n.pairs, ixCompare e.1 target ≤ 0 ∧
      (∀ e' ∈ n.pairs, ixCompare e'.1 target ≤ 0 → ixCompare e'.1 e.1 ≤ 0) ∧ child = e.2.pageNo) ∨
    (∀ e ∈ n.pairs, 0 < ixCompare e.1 target) ∧ child = n.valueAt 0

structure SearchRight (n : IxNode K) (target : K) : Prop where
  lower : n.lowerBound target = n.pairs.countP fun e => ixCompare e.1 target < 0
  upper : n.upperBound target = n.pairs.countP fun e => ixCompare e.1 target ≤ 0
  child : IsChild n target (n.internalLookup target)

def SearchExact (keys : List K) (target : K) : Prop := ∀ n :
    IxNode K, n.pairs.map Prod.fst = keys → SearchRight n target

def Decided (keys : List K) (target : K) : Prop :=
  keys.Pairwise fun a b => 0 ≤ ixCompare a target → 0 < ixCompare b target

def SameBytes (keys : List K) (target : K) : Prop :=
  ∀ k ∈ keys.tail, ixCompare k target = 0 → IxKey.memcmp k target = 0

variable {n : IxNode K} {keys A B : List K} {P : List (K × Rid)} {target e : K}
  {C D : List (K × Rid)} {p : K × Rid}

theorem decided_of_cut (hA : ∀ a ∈ A, ixCompare a target < 0) (hB : ∀ b ∈ B, 0 < ixCompare b target) :
    Decided (A ++ e :: B) target := by
  have hBB : B.Pairwise fun a b => 0 ≤ ixCompare a target → 0 < ixCompare b target :=
    List.pairwise_of_forall_mem_list fun a _ b hb _ => hB b hb
  refine List.pairwise_append.2 ⟨?_, .cons (fun b hb _ => hB b hb) hBB, ?_⟩
  · exact List.pairwise_of_forall_mem_list fun a ha _ _ h => absurd (hA a ha) (not_lt.2 h)
  · exact fun a ha _ _ h => absurd (hA a ha) (not_lt.2 h)

theorem exists_cut_of_decided (h : Decided (P.map Prod.fst) target) : ∃ A E B, P = A ++ (E ++ B) ∧
    (∀ e ∈ A, ixCompare e.1 target < 0) ∧ (∀ e ∈ B, 0 < ixCompare e.1 target) ∧
    (E = [] ∨ ∃ e, E = [e] ∧ ixCompare e.1 target = 0) := by
  induction P with
  | nil => exact ⟨[], [], [], rfl, nofun, nofun, .inl rfl⟩
  | cons e P ih =>
      rw [List.map_cons] at h
      obtain ⟨hhead, htail⟩ := List.pairwise_cons.1 h
      have hrest : 0 ≤ ixCompare e.1 target → ∀ e' ∈ P, 0 < ixCompare e'.1 target :=
        fun hle e' he' => hhead e'.1 (List.mem_map_of_mem he') hle
      rcases lt_trichotomy (ixCompare e.1 target) 0 with hlt | heq | hgt
      · obtain ⟨A, E, B, rfl, hA, hB, hE⟩ := ih htail
        refine ⟨e :: A, E, B, rfl, ?_, hB, hE⟩
        intro e' he'
        rcases List.mem_cons.1 he' with rfl | he'
        · exact hlt
        · exact hA e' he'
      · exact ⟨[], [e], P, rfl, nofun, hrest heq.ge, .inr ⟨e, rfl, heq⟩⟩
      · refine ⟨[], [], e :: P, rfl, nofun, ?_, .inl rfl⟩
        intro e' he'
        rcases List.mem_cons.1 he' with rfl | he'
        · exact hgt
        · exact hrest hgt.le e' he'

def Ascending (n : IxNode K) : Prop := (n.pairs.map Prod.fst).Pairwise fun a b => ixCompare a b < 0

theorem Ascending.cut (h : n.Ascending) (hP : n.pairs = C ++ p :: D) :
    (∀ q ∈ C, ixCompare q.1 p.1 < 0) ∧ ∀ q ∈ D, ixCompare p.1 q.1 < 0 := by
  rw [Ascending, hP, List.map_append, List.map_cons, List.pairwise_append, List.pairwise_cons] at h
  obtain ⟨-, ⟨hD, -⟩, hC⟩ := h
  refine ⟨fun q hq => ?_, fun q hq => hD q.1 (List.mem_map_of_mem hq)⟩
  exact hC q.1 (List.mem_map_of_mem hq) p.1 List.mem_cons_self

variable (hanti : ∀ a b : K, ixCompare a b < 0 ↔ 0 < ixCompare b a)
  (hsame : ∀ a b : K, IxKey.memcmp a b = 0 → ixCompare a b = 0)

include hanti

theorem ixCompare_self (a : K) : ixCompare a a = 0 := by
  have := hanti a a
  omega

theorem isChild_of_cut (hasc : n.Ascending) (hP : n.pairs = C ++ p :: D) (hp : ixCompare p.1 target ≤ 0)
    (hD : ∀ q ∈ D, 0 < ixCompare q.1 target) : IsChild n target p.2.pageNo := by
  refine .inl ⟨p, by simp [hP], hp, fun q hq hle => ?_, rfl⟩
  rw [hP, List.mem_append, List.mem_cons] at hq
  rcases hq with hq | rfl | hq
  · exact ((hasc.cut hP).1 q hq).le
  · exact (ixCompare_self hanti q.1).le
  · exact absurd (hD q hq) (not_lt.2 hle)

include hsame

theorem internalLookup_decided (hasc : n.Ascending) (hbytes : SameBytes (n.pairs.map Prod.fst) target)
    {A E B : List (K × Rid)} (hP : n.pairs = A ++ (E ++ B)) (hA : ∀ q ∈ A, ixCompare q.1 target < 0)
    (hB : ∀ q ∈ B, 0 < ixCompare q.1 target) (hE : E = [] ∨ ∃ q, E = [q] ∧ ixCompare q.1 target = 0)
    (hlower : n.lowerBound target = A.length) : IsChild n target (n.internalLookup target) := by
  rw [internalLookup, hlower]
  rcases hE with rfl | ⟨p, rfl, heq⟩
  · rcases List.eq_nil_or_concat A with rfl | ⟨A', p, hconcat⟩
    · exact .inr ⟨fun q hq => hB q (by simpa [hP] using hq), rfl⟩
    · rw [List.concat_eq_append] at hconcat
      subst hconcat
      have hcut : n.pairs = A' ++ p :: B := by simpa using hP
      have hnext : ¬ ((A' ++ [p]).length < n.getSize ∧
          IxKey.memcmp (n.getKey (A' ++ [p]).length) target = 0) := by
        rintro ⟨hlt, hmem⟩
        cases B with
        | nil => simp [getSize, hcut] at hlt
        | cons b B =>
            rw [getKey_split (A := A' ++ [p]) (B := B) (e := b) (by simpa using hP)] at hmem
            have := hB b List.mem_cons_self
            have := hsame _ _ hmem
            omega
      have hval : n.valueAt ((A' ++ [p]).length - 1) = p.2.pageNo := by
        rw [List.length_append, List.length_singleton, Nat.add_sub_cancel]
        exact valueAt_split hcut
      rw [if_neg (by simp), if_neg hnext, hval]
      exact isChild_of_cut hanti hasc hcut (hA p (by simp)).le hB
  · have hcut : n.pairs = A ++ p :: B := hP
    have hchild := isChild_of_cut hanti hasc hcut heq.le hB
    cases A with
    | nil =>
        have hval : n.valueAt 0 = p.2.pageNo := valueAt_split (A := []) hcut
        simpa only [List.length_nil, if_true, hval] using hchild
    | cons a A =>
        have hmem : IxKey.memcmp p.1 target = 0 := hbytes p.1 (by simp [hcut]) heq
        rw [if_neg (by simp), if_pos ⟨by simp [getSize, hcut], by rw [getKey_split hcut, hmem]⟩,
          valueAt_split hcut]
        exact hchild

theorem searchRight_of_decided (hasc : n.Ascending)
    (hdec : Decided (n.pairs.map Prod.fst) target) (hbytes : SameBytes (n.pairs.map Prod.fst) target) :
    SearchRight n target := by
  obtain ⟨A, E, B, hP, hA, hB, hE⟩ := exists_cut_of_decided hdec
  have hE0 : ∀ e ∈ E, ixCompare e.1 target = 0 := by
    rcases hE with rfl | ⟨e, rfl, heq⟩
    · exact nofun
    · exact fun e' he' => List.mem_singleton.1 he' ▸ heq
  have hEB : ∀ e ∈ E ++ B, 0 ≤ ixCompare e.1 target := by
    intro e he
    rcases List.mem_append.1 he with he | he
    · exact (hE0 e he).ge
    · exact (hB e he).le
  have hAE : ∀ e ∈ A ++ E, ixCompare e.1 target ≤ 0 := by
    intro e he
    rcases List.mem_append.1 he with he | he
    · exact (hA e he).le
    · exact (hE0 e he).le
  have hlower : n.lowerBound target = A.length := lowerBound_cut hP hA hEB
  have hupper : n.upperBound target = (A ++ E).length := upperBound_cut (by rw [hP, List.append_assoc]) hAE hB
  refine ⟨?_, ?_, internalLookup_decided hanti hsame hasc hbytes hP hA hB hE hlower⟩
  · rw [hlower, hP, List.countP_append, List.countP_eq_length.2, List.countP_eq_zero.2, Nat.add_zero]
    · simpa using hEB
    · simpa using hA
  · rw [hupper, hP, ← List.append_assoc, List.countP_append, List.countP_eq_length.2,
      List.countP_eq_zero.2, Nat.add_zero]
    · simpa using hB
    · simpa using hAE

def numbered (keys : List K) : IxNode K := ⟨-1, false, 0, 0, keys.zipIdx.map fun e => (e.1, ⟨e.2, -1⟩), []⟩

omit [IxKey K] hanti hsame in
theorem numbered_keys (keys : List K) : (numbered keys).pairs.map Prod.fst = keys := by
  simp [numbered, Function.comp_def]

omit hanti hsame in
theorem valueAt_numbered {i : Nat} (hi : i < keys.length) : (numbered keys).valueAt i = i := by
  simp [valueAt, getRid, slot, numbered, hi]

omit hanti hsame in
/-- What a node shows of its keys when the child found stands behind all keys that are not above
the target. -/
theorem decided_of_child (hkeys : C.map Prod.fst ++ p.1 :: D.map Prod.fst = keys)
    (hC : ∀ q ∈ C, ixCompare q.1 target < 0)
    (hp : ixCompare p.1 target = 0 → C = [] ∨ IxKey.memcmp p.1 target = 0)
    (hD : ∀ q ∈ D, 0 < ixCompare q.1 target) :
    Decided keys target ∧ SameBytes keys target := by
  have hCk : ∀ k ∈ C.map Prod.fst, ixCompare k target < 0 := by simpa using hC
  have hDk : ∀ k ∈ D.map Prod.fst, 0 < ixCompare k target := by simpa using hD
  subst hkeys
  refine ⟨decided_of_cut hCk hDk, fun k hk h0 => ?_⟩
  have habove : k ∉ D.map Prod.fst := fun hk => absurd (hDk k hk) (by omega)
  cases C with
  | nil => exact absurd hk habove
  | cons c C =>
      have hk' : k ∈ C.map Prod.fst ∨ k = p.1 ∨ k ∈ D.map Prod.fst := by simpa using hk
      rcases hk' with hk | rfl | hk
      · exact absurd (hCk k (List.mem_cons_of_mem _ hk)) (by omega)
      · exact (hp h0).resolve_left (List.cons_ne_nil c C)
      · exact absurd hk habove

theorem decided_of_searchRight (hasc : (numbered keys).Ascending) (h : SearchRight (numbered keys) target) :
    Decided keys target ∧ SameBytes keys target := by
  have hmap := numbered_keys keys
  have hsize : (numbered keys).getSize = keys.length := by simp [getSize, numbered]
  rcases h.child with ⟨p, hp, hle, hgreatest, hval⟩ | ⟨hall, -⟩
  · obtain ⟨C, D, hP⟩ := List.append_of_mem hp
    have hkeys : C.map Prod.fst ++ p.1 :: D.map Prod.fst = keys := by
      rw [← hmap, hP, List.map_append, List.map_cons]
    have hlen : keys.length = C.length + (D.length + 1) := by simp [← hkeys]
    have hD : ∀ q ∈ D, 0 < ixCompare q.1 target := by
      intro q hq
      by_contra hc
      have hqp := hgreatest q (by simp [hP, hq]) (not_lt.1 hc)
      exact not_lt.2 hqp ((hanti p.1 q.1).1 ((hasc.cut hP).2 q hq))
    have hpos : p.2.pageNo = C.length := by
      rw [← valueAt_split hP]
      exact valueAt_numbered (by omega)
    have hlower := h.lower
    have hDcount : D.countP (fun q => decide (ixCompare q.1 target < 0)) = 0 :=
      List.countP_eq_zero.2 fun q hq => by simpa using (hD q hq).le
    rw [hP, List.countP_append, List.countP_cons, hDcount, Nat.zero_add] at hlower
    have hcount := List.countP_le_length (p := fun q => decide (ixCompare q.1 target < 0)) (l := C)
    have hbelow : List.countP (fun q => decide (ixCompare q.1 target < 0)) C = C.length →
        ∀ q ∈ C, ixCompare q.1 target < 0 := fun heq => by simpa using List.countP_eq_length.1 heq
    rw [internalLookup, hpos] at hval
    split at hval
    · rename_i h0
      -- nothing is below the target, and the first child is taken
      rw [h0, valueAt_numbered (by omega)] at hval
      have hnil : C = [] := List.length_eq_zero_iff.1 (by omega)
      exact decided_of_child hkeys (by simp [hnil]) (fun _ => .inl hnil) hD
    · rename_i h0
      split at hval
      · rename_i hnext
        -- the key found has the bytes of the target
        rw [valueAt_numbered (by omega), Int.natCast_inj] at hval
        have hmem : IxKey.memcmp p.1 target = 0 := by
          rw [← getKey_split hP, ← hval]
          exact hnext.2
        have hp0 := hsame _ _ hmem
        rw [if_neg (by simp [hp0])] at hlower
        exact decided_of_child hkeys (hbelow (by omega)) (fun _ => .inr hmem) hD
      · -- the child to the left of the key found
        have hle' : (numbered keys).lowerBound target ≤ C.length + 1 := by
          rw [hlower]
          split <;> omega
        rw [valueAt_numbered (by omega), Int.natCast_inj] at hval
        split at hlower
        · rename_i hp0
          exact decided_of_child hkeys (hbelow (by omega)) (fun hc => by simp [hc] at hp0) hD
        · omega
  · cases keys with
    | nil => exact ⟨.nil, by simp [SameBytes]⟩
    | cons k keys =>
        have hkeys : ∀ k' ∈ k :: keys, 0 < ixCompare k' target := by
          intro k' hk'
          rw [← hmap] at hk'
          obtain ⟨q, hq, rfl⟩ := List.mem_map.1 hk'
          exact hall q hq
        refine ⟨decided_of_cut (A := []) (by simp) fun k' hk' =>
          hkeys k' (List.mem_cons_of_mem k hk'), fun k' hk' h0 => ?_⟩
        exact absurd (hkeys k' (List.mem_cons_of_mem k hk')) (by omega)

end Search

end IxNode

section RawKey

variable {c : ColType × Nat} {cols : List (ColType × Nat)} {a b : Bytes} {L : KeyColumns}

theorem compareInt_anti (x y : Int) :
    (compareInt x y < 0 ↔ 0 < compareInt y x) ∧ (0 < compareInt x y ↔ compareInt y x < 0) := by
  simp only [compareInt_neg, compareInt_pos, and_self]

def Opposite (cmp cmp' : Ix Int) : Prop :=
  ∃ res res', cmp = .ok res ∧ cmp' = .ok res' ∧ (res < 0 ↔ 0 < res') ∧ (0 < res ↔ res' < 0)

theorem ixCompareCol_anti (hc : c = (.int, 4) ∨ c = (.float, 4) ∨ c.1 = .string) (hl : a.length = b.length) :
    Opposite (ixCompareCol c.1 c.2 a b) (ixCompareCol c.1 c.2 b a) := by
  rcases hc with rfl | rfl | hc
  · exact ⟨_, _, rfl, rfl, compareInt_anti _ _⟩
  · simp only [ixCompareCol]
    cases readFloat a with
    | none => exact ⟨0, 0, rfl, by cases readFloat b <;> rfl, by simp⟩
    | some x =>
        cases readFloat b with
        | none => exact ⟨0, 0, rfl, rfl, by simp⟩
        | some y => exact ⟨_, _, rfl, rfl, compareInt_anti x y⟩
  · have h := memcmp_lt (a := a.take c.2) (b := b.take c.2) (by simp [hl])
    have h' := memcmp_lt (a := b.take c.2) (b := a.take c.2) (by simp [hl])
    rw [hc]
    exact ⟨_, _, rfl, rfl, h.1.trans h'.2.1.symm, h.2.1.trans h'.1.symm⟩

theorem ixCompare_anti (hc : ∀ c ∈ cols, c = (.int, 4) ∨ c = (.float, 4) ∨ c.1 = .string)
    (hl : a.length = b.length) :
    Opposite (IxManager.ixCompare cols a b) (IxManager.ixCompare cols b a) := by
  induction cols generalizing a b with
  | nil => exact ⟨0, 0, rfl, rfl, by simp⟩
  | cons c cols ih =>
      obtain ⟨res, res', hres, hres', hneg, hpos⟩ := ixCompareCol_anti (hc c List.mem_cons_self) hl
      simp only [IxManager.ixCompare, hres, hres', bind, Except.bind, pure, Except.pure]
      by_cases h0 : res = 0
      · have h0' : res' = 0 := by omega
        rw [if_neg (by simpa using h0), if_neg (by simpa using h0')]
        exact ih (fun d hd => hc d (List.mem_cons_of_mem c hd)) (by simp [hl])
      · have h0' : res' ≠ 0 := by omega
        rw [if_pos h0, if_pos h0']
        exact ⟨res, res', rfl, rfl, hneg, hpos⟩

theorem rawCompare_anti (x y : RawKey L) : IxKey.ixCompare x y < 0 ↔ 0 < IxKey.ixCompare y x := by
  obtain ⟨res, res', hres, hres', hneg, -⟩ := ixCompare_anti L.typed (x.2.trans y.2.symm)
  simp only [IxKey.ixCompare, hres, hres', hneg]

theorem rawCompare_of_memcmp (x y : RawKey L) (h : IxKey.memcmp x y = 0) : IxKey.ixCompare x y = 0 := by
  obtain rfl : x = y := Subtype.ext ((memcmp_lt (x.2.trans y.2.symm)).2.2.1 h)
  exact IxNode.ixCompare_self rawCompare_anti x

def HasNumbers : List (ColType × Nat) → Bytes → Prop
  | [], _ => True
  | c :: cols, b => (c.1 = .float → readFloat b ≠ none) ∧ HasNumbers cols (b.drop c.2)

/-- The key as numbers, both zeros as one. -/
def orderCode : List (ColType × Nat) → Bytes → List Int
  | [], _ => []
  | c :: cols, b =>
      (if c.1 = .float then [(readFloat b).getD 0] else colCode c b) ++ orderCode cols (b.drop c.2)

theorem ixCompare_order (hc : ∀ c ∈ cols, c = (.int, 4) ∨ c = (.float, 4) ∨ c.1 = .string)
    (hl : a.length = b.length) (ha : HasNumbers cols a) (hb : HasNumbers cols b) :
    Orders (IxManager.ixCompare cols a b) (orderCode cols a) (orderCode cols b) := by
  induction cols generalizing a b with
  | nil => exact ⟨0, rfl, by simp [orderCode], by simp [orderCode]⟩
  | cons c cols ih =>
      have hrest :=
        ih (fun d hd => hc d (List.mem_cons_of_mem c hd)) (a := a.drop c.2)
          (b := b.drop c.2) (by simp [hl])
        ha.2 hb.2
      refine ixCompare_step ?_ ?_ hrest
      · split
        · rfl
        · exact colCode_length c hl
      · rcases hc c List.mem_cons_self with rfl | rfl | hs
        · exact ixCompareCol_lt (.inl rfl) hl
        · obtain ⟨x, hx⟩ := Option.ne_none_iff_exists'.1 (ha.1 rfl)
          obtain ⟨y, hy⟩ := Option.ne_none_iff_exists'.1 (hb.1 rfl)
          refine ⟨compareInt x y, by simp only [ixCompareCol, hx, hy], ?_, ?_⟩
          · simp [hx, hy, compareInt_neg, List.cons_lt_cons_iff]
          · simp [hx, hy, compareInt_pos, List.cons_lt_cons_iff]
        · rw [if_neg (by rw [hs]; simp), if_neg (by rw [hs]; simp)]
          exact ixCompareCol_lt (.inr hs) hl

theorem rawCompare_order {x y : RawKey L} (hx : HasNumbers L.cols x.1) (hy : HasNumbers L.cols y.1) :
    (IxKey.ixCompare x y < 0 ↔ orderCode L.cols x.1 < orderCode L.cols y.1) ∧
      (0 < IxKey.ixCompare x y ↔ orderCode L.cols y.1 < orderCode L.cols x.1) := by
  obtain ⟨res, hres, hlt, hgt⟩ := ixCompare_order L.typed (x.2.trans y.2.symm) hx hy
  simp only [IxKey.ixCompare, hres]
  exact ⟨hlt, hgt⟩

/-- Among numbers ascending keys are always cut by a target. -/
theorem decided_of_numbers {keys : List (RawKey L)} {target : RawKey L}
    (hasc : keys.Pairwise fun a b => IxKey.ixCompare a b < 0) (hkeys : ∀ k ∈ keys, HasNumbers L.cols k.1)
    (htarget : HasNumbers L.cols target.1) : IxNode.Decided keys target := by
  refine hasc.imp_of_mem fun {x y} hx hy hxy h => ?_
  have hle := not_lt.1 fun hc => not_lt.2 h ((rawCompare_order (hkeys x hx) htarget).1.2 hc)
  exact (rawCompare_order (hkeys y hy) htarget).2.2
    (lt_of_le_of_lt hle ((rawCompare_order (hkeys x hx) (hkeys y hy)).1.1 hxy))

theorem search_conditions_of_plain {keys : List (RawKey L)} (hplain : ∀ c ∈ L.cols, c.1 ≠ .float)
    (hasc : keys.Pairwise fun a b => IxKey.ixCompare a b < 0) (target : RawKey L) :
    IxNode.Decided keys target ∧ IxNode.SameBytes keys target := by
  have htyped : ∀ c ∈ L.cols, c = (.int, 4) ∨ c.1 = .string := by
    intro c hc
    rcases L.typed c hc with h | h | h
    · exact .inl h
    · exact absurd (h ▸ rfl) (hplain c hc)
    · exact .inr h
  have hnumbers : ∀ (cols : List (ColType × Nat)) (b : Bytes), (∀ c ∈ cols, c.1 ≠ .float) →
      HasNumbers cols b := by
    intro cols
    induction cols with
    | nil => exact fun _ _ => trivial
    | cons c cols ih =>
        intro b h
        exact ⟨fun hc => absurd hc (h c List.mem_cons_self), ih _ fun d hd => h d (List.mem_cons_of_mem c hd)⟩
  refine ⟨decided_of_numbers hasc (fun k _ => hnumbers _ _ hplain) (hnumbers _ _ hplain), fun k _ h0 => ?_⟩
  obtain ⟨res, hres, hlt, hgt⟩ := ixCompare_lt L.cols htyped (k.2.trans target.2.symm)
  simp only [IxKey.ixCompare, hres] at h0
  have hcode : keyCode L.cols k.1 = keyCode L.cols target.1 := by
    refine le_antisymm (not_lt.1 fun hc => ?_) (not_lt.1 fun hc => ?_)
    · have := hgt.2 hc
      omega
    · have := hlt.2 hc
      omega
  have heq : k.1 = target.1 := keyCode_inj L.cols htyped k.2 target.2 hcode
  exact (memcmp_lt (k.2.trans target.2.symm)).2.2.2 heq

/-- In a node with ascending keys the searches find the places that their comments promise, and
the right child, exactly when the keys are cut by the target and none but the first compares equal
to it with other bytes. -/
theorem search_exact_iff {keys : List (RawKey L)} (hasc : keys.Pairwise fun a b => IxKey.ixCompare a b < 0)
    (target : RawKey L) :
    IxNode.SearchExact keys target ↔ IxNode.Decided keys target ∧ IxNode.SameBytes keys target := by
  constructor
  · intro h
    have hnumbered : (IxNode.numbered keys).Ascending := by
      rw [IxNode.Ascending, IxNode.numbered_keys]
      exact hasc
    exact IxNode.decided_of_searchRight rawCompare_anti rawCompare_of_memcmp hnumbered
      (h _ (IxNode.numbered_keys keys))
  · rintro ⟨hdec, hbytes⟩ n rfl
    exact IxNode.searchRight_of_decided rawCompare_anti rawCompare_of_memcmp hasc hdec hbytes

end RawKey

def floatColumn : KeyColumns := ⟨[(.float, 4)], by decide⟩

def floatKey (b0 b1 b2 b3 : UInt8) : RawKey floatColumn := ⟨[b0, b1, b2, b3], rfl⟩

def minusOne : RawKey floatColumn := floatKey 0 0 0x80 0xbf

def zeroFloat : RawKey floatColumn := floatKey 0 0 0 0

def minusZero : RawKey floatColumn := floatKey 0 0 0 0x80

theorem search_exact_minusOne : ([minusOne, zeroFloat].Pairwise fun a b => IxKey.ixCompare a b < 0) ∧
    IxNode.SearchExact [minusOne, zeroFloat] minusOne := by
  have hasc : [minusOne, zeroFloat].Pairwise fun a b => IxKey.ixCompare a b < 0 := by decide
  refine ⟨hasc, (search_exact_iff hasc minusOne).2 ⟨?_, ?_⟩⟩
  · rw [IxNode.Decided]
    decide
  · rw [IxNode.SameBytes]
    decide

/-- The separator `0.0` is not above the target `-0.0`, but the child before it is taken. -/
theorem minusZero_lost : ([minusOne, zeroFloat].Pairwise fun a b => IxKey.ixCompare a b < 0) ∧
    IxKey.ixCompare zeroFloat minusZero = 0 ∧
    (IxNode.numbered [minusOne, zeroFloat]).internalLookup minusZero = 0 ∧
    ¬ IxNode.SearchExact [minusOne, zeroFloat] minusZero := by
  have hasc : [minusOne, zeroFloat].Pairwise fun a b => IxKey.ixCompare a b < 0 := by decide
  refine ⟨hasc, by decide, by decide, fun h => ?_⟩
  have hnumbered : (IxNode.numbered [minusOne, zeroFloat]).Ascending := hasc
  have hbytes := (IxNode.decided_of_searchRight rawCompare_anti rawCompare_of_memcmp hnumbered (h _ rfl)).2
  exact absurd (hbytes zeroFloat (by simp) (by decide)) (by decide)

end Rmdb

import Rmdb.Index.Map

namespace Rmdb

open BPlus SepList IxIndexHandle

variable {K : Type} {base ih ih' : IxIndexHandle K}

theorem bind_eq_ok {α β : Type} {x : Ix α} {f : α → Ix β} {b : β} :
    (x >>= f) = .ok b ↔ ∃ a, x = .ok a ∧ f a = .ok b := by
  cases x with
  | error e => exact ⟨nofun, nofun⟩
  | ok a => exact ⟨fun h => ⟨a, rfl, h⟩, fun ⟨_, ha, h⟩ => by cases ha; exact h⟩

def Present (ih : IxIndexHandle K) (p : Int) : Prop := (ih.pages p).isSome = true

/-- What the tree operations are made of: they write to pages they have fetched, allocate
pages, and change the header. -/
inductive Changes (base : IxIndexHandle K) : IxIndexHandle K → Prop
  | refl : Changes base base
  | write {ih : IxIndexHandle K} (h : Changes base ih) {p : Int} (hp : Present ih p) (n : IxNode K) :
      Changes base (ih.writeNode p n)
  | create {ih : IxIndexHandle K} (h : Changes base ih) : Changes base ih.createNode.2
  | header {ih : IxIndexHandle K} (h : Changes base ih) (f : IxFileHdr) :
      Changes base { ih with fileHdr := f }

theorem present_of_fetch {p : Int} {n : IxNode K} (hf : ih.fetchNode p = .ok n) : Present ih p := by
  rw [fetchNode] at hf
  split at hf
  · rename_i m hm
    rw [Present, hm, Option.isSome_some]
  · cases hf

theorem present_writeNode {p q : Int} {n : IxNode K} :
    Present (ih.writeNode q n) p ↔ Present ih p ∨ p = q := by
  rw [Present, Present, writeNode]
  by_cases h : p = q
  · simp [h]
  · simp [h]

theorem Present.write {p : Int} (h : Present ih p) (q : Int) (n : IxNode K) : Present (ih.writeNode q n) p :=
  present_writeNode.2 (.inl h)

theorem Changes.fetchWrite (h : Changes base ih) {p : Int} {n m : IxNode K} (hf : ih.fetchNode p = .ok n) :
    Changes base (ih.writeNode p m) :=
  h.write (present_of_fetch hf) m

section Operations

variable [IxKey K]

theorem Changes.maintainChild (h : Changes base ih) {p : Int} {c : Nat}
    (hrun : ih.maintainChild p c = .ok ih') : Changes base ih' := by
  obtain ⟨n, -, hrun⟩ := bind_eq_ok.1 hrun
  split at hrun
  · cases hrun
    exact h
  · obtain ⟨m, hm, hrun⟩ := bind_eq_ok.1 hrun
    cases hrun
    exact h.fetchWrite hm

theorem Changes.maintainChildren (h : Changes base ih) {p : Int} {start count : Nat}
    (hrun : ih.maintainChildren p start count = .ok ih') : Changes base ih' := by
  induction count generalizing ih start with
  | zero => cases hrun; exact h
  | succ count iht =>
      obtain ⟨ih1, h1, hrun⟩ := bind_eq_ok.1 hrun
      exact iht (h.maintainChild h1) hrun

theorem Changes.maintainParentLoop (h : Changes base ih) {fuel : Nat} {p : Int}
    (hrun : ih.maintainParentLoop fuel p = .ok ih') : Changes base ih' := by
  induction fuel generalizing ih p with
  | zero => cases hrun
  | succ fuel iht =>
      obtain ⟨n, -, hrun⟩ := bind_eq_ok.1 hrun
      split at hrun
      · cases hrun
        exact h
      · obtain ⟨parent, hp, hrun⟩ := bind_eq_ok.1 hrun
        obtain ⟨rank, -, hrun⟩ := bind_eq_ok.1 hrun
        split at hrun
        · cases hrun
          exact h
        · exact iht (h.fetchWrite hp) hrun

theorem Changes.maintainFirst (h : Changes base ih) {p : Int} {n : IxNode K} {k : K}
    (hrun : ih.maintainFirst p n k = .ok ih') : Changes base ih' := by
  rw [IxIndexHandle.maintainFirst] at hrun
  split at hrun
  · exact h.maintainParentLoop hrun
  · cases hrun
    exact h

theorem Changes.split (h : Changes base ih) {p q : Int} (hrun : ih.split p = .ok (q, ih')) :
    Changes base ih' := by
  rw [IxIndexHandle.split] at hrun
  generalize hc : ih.createNode = c at hrun
  obtain ⟨r, ih1⟩ := c
  have h1 : Changes base ih1 := by
    have := h.create
    rw [hc] at this
    exact this
  obtain ⟨n, hn, hrun⟩ := bind_eq_ok.1 hrun
  obtain ⟨m, hm, hrun⟩ := bind_eq_ok.1 hrun
  have hr := present_of_fetch hm
  have hp := present_of_fetch hn
  have hw : ∀ a b : IxNode K, Changes base ((ih1.writeNode r a).writeNode p b) := fun a b =>
    (h1.write hr a).write (hp.write r a) b
  simp only at hrun
  split at hrun
  · obtain ⟨next, hnext, hrun⟩ := bind_eq_ok.1 hrun
    cases hrun
    exact (hw _ _).fetchWrite hnext
  · obtain ⟨ih2, h2, hrun⟩ := bind_eq_ok.1 hrun
    cases hrun
    exact (hw _ _).maintainChildren h2

theorem Changes.insertIntoParent {fuel : Nat} {old new : Int} {k : K} (h : Changes base ih)
    (hrun : insertIntoParent fuel ih old k new = .ok ih') : Changes base ih' := by
  induction fuel generalizing ih old new k with
  | zero => cases hrun
  | succ fuel iht =>
      rw [IxIndexHandle.insertIntoParent] at hrun
      obtain ⟨n, hn, hrun⟩ := bind_eq_ok.1 hrun
      split at hrun
      · generalize hc : ih.createNode = c at hrun
        obtain ⟨r, ih1⟩ := c
        have h1 : Changes base ih1 := by
          have := h.create
          rw [hc] at this
          exact this
        obtain ⟨root, hroot, hrun⟩ := bind_eq_ok.1 hrun
        obtain ⟨a, ha, hrun⟩ := bind_eq_ok.1 hrun
        obtain ⟨b, hb, hrun⟩ := bind_eq_ok.1 hrun
        cases hrun
        refine .header (((h1.write (present_of_fetch hroot) _).write ?_ _).write ?_ _) _
        · exact (present_of_fetch ha).write _ _
        · exact ((present_of_fetch hb).write _ _).write _ _
      · obtain ⟨parent, hp, hrun⟩ := bind_eq_ok.1 hrun
        simp only at hrun
        split at hrun
        · obtain ⟨⟨q, ih1⟩, hs, hrun⟩ := bind_eq_ok.1 hrun
          obtain ⟨m, -, hrun⟩ := bind_eq_ok.1 hrun
          exact iht ((h.fetchWrite hp).split hs) hrun
        · cases hrun
          exact h.fetchWrite hp

theorem Changes.insertEntry (h : Changes base ih) {k : K} {v : Rid} {p : Int} {b : Bool}
    (hrun : ih.insertEntry k v = .ok (p, b, ih')) : Changes base ih' := by
  rw [IxIndexHandle.insertEntry] at hrun
  obtain ⟨leaf, -, hrun⟩ := bind_eq_ok.1 hrun
  obtain ⟨n, hn, hrun⟩ := bind_eq_ok.1 hrun
  have hw : Changes base (ih.writeNode leaf (n.insert k v)) := h.fetchWrite hn
  simp only at hrun
  split at hrun
  · cases hrun
    exact hw
  · obtain ⟨ih1, hfirst, hrun⟩ := bind_eq_ok.1 hrun
    have h1 := hw.maintainFirst hfirst
    split at hrun
    · obtain ⟨⟨q, ih2⟩, hsplit, hrun⟩ := bind_eq_ok.1 hrun
      obtain ⟨m, -, hrun⟩ := bind_eq_ok.1 hrun
      obtain ⟨ih3, hup, hrun⟩ := bind_eq_ok.1 hrun
      have h3 := (h1.split hsplit).insertIntoParent hup
      cases hrun
      simp only
      split
      · exact h3.header _
      · exact h3
    · cases hrun
      exact h1

omit [IxKey K] in
theorem Changes.eraseLeaf (h : Changes base ih) {p : Int} (hrun : ih.eraseLeaf p = .ok ih') :
    Changes base ih' := by
  obtain ⟨leaf, -, hrun⟩ := bind_eq_ok.1 hrun
  split at hrun
  · obtain ⟨prev, hprev, hrun⟩ := bind_eq_ok.1 hrun
    obtain ⟨leaf', -, hrun⟩ := bind_eq_ok.1 hrun
    obtain ⟨next, hnext, hrun⟩ := bind_eq_ok.1 hrun
    cases hrun
    exact (h.fetchWrite hprev).fetchWrite hnext
  · cases hrun

omit [IxKey K] in
theorem Changes.retireLeaf (h : Changes base ih) {p q : Int} {b : Bool}
    (hrun : ih.retireLeaf p q b = .ok ih') : Changes base ih' := by
  rw [IxIndexHandle.retireLeaf] at hrun
  split at hrun
  · refine Changes.eraseLeaf ?_ hrun
    split
    · exact h.header _
    · exact h
  · cases hrun
    exact h

theorem Changes.adjustRoot (h : Changes base ih) {p : Int} {b : Bool}
    (hrun : ih.adjustRoot p = .ok (b, ih')) : Changes base ih' := by
  obtain ⟨n, -, hrun⟩ := bind_eq_ok.1 hrun
  split at hrun
  · split at hrun
    · cases hrun
      exact (h.header _).header _
    · cases hrun
      exact h
  · split at hrun
    · obtain ⟨m, hm, hrun⟩ := bind_eq_ok.1 hrun
      cases hrun
      exact (h.fetchWrite hm).header _
    · cases hrun
      exact h

theorem Changes.redistribute (h : Changes base ih) {a b c : Int} {i : Nat}
    (hrun : ih.redistribute a b c i = .ok ih') :
    Changes base ih' := by
  rw [IxIndexHandle.redistribute] at hrun
  obtain ⟨x, hx, hrun⟩ := bind_eq_ok.1 hrun
  obtain ⟨y, hy, hrun⟩ := bind_eq_ok.1 hrun
  obtain ⟨z, hz, hrun⟩ := bind_eq_ok.1 hrun
  have hw : ∀ n m o : IxNode K, Changes base (((ih.writeNode b n).writeNode a m).writeNode c o) :=
    fun n m o => ((h.write (present_of_fetch hy) n).write ((present_of_fetch hx).write _ _) m).write
      (((present_of_fetch hz).write _ _).write _ _) o
  split at hrun
  · exact (hw _ _ _).maintainChild hrun
  · exact (hw _ _ _).maintainChild hrun

theorem Changes.coalesce {again : IxIndexHandle K → Int → Ix (Bool × IxIndexHandle K)}
    (h : Changes base ih) {a b c : Int} {i : Nat} {flag : Bool}
    (hagain : ∀ ih p flag ih', Changes base ih → again ih p = .ok (flag, ih') → Changes base ih')
    (hrun : coalesce again ih a b c i = .ok (flag, ih')) : Changes base ih' := by
  rw [IxIndexHandle.coalesce] at hrun
  generalize (if i = 0 then (b, a, 1) else (a, b, i)) = who at hrun
  obtain ⟨a, b, i⟩ := who
  obtain ⟨x, hx, hrun⟩ := bind_eq_ok.1 hrun
  obtain ⟨y, hy, hrun⟩ := bind_eq_ok.1 hrun
  obtain ⟨ih1, h1, hrun⟩ := bind_eq_ok.1 hrun
  obtain ⟨ih2, h2, hrun⟩ := bind_eq_ok.1 hrun
  have h2 : Changes base ih2 := ((h.fetchWrite hx).maintainChildren h1).retireLeaf h2
  obtain ⟨z, hz, hrun⟩ := bind_eq_ok.1 hrun
  have hreleased : Changes base ih2.releaseNodeHandle := h2.header _
  have h3 : ∀ m, Changes base (ih2.releaseNodeHandle.writeNode c m) := fun m => hreleased.fetchWrite hz
  split at hrun
  · simp only at hrun
    split at hrun
    · exact hagain _ _ _ _ (h3 _) hrun
    · cases hrun
      exact h3 _
  · cases hrun

theorem Changes.coalesceOrRedistribute {fuel : Nat} {p : Int} {flag : Bool} (h : Changes base ih)
    (hrun : coalesceOrRedistribute fuel ih p = .ok (flag, ih')) : Changes base ih' := by
  induction fuel generalizing ih p flag ih' with
  | zero => cases hrun
  | succ fuel iht =>
      rw [IxIndexHandle.coalesceOrRedistribute] at hrun
      obtain ⟨n, -, hrun⟩ := bind_eq_ok.1 hrun
      split at hrun
      · exact h.adjustRoot hrun
      · split at hrun
        · cases hrun
          exact h
        · obtain ⟨parent, -, hrun⟩ := bind_eq_ok.1 hrun
          obtain ⟨index, -, hrun⟩ := bind_eq_ok.1 hrun
          obtain ⟨neighbor, -, hrun⟩ := bind_eq_ok.1 hrun
          split at hrun
          · obtain ⟨ih1, h1, hrun⟩ := bind_eq_ok.1 hrun
            cases hrun
            exact h.redistribute h1
          · exact h.coalesce (fun _ _ _ _ hn hr => iht hn hr) hrun

theorem Changes.deleteEntry (h : Changes base ih) {k : K} {rid : Option Rid} {b : Bool}
    (hrun : ih.deleteEntry k rid = .ok (b, ih')) : Changes base ih' := by
  rw [IxIndexHandle.deleteEntry] at hrun
  obtain ⟨leaf, -, hrun⟩ := bind_eq_ok.1 hrun
  obtain ⟨n, hn, hrun⟩ := bind_eq_ok.1 hrun
  obtain ⟨ih1, h1, hrun⟩ := bind_eq_ok.1 hrun
  obtain ⟨⟨flag, ih2⟩, h2, hrun⟩ := bind_eq_ok.1 hrun
  cases hrun
  exact ((h.fetchWrite hn).maintainFirst h1).coalesceOrRedistribute h2

end Operations

end Rmdb

import Mathlib.Data.List.Basic

namespace Rmdb

/-- An iterator: the test for its end, the element it stands on and the step to the next one.
Reading and stepping may throw. -/
structure Cursor (σ ε α : Type) where
  isEnd : σ → Bool
  get : σ → Except ε α
  next : σ → Except ε σ

namespace Cursor

variable {σ ε α : Type} {c : Cursor σ ε α}

/-- From `s` on the cursor runs over the elements `as` and then stands on its end. -/
inductive Yields (c : Cursor σ ε α) : σ → List α → Prop
  | done {s : σ} (hend : c.isEnd s = true) : Yields c s []
  | step {s t : σ} {a : α} {as : List α} (hend : c.isEnd s = false) (hget : c.get s = .ok a)
      (hnext : c.next s = .ok t) (hrest : Yields c t as) : Yields c s (a :: as)

inductive Breaks (c : Cursor σ ε α) : σ → Prop
  | get {s : σ} {e : ε} (hend : c.isEnd s = false) (hget : c.get s = .error e) : Breaks c s
  | next {s : σ} {e : ε} (hend : c.isEnd s = false) (hnext : c.next s = .error e) : Breaks c s
  | step {s t : σ} (hend : c.isEnd s = false) (hnext : c.next s = .ok t) (hrest : Breaks c t) : Breaks c s

variable {s t : σ} {a : α} {as : List α} {p : α → Bool}

/-- Reads all elements; `stop` is thrown when the fuel does not suffice. -/
def collect (c : Cursor σ ε α) (stop : ε) : Nat → σ → Except ε (List α)
  | 0, s => if c.isEnd s then .ok [] else .error stop
  | fuel + 1, s =>
      if c.isEnd s then .ok []
      else do
        let a ← c.get s
        let t ← c.next s
        let as ← c.collect stop fuel t
        return a :: as

theorem Yields.collect (h : Yields c s as) (stop : ε) {fuel : Nat} (hf : as.length ≤ fuel) :
    c.collect stop fuel s = .ok as := by
  induction h generalizing fuel with
  | done hend => cases fuel <;> simp [Cursor.collect, hend]
  | step hend hget hnext hrest ih =>
      cases fuel with
      | zero => simp at hf
      | succ fuel =>
          have hrec := ih (Nat.le_of_succ_le_succ hf)
          simp [Cursor.collect, hend, hget, hnext, hrec, bind, Except.bind, pure, Except.pure]

theorem collect_ok {stop : ε} {fuel : Nat} (hend : c.isEnd s = false) (h : c.collect stop fuel s = .ok as) :
    ∃ a t n bs, c.get s = .ok a ∧ c.next s = .ok t ∧ c.collect stop n t = .ok bs ∧ as = a :: bs := by
  cases fuel with
  | zero => simp [Cursor.collect, hend] at h
  | succ n =>
      simp only [Cursor.collect, hend, Bool.false_eq_true, if_false] at h
      cases hget : c.get s with
      | error e => simp [hget, bind, Except.bind] at h
      | ok a =>
          cases hnext : c.next s with
          | error e => simp [hget, hnext, bind, Except.bind] at h
          | ok t =>
              cases hrest : c.collect stop n t with
              | error e => simp [hget, hnext, hrest, bind, Except.bind] at h
              | ok bs =>
                  simp only [hget, hnext, hrest, bind, Except.bind, pure, Except.pure, Except.ok.injEq] at h
                  exact ⟨a, t, n, bs, rfl, rfl, hrest, h.symm⟩

theorem yields_of_collect {stop : ε} {fuel : Nat} (h : c.collect stop fuel s = .ok as) : Yields c s as := by
  induction fuel generalizing s as with
  | zero =>
      cases hend : c.isEnd s with
      | true =>
          obtain rfl : [] = as := by simpa [Cursor.collect, hend] using h
          exact .done hend
      | false => simp [Cursor.collect, hend] at h
  | succ fuel ih =>
      cases hend : c.isEnd s with
      | true =>
          obtain rfl : [] = as := by simpa [Cursor.collect, hend] using h
          exact .done hend
      | false =>
          rw [Cursor.collect, hend, if_neg Bool.false_ne_true] at h
          cases hget : c.get s with
          | error e => simp [hget, bind, Except.bind] at h
          | ok a =>
              cases hnext : c.next s with
              | error e => simp [hget, hnext, bind, Except.bind] at h
              | ok t =>
                  cases hrest : c.collect stop fuel t with
                  | error e => simp [hget, hnext, hrest, bind, Except.bind] at h
                  | ok bs =>
                      obtain rfl : a :: bs = as := by
                        simpa [hget, hnext, hrest, bind, Except.bind, pure, Except.pure] using h
                      exact .step hend hget hnext (ih hrest)

theorem Breaks.not_collect (h : Breaks c s) (stop : ε) (fuel : Nat) : c.collect stop fuel s ≠ .ok as := by
  intro hc
  induction h generalizing fuel as with
  | get hend hget =>
      obtain ⟨a, t, n, bs, hget', -⟩ := collect_ok hend hc
      cases hget.symm.trans hget'
  | next hend hnext =>
      obtain ⟨a, t, n, bs, -, hnext', -⟩ := collect_ok hend hc
      cases hnext.symm.trans hnext'
  | step hend hnext hrest ih =>
      obtain ⟨a, t, n, bs, -, hnext', hcollect, -⟩ := collect_ok hend hc
      cases hnext.symm.trans hnext'
      exact ih n hcollect

inductive YieldsIn (c : Cursor σ ε α) (inv : σ → Prop) : σ → List α → Prop
  | done {s : σ} (hinv : inv s) (hend : c.isEnd s = true) : YieldsIn c inv s []
  | step {s t : σ} {a : α} {as : List α} (hinv : inv s) (hend : c.isEnd s = false) (hget : c.get s = .ok a)
      (hnext : c.next s = .ok t) (hrest : YieldsIn c inv t as) : YieldsIn c inv s (a :: as)

namespace YieldsIn

variable {inv : σ → Prop}

theorem yields (h : YieldsIn c inv s as) : Yields c s as := by
  induction h with
  | done _ hend => exact .done hend
  | step _ hend hget hnext _ ih => exact .step hend hget hnext ih

theorem holds (h : YieldsIn c inv s as) : inv s := by cases h <;> assumption

theorem isEnd_nil (h : YieldsIn c inv s []) : c.isEnd s = true := by
  cases h
  assumption

theorem of_yields (h : Yields c s as) : YieldsIn c (fun _ => True) s as := by
  induction h with
  | done hend => exact .done trivial hend
  | step hend hget hnext _ ih => exact .step trivial hend hget hnext ih

theorem cons (h : YieldsIn c inv s (a :: as)) :
    c.isEnd s = false ∧ c.get s = .ok a ∧ ∃ t, c.next s = .ok t ∧ YieldsIn c inv t as := by
  cases h with
  | step _ hend hget hnext hrest => exact ⟨hend, hget, _, hnext, hrest⟩

end YieldsIn

section Read

variable {ε' β : Type} (c) (err : ε → ε') (f : α → Except ε' β)

def read : Cursor σ ε' β where
  isEnd := c.isEnd
  get s := (c.get s).mapError err >>= f
  next s := (c.next s).mapError err

variable {c err f}

theorem Yields.read {g : α → β} (h : Yields c s as) (hf : ∀ a ∈ as, f a = .ok (g a)) :
    Yields (c.read err f) s (as.map g) := by
  induction h with
  | done hend => exact .done hend
  | step hend hget hnext hrest ih =>
      refine .step hend ?_ ?_ (ih fun b hb => hf b (List.mem_cons_of_mem _ hb))
      · simp [Cursor.read, hget, Except.mapError, bind, Except.bind, hf _ List.mem_cons_self]
      · simp [Cursor.read, hnext, Except.mapError]

theorem Breaks.read (h : Breaks c s) : Breaks (c.read err f) s := by
  induction h with
  | @get s e hend hget =>
      exact .get (e := err e) hend (by simp [Cursor.read, hget, Except.mapError, bind, Except.bind])
  | @next s e hend hnext => exact .next (e := err e) hend (by simp [Cursor.read, hnext, Except.mapError])
  | step hend hnext hrest ih => exact .step hend (by simp [Cursor.read, hnext, Except.mapError]) ih

end Read

section Filter

variable (c) (test : α → Except ε Bool) (stop : ε)

def seek : Nat → σ → Except ε σ
  | 0, s => if c.isEnd s then .ok s else .error stop
  | fuel + 1, s =>
      if c.isEnd s then .ok s
      else do
        let a ← c.get s
        if ← test a then return s
        let t ← c.next s
        seek fuel t

def filter (fuel : Nat) : Cursor σ ε α where
  isEnd := c.isEnd
  get := c.get
  next s := do
    let t ← c.next s
    c.seek test stop fuel t

variable {c} {fuel : Nat}

theorem filter_next (hnext : c.next s = .ok t) :
    (c.filter test stop fuel).next s = c.seek test stop fuel t := by
  simp [Cursor.filter, hnext, bind, Except.bind]

/-- A filter over a cursor that runs through runs through the elements that pass. -/
theorem Yields.seek (h : Yields c s as) (htest : ∀ a ∈ as, test a = .ok (p a)) {n : Nat} (hn : as.length ≤ n)
    (hf : as.length ≤ fuel) :
    ∃ t, c.seek test stop n s = .ok t ∧ Yields (c.filter test stop fuel) t (as.filter p) := by
  induction h generalizing n with
  | @done s hend => exact ⟨s, by cases n <;> simp [Cursor.seek, hend], .done hend⟩
  | @step s t a as hend hget hnext hrest ih =>
      obtain ⟨n, rfl⟩ : ∃ m, n = m + 1 := Nat.exists_eq_succ_of_ne_zero (by simp at hn; omega)
      simp only [List.length_cons] at hn hf
      have htests : ∀ b ∈ as, test b = .ok (p b) := fun b hb => htest b (List.mem_cons_of_mem _ hb)
      have ha := htest a List.mem_cons_self
      rw [Cursor.seek, hend, if_neg Bool.false_ne_true, hget]
      cases hp : p a with
      | true =>
          obtain ⟨u, hu, hyields⟩ := ih htests (n := fuel) (by omega) (by omega)
          refine ⟨s, by simp [ha, hp, bind, Except.bind, pure, Except.pure], ?_⟩
          rw [List.filter_cons_of_pos hp]
          exact .step hend hget ((filter_next test stop hnext).trans hu) hyields
      | false =>
          obtain ⟨u, hu, hyields⟩ := ih htests (n := n) (by omega) (by omega)
          refine ⟨u, by simp [ha, hp, hnext, hu, bind, Except.bind], ?_⟩
          rwa [List.filter_cons_of_neg (by simp [hp])]

theorem seek_ok {n : Nat} (hend : c.isEnd s = false) (h : c.seek test stop n s = .ok t) :
    ∃ a, c.get s = .ok a ∧ (test a = .ok true ∧ t = s ∨
      test a = .ok false ∧ ∃ u m, c.next s = .ok u ∧ c.seek test stop m u = .ok t) := by
  cases n with
  | zero => simp [Cursor.seek, hend] at h
  | succ n =>
      simp only [Cursor.seek, hend, Bool.false_eq_true, if_false] at h
      cases hget : c.get s with
      | error e => simp [hget, bind, Except.bind] at h
      | ok a =>
          refine ⟨a, rfl, ?_⟩
          cases htest : test a with
          | error e => simp [hget, htest, bind, Except.bind] at h
          | ok b =>
              cases b with
              | true =>
                  refine .inl ⟨rfl, ?_⟩
                  simpa [hget, htest, bind, Except.bind, pure, Except.pure, eq_comm] using h
              | false =>
                  cases hnext : c.next s with
                  | error e => simp [hget, htest, hnext, bind, Except.bind] at h
                  | ok u =>
                      exact .inr ⟨rfl, u, n, rfl, by
                        simpa [hget, htest, hnext, bind, Except.bind] using h⟩

theorem Breaks.seek (h : Breaks c s) (fuel : Nat) {n : Nat} (hrun : c.seek test stop n s = .ok t) :
    Breaks (c.filter test stop fuel) t := by
  induction h generalizing n t with
  | get hend hget =>
      obtain ⟨a, hget', -⟩ := seek_ok test stop hend hrun
      cases hget.symm.trans hget'
  | @next s e hend hnext =>
      obtain ⟨a, -, ⟨-, rfl⟩ | ⟨-, u, m, hnext', -⟩⟩ := seek_ok test stop hend hrun
      · exact .next (e := e) hend (by simp [Cursor.filter, hnext, bind, Except.bind])
      · cases hnext.symm.trans hnext'
  | @step s u hend hnext hrest ih =>
      obtain ⟨a, -, ⟨-, rfl⟩ | ⟨-, v, m, hnext', hseek⟩⟩ := seek_ok test stop hend hrun
      · -- the next call of the filter seeks from `u`
        cases hseek : c.seek test stop fuel u with
        | error e => exact .next (e := e) hend ((filter_next test stop hnext).trans hseek)
        | ok v => exact .step hend ((filter_next test stop hnext).trans hseek) (ih hseek)
      · cases hnext.symm.trans hnext'
        exact ih hseek

end Filter

section Seen

inductive Seen (c : Cursor σ ε α) (s₀ : σ) : List α → σ → Prop
  | start : Seen c s₀ [] s₀
  | step {s t : σ} {a : α} {as : List α} (h : Seen c s₀ as s) (hend : c.isEnd s = false)
      (hget : c.get s = .ok a)
      (hnext : c.next s = .ok t) : Seen c s₀ (as ++ [a]) t

variable {s₀ : σ} {bs : List α}

theorem Seen.rest (hs : Seen c s₀ as s) (h : Yields c s₀ bs) : ∃ cs, bs = as ++ cs ∧ Yields c s cs := by
  induction hs with
  | start => exact ⟨bs, rfl, h⟩
  | @step s t a as _ hend hget hnext ih =>
      obtain ⟨cs, rfl, hcs⟩ := ih
      cases hcs with
      | done hend' => exact absurd hend' (by rw [hend]; decide)
      | @step _ u b cs _ hget' hnext' hrest =>
          cases hget.symm.trans hget'
          cases hnext.symm.trans hnext'
          exact ⟨cs, by simp, hrest⟩

theorem Seen.all (hs : Seen c s₀ as s) (h : Yields c s₀ bs) (hend : c.isEnd s = true) : as = bs := by
  obtain ⟨cs, rfl, hcs⟩ := hs.rest h
  cases hcs with
  | done => simp
  | step hend' => exact absurd hend (by rw [hend']; decide)

theorem Breaks.isEnd_eq (h : Breaks c s) : c.isEnd s = false := by cases h <;> assumption

theorem Seen.breaks (hs : Seen c s₀ as s) (h : Breaks c s₀) : Breaks c s := by
  induction hs with
  | start => exact h
  | step _ hend hget hnext ih =>
      cases ih with
      | get _ hget' => cases hget.symm.trans hget'
      | next _ hnext' => cases hnext.symm.trans hnext'
      | step _ hnext' hrest =>
          cases hnext.symm.trans hnext'
          exact hrest

theorem Seen.of_image {τ : Type} {d : Cursor τ ε α} {f : σ → τ} (hend : ∀ s, d.isEnd (f s) = c.isEnd s)
    (hget : ∀ s, d.get (f s) = c.get s) (hnext : ∀ s, d.next (f s) = (c.next s).map f) {t : τ}
    (hs : Seen d (f s₀) as t) :
    ∃ s, t = f s ∧ Seen c s₀ as s := by
  induction hs with
  | start => exact ⟨s₀, rfl, .start⟩
  | step _ hend' hget' hnext' ih =>
      obtain ⟨s, rfl, hs⟩ := ih
      rw [hnext] at hnext'
      cases hn : c.next s with
      | error e =>
          rw [hn] at hnext'
          cases hnext'
      | ok u =>
          rw [hn] at hnext'
          cases hnext'
          exact ⟨u, rfl, .step hs ((hend s).symm.trans hend') ((hget s).symm.trans hget') hn⟩

end Seen

end Cursor

end Rmdb

import Mathlib.Data.List.Nodup

namespace Rmdb

/-- An intrusive list: the links from `a` on run through the list and end at the sentinel `e`. -/
inductive Chain {α : Type*} (next : α → α) (e : α) : α → List α → Prop
  | nil : Chain next e e []
  | cons {a : α} {l : List α} : a ≠ e → Chain next e (next a) l → Chain next e a (a :: l)

namespace Chain

variable {α : Type*} {next next' : α → α} {e a b : α} {l l' l₁ l₂ : List α}

theorem end_eq (h : Chain next e e l) : l = [] := by
  cases h with
  | nil => rfl
  | cons hne => exact absurd rfl hne

theorem ne_of_mem (h : Chain next e a l) (hb : b ∈ l) : b ≠ e := by
  induction h with
  | nil => cases hb
  | cons hne _ ih =>
      rcases List.mem_cons.1 hb with rfl | hb
      · exact hne
      · exact ih hb

/-- The links decide the list. -/
theorem unique (h : Chain next e a l) (h' : Chain next e a l') : l = l' := by
  induction h generalizing l' with
  | nil => exact h'.end_eq.symm
  | cons hne _ ih =>
      cases h' with
      | nil => exact absurd rfl hne
      | cons _ h' => rw [ih h']

theorem frame (h : Chain next e a l) (hsame : ∀ b ∈ l, next' b = next b) : Chain next' e a l := by
  induction h with
  | nil => exact .nil
  | cons hne _ ih =>
      refine .cons hne ?_
      rw [hsame _ List.mem_cons_self]
      exact ih fun b hb => hsame b (List.mem_cons_of_mem _ hb)

theorem after (h : Chain next e a (l₁ ++ b :: l₂)) (hsame : ∀ c ∈ l₁, next' c = next c)
    (h' : Chain next' e a l') :
    ∃ l₃, l' = l₁ ++ l₃ ∧ Chain next' e b l₃ := by
  induction l₁ generalizing a l' with
  | nil =>
      cases h
      exact ⟨l', rfl, h'⟩
  | cons c l₁ ih =>
      cases h with
      | cons hne h =>
          cases h' with
          | nil => exact absurd rfl hne
          | cons _ h' =>
              rw [hsame c List.mem_cons_self] at h'
              obtain ⟨l₃, rfl, h₃⟩ := ih h (fun d hd => hsame d (List.mem_cons_of_mem _ hd)) h'
              exact ⟨l₃, rfl, h₃⟩

theorem splice (h : Chain next e a (l₁ ++ b :: l₂)) (hsame : ∀ c ∈ l₁, next' c = next c)
    (h' : Chain next' e b l) :
    Chain next' e a (l₁ ++ l) := by
  induction l₁ generalizing a with
  | nil =>
      cases h
      exact h'
  | cons c l₁ ih =>
      cases h with
      | cons hne h =>
          refine .cons hne ?_
          rw [hsame c List.mem_cons_self]
          exact ih h fun d hd => hsame d (List.mem_cons_of_mem _ hd)

theorem suffix (h : Chain next e a (l₁ ++ b :: l₂)) : Chain next e b (b :: l₂) := by
  obtain ⟨l₃, heq, h₃⟩ := h.after (fun _ _ => rfl) h
  rwa [← List.append_cancel_left heq] at h₃

theorem notMem_of_cons (h : Chain next e a (a :: l)) : a ∉ l := by
  intro ha
  obtain ⟨l₁, l₂, rfl⟩ := List.append_of_mem ha
  have hsuffix : Chain next e a (a :: l₂) := by
    rw [← List.cons_append] at h
    exact h.suffix
  have hlen := congrArg List.length (h.unique hsuffix)
  simp only [List.length_cons, List.length_append] at hlen
  omega

theorem nodup (h : Chain next e a l) : l.Nodup := by
  induction h with
  | nil => exact List.nodup_nil
  | cons hne h ih => exact List.nodup_cons.2 ⟨(cons hne h).notMem_of_cons, ih⟩

/-- A link back to an earlier element makes a cycle. -/
theorem no_chain_of_back (h : Chain next e a l) (hb : b ∈ l) (hback : next' b = a)
    (hsame : ∀ c, c ≠ b → next' c = next c) :
    ¬ Chain next' e b l' := by
  intro h'
  have hnd := h.nodup
  obtain ⟨l₁, l₂, rfl⟩ := List.append_of_mem hb
  cases h' with
  | nil => exact h.ne_of_mem hb rfl
  | cons hne h' =>
      rw [hback] at h'
      have hfront : ∀ c ∈ l₁, next' c = next c := by
        intro c hc
        refine hsame c ?_
        rintro rfl
        exact List.disjoint_of_nodup_append hnd hc List.mem_cons_self
      obtain ⟨l₃, rfl, h₃⟩ := h.after hfront h'
      cases h₃ with
      | nil => exact hne rfl
      | cons _ h₃ =>
          rw [← hback] at h'
          exact (cons hne h').notMem_of_cons (List.mem_append_right _ List.mem_cons_self)

end Chain

end Rmdb

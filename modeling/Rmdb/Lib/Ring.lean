import Mathlib.Tactic

namespace Rmdb.Ring

variable {α : Type} {nx pv nx' pv' : α → Option α}

def Link (nx pv : α → Option α) (a b : α) : Prop := nx a = some b ∧ pv b = some a

/-- The nodes `ls` form a circular doubly linked list through the sentinel `s`. -/
def IsRing (nx pv : α → Option α) (s : α) (ls : List α) : Prop := (s :: (ls ++ [s])).IsChain (Link nx pv)

/-- A stretch of the list only depends on the forward links of all but its last node and
on the backward links of all but its first. -/
theorem congr_stretch {l : List α} (hl : l.IsChain (Link nx pv)) (hd : ∀ a ∈ l.dropLast, nx' a = nx a)
    (ht : ∀ b ∈ l.tail, pv' b = pv b) : l.IsChain (Link nx' pv') := by
  induction l with
  | nil => exact List.IsChain.nil
  | cons a l ihl =>
      cases l with
      | nil => exact List.IsChain.singleton _
      | cons b l =>
          rw [List.isChain_cons_cons] at hl ⊢
          refine ⟨⟨?_, ?_⟩, ihl hl.2 ?_ ?_⟩
          · rw [hd a (by simp)]; exact hl.1.1
          · rw [ht b (by simp)]; exact hl.1.2
          · intro c hc
            exact hd c (by simp [hc])
          · intro c hc
            exact ht c (by simp at hc ⊢; exact Or.inr hc)

theorem IsRing.congr {s : α} {ls : List α} (hr : IsRing nx pv s ls) (hn : ∀ a ∈ s :: ls, nx' a = nx a)
    (hp : ∀ a ∈ s :: ls, pv' a = pv a) : IsRing nx' pv' s ls := by
  refine congr_stretch hr ?_ ?_
  · intro a ha
    rw [← List.cons_append, List.dropLast_concat] at ha
    exact hn a ha
  · intro a ha
    refine hp a ?_
    simp only [List.tail_cons, List.mem_append, List.mem_singleton] at ha
    simp only [List.mem_cons]
    exact ha.symm

theorem ring_split {s p : α} {A B : List α} :
    IsRing nx pv s (A ++ p :: B) ↔ (s :: A ++ [p]).IsChain (Link nx pv) ∧
      (p :: (B ++ [s])).IsChain (Link nx pv) := by
  rw [IsRing, show s :: (A ++ p :: B ++ [s]) = (s :: A) ++ p :: (B ++ [s]) by simp,
    List.isChain_split]

theorem apart {X Y : List α} {a : α} (hnd : (X ++ Y).Nodup) (hx : a ∈ X) (hy : a ∈ Y) : False :=
  List.disjoint_of_nodup_append hnd hx hy

/-- Linking a fresh node `q` in behind `p`; `n` is what followed `p`. -/
theorem IsRing.insert {s p q n : α} {A B : List α} (hr : IsRing nx pv s (A ++ p :: B))
    (hnd : (s :: (A ++ p :: B)).Nodup) (hq : q ∉ s :: (A ++ p :: B)) (hn : nx p = some n)
    (hp' : nx' p = some q) (hq' : nx' q = some n) (hpq : pv' q = some p) (hnq : pv' n = some q)
    (hnx : ∀ x, x ≠ p → x ≠ q → nx' x = nx x) (hpv : ∀ x, x ≠ n → x ≠ q → pv' x = pv x) :
    IsRing nx' pv' s (A ++ p :: q :: B) := by
  obtain ⟨h1, h2⟩ := ring_split.1 hr
  obtain ⟨m, Y, hY⟩ : ∃ m Y, B ++ [s] = m :: Y := by
    cases B with
    | nil => exact ⟨s, [], rfl⟩
    | cons b B => exact ⟨b, B ++ [s], rfl⟩
  rw [hY, List.isChain_cons_cons] at h2
  obtain rfl : n = m := by
    have := h2.1.1
    rw [hn] at this
    exact Option.some.inj this
  have hrot : (A ++ p :: (n :: Y)).Nodup := by
    rw [← hY, ← List.cons_append, ← List.append_assoc]
    exact (List.perm_append_singleton s (A ++ p :: B)).nodup_iff.2 hnd
  have hqr : q ∉ A ++ p :: (n :: Y) := by
    rw [← hY]
    intro hc
    exact hq (by simp at hc ⊢; tauto)
  have hBn : ∀ a ∈ (n :: Y).dropLast, a ∈ B := by
    rw [← hY, List.dropLast_concat]
    exact fun _ ha => ha
  have hnA : n ∉ A ++ [p] := fun hc =>
    apart (X := A ++ [p]) (Y := n :: Y) (by simpa using hrot) hc (by simp)
  rw [ring_split]
  refine ⟨congr_stretch h1 ?_ ?_, ?_⟩
  · intro a ha
    rw [List.dropLast_concat] at ha
    refine hnx a ?_ ?_
    · rintro rfl
      exact apart (X := s :: A) (Y := a :: B) (by simpa using hnd) ha (by simp)
    · rintro rfl
      exact hq (by simp at ha ⊢; tauto)
  · intro a ha
    refine hpv a ?_ ?_
    · rintro rfl
      exact hnA (by simpa using ha)
    · rintro rfl
      exact hqr (by simp at ha ⊢; tauto)
  · rw [List.cons_append, hY, List.isChain_cons_cons, List.isChain_cons_cons]
    refine ⟨⟨hp', hpq⟩, ⟨hq', hnq⟩, congr_stretch h2.2 ?_ ?_⟩
    · intro a ha
      have haB := hBn a ha
      refine hnx a ?_ ?_
      · rintro rfl
        have := (List.nodup_append.1 (List.nodup_cons.1 hnd).2).2.1
        exact (List.nodup_cons.1 this).1 haB
      · rintro rfl
        exact hq (by simp [haB])
    · intro a ha
      rw [List.tail_cons] at ha
      refine hpv a ?_ ?_
      · rintro rfl
        have := (List.nodup_append.1 hrot).2.1
        exact (List.nodup_cons.1 (List.nodup_cons.1 this).2).1 ha
      · rintro rfl
        exact hqr (by simp [ha])

/-- Unlinking the node `q` behind `p`; `n` is what follows `q`. -/
theorem IsRing.unlink {s p q n : α} {A B : List α} (hr : IsRing nx pv s (A ++ p :: q :: B))
    (hnd : (s :: (A ++ p :: q :: B)).Nodup) (hn : nx q = some n) (hp' : nx' p = some n) (hn' : pv' n = some p)
    (hnx : ∀ x, x ≠ p → nx' x = nx x) (hpv : ∀ x, x ≠ n → pv' x = pv x) :
    IsRing nx' pv' s (A ++ p :: B) := by
  obtain ⟨h1, h2⟩ := ring_split.1 hr
  obtain ⟨m, Y, hY⟩ : ∃ m Y, B ++ [s] = m :: Y := by
    cases B with
    | nil => exact ⟨s, [], rfl⟩
    | cons b B => exact ⟨b, B ++ [s], rfl⟩
  rw [List.cons_append, hY, List.isChain_cons_cons, List.isChain_cons_cons] at h2
  obtain rfl : n = m := by
    have := h2.2.1.1
    rw [hn] at this
    exact Option.some.inj this
  have hrot : (A ++ p :: q :: (n :: Y)).Nodup := by
    rw [← hY, ← List.cons_append, ← List.cons_append, ← List.append_assoc]
    exact (List.perm_append_singleton s (A ++ p :: q :: B)).nodup_iff.2 hnd
  have hBn : ∀ a ∈ (n :: Y).dropLast, a ∈ B := by
    rw [← hY, List.dropLast_concat]
    exact fun _ ha => ha
  rw [ring_split]
  refine ⟨congr_stretch h1 ?_ ?_, ?_⟩
  · intro a ha
    rw [List.dropLast_concat] at ha
    refine hnx a ?_
    rintro rfl
    exact apart (X := s :: A) (Y := a :: q :: B) (by simpa using hnd) ha (by simp)
  · intro a ha
    refine hpv a ?_
    rintro rfl
    exact apart (X := A ++ [p]) (Y := q :: a :: Y) (by simpa using hrot)
      (by simpa using ha) (by simp)
  · rw [hY, List.isChain_cons_cons]
    refine ⟨⟨hp', hn'⟩, congr_stretch h2.2.2 ?_ ?_⟩
    · intro a ha
      have haB := hBn a ha
      refine hnx a ?_
      rintro rfl
      have := (List.nodup_append.1 (List.nodup_cons.1 hnd).2).2.1
      exact (List.nodup_cons.1 this).1 (by simp [haB])
    · intro a ha
      rw [List.tail_cons] at ha
      refine hpv a ?_
      rintro rfl
      have := (List.nodup_append.1 hrot).2.1
      exact (List.nodup_cons.1 (List.nodup_cons.1 (List.nodup_cons.1 this).2).2).1 ha

end Rmdb.Ring

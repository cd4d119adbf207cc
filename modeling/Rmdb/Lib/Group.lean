import Mathlib.Data.List.Induction
import Mathlib.Data.List.Nodup
import Mathlib.Data.List.Perm.Subperm

namespace Rmdb

variable {α κ : Type} [DecidableEq κ]

def storeIn (key : κ) (a : α) : List (κ × List α) → List (κ × List α)
  | [] => [(key, [a])]
  | group :: groups =>
      if group.1 = key then (key, group.2 ++ [a]) :: groups else group :: storeIn key a groups

def groupsOf (key : α → κ) (as : List α) : List (κ × List α) :=
  as.foldl (fun groups a => storeIn (key a) a groups) []

def keysOf (key : α → κ) (as : List α) : List κ := (as.map key).eraseDups

variable {key : α → κ} {as : List α} {k : κ} {ks : List κ} {a : α}

theorem eraseDups_concat : (ks ++ [k]).eraseDups = if k ∈ ks then ks.eraseDups else ks.eraseDups ++ [k] := by
  rw [List.eraseDups_append]
  split <;> rename_i hk <;> simp [List.removeAll, hk, List.eraseDups_cons]

theorem mem_eraseDups : k ∈ ks.eraseDups ↔ k ∈ ks := by
  induction ks using List.reverseRecOn with
  | nil => simp
  | append_singleton ks j ih =>
      rw [eraseDups_concat]
      split
      · rename_i hj
        rw [ih, List.mem_append, List.mem_singleton]
        exact ⟨.inl, fun h => h.elim id fun he => he ▸ hj⟩
      · simp [ih]

theorem nodup_eraseDups : ks.eraseDups.Nodup := by
  induction ks using List.reverseRecOn with
  | nil => simp
  | append_singleton ks j ih =>
      rw [eraseDups_concat]
      split
      · exact ih
      · rename_i hj
        exact List.nodup_append.2 ⟨ih, List.nodup_singleton j, fun x hx y hy hxy => by
          rw [List.mem_singleton] at hy
          exact hj (mem_eraseDups.1 (by rwa [← hy, ← hxy]))⟩

theorem storeIn_of_notMem {f : κ → List α} (hk : k ∉ ks) :
    storeIn k a (ks.map fun j => (j, f j)) = ks.map (fun j => (j, f j)) ++ [(k, [a])] := by
  induction ks with
  | nil => rfl
  | cons j ks ih =>
      rw [List.mem_cons, not_or] at hk
      rw [List.map_cons, storeIn, if_neg fun h => hk.1 h.symm, ih hk.2]
      rfl

theorem storeIn_of_mem {f : κ → List α} (hn : ks.Nodup) (hk : k ∈ ks) :
    storeIn k a (ks.map fun j => (j, f j)) = ks.map fun j => (j, if j = k then f j ++ [a] else f j) := by
  induction ks with
  | nil => cases hk
  | cons j ks ih =>
      obtain ⟨hj, hn⟩ := List.nodup_cons.1 hn
      rw [List.map_cons, storeIn, List.map_cons]
      by_cases hjk : j = k
      · subst hjk
        rw [if_pos rfl, if_pos rfl]
        congr 1
        refine List.map_congr_left fun i hi => ?_
        rw [if_neg (ne_of_mem_of_not_mem hi hj)]
      · have hk' : k ∈ ks := (List.mem_cons.1 hk).resolve_left fun h => hjk h.symm
        rw [if_neg hjk, if_neg hjk, ih hn hk']

theorem mem_keysOf : k ∈ keysOf key as ↔ ∃ a ∈ as, key a = k := by rw [keysOf, mem_eraseDups, List.mem_map]

theorem nodup_keysOf : (keysOf key as).Nodup := nodup_eraseDups

theorem groupsOf_eq : groupsOf key as = (keysOf key as).map fun k => (k, as.filter fun a => key a = k) := by
  induction as using List.reverseRecOn with
  | nil => rfl
  | append_singleton as a ih =>
      have hstep : groupsOf key (as ++ [a]) = storeIn (key a) a (groupsOf key as) := by
        rw [groupsOf, List.foldl_append]
        rfl
      rw [hstep, ih, keysOf, keysOf, List.map_append, List.map_singleton, eraseDups_concat]
      split
      · rename_i hmem
        rw [storeIn_of_mem nodup_eraseDups (mem_eraseDups.2 hmem)]
        refine List.map_congr_left fun k _ => ?_
        rw [List.filter_append]
        by_cases hk : key a = k
        · simp [hk]
        · simp [hk, Ne.symm hk]
      · rename_i hmem
        rw [storeIn_of_notMem fun h => hmem (mem_eraseDups.1 h), List.map_append]
        congr 1
        · refine List.map_congr_left fun k hk => ?_
          have hne : key a ≠ k := fun h => hmem (h ▸ mem_eraseDups.1 hk)
          simp [List.filter_append, hne]
        · have hnone : as.filter (fun b => key b = key a) = [] := by
            rw [List.filter_eq_nil_iff]
            intro b hb
            simpa using fun h => hmem (List.mem_map.2 ⟨b, hb, h⟩)
          simp [List.filter_append, hnone]

section Renamed

variable {μ : Type} [DecidableEq μ] {f : κ → μ}

theorem eraseDups_map (h : ∀ j ∈ ks, ∀ k ∈ ks, f j = f k → j = k) :
    (ks.map f).eraseDups = ks.eraseDups.map f := by
  induction ks using List.reverseRecOn with
  | nil => rfl
  | append_singleton ks k ih =>
      have hks : ∀ j ∈ ks, j ∈ ks ++ [k] := fun j hj => List.mem_append_left _ hj
      have hlast : k ∈ ks ++ [k] := by simp
      have hmem : f k ∈ ks.map f ↔ k ∈ ks := by
        rw [List.mem_map]
        constructor
        · rintro ⟨j, hj, hjk⟩
          exact h j (hks j hj) k hlast hjk ▸ hj
        · exact fun hk => ⟨k, hk, rfl⟩
      rw [List.map_append, List.map_singleton, eraseDups_concat, eraseDups_concat,
        ih fun i hi j hj => h i (hks i hi) j (hks j hj)]
      by_cases hk : k ∈ ks
      · rw [if_pos hk, if_pos (hmem.2 hk)]
      · rw [if_neg hk, if_neg fun hc => hk (hmem.1 hc), List.map_append, List.map_singleton]

theorem groupsOf_renamed (h : ∀ a ∈ as, ∀ b ∈ as, f (key a) = f (key b) → key a = key b) :
    (groupsOf (fun a => f (key a)) as).map Prod.snd = (groupsOf key as).map Prod.snd := by
  have hkeys : keysOf (fun a => f (key a)) as = (keysOf key as).map f := by
    rw [keysOf, keysOf, ← eraseDups_map, List.map_map]
    · rfl
    · intro j hj k hk hjk
      obtain ⟨a, ha, rfl⟩ := List.mem_map.1 hj
      obtain ⟨b, hb, rfl⟩ := List.mem_map.1 hk
      exact h a ha b hb hjk
  rw [groupsOf_eq, groupsOf_eq, hkeys, List.map_map, List.map_map, List.map_map]
  refine List.map_congr_left fun k hk => List.filter_congr fun a ha => ?_
  obtain ⟨b, hb, rfl⟩ := mem_keysOf.1 hk
  exact decide_eq_decide.2 ⟨h a ha b hb, fun he => congrArg f he⟩

end Renamed

theorem groupsOf_length_le : (groupsOf key as).length ≤ as.length := by
  rw [groupsOf_eq, List.length_map, keysOf, ← List.length_map key]
  exact (List.subperm_of_subset nodup_eraseDups fun k hk => mem_eraseDups.1 hk).length_le

theorem ne_nil_of_mem_groupsOf : ∀ group ∈ groupsOf key as, group.2 ≠ [] := by
  intro group hgroup
  rw [groupsOf_eq] at hgroup
  obtain ⟨k, hk, rfl⟩ := List.mem_map.1 hgroup
  obtain ⟨a, ha, rfl⟩ := mem_keysOf.1 hk
  exact List.ne_nil_of_mem (List.mem_filter.2 ⟨ha, decide_eq_true rfl⟩)

omit [DecidableEq κ] in
/-- One group is left exactly when one key passes. -/
theorem filter_eq_singleton {p : κ → Bool} (hn : ks.Nodup) :
    ks.filter p = [k] ↔ k ∈ ks ∧ p k = true ∧ ∀ j ∈ ks, p j = true → j = k := by
  rw [← List.perm_singleton, List.perm_ext_iff_of_nodup (hn.filter p) (List.nodup_singleton k)]
  simp only [List.mem_filter, List.mem_singleton]
  constructor
  · intro h
    exact ⟨((h k).2 rfl).1, ((h k).2 rfl).2, fun j hj hp => (h j).1 ⟨hj, hp⟩⟩
  · rintro ⟨hk, hp, hone⟩ j
    exact ⟨fun hj => hone j hj.1 hj.2, fun h => h ▸ ⟨hk, hp⟩⟩

end Rmdb

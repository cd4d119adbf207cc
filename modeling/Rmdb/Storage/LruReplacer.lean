import Mathlib.Data.Set.Card
import Rmdb.Storage.BufferPool

namespace Rmdb

/-- A queue of frames: for each frame in it the time at which its entry came. -/
structure LruQueue (F : Type) where
  clock : Nat
  since : F → Option Nat

namespace LruQueue

variable {F : Type}

def empty : LruQueue F := ⟨0, fun _ => none⟩

variable [DecidableEq F] (q : LruQueue F) (f : F)

/-- A frame that is there already keeps its entry. -/
def enter : LruQueue F :=
  ⟨q.clock + 1, if q.since f = none then Function.update q.since f (some q.clock) else q.since⟩

def leave : LruQueue F := ⟨q.clock + 1, Function.update q.since f none⟩

omit [DecidableEq F] in
def Oldest : Prop := ∃ t, q.since f = some t ∧ ∀ g u, q.since g = some u → t ≤ u

end LruQueue

section Lists

open LruQueue

variable {F : Type} {l : List F} {q : LruQueue F} {f : F}

/-- The list holds the frames of the queue, the newest entry first. -/
structure Queued (l : List F) (q : LruQueue F) : Prop where
  nodup : l.Nodup
  mem : ∀ f, f ∈ l ↔ q.since f ≠ none
  newest : l.Pairwise fun f g => ∀ t u, q.since f = some t → q.since g = some u → u < t
  past : ∀ f t, q.since f = some t → t < q.clock

theorem queued_empty : Queued ([] : List F) .empty := ⟨.nil, by simp [empty], .nil, by simp [empty]⟩

variable [DecidableEq F]

theorem Queued.enter (h : Queued l q) (f : F) : Queued (LRUReplacer.unpin l f) (q.enter f) := by
  rw [LRUReplacer.unpin, LruQueue.enter]
  by_cases hf : f ∈ l
  · rw [if_pos hf, if_neg ((h.mem f).1 hf)]
    exact ⟨h.nodup, h.mem, h.newest, fun g t hg => Nat.lt_succ_of_lt (h.past g t hg)⟩
  · rw [if_neg hf, if_pos (not_not.1 fun hc => hf ((h.mem f).2 hc))]
    have hold : ∀ g ∈ l, Function.update q.since f (some q.clock) g = q.since g := by
      intro g hg
      refine Function.update_of_ne ?_ _ _
      rintro rfl
      exact hf hg
    refine ⟨List.nodup_cons.2 ⟨hf, h.nodup⟩, fun g => ?_,
      List.pairwise_cons.2 ⟨fun g hg t u ht hu => ?_, ?_⟩, fun g t hg => ?_⟩
    · by_cases hg : g = f
      · simp [hg]
      · simp [hg, h.mem g]
    · simp only [Function.update_self, Option.some.injEq] at ht
      exact ht ▸ h.past g u ((hold g hg).symm.trans hu)
    · refine h.newest.imp_of_mem fun {a b} ha hb hab t u ht hu => ?_
      exact hab t u ((hold a ha).symm.trans ht) ((hold b hb).symm.trans hu)
    · by_cases hgf : g = f
      · simp only [hgf, Function.update_self, Option.some.injEq] at hg
        exact hg ▸ Nat.lt_succ_self _
      · simp only [Function.update_of_ne hgf] at hg
        exact Nat.lt_succ_of_lt (h.past g t hg)

theorem Queued.leave (h : Queued l q) (f : F) : Queued (LRUReplacer.pin l f) (q.leave f) := by
  have hkeep : ∀ g t, (q.leave f).since g = some t → q.since g = some t := by
    intro g t hg
    by_cases hgf : g = f
    · simp [LruQueue.leave, hgf] at hg
    · simp only [LruQueue.leave, Function.update_of_ne hgf] at hg
      exact hg
  refine ⟨h.nodup.erase f, fun g => ?_, ?_, fun g t hg => Nat.lt_succ_of_lt (h.past g t (hkeep g t hg))⟩
  · rw [LRUReplacer.pin, h.nodup.mem_erase_iff, h.mem, LruQueue.leave]
    by_cases hgf : g = f <;> simp [hgf]
  · refine (h.newest.sublist List.erase_sublist).imp fun {a b} hab t u ht hu => ?_
    exact hab t u (hkeep a t ht) (hkeep b u hu)

omit [DecidableEq F] in
theorem Queued.none_of_nil (h : Queued [] q) (f : F) : q.since f = none :=
  not_not.1 fun hc => List.not_mem_nil ((h.mem f).2 hc)

omit [DecidableEq F] in
theorem Queued.oldest (h : Queued (l ++ [f]) q) : q.Oldest f := by
  obtain ⟨t, ht⟩ := Option.ne_none_iff_exists'.1 ((h.mem f).1 (by simp))
  refine ⟨t, ht, fun g u hu => ?_⟩
  have hg : g ∈ l ++ [f] := (h.mem g).2 (by simp [hu])
  rcases List.mem_append.1 hg with hg | hg
  · exact ((List.pairwise_append.1 h.newest).2.2 g hg f (by simp) u t hu ht).le
  · obtain rfl := List.mem_singleton.1 hg
    cases ht.symm.trans hu
    exact le_rfl

omit [DecidableEq F] in
theorem Queued.length_eq (h : Queued l q) : l.length = Set.ncard {f | q.since f ≠ none} := by
  classical
  have hset : {f | q.since f ≠ none} = (l.toFinset : Set F) := by
    ext f
    simp [h.mem f]
  rw [hset, Set.ncard_coe_finset, List.toFinset_card_of_nodup h.nodup]

end Lists

/-- An `LRUReplacer` with its list nodes, whose addresses are the iterators: a node is its address
with the frame in it. -/
structure LruReplacer where
  lruList : List (Nat × Int32)
  lruHash : Int32 → Option Nat
  maxSize : Nat

/-- A call. `unpin` comes with the address that a new node gets. -/
inductive LruCall
  | victim
  | pin (frameId : Int32)
  | unpin (frameId : Int32) (node : Nat)
deriving DecidableEq

/-- What `victim` returns, and what it writes to `*frame_id`. -/
abbrev LruResult := Option (Bool × Int32)

namespace LruReplacer

def init (numPages : Nat) : LruReplacer := ⟨[], fun _ => none, numPages⟩

variable (s : LruReplacer)

def size : Nat := s.lruList.length

def frames : List Int32 := s.lruList.map Prod.snd

def nodes : List Nat := s.lruList.map Prod.fst

def victim : (Bool × Int32) × LruReplacer :=
  match s.lruList.getLast? with
  | none => ((false, -1), s)
  | some node =>
      ((true, node.2), { s with
        lruList := s.lruList.dropLast, lruHash := Function.update s.lruHash node.2 none })

/-- `std::list::erase`. Without a node at the iterator its behaviour is undefined. -/
def eraseNode (it : Nat) : Option (List (Nat × Int32)) :=
  if it ∈ s.nodes then some (s.lruList.eraseP fun node => node.1 = it) else none

def pin (frameId : Int32) : Option LruReplacer :=
  match s.lruHash frameId with
  | none => some s
  | some it => do
      let lruList ← s.eraseNode it
      return { s with lruList := lruList, lruHash := Function.update s.lruHash frameId none }

def unpin (frameId : Int32) (node : Nat) : LruReplacer :=
  if s.lruHash frameId ≠ none then s
  else
    let lruList := (node, frameId) :: s.lruList
    { s with lruList := lruList, lruHash := Function.update s.lruHash frameId (lruList.head?.map Prod.fst) }

/-- `none` when the behaviour is undefined. -/
def exec : LruCall → Option (LruResult × LruReplacer)
  | .victim => some (some s.victim.1, s.victim.2)
  | .pin frameId => (s.pin frameId).map fun s' => (none, s')
  | .unpin frameId node => some (none, s.unpin frameId node)

def step (s : LruReplacer) (c : LruCall) : Option LruReplacer := (s.exec c).map Prod.snd

def execAll : LruReplacer → List LruCall → Option (List LruResult × LruReplacer)
  | s, [] => some ([], s)
  | s, c :: cs => do
      let (result, s) ← s.exec c
      let (results, s) ← execAll s cs
      return (result :: results, s)

def NewNode (s : LruReplacer) : LruCall → Prop
  | .unpin _ node => node ∉ s.nodes
  | _ => True

instance (s : LruReplacer) : ∀ c, Decidable (s.NewNode c)
  | .unpin _ node => inferInstanceAs (Decidable (node ∉ s.nodes))
  | .victim | .pin _ => inferInstanceAs (Decidable True)

end LruReplacer

inductive LruQueue.Step (q : LruQueue Int32) : LruCall → LruResult → LruQueue Int32 → Prop
  | evicted {f : Int32} (h : q.Oldest f) : Step q .victim (some (true, f)) (q.leave f)
  | empty (h : ∀ f, q.since f = none) : Step q .victim (some (false, -1)) q
  | pinned (f : Int32) : Step q (.pin f) none (q.leave f)
  | unpinned (f : Int32) (node : Nat) : Step q (.unpin f node) none (q.enter f)

inductive LruQueue.Steps : LruQueue Int32 → List LruCall → List LruResult → LruQueue Int32 → Prop
  | nil (q : LruQueue Int32) : Steps q [] [] q
  | cons {q q' q'' : LruQueue Int32} {c : LruCall} {cs : List LruCall} {r : LruResult} {rs : List LruResult}
      (hstep : q.Step c r q') (hrest : Steps q' cs rs q'') : Steps q (c :: cs) (r :: rs) q''

namespace LruReplacer

/-- The list holds the frames of the queue, and the hash maps each of them, and nothing else, to
its own node. -/
structure Refines (s : LruReplacer) (q : LruQueue Int32) : Prop where
  queued : Queued s.frames q
  hash : ∀ f node, s.lruHash f = some node ↔ (node, f) ∈ s.lruList
  nodes : s.nodes.Nodup

variable {s : LruReplacer} {q : LruQueue Int32} {f : Int32} {node it : Nat}
  {A B : List (Nat × Int32)} {c : LruCall}

theorem refines_init (numPages : Nat) : Refines (init numPages) .empty :=
  ⟨queued_empty, fun f node => by simp [init], List.nodup_nil⟩

theorem Refines.hash_erased (h : Refines s q) (hl : s.lruList = A ++ (it, f) :: B) (g : Int32) :
    Function.update s.lruHash f none g = some node ↔ (node, g) ∈ A ++ B := by
  have hnodup := h.queued.nodup
  rw [frames, hl, List.map_append, List.map_cons, List.nodup_middle, List.nodup_cons,
    ← List.map_append] at hnodup
  by_cases hgf : g = f
  · subst hgf
    rw [Function.update_self]
    refine ⟨fun hc => (by cases hc), fun hc => absurd (List.mem_map_of_mem hc) hnodup.1⟩
  · rw [Function.update_of_ne hgf, h.hash, hl]
    simp [hgf]

theorem Refines.nodes_erased (h : Refines s q) (hl : s.lruList = A ++ (it, f) :: B) :
    ((A ++ B).map Prod.fst).Nodup := by
  have hnodup := h.nodes
  rw [LruReplacer.nodes, hl, List.map_append, List.map_cons, List.nodup_middle, ← List.map_append] at hnodup
  exact (List.nodup_cons.1 hnodup).2

theorem Refines.frames_erased (h : Refines s q) (hl : s.lruList = A ++ (it, f) :: B) :
    LRUReplacer.pin s.frames f = (A ++ B).map Prod.snd := by
  have hnodup := h.queued.nodup
  rw [frames, hl, List.map_append, List.map_cons, List.nodup_middle, List.nodup_cons,
    List.mem_append, not_or] at hnodup
  rw [LRUReplacer.pin, frames, hl, List.map_append, List.map_cons, List.erase_append_right _ hnodup.1.1,
    List.erase_cons_head, List.map_append]

theorem Refines.erased (h : Refines s q) (hl : s.lruList = A ++ (it, f) :: B) :
    Refines ⟨A ++ B, Function.update s.lruHash f none, s.maxSize⟩ (q.leave f) where
  queued := by
    have hqueued := h.queued.leave f
    rw [h.frames_erased hl] at hqueued
    exact hqueued
  hash g node := h.hash_erased hl g
  nodes := h.nodes_erased hl

theorem Refines.eraseNode_eq (h : Refines s q) (hl : s.lruList = A ++ (it, f) :: B) :
    s.eraseNode it = some (A ++ B) := by
  have hnodup := h.nodes
  rw [LruReplacer.nodes, hl, List.map_append, List.map_cons, List.nodup_middle, List.nodup_cons,
    ← List.map_append] at hnodup
  have hA : ∀ e ∈ A, ¬ decide (e.1 = it) = true := by
    intro e he hc
    exact hnodup.1 (List.mem_map.2 ⟨e, List.mem_append_left B he, of_decide_eq_true hc⟩)
  rw [eraseNode, if_pos (by simp [LruReplacer.nodes, hl]), hl, List.eraseP_append_right _ hA,
    List.eraseP_cons_of_pos (by simp)]

theorem Refines.pin (h : Refines s q) (f : Int32) : ∃ s', s.pin f = some s' ∧ Refines s' (q.leave f) := by
  cases hf : s.lruHash f with
  | none =>
      have hnot : f ∉ s.frames := by
        intro hc
        obtain ⟨⟨node, g⟩, hmem, rfl⟩ := List.mem_map.1 hc
        cases hf.symm.trans ((h.hash g node).2 hmem)
      have hqueued := h.queued.leave f
      rw [LRUReplacer.pin, List.erase_of_not_mem hnot] at hqueued
      exact ⟨s, by rw [LruReplacer.pin, hf], hqueued, h.hash, h.nodes⟩
  | some it =>
      obtain ⟨A, B, hl⟩ := List.append_of_mem ((h.hash f it).1 hf)
      refine ⟨_, ?_, h.erased hl⟩
      rw [LruReplacer.pin, hf]
      simp only [h.eraseNode_eq hl, Option.bind_eq_bind, Option.bind_some, Option.pure_def]

theorem Refines.victim (h : Refines s q) :
    ∃ q', q.Step .victim (some s.victim.1) q' ∧ Refines s.victim.2 q' := by
  rw [LruReplacer.victim]
  rcases List.eq_nil_or_concat s.lruList with hl | ⟨A, ⟨node, f⟩, hl⟩
  · have hnil : s.frames = [] := by rw [frames, hl, List.map_nil]
    rw [hl]
    refine ⟨q, .empty fun f => ?_, h⟩
    exact Queued.none_of_nil (hnil ▸ h.queued) f
  · rw [List.concat_eq_append] at hl
    have hold : q.Oldest f := by
      have hqueued := h.queued
      rw [frames, hl, List.map_append, List.map_singleton] at hqueued
      exact hqueued.oldest
    have herased := h.erased hl
    rw [List.append_nil] at herased
    rw [hl, List.getLast?_concat, List.dropLast_concat]
    exact ⟨q.leave f, .evicted hold, herased⟩

theorem Refines.unpin (h : Refines s q) (f : Int32) (hnode : node ∉ s.nodes) :
    Refines (s.unpin f node) (q.enter f) := by
  have hmem : f ∈ s.frames ↔ s.lruHash f ≠ none := by
    rw [frames, List.mem_map, Option.ne_none_iff_exists']
    constructor
    · rintro ⟨⟨it, g⟩, hg, rfl⟩
      exact ⟨it, (h.hash g it).2 hg⟩
    · rintro ⟨it, hit⟩
      exact ⟨(it, f), (h.hash f it).1 hit, rfl⟩
  have hqueued := h.queued.enter f
  rw [LRUReplacer.unpin] at hqueued
  rw [LruReplacer.unpin]
  by_cases hf : s.lruHash f ≠ none
  · rw [if_pos hf]
    rw [if_pos (hmem.2 hf)] at hqueued
    exact ⟨hqueued, h.hash, h.nodes⟩
  · rw [if_neg hf]
    rw [if_neg fun hc => hf (hmem.1 hc)] at hqueued
    refine ⟨hqueued, fun g it => ?_, List.nodup_cons.2 ⟨hnode, h.nodes⟩⟩
    by_cases hgf : g = f
    · subst hgf
      have hnot : (it, g) ∉ s.lruList := fun hc => hf (by simp [(h.hash g it).2 hc])
      simp [hnot, eq_comm]
    · simp [hgf, h.hash g it]

theorem Refines.exec (h : Refines s q) (hnode : s.NewNode c) :
    ∃ r s' q', s.exec c = some (r, s') ∧ q.Step c r q' ∧ Refines s' q' := by
  cases c with
  | victim =>
      obtain ⟨q', hstep, h'⟩ := h.victim
      exact ⟨_, _, q', rfl, hstep, h'⟩
  | pin f =>
      obtain ⟨s', hpin, h'⟩ := h.pin f
      exact ⟨none, s', q.leave f, by rw [LruReplacer.exec, hpin]; rfl, .pinned f, h'⟩
  | unpin f node => exact ⟨none, _, q.enter f, rfl, .unpinned f node, h.unpin f hnode⟩

theorem Refines.execAll (h : Refines s q) (cs : List LruCall) (hnode : Trace.Guarded step NewNode s cs) :
    ∃ rs s' q', s.execAll cs = some (rs, s') ∧ q.Steps cs rs q' ∧ Refines s' q' := by
  induction cs generalizing s q with
  | nil => exact ⟨[], s, q, rfl, .nil q, h⟩
  | cons c cs ih =>
      obtain ⟨r, s1, q1, hexec, hstep, h1⟩ := h.exec hnode.1
      obtain ⟨rs, s2, q2, hrest, hsteps, h2⟩ := ih h1 (hnode.2 s1 (by rw [step, hexec]; rfl))
      refine ⟨r :: rs, s2, q2, ?_, .cons hstep hsteps, h2⟩
      simp only [LruReplacer.execAll, hexec, hrest, Option.bind_eq_bind, Option.bind_some, Option.pure_def]

/-- Every sequence of calls gives the results of a queue of the unpinned frames, and leaves the
list and the hash in step. -/
theorem lru_refines_queue (numPages : Nat) (calls : List LruCall)
    (hnode : Trace.Guarded step NewNode (init numPages) calls) :
    ∃ results s q, (init numPages).execAll calls = some (results, s) ∧ LruQueue.Steps .empty calls results q ∧
      Refines s q ∧ s.size = Set.ncard {f | q.since f ≠ none} := by
  obtain ⟨results, s, q, hrun, hsteps, h⟩ := (refines_init numPages).execAll calls hnode
  refine ⟨results, s, q, hrun, hsteps, h, ?_⟩
  rw [← h.queued.length_eq, frames, List.length_map, size]

def sampleTest : List LruCall :=
  [.unpin 1 0, .unpin 2 1, .unpin 3 2, .unpin 4 3, .unpin 5 4, .unpin 6 5, .unpin 1 6, .victim, .victim,
    .victim, .pin 3, .pin 4, .unpin 4 0, .victim, .victim, .victim]

theorem lru_refines_queue_sample :
    ((init 7).execAll sampleTest).map Prod.fst = some [none, none, none, none, none, none, none,
      some (true, 1), some (true, 2),
      some (true, 3), none, none, none, some (true, 5), some (true, 6), some (true, 4)] ∧
    ∃ results s q, (init 7).execAll sampleTest = some (results, s) ∧
      LruQueue.Steps .empty sampleTest results q ∧
      Refines s q ∧ s.size = Set.ncard {f | q.since f ≠ none} :=
  ⟨by decide, lru_refines_queue 7 sampleTest (by decide)⟩

end LruReplacer

end Rmdb

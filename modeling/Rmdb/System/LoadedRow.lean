import Rmdb.System.LoadTable

namespace Rmdb

namespace SmManager

section Row

variable (scan : Sscanf) {size : Nat} (env : LoadEnv size)

def conversions (cols : List ColMeta) : Nat → List Bytes → Bytes → List (Except SmError Bytes)
  | _, [], _ => []
  | lineNo, line :: lines, rec => match fillRecord scan env cols lineNo line rec with
      | .error e => [.error e]
      | .ok rec => .ok rec :: conversions cols (lineNo + 1) lines rec

/-- In any two files with this line at one place, loaded in any two runs that come to it, the line
is stored as the same bytes or rejected in both. -/
def OwnLineOnly (size : Nat) (cols : List ColMeta) (line : Bytes) : Prop :=
  ∀ (env env' : LoadEnv size) (lines lines' : List Bytes) (i : Nat) (out out' : Except SmError Bytes),
    lines[i]? = some line → lines'[i]? = some line →
    (conversions scan env cols 0 lines env.fresh)[i]? = some out →
    (conversions scan env' cols 0 lines' env'.fresh)[i]? = some out' → out = out'

def Throws (field : ColMeta × Bytes) : Prop := ∃ e, castField scan 0 field.1 field.2 = .error e

/-- A number is read from the field where the column asks for one. -/
def Readable (field : ColMeta × Bytes) : Prop :=
  (field.1.type = .int → scan.int field.2 ≠ none) ∧ (field.1.type = .float → scan.float field.2 ≠ none)

/-- A field of the line throws; or there is a field for each column that has bytes, no field more
than there are columns, and all numbers are read. -/
def Determined (cols : List ColMeta) (line : Bytes) : Prop :=
  (∃ field ∈ cols.zip (getlines 44 line), Throws scan field) ∨
    (getlines 44 line).length ≤ cols.length ∧ (∀ field ∈ cols.zip (getlines 44 line), Readable scan field) ∧
      ∀ col ∈ cols.drop (getlines 44 line).length, col.len = 0

def fieldBytes (lineNo : Nat) : Nat → List ColMeta → List Bytes → Bytes
  | curr, col :: cols, word :: words =>
      (match castField scan (env.unset lineNo curr) col word with
        | .error _ => []
        | .ok raw => raw) ++ fieldBytes lineNo (curr + 1) cols words
  | _, _, _ => []

variable {scan env} {cols : List ColMeta} {words : List Bytes} {col : ColMeta} {word rec raw : Bytes}
  {unset lineNo curr offset : Nat}

theorem rest_zero {k : Nat} (h : LaidOut size 0 cols) :
    (∀ col ∈ cols.drop k, col.len = 0) ↔ ((cols.take k).map ColMeta.len).sum = size := by
  have hsum := h.sum
  have htake := List.sum_take_add_sum_drop (cols.map ColMeta.len) k
  rw [← List.map_take, ← List.map_drop] at htake
  have hzero : (∀ col ∈ cols.drop k, col.len = 0) ↔ ((cols.drop k).map ColMeta.len).sum = 0 := by
    rw [List.sum_eq_zero_iff]
    simp only [List.forall_mem_map]
  rw [hzero]
  omega

/-- Whether a field throws does not depend on the word that is not set. -/
theorem castField_error {e : SmError} (h : castField scan unset col word = .error e) (unset' : Nat) :
    castField scan unset' col word = .error e := by
  rw [castField] at h ⊢
  split <;> rename_i ht <;> simp only [ht] at h
  · cases h
  · cases h
  · exact h
  · exact h

theorem castField_ok (h : ¬ Throws scan (col, word)) (unset : Nat) :
    ∃ raw, castField scan unset col word = .ok raw := by
  cases hraw : castField scan unset col word with
  | error e => exact absurd ⟨e, castField_error hraw 0⟩ h
  | ok raw => exact ⟨raw, rfl⟩

theorem fillFields_throws (h : ∃ field ∈ cols.zip words, Throws scan field) :
    ∃ e, ∀ (env : LoadEnv size) lineNo curr rec,
      fillFields scan env lineNo curr cols words rec = .error e := by
  induction cols generalizing words with
  | nil => simp at h
  | cons col cols ih =>
      cases words with
      | nil => simp at h
      | cons word words =>
          by_cases hhead : Throws scan (col, word)
          · obtain ⟨e, he⟩ := hhead
            refine ⟨e, fun env lineNo curr rec => ?_⟩
            rw [fillFields, castField_error he]
          · rw [List.zip_cons_cons] at h
            obtain ⟨field, hfield, hthrow⟩ := h
            have hin := (List.mem_cons.1 hfield).resolve_left fun hc => hhead (hc ▸ hthrow)
            obtain ⟨e, he⟩ := ih ⟨field, hin, hthrow⟩
            refine ⟨e, fun env lineNo curr rec => ?_⟩
            obtain ⟨raw, hraw⟩ := castField_ok hhead (env.unset lineNo curr)
            rw [fillFields, hraw]
            exact he ..

theorem fillFields_beyond (hno : ∀ field ∈ cols.zip words, ¬ Throws scan field)
    (hlen : cols.length < words.length) :
    fillFields scan env lineNo curr cols words rec = env.beyond lineNo := by
  induction cols generalizing words curr rec with
  | nil =>
      cases words with
      | nil => simp at hlen
      | cons word words => rfl
  | cons col cols ih =>
      cases words with
      | nil => simp at hlen
      | cons word words =>
          rw [List.zip_cons_cons] at hno
          obtain ⟨raw, hraw⟩ := castField_ok (hno _ List.mem_cons_self) (env.unset lineNo curr)
          rw [fillFields, hraw]
          exact ih (fun field hf => hno field (List.mem_cons_of_mem _ hf)) (by simpa using hlen)

theorem fieldBytes_length (hno : ∀ field ∈ cols.zip words, ¬ Throws scan field)
    (hl : LaidOut size offset cols) (hlen : words.length ≤ cols.length) :
    (fieldBytes scan env lineNo curr cols words).length = ((cols.take words.length).map ColMeta.len).sum := by
  induction cols generalizing words curr offset with
  | nil =>
      obtain rfl := List.length_eq_zero_iff.1 (Nat.le_zero.1 hlen)
      rfl
  | cons col cols ih =>
      cases words with
      | nil => rfl
      | cons word words =>
          rw [List.zip_cons_cons] at hno
          obtain ⟨raw, hraw⟩ := castField_ok (hno _ List.mem_cons_self) (env.unset lineNo curr)
          rw [fieldBytes, hraw, List.length_append, castField_length hl.2.1 hraw,
            ih (fun field hf => hno field (List.mem_cons_of_mem _ hf)) hl.2.2 (by simpa using hlen)]
          simp

/-- The fields are laid over the buffer and the rest of the buffer stays. -/
theorem fillFields_eq (hno : ∀ field ∈ cols.zip words, ¬ Throws scan field) (hl : LaidOut size offset cols)
    (hlen : words.length ≤ cols.length) (hrec : rec.length = size) :
    fillFields scan env lineNo curr cols words rec =
      .ok (copyInto rec offset (fieldBytes scan env lineNo curr cols words)) := by
  induction cols generalizing words curr offset rec with
  | nil =>
      obtain rfl := List.length_eq_zero_iff.1 (Nat.le_zero.1 hlen)
      simp [fillFields, fieldBytes, copyInto]
  | cons col cols ih =>
      cases words with
      | nil => simp [fillFields, fieldBytes, copyInto]
      | cons word words =>
          rw [List.zip_cons_cons] at hno
          obtain ⟨raw, hraw⟩ := castField_ok (hno _ List.mem_cons_self) (env.unset lineNo curr)
          have hrawlen := castField_length hl.2.1 hraw
          have hle := hl.2.2.le
          have hoff := hl.1
          rw [fillFields, hraw, fieldBytes, hraw]
          simp only
          rw [ih (fun field hf => hno field (List.mem_cons_of_mem _ hf)) hl.2.2 (by simpa using hlen)
            (by rw [copyInto_length (by omega), hrec]), hoff]
          congr 1
          simp only [copyInto]
          rw [List.take_append, List.drop_append]
          simp only [List.length_append, List.length_take]
          rw [List.take_of_length_le (by simp; omega),
            show offset + col.len - (min offset rec.length + raw.length) = 0 by omega,
            List.take_zero, List.append_nil, List.append_assoc, List.append_assoc]
          rw [List.drop_eq_nil_of_le (by simp; omega), List.nil_append, List.drop_drop]
          simp only [List.append_assoc]
          congr 4
          omega

theorem castField_congr (h : Readable scan (col, word)) (unset unset' : Nat) :
    castField scan unset col word = castField scan unset' col word := by
  rw [castField, castField]
  split <;> rename_i ht
  · obtain ⟨v, hv⟩ := Option.ne_none_iff_exists'.1 (h.1 ht)
    rw [hv]
    rfl
  · obtain ⟨x, hx⟩ := Option.ne_none_iff_exists'.1 (h.2 ht)
    rw [hx]
    rfl
  · rfl
  · rfl

theorem fieldBytes_congr (h : ∀ field ∈ cols.zip words, Readable scan field) (env env' : LoadEnv size)
    (lineNo lineNo' curr : Nat) :
    fieldBytes scan env lineNo curr cols words = fieldBytes scan env' lineNo' curr cols words := by
  induction cols generalizing words curr with
  | nil => rfl
  | cons col cols ih =>
      cases words with
      | nil => rfl
      | cons word words =>
          rw [List.zip_cons_cons] at h
          rw [fieldBytes, fieldBytes, castField_congr (h _ List.mem_cons_self) _ (env'.unset lineNo' curr),
            ih fun field hf => h field (List.mem_cons_of_mem _ hf)]

theorem readable_of_castField (h : castField scan 0 col word = castField scan 1 col word) :
    Readable scan (col, word) := by
  rw [castField, castField] at h
  refine ⟨fun ht hc => ?_, fun ht hc => ?_⟩ <;> simp only at ht hc <;> rw [ht, hc] at h <;>
    exact absurd (Except.ok.inj h) (by decide)

theorem readable_of_fieldBytes {env env' : LoadEnv size} (h0 : ∀ n c, env.unset n c = 0)
    (h1 : ∀ n c, env'.unset n c = 1) (hno : ∀ field ∈ cols.zip words, ¬ Throws scan field)
    (hl : LaidOut size offset cols)
    (h : fieldBytes scan env lineNo curr cols words = fieldBytes scan env' lineNo curr cols words) :
    ∀ field ∈ cols.zip words, Readable scan field := by
  induction cols generalizing words curr offset with
  | nil => simp
  | cons col cols ih =>
      cases words with
      | nil => simp
      | cons word words =>
          rw [List.zip_cons_cons] at hno ⊢
          obtain ⟨raw, hraw⟩ := castField_ok (hno _ List.mem_cons_self) 0
          obtain ⟨raw', hraw'⟩ := castField_ok (hno _ List.mem_cons_self) 1
          rw [fieldBytes, fieldBytes, h0, h1, hraw, hraw'] at h
          obtain ⟨hhead, htail⟩ := List.append_inj h
            ((castField_length hl.2.1 hraw).trans (castField_length hl.2.1 hraw').symm)
          simp only at hhead
          intro field hf
          rcases List.mem_cons.1 hf with rfl | hf
          · exact readable_of_castField (by rw [hraw, hraw', hhead])
          · exact ih (fun field hf => hno field (List.mem_cons_of_mem _ hf)) hl.2.2 htail field hf

theorem conversions_get {lines : List Bytes} {i : Nat} {line : Bytes} {out : Except SmError Bytes}
    (hl : LaidOut size 0 cols) (hrec : rec.length = size) (hline : lines[i]? = some line)
    (hout : (conversions scan env cols lineNo lines rec)[i]? = some out) :
    ∃ lineNo' rec', rec'.length = size ∧ out = fillRecord scan env cols lineNo' line rec' := by
  induction lines generalizing i lineNo rec with
  | nil => simp at hline
  | cons first lines ih =>
      rw [conversions] at hout
      cases hfill : fillRecord scan env cols lineNo first rec with
      | error e =>
          rw [hfill] at hout
          cases i with
          | zero =>
              simp only [List.getElem?_cons_zero, Option.some.injEq] at hline hout
              exact ⟨lineNo, rec, hrec, by rw [← hline, hfill, hout]⟩
          | succ i => simp at hout
      | ok rec' =>
          rw [hfill] at hout
          cases i with
          | zero =>
              simp only [List.getElem?_cons_zero, Option.some.injEq] at hline hout
              exact ⟨lineNo, rec, hrec, by rw [← hline, hfill, hout]⟩
          | succ i =>
              simp only [List.getElem?_cons_succ] at hline hout
              exact ih (fillFields_length hl hrec hfill) hline hout

theorem conversions_single (line : Bytes) :
    (conversions scan env cols 0 [line] rec)[0]? = some (fillRecord scan env cols 0 line rec) := by
  rw [conversions]
  cases hfill : fillRecord scan env cols 0 line rec <;> simp

def constEnv (size : Nat) (b : UInt8) (unset : Nat) (beyond : SmError) : LoadEnv size :=
  ⟨List.replicate size b, fun _ _ => unset, fun _ => .error beyond, by simp, nofun⟩

theorem OwnLineOnly.fill_eq {line : Bytes} (h : OwnLineOnly scan size cols line) (env env' : LoadEnv size) :
    fillRecord scan env cols 0 line env.fresh = fillRecord scan env' cols 0 line env'.fresh :=
  h env env' [line] [line] 0 _ _ rfl rfl (conversions_single line) (conversions_single line)

theorem copyInto_zero (rec raw : Bytes) :
    copyInto rec 0 raw = raw ++ rec.drop raw.length := by simp [copyInto]

/-- A loaded row depends on its own line exactly if the line determines it. -/
theorem own_line_only_iff (scan : Sscanf) (size : Nat) (cols : List ColMeta) (line : Bytes)
    (hl : LaidOut size 0 cols) :
    OwnLineOnly scan size cols line ↔ Determined scan cols line := by
  constructor
  · intro h
    by_cases hthrow : ∃ field ∈ cols.zip (getlines 44 line), Throws scan field
    · exact .inl hthrow
    · push Not at hthrow
      have hlen : (getlines 44 line).length ≤ cols.length := by
        by_contra hc
        have heq := h.fill_eq (constEnv size 0 0 .stringOverflow) (constEnv size 0 0 .incompatibleType)
        rw [fillRecord, fillRecord, fillFields_beyond hthrow (by omega),
          fillFields_beyond hthrow (by omega)] at heq
        cases heq
      have hfields : ∀ env : LoadEnv size, (fieldBytes scan env 0 0 cols (getlines 44 line)).length =
          ((cols.take (getlines 44 line).length).map ColMeta.len).sum := fun env =>
            fieldBytes_length hthrow hl hlen
      have hfill : ∀ env env' : LoadEnv size,
          fieldBytes scan env 0 0 cols (getlines 44 line) = fieldBytes scan env' 0 0 cols (getlines 44 line) ∧
            env.fresh.drop ((cols.take (getlines 44 line).length).map ColMeta.len).sum =
              env'.fresh.drop ((cols.take (getlines 44 line).length).map ColMeta.len).sum := by
        intro env env'
        have heq := h.fill_eq env env'
        rw [fillRecord, fillRecord, fillFields_eq hthrow hl hlen env.fresh_length,
          fillFields_eq hthrow hl hlen env'.fresh_length, copyInto_zero, copyInto_zero,
          hfields, hfields] at heq
        exact List.append_inj (Except.ok.inj heq) ((hfields _).trans (hfields _).symm)
      refine .inr ⟨hlen, ?_, ?_⟩
      · exact readable_of_fieldBytes (fun _ _ => rfl) (fun _ _ => rfl) hthrow hl
          (hfill (constEnv size 0 0 .stringOverflow) (constEnv size 0 1 .stringOverflow)).1
      · have heq := (hfill (constEnv size 0 0 .stringOverflow) (constEnv size 1 0 .stringOverflow)).2
        simp only [constEnv, List.drop_replicate] at heq
        refine (rest_zero hl).2 ?_
        have hsum := hl.sum
        have htake := List.sum_take_add_sum_drop (cols.map ColMeta.len) (getlines 44 line).length
        rw [← List.map_take] at htake
        cases hn : size - ((cols.take (getlines 44 line).length).map ColMeta.len).sum with
        | zero => omega
        | succ n =>
            rw [hn, List.replicate_succ, List.replicate_succ] at heq
            exact absurd (List.cons.inj heq).1 (by decide)
  · rintro (hthrow | ⟨hlen, hread, hrest⟩) env env' lines lines' i out out' hline hline' hout hout'
    all_goals
      obtain ⟨n, rec, hrec, rfl⟩ := conversions_get hl env.fresh_length hline hout
      obtain ⟨n', rec', hrec', rfl⟩ := conversions_get hl env'.fresh_length hline' hout'
    · obtain ⟨e, he⟩ := fillFields_throws hthrow
      rw [fillRecord, fillRecord, he, he]
    · by_cases hthrow : ∃ field ∈ cols.zip (getlines 44 line), Throws scan field
      · obtain ⟨e, he⟩ := fillFields_throws hthrow
        rw [fillRecord, fillRecord, he, he]
      · push Not at hthrow
        rw [fillRecord, fillRecord, fillFields_eq hthrow hl hlen hrec, fillFields_eq hthrow hl hlen hrec',
          copyInto_zero, copyInto_zero, fieldBytes_congr hread env env' n n' 0,
          fieldBytes_length hthrow hl hlen,
          (rest_zero hl).1 hrest, List.drop_eq_nil_of_le (le_of_eq hrec),
          List.drop_eq_nil_of_le (le_of_eq hrec')]

theorem own_line_only_iff_pair :
    LaidOut 6 0 [⟨"t", "a", .int, 4, 0⟩, ⟨"t", "b", .string, 2, 4⟩] ∧
    OwnLineOnly decimalScan 6 [⟨"t", "a", .int, 4, 0⟩, ⟨"t", "b", .string, 2, 4⟩] [50, 44, 97, 98] := by
  have hl : LaidOut 6 0 [⟨"t", "a", .int, 4, 0⟩, ⟨"t", "b", .string, 2, 4⟩] :=
    ⟨rfl, fun _ => rfl, rfl, nofun, rfl⟩
  have hwords : getlines 44 [50, 44, 97, 98] = [[50], [97, 98]] := by decide
  refine ⟨hl, (own_line_only_iff decimalScan 6 _ [50, 44, 97, 98] hl).2 (.inr ?_)⟩
  rw [hwords]
  refine ⟨le_rfl, ?_, nofun⟩
  intro field hf
  simp only [List.zip_cons_cons, List.zip_nil_right, List.mem_cons, List.not_mem_nil, or_false] at hf
  rcases hf with rfl | rfl
  · exact ⟨fun _ => by decide, nofun⟩
  · exact ⟨nofun, nofun⟩

/-- Behind `1,xx` the line `2,` makes the row `2, xx`, behind `1,yy` it makes `2, yy`. -/
theorem empty_field_kept :
    LaidOut 6 0 [⟨"t", "a", .int, 4, 0⟩, ⟨"t", "b", .string, 2, 4⟩] ∧
    ¬ OwnLineOnly decimalScan 6 [⟨"t", "a", .int, 4, 0⟩, ⟨"t", "b", .string, 2, 4⟩] [50, 44] := by
  refine ⟨⟨rfl, fun _ => rfl, rfl, nofun, rfl⟩, fun h => ?_⟩
  have hrow : (Except.ok [2, 0, 0, 0, 120, 120] : Except SmError Bytes) = .ok [2, 0, 0, 0, 121, 121] :=
    h (zeroEnv 6) (zeroEnv 6) [[49, 44, 120, 120], [50, 44]] [[49, 44, 121, 121], [50, 44]] 1
      (.ok [2, 0, 0, 0, 120, 120]) (.ok [2, 0, 0, 0, 121, 121]) rfl rfl (by decide)
        (by decide)
  exact absurd (Except.ok.inj hrow) (by decide)

end Row

section Stored

variable {scan : Sscanf} {size : Nat} {env : LoadEnv size} {cols : List ColMeta} {lineNo : Nat}
  {lines : List Bytes} {rec : Bytes}

theorem records_eq :
    records scan env cols lineNo lines rec =
      (conversions scan env cols lineNo lines rec).filterMap Except.toOption := by
  induction lines generalizing lineNo rec with
  | nil => rfl
  | cons line lines ih =>
      rw [records, conversions]
      cases fillRecord scan env cols lineNo line rec with
      | error e => rfl
      | ok rec' =>
          simp only [ih]
          rfl

variable {Key : List ColMeta → Type} [∀ cols, IxKey (Key cols)] {copy : ∀ cols, List Bytes → Key cols}

/-- What a load that goes through has put into the file are these rows, one after the other. -/
theorem loadLines_stores {s s' : SmManager Key} {tabName : String} {tab : TabEntry}
    (h : loadLines scan env copy tabName tab lineNo lines rec s = (.ok (), s')) :
    s'.fhs tabName = (records scan env tab.cols lineNo lines rec).foldl
      (fun fh rec => (fh.insertRecord rec).2) (s.fhs tabName) := by
  induction lines generalizing lineNo rec s with
  | nil =>
      obtain rfl := (Prod.mk.inj h).2
      rfl
  | cons line lines ih =>
      rw [loadLines] at h
      rw [records]
      cases hfill : fillRecord scan env tab.cols lineNo line rec with
      | error e =>
          rw [hfill] at h
          cases h
      | ok rec' =>
          simp only [hfill] at h
          split at h
          · cases h
          · rename_i rid fh hins
            split at h
            · cases h
            · rename_i s₁ hkeys
              rw [ih h, insertKeys_fhs hkeys]
              simp only [Function.update_self, List.foldl_cons, hins]

end Stored

end SmManager

end Rmdb

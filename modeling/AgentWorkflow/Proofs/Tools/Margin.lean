import AgentWorkflow.Proofs.Text.Lines
import AgentWorkflow.Tools.CustomCode

/-!
The margin of custom code.

Main statement: to dedent code is to take from each line that is not blank the blanks at its end and the same
number of blanks and tabs at its front, the greatest that all those lines start with; blank lines become
empty, and those at the ends go. Cutting the lines at a byte instead of a character never fails, and code
that is dedented stays as it is.
-/

namespace AgentWorkflow.CustomCode

open Text

/-- The text of a line from a byte on; nothing if the line is shorter or the byte is inside a character. -/
def fromByte? (n : ℕ) (line : List Char) : Option (List Char) :=
  let s := String.ofList line
  (s.pos? ⟨n⟩).map fun p => (s.sliceFrom p).copy.toList

/-- The width in bytes of the indentation of a line. -/
def byteIndentation (line : List Char) : ℕ :=
  (String.ofList line).utf8ByteSize - (String.ofList (unindented line)).utf8ByteSize

/-- The least width in bytes of the indentation of a line that is not blank. -/
def byteMargin (lines : List (List Char)) : ℕ :=
  (((lines.filter fun l => !isBlankLine l).map byteIndentation).min?).getD 0

/-- A line without a margin in bytes; nothing of a blank line. -/
def withoutBytes? (margin : ℕ) (line : List Char) : Option (List Char) :=
  if isBlankLine line then some [] else fromByte? margin line

/-- Code without its margin, with each line cut at a byte; nothing if one of the cuts fails. -/
def dedentBytes? (code : String) : Option String :=
  let lines := (lines code.toList).map (dropTail isBlank)
  (lines.mapM (withoutBytes? (byteMargin lines))).map fun rows => .ofList (dropEnds (· == '\n') (unpieces rows))

/-- The first `n` characters of a line are blanks and tabs. -/
def IsIndented (n : ℕ) (line : List Char) : Prop :=
  n ≤ line.length ∧ ∀ c ∈ line.take n, isIndent c = true

/-- What is left of a line under a margin: nothing of a blank line, and of any other the text between the
margin and the blanks at its end. -/
inductive Leaves (margin : ℕ) : List Char → List Char → Prop
  | blank {line : List Char} : isBlankLine line = true → Leaves margin line []
  | text {indent row tail : List Char} {c : Char} : indent.length = margin →
      (∀ c ∈ indent, isIndent c = true) → (∀ c ∈ tail, isBlank c = true) → row.getLast? = some c →
      isBlank c = false → Leaves margin (indent ++ row ++ tail) row

/-- The lines that are left of others without a margin: the margin is the greatest that all lines with text
have, each line leaves its part, and the empty lines at the ends are gone. -/
structure IsDedented (lines : List (List Char)) (margin : ℕ) (rows : List (List Char)) : Prop where
  greatest : (∃ line ∈ lines, isBlankLine line = false) →
    IsGreatest {n | ∀ line ∈ lines, isBlankLine line = false → IsIndented n line} margin
  leaves : ∃ above below, List.Forall₂ (Leaves margin) lines (above ++ rows ++ below) ∧
    ∀ row ∈ above ++ below, row = []
  first : rows.head? ≠ some []
  last : rows.getLast? ≠ some []

section Bytes

variable {n : ℕ} {c : Char} {line rest cs : List Char}

theorem pos?_eq_some_iff {s : String} {p : s.Pos} : s.pos? ⟨n⟩ = some p ↔ p.offset = ⟨n⟩ := by
  unfold String.pos? String.Slice.pos?
  constructor
  · intro h
    split_ifs at h with hv
    · obtain rfl := Option.some.inj h
      rfl
    · cases h
  · intro h
    have hv : (⟨n⟩ : String.Pos.Raw).isValidForSlice s.toSlice := by
      rw [← h]
      simpa using p.toSlice.isValidForSlice
    rw [dif_pos hv, Option.map_some, Option.some_inj]
    exact String.Pos.ext h.symm

theorem fromByte?_eq_some_iff :
    fromByte? n line = some rest ↔ ∃ head, line = head ++ rest ∧ (String.ofList head).utf8ByteSize = n := by
  unfold fromByte?
  rw [Option.map_eq_some_iff]
  constructor
  · rintro ⟨p, hp, rfl⟩
    have hs := p.splits
    refine ⟨((String.ofList line).sliceTo p).copy.toList, ?_, ?_⟩
    · rw [← String.toList_append, ← hs.eq_append, String.toList_ofList]
    · have ho := hs.offset_eq_rawEndPos
      rw [pos?_eq_some_iff.mp hp] at ho
      rw [String.ofList_toList]
      exact (congrArg String.Pos.Raw.byteIdx ho).symm
  · rintro ⟨head, rfl, rfl⟩
    have happend : String.ofList (head ++ rest) = .ofList head ++ .ofList rest := String.ofList_append
    have hs := String.Pos.splits_ofEqAppend happend
    refine ⟨_, pos?_eq_some_iff.mpr hs.offset_eq_rawEndPos, ?_⟩
    rw [hs.copy_sliceFrom_eq, String.toList_ofList]

example : fromByte? 1 ['é', 'x'] = none := by decide

theorem isIndent_iff : isIndent c = true ↔ c = ' ' ∨ c = '\t' := by
  rw [isIndent, Bool.or_eq_true, beq_iff_eq, beq_iff_eq]

theorem utf8ByteSize_of_indent (h : ∀ c ∈ cs, isIndent c = true) :
    (String.ofList cs).utf8ByteSize = cs.length := by
  induction cs with
  | nil => rfl
  | cons c cs ih =>
    obtain ⟨hc, hcs⟩ := List.forall_mem_cons.mp h
    have hsize : c.utf8Size = 1 := by
      rcases isIndent_iff.mp hc with rfl | rfl <;> rfl
    rw [String.ofList_cons, String.utf8ByteSize_append, String.utf8ByteSize_singleton, hsize, ih hcs,
      List.length_cons, Nat.add_comm]

theorem byteIndentation_eq (line : List Char) : byteIndentation line = indentation line := by
  have hs : line.takeWhile isIndent ++ unindented line = line := List.takeWhile_append_dropWhile
  have hsize : (String.ofList line).utf8ByteSize =
      indentation line + (String.ofList (unindented line)).utf8ByteSize := by
    conv_lhs => rw [← hs, String.ofList_append, String.utf8ByteSize_append,
      utf8ByteSize_of_indent fun c h => List.mem_takeWhile_imp h]
    rfl
  rw [byteIndentation, hsize, Nat.add_sub_cancel]

theorem byteMargin_eq (lines : List (List Char)) : byteMargin lines = margin lines := by
  rw [byteMargin, margin, funext byteIndentation_eq]

end Bytes

section Line

variable {n m : ℕ} {c : Char} {line row tail : List Char}

theorem isBlank_of_indent (h : isIndent c = true) : isBlank c = true := by
  rcases isIndent_iff.mp h with rfl | rfl <;> rfl

theorem isBlankLine_of_indent (h : ∀ c ∈ line, isIndent c = true) : isBlankLine line = true :=
  List.all_eq_true.mpr fun c hc => isBlank_of_indent (h c hc)

theorem isIndented_iff : IsIndented n line ↔ n ≤ indentation line := by
  unfold IsIndented indentation
  constructor
  · rintro ⟨hn, hi⟩
    rw [← List.take_append_drop n line, List.takeWhile_append_of_pos hi, List.length_append,
      List.length_take_of_le hn]
    exact Nat.le_add_right _ _
  · intro h
    have hp := List.takeWhile_prefix isIndent (l := line)
    have ht : line.take n <+: line.takeWhile isIndent :=
      List.prefix_of_prefix_length_le (List.take_prefix n line) hp ((List.length_take_le n line).trans h)
    exact ⟨h.trans hp.length_le, fun c hc => List.mem_takeWhile_imp (ht.subset hc)⟩

theorem dropTail_split (line : List Char) :
    ∃ tail, line = dropTail isBlank line ++ tail ∧ ∀ c ∈ tail, isBlank c = true :=
  ⟨line.rtakeWhile isBlank, List.rdropWhile_append_rtakeWhile.symm, fun _ => List.mem_rtakeWhile_imp⟩

theorem isBlankLine_append (ht : ∀ c ∈ tail, isBlank c = true) : isBlankLine (row ++ tail) = isBlankLine row := by
  rw [isBlankLine, List.all_append, List.all_eq_true.mpr ht, Bool.and_true, isBlankLine]

theorem isBlankLine_dropTail (line : List Char) : isBlankLine (dropTail isBlank line) = isBlankLine line := by
  obtain ⟨tail, hl, ht⟩ := dropTail_split line
  conv_rhs => rw [hl, isBlankLine_append ht]

theorem indentation_append (hr : isBlankLine row = false) : indentation (row ++ tail) = indentation row := by
  have hn : ¬(row.takeWhile isIndent).length = row.length := fun h => by
    have hall := List.takeWhile_eq_self_iff.mp ((List.takeWhile_prefix isIndent).eq_of_length h)
    exact Bool.eq_false_iff.mp hr (isBlankLine_of_indent hall)
  rw [indentation, List.takeWhile_append, if_neg hn, indentation]

theorem indentation_dropTail (h : isBlankLine line = false) :
    indentation (dropTail isBlank line) = indentation line := by
  obtain ⟨tail, hl, -⟩ := dropTail_split line
  conv_rhs => rw [hl, indentation_append (by rwa [isBlankLine_dropTail])]

theorem getLast?_drop_of_indented (hb : isBlankLine line = false) (h : IsIndented m line) :
    (line.drop m).getLast? = line.getLast? := by
  refine (List.getLast?_drop).trans (if_neg fun hm => ?_)
  rw [IsIndented, List.take_of_length_le hm] at h
  exact Bool.eq_false_iff.mp hb (isBlankLine_of_indent h.2)

theorem exists_getLast?_dropTail (h : isBlankLine line = false) :
    ∃ c, (dropTail isBlank line).getLast? = some c ∧ isBlank c = false := by
  have hn : dropTail isBlank line ≠ [] := fun hd => by
    rw [← isBlankLine_dropTail, hd] at h
    cases h
  exact ⟨_, List.getLast?_eq_some_getLast hn, Bool.eq_false_iff.mpr (List.rdropWhile_last_not _ _ hn)⟩

theorem withoutBytes?_eq (h : isBlankLine line = false → m ≤ indentation line) :
    withoutBytes? m line = some (withoutMargin m line) := by
  unfold withoutBytes? withoutMargin
  split_ifs with hb
  · rfl
  · obtain ⟨hm, hi⟩ := isIndented_iff.mpr (h (Bool.not_eq_true _ ▸ hb))
    refine fromByte?_eq_some_iff.mpr ⟨line.take m, (List.take_append_drop m line).symm, ?_⟩
    rw [utf8ByteSize_of_indent hi, List.length_take_of_le hm]

theorem isBlankLine_drop (h : IsIndented m line) : isBlankLine (line.drop m) = isBlankLine line := by
  have ht : (line.take m).all isBlank = true := isBlankLine_of_indent h.2
  unfold isBlankLine
  conv_rhs => rw [← List.take_append_drop m line, List.all_append, ht, Bool.true_and]

theorem isBlankLine_withoutMargin (h : isBlankLine line = false → m ≤ indentation line) :
    isBlankLine (withoutMargin m line) = isBlankLine line := by
  unfold withoutMargin
  split_ifs with hb
  · rw [hb]
    rfl
  · exact isBlankLine_drop (isIndented_iff.mpr (h (Bool.not_eq_true _ ▸ hb)))

theorem indentation_drop (line : List Char) : indentation (line.drop (indentation line)) = 0 := by
  induction line with
  | nil => rfl
  | cons c line ih =>
    unfold indentation at ih ⊢
    by_cases hc : isIndent c = true
    · rwa [List.takeWhile_cons_of_pos hc, List.length_cons, List.drop_succ_cons]
    · rw [List.takeWhile_cons_of_neg hc, List.length_nil, List.drop_zero, List.takeWhile_cons_of_neg hc,
        List.length_nil]

theorem leaves_withoutMargin (h : isBlankLine line = false → m ≤ indentation line) :
    Leaves m line (withoutMargin m (dropTail isBlank line)) := by
  unfold withoutMargin
  rw [isBlankLine_dropTail]
  split_ifs with hb
  · exact .blank hb
  · rw [Bool.not_eq_true] at hb
    obtain ⟨tail, hl, ht⟩ := dropTail_split line
    obtain ⟨c, hc, hcb⟩ := exists_getLast?_dropTail hb
    have hr : isBlankLine (dropTail isBlank line) = false := by rwa [isBlankLine_dropTail]
    have hi : IsIndented m (dropTail isBlank line) := by
      rw [isIndented_iff, indentation_dropTail hb]
      exact h hb
    rw [← getLast?_drop_of_indented hr hi] at hc
    -- the line as its margin, what is left of it and the blanks at its end
    conv =>
      arg 2
      rw [hl, ← List.take_append_drop m (dropTail isBlank line)]
    exact .text (List.length_take_of_le hi.1) hi.2 ht hc hcb

end Line

section Margin

variable {lines : List (List Char)} {line : List Char}

theorem indentation_mem (hl : line ∈ lines) (hb : isBlankLine line = false) :
    indentation line ∈ (lines.filter fun l => !isBlankLine l).map indentation :=
  List.mem_map_of_mem (List.mem_filter.mpr ⟨hl, by rw [hb]; rfl⟩)

theorem margin_le (hl : line ∈ lines) (hb : isBlankLine line = false) : margin lines ≤ indentation line := by
  have hm := indentation_mem hl hb
  rw [margin, List.min?_eq_some_min (List.ne_nil_of_mem hm)]
  exact List.min_le_of_mem hm

theorem exists_indentation_eq_margin (h : ∃ line ∈ lines, isBlankLine line = false) :
    ∃ line ∈ lines, isBlankLine line = false ∧ indentation line = margin lines := by
  obtain ⟨text, ht, hb⟩ := h
  have hn := List.ne_nil_of_mem (indentation_mem ht hb)
  obtain ⟨line, hl, he⟩ := List.mem_map.mp (List.min_mem hn)
  obtain ⟨hmem, hline⟩ := List.mem_filter.mp hl
  refine ⟨line, hmem, by simpa using hline, ?_⟩
  rw [he, margin, List.min?_eq_some_min hn, Option.getD_some]

theorem margin_eq_zero (h : (∃ line ∈ lines, isBlankLine line = false) →
    ∃ line ∈ lines, isBlankLine line = false ∧ indentation line = 0) : margin lines = 0 := by
  by_cases ht : ∃ line ∈ lines, isBlankLine line = false
  · obtain ⟨line, hl, hb, hi⟩ := h ht
    exact Nat.le_zero.mp (hi ▸ margin_le hl hb)
  · have hn : (lines.filter fun l => !isBlankLine l) = [] :=
      List.filter_eq_nil_iff.mpr fun l hl hb => ht ⟨l, hl, by simpa using hb⟩
    rw [margin, hn]
    rfl

theorem isGreatest_margin (h : ∃ line ∈ lines, isBlankLine line = false) :
    IsGreatest {n | ∀ line ∈ lines, isBlankLine line = false → IsIndented n line} (margin lines) := by
  constructor
  · exact fun line hl hb => isIndented_iff.mpr (margin_le hl hb)
  · intro n hn
    obtain ⟨line, hl, hb, he⟩ := exists_indentation_eq_margin h
    rw [← he]
    exact isIndented_iff.mp (hn line hl hb)

theorem margin_map_dropTail (lines : List (List Char)) :
    margin (lines.map (dropTail isBlank)) = margin lines := by
  have hf : ((fun l => !isBlankLine l) ∘ dropTail isBlank) = fun l => !isBlankLine l :=
    funext fun l => congrArg not (isBlankLine_dropTail l)
  have hm : ∀ l ∈ lines.filter fun l => !isBlankLine l, (indentation ∘ dropTail isBlank) l = indentation l :=
    fun l hl => indentation_dropTail (by simpa using (List.mem_filter.mp hl).2)
  rw [margin, List.filter_map, List.map_map, hf, List.map_congr_left hm, margin]

/-- The lines without their margin and the blanks at their ends. -/
def cleared (lines : List (List Char)) : List (List Char) :=
  lines.map fun line => withoutMargin (margin lines) (dropTail isBlank line)

theorem dedentChars_eq (cs : List Char) :
    dedentChars cs = dropEnds (· == '\n') (unpieces (cleared (Text.lines cs))) := by
  rw [dedentChars, margin_map_dropTail, List.map_map]
  rfl

theorem forall₂_cleared (lines : List (List Char)) :
    List.Forall₂ (Leaves (margin lines)) lines (cleared lines) := by
  rw [cleared, List.forall₂_map_right_iff, List.forall₂_same]
  exact fun line hl => leaves_withoutMargin (margin_le hl)

theorem isDedented_cleared (lines : List (List Char)) :
    IsDedented lines (margin lines) (dropEmptyEnds (cleared lines)) where
  greatest := isGreatest_margin
  leaves := by
    obtain ⟨above, below, hs, he⟩ := dropEmptyEnds_split (cleared lines)
    exact ⟨above, below, hs ▸ forall₂_cleared lines, he⟩
  first := head?_dropEmptyEnds
  last := getLast?_dropEmptyEnds

theorem mapM_withoutBytes? {m : ℕ} (h : ∀ line ∈ lines, isBlankLine line = false → m ≤ indentation line) :
    lines.mapM (withoutBytes? m) = some (lines.map (withoutMargin m)) := by
  induction lines with
  | nil => rfl
  | cons line more ih =>
    obtain ⟨hl, hm⟩ := List.forall_mem_cons.mp h
    rw [List.mapM_cons, withoutBytes?_eq hl, ih hm]
    rfl

/-- No line is cut inside a character. -/
theorem dedentBytes?_eq (code : String) : dedentBytes? code = some (dedent code) := by
  unfold dedentBytes?
  simp only [byteMargin_eq]
  rw [mapM_withoutBytes? fun _ => margin_le]
  rfl

end Margin

/-- The lines of dedented code: none ends in a blank, they have no margin, and the first and the last are not
empty. -/
structure IsTidy (rows : List (List Char)) : Prop where
  unbroken : ∀ row ∈ rows, '\n' ∉ row
  trimmed : ∀ row ∈ rows, ∀ c, row.getLast? = some c → isBlank c = false
  flush : margin rows = 0
  first : rows.head? ≠ some []
  last : rows.getLast? ≠ some []

section Tidy

variable {m : ℕ} {lines rows : List (List Char)} {line row : List Char}

theorem Leaves.subset (h : Leaves m line row) : row ⊆ line := by
  cases h with
  | blank => exact List.nil_subset _
  | text => exact fun c hc => List.mem_append_left _ (List.mem_append_right _ hc)

theorem Leaves.trimmed (h : Leaves m line row) : ∀ c, row.getLast? = some c → isBlank c = false := by
  cases h with
  | blank => simp
  | text _ _ _ hl hb =>
    intro c hc
    rw [hl] at hc
    exact Option.some.inj hc ▸ hb

theorem exists_leaves (h : row ∈ cleared lines) : ∃ line ∈ lines, Leaves (margin lines) line row := by
  obtain ⟨line, hl, rfl⟩ := List.mem_map.mp h
  exact ⟨line, hl, leaves_withoutMargin (margin_le hl)⟩

theorem cleared_unbroken (h : ∀ line ∈ lines, '\n' ∉ line) : ∀ row ∈ cleared lines, '\n' ∉ row := by
  intro row hr hn
  obtain ⟨line, hl, hleaves⟩ := exists_leaves hr
  exact h line hl (hleaves.subset hn)

theorem isBlankLine_cleared (h : line ∈ lines) :
    isBlankLine (withoutMargin (margin lines) (dropTail isBlank line)) = isBlankLine line := by
  rw [isBlankLine_withoutMargin, isBlankLine_dropTail]
  intro hb
  rw [isBlankLine_dropTail] at hb
  rw [indentation_dropTail hb]
  exact margin_le h hb

theorem margin_cleared (lines : List (List Char)) : margin (dropEmptyEnds (cleared lines)) = 0 := by
  refine margin_eq_zero fun ⟨row, hr, hb⟩ => ?_
  -- a row with text comes from a line with text, so there is a line that is indented the least
  obtain ⟨line, hl, rfl⟩ := List.mem_map.mp (dropEmptyEnds_subset _ hr)
  rw [isBlankLine_cleared hl] at hb
  obtain ⟨least, hmem, hleast, hmargin⟩ := exists_indentation_eq_margin ⟨line, hl, hb⟩
  have hcleared := isBlankLine_cleared hmem
  rw [hleast] at hcleared
  refine ⟨_, mem_dropEmptyEnds (List.mem_map_of_mem hmem) fun hn => ?_, hcleared, ?_⟩
  · rw [hn] at hcleared
    cases hcleared
  · rw [withoutMargin, isBlankLine_dropTail, if_neg (by simp [hleast]), ← hmargin, ← indentation_dropTail hleast,
      indentation_drop]

theorem isTidy_cleared (h : ∀ line ∈ lines, '\n' ∉ line) : IsTidy (dropEmptyEnds (cleared lines)) where
  unbroken row hr := cleared_unbroken h row (dropEmptyEnds_subset _ hr)
  trimmed row hr := by
    obtain ⟨line, -, hl⟩ := exists_leaves (dropEmptyEnds_subset _ hr)
    exact hl.trimmed
  flush := margin_cleared lines
  first := head?_dropEmptyEnds
  last := getLast?_dropEmptyEnds

theorem IsTidy.isLines (h : IsTidy rows) : IsLines (unpieces rows) rows :=
  isLines_unpieces h.unbroken (fun row hr hl => absurd (h.trimmed row hr _ hl) (by decide)) h.last

theorem IsTidy.cleared_eq (h : IsTidy rows) : cleared rows = rows := by
  have hrow : ∀ row ∈ rows, withoutMargin (margin rows) (dropTail isBlank row) = row := by
    intro row hr
    have ht : dropTail isBlank row = row := List.rdropWhile_eq_self_iff.mpr fun hn => by
      rw [h.trimmed row hr _ (List.getLast?_eq_some_getLast hn)]
      exact Bool.false_ne_true
    rw [ht, h.flush, withoutMargin]
    split_ifs with hb
    · rw [← ht]
      exact (List.rdropWhile_eq_nil_iff.mpr (List.all_eq_true.mp hb)).symm
    · rfl
  exact (List.map_congr_left hrow).trans (List.map_id' rows)

theorem dedentChars_eq_unpieces (cs : List Char) :
    dedentChars cs = unpieces (dropEmptyEnds (cleared (Text.lines cs))) := by
  rw [dedentChars_eq, dropEnds_unpieces (cleared_unbroken (isLines_lines cs).unbroken)]

theorem IsTidy.dedentChars_eq (h : IsTidy rows) : dedentChars (unpieces rows) = unpieces rows := by
  rw [dedentChars_eq_unpieces, ← isLines_iff.mp h.isLines, h.cleared_eq, dropEmptyEnds_eq_self h.first h.last]

end Tidy

theorem toList_dedent (code : String) : (dedent code).toList = dedentChars code.toList :=
  String.toList_ofList

/-- Code is left as it is iff its lines are tidy. -/
theorem dedent_eq_self_iff {code : String} :
    dedent code = code ↔ ∃ rows, IsTidy rows ∧ code.toList = unpieces rows := by
  constructor
  · intro h
    refine ⟨_, isTidy_cleared (isLines_lines code.toList).unbroken, ?_⟩
    rw [← dedentChars_eq_unpieces, ← toList_dedent, h]
  · rintro ⟨rows, ht, hc⟩
    rw [dedent, hc, ht.dedentChars_eq, ← hc, String.ofList_toList]

theorem dedent_dedent (code : String) : dedent (dedent code) = dedent code := by
  refine dedent_eq_self_iff.mpr ⟨_, isTidy_cleared (isLines_lines code.toList).unbroken, ?_⟩
  rw [toList_dedent, dedentChars_eq_unpieces]

theorem code_scan (code : String) : (scan code).code = dedent code := by
  unfold scan
  dsimp only
  split <;> rfl

/-- What code defines does not change when it is dedented. -/
theorem scan_dedent (code : String) : scan (dedent code) = scan code := by
  unfold scan
  rw [← toList_dedent (dedent code), dedent_dedent, toList_dedent]

/-- Nothing but a common margin is taken from code, with the blanks at the ends of its lines and the empty lines
at its ends; no character is cut, and a second time nothing is taken. -/
theorem dedent_removes_margin (code : String) :
    dedentBytes? code = some (dedent code) ∧
      (∃ ls m rows, IsLines code.toList ls ∧ IsDedented ls m rows ∧
        dedent code = "\n".intercalate (rows.map .ofList) ∧ IsLines (dedent code).toList rows) ∧
      dedent (dedent code) = dedent code ∧ (scan code).code = dedent code := by
  have htidy := isTidy_cleared (isLines_lines code.toList).unbroken
  have hrows : (dedent code).toList = unpieces (dropEmptyEnds (cleared (lines code.toList))) := by
    rw [toList_dedent, dedentChars_eq_unpieces]
  refine ⟨dedentBytes?_eq code, ⟨_, _, _, isLines_lines _, isDedented_cleared _, ?_, ?_⟩, dedent_dedent code,
    code_scan code⟩
  · rw [← String.toList_inj, hrows, unpieces_eq_intercalate, String.toList_intercalate, List.map_map]
    simp [Function.comp_def]
  · rw [hrows]
    exact htidy.isLines

example : dedent "\n \tété \r\n\n  \u00a0x\n\t\n" = "été\n\n\u00a0x" := by decide

end AgentWorkflow.CustomCode

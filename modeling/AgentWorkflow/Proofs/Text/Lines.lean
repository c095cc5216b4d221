import AgentWorkflow.Text.Blank
import Mathlib

/-!
The lines of a text.

Main statements: `lines` gives the lines of a text, whatever the mixture of line ends in it, and no other
list does; of lines joined by line feeds, those that are empty at the ends go with the line feeds there.
-/

namespace AgentWorkflow.Text

/-- The lines of a text. Each ends at a line feed, or at a carriage return and a line feed; the last may
lack its ending, but then it is not empty. -/
inductive IsLines : List Char → List (List Char) → Prop
  | nil : IsLines [] []
  | last {line : List Char} : line ≠ [] → '\n' ∉ line → IsLines line [line]
  | feed {line rest : List Char} {more : List (List Char)} : '\n' ∉ line → line.getLast? ≠ some '\r' →
      IsLines rest more → IsLines (line ++ '\n' :: rest) (line :: more)
  | returnFeed {line rest : List Char} {more : List (List Char)} : '\n' ∉ line → IsLines rest more →
      IsLines (line ++ '\r' :: '\n' :: rest) (line :: more)

section Lines

variable {c : Char} {line rest : List Char} {ls more : List (List Char)}

theorem lines_cons (hc : c ≠ '\n') (hr : c = '\r' → rest.head? ≠ some '\n') (h : lines rest = line :: more) :
    lines (c :: rest) = (c :: line) :: more := by
  rw [lines, h]
  · exact hc
  · rintro tail rfl rfl
    exact hr rfl rfl

/-- A line stands before its end, whichever that is, unless its own last character makes another end of it. -/
theorem lines_append_of_end {ending : List Char} (he : lines ending = [] :: more) (hl : '\n' ∉ line)
    (hr : ending.head? = some '\n' → line.getLast? ≠ some '\r') : lines (line ++ ending) = line :: more := by
  induction line with
  | nil => exact he
  | cons c tail ih =>
    obtain ⟨hc, ht⟩ := List.ne_and_not_mem_of_not_mem_cons hl
    refine lines_cons hc.symm ?_ (ih ht fun hh h => ?_)
    · rintro rfl
      cases tail with
      | nil => exact fun hh => hr hh rfl
      | cons d _ => simpa using (List.ne_of_not_mem_cons ht).symm
    · exact hr hh (by rw [List.getLast?_cons, h, Option.getD_some])

theorem lines_of_unbroken (hn : line ≠ []) (hl : '\n' ∉ line) : lines line = [line] := by
  induction line with
  | nil => exact absurd rfl hn
  | cons c tail ih =>
    obtain ⟨hc, ht⟩ := List.ne_and_not_mem_of_not_mem_cons hl
    cases tail with
    | nil => simp [lines, hc.symm]
    | cons d tail =>
      have hd : d ≠ '\n' := (List.ne_of_not_mem_cons ht).symm
      exact lines_cons hc.symm (fun _ => by simpa using hd) (ih (by simp) ht)

theorem eq_nil_of_lines (h : lines rest = []) : rest = [] := by
  fun_cases lines rest <;> simp_all [lines]

/-- A character before a text joins its first line, unless the two make a line end. -/
theorem IsLines.cons (hc : c ≠ '\n') (hr : c = '\r' → rest.head? ≠ some '\n')
    (h : IsLines rest (line :: more)) : IsLines (c :: rest) ((c :: line) :: more) := by
  cases h with
  | last hn hl => exact .last (by simp) (by simp [hl, hc.symm])
  | feed hl hlast hm =>
    rw [← List.cons_append]
    refine .feed (by simp [hl, hc.symm]) ?_ hm
    cases line with
    | nil => simpa using fun h => hr h rfl
    | cons d tail => rwa [List.getLast?_cons_cons]
  | returnFeed hl hm =>
    rw [← List.cons_append]
    exact .returnFeed (by simp [hl, hc.symm]) hm

theorem isLines_lines (cs : List Char) : IsLines cs (lines cs) := by
  fun_induction lines cs with
  | case1 => exact .nil
  | case2 rest ih => exact @IsLines.feed [] rest _ (by simp) (by simp) ih
  | case3 rest ih => exact @IsLines.returnFeed [] rest _ (by simp) ih
  | case4 c rest hc hr h ih =>
    obtain rfl := eq_nil_of_lines h
    exact .last (by simp) (by simpa using Ne.symm hc)
  | case5 c rest hc hr line more h ih =>
    rw [h] at ih
    refine ih.cons hc fun hcr hh => ?_
    cases rest with
    | nil => cases hh
    | cons d rest => exact hr rest hcr (by rw [Option.some.inj hh])

theorem isLines_iff {cs : List Char} : IsLines cs ls ↔ ls = lines cs := by
  constructor
  · intro h
    induction h with
    | nil => rfl
    | last hn hl => rw [lines_of_unbroken hn hl]
    | feed hl hr _ ih => rw [lines_append_of_end rfl hl fun _ => hr, ih]
    | returnFeed hl _ ih => rw [lines_append_of_end rfl hl (by simp), ih]
  · rintro rfl
    exact isLines_lines cs

theorem IsLines.unbroken {cs : List Char} (h : IsLines cs ls) : ∀ line ∈ ls, '\n' ∉ line := by
  induction h with
  | nil => simp
  | last _ hl => simpa using hl
  | feed hl _ _ ih => exact List.forall_mem_cons.mpr ⟨hl, ih⟩
  | returnFeed hl _ ih => exact List.forall_mem_cons.mpr ⟨hl, ih⟩

end Lines

section Joined

variable {row : List Char} {rows : List (List Char)}

theorem unpieces_cons (h : rows ≠ []) : unpieces (row :: rows) = row ++ '\n' :: unpieces rows := by
  cases rows with
  | nil => exact absurd rfl h
  | cons next more => rfl

theorem unpieces_concat (h : rows ≠ []) : unpieces (rows ++ [row]) = unpieces rows ++ '\n' :: row := by
  induction rows with
  | nil => exact absurd rfl h
  | cons first more ih =>
    rw [List.cons_append, unpieces_cons (by simp)]
    by_cases hm : more = []
    · rw [hm]
      rfl
    · rw [ih hm, unpieces_cons hm, List.append_assoc, List.cons_append]

theorem unpieces_eq_intercalate (rows : List (List Char)) : unpieces rows = ['\n'].intercalate rows := by
  induction rows with
  | nil => rfl
  | cons row more ih =>
    by_cases hm : more = []
    · rw [hm, List.intercalate_singleton]
      rfl
    · rw [unpieces_cons hm, List.intercalate_cons_of_ne_nil hm, ih]
      simp

/-- Joined lines are read back as they were, unless the last is empty or a line ends like a line end. -/
theorem isLines_unpieces (hb : ∀ row ∈ rows, '\n' ∉ row) (hr : ∀ row ∈ rows, row.getLast? ≠ some '\r')
    (hl : rows.getLast? ≠ some []) : IsLines (unpieces rows) rows := by
  induction rows with
  | nil => exact .nil
  | cons row more ih =>
    obtain ⟨hrow, hmore⟩ := List.forall_mem_cons.mp hb
    obtain ⟨hreturn, hreturns⟩ := List.forall_mem_cons.mp hr
    cases more with
    | nil =>
      rw [unpieces]
      exact .last (by simpa using hl) hrow
    | cons next more =>
      rw [unpieces_cons (by simp)]
      exact .feed hrow hreturn (ih hmore hreturns (by rwa [List.getLast?_cons_cons] at hl))

/-- Lines without the empty ones at both ends. -/
def dropEmptyEnds (rows : List (List Char)) : List (List Char) :=
  (rows.dropWhile List.isEmpty).rdropWhile List.isEmpty

theorem dropEmptyEnds_split (rows : List (List Char)) :
    ∃ above below, rows = above ++ dropEmptyEnds rows ++ below ∧ ∀ row ∈ above ++ below, row = [] := by
  refine ⟨rows.takeWhile List.isEmpty, (rows.dropWhile List.isEmpty).rtakeWhile List.isEmpty, ?_, ?_⟩
  · rw [dropEmptyEnds, List.append_assoc, List.rdropWhile_append_rtakeWhile, List.takeWhile_append_dropWhile]
  · refine List.forall_mem_append.mpr ⟨fun row h => ?_, fun row h => ?_⟩
    · exact List.isEmpty_iff.mp (List.mem_takeWhile_imp h)
    · exact List.isEmpty_iff.mp (List.mem_rtakeWhile_imp h)

theorem dropEmptyEnds_subset (rows : List (List Char)) : dropEmptyEnds rows ⊆ rows := fun _ h =>
  List.dropWhile_subset _ ((List.rdropWhile_prefix _ _).subset h)

theorem mem_dropEmptyEnds (hr : row ∈ rows) (hn : row ≠ []) : row ∈ dropEmptyEnds rows := by
  obtain ⟨above, below, hs, he⟩ := dropEmptyEnds_split rows
  rw [hs, List.append_assoc, List.mem_append, List.mem_append] at hr
  rcases hr with ha | hk | hb
  · exact absurd (he row (List.mem_append_left _ ha)) hn
  · exact hk
  · exact absurd (he row (List.mem_append_right _ hb)) hn

theorem head?_dropEmptyEnds : (dropEmptyEnds rows).head? ≠ some [] := by
  intro h
  obtain ⟨below, hb⟩ := List.rdropWhile_prefix List.isEmpty (rows.dropWhile List.isEmpty)
  have hn := List.head?_dropWhile_not List.isEmpty rows
  rw [← hb, List.head?_append, ← dropEmptyEnds, h, Option.some_or] at hn
  exact absurd hn (by simp)

theorem getLast?_dropEmptyEnds : (dropEmptyEnds rows).getLast? ≠ some [] := by
  intro h
  have hn : dropEmptyEnds rows ≠ [] := fun he => by rw [he] at h; cases h
  rw [List.getLast?_eq_some_getLast hn] at h
  exact List.rdropWhile_last_not _ _ hn (List.isEmpty_iff.mpr (Option.some.inj h))

theorem dropEmptyEnds_eq_self (hf : rows.head? ≠ some []) (hl : rows.getLast? ≠ some []) :
    dropEmptyEnds rows = rows := by
  have hd : rows.dropWhile List.isEmpty = rows := by
    cases rows with
    | nil => rfl
    | cons row more => exact List.dropWhile_cons_of_neg (by simpa using hf)
  rw [dropEmptyEnds, hd]
  refine List.rdropWhile_eq_self_iff.mpr fun hn he => hl ?_
  rw [List.getLast?_eq_some_getLast hn, List.isEmpty_iff.mp he]

theorem dropWhile_unpieces (hb : ∀ row ∈ rows, '\n' ∉ row) :
    (unpieces rows).dropWhile (· == '\n') = unpieces (rows.dropWhile List.isEmpty) := by
  induction rows with
  | nil => rfl
  | cons row more ih =>
    obtain ⟨hrow, hmore⟩ := List.forall_mem_cons.mp hb
    cases row with
    | nil =>
      cases more with
      | nil => rfl
      | cons next more => exact ih hmore
    | cons c row =>
      have hc : (c == '\n') = false := by simpa using Ne.symm (List.ne_of_not_mem_cons hrow)
      rw [List.dropWhile_cons_of_neg (by simp)]
      cases more with
      | nil => exact List.dropWhile_cons_of_neg (by simp [hc])
      | cons next more => exact List.dropWhile_cons_of_neg (by simp [hc])

theorem last_suffix_unpieces (rows : List (List Char)) (row : List Char) : row <:+ unpieces (rows ++ [row]) := by
  by_cases hr : rows = []
  · rw [hr]
    exact List.suffix_rfl
  · rw [unpieces_concat hr]
    exact (List.suffix_cons '\n' row).trans (List.suffix_append _ _)

theorem dropTail_unpieces (hb : ∀ row ∈ rows, '\n' ∉ row) :
    dropTail (· == '\n') (unpieces rows) = unpieces (rows.rdropWhile List.isEmpty) := by
  -- the last line is the first to go
  induction rows using List.reverseRecOn with
  | nil => rfl
  | append_singleton rows row ih =>
    obtain ⟨hrows, hrow⟩ := List.forall_mem_append.mp hb
    by_cases he : row = []
    · subst he
      rw [List.rdropWhile_concat_pos _ _ _ rfl, ← ih hrows]
      by_cases hr : rows = []
      · rw [hr]
        rfl
      · rw [unpieces_concat hr]
        exact List.rdropWhile_concat_pos _ _ _ rfl
    · rw [List.rdropWhile_concat_neg _ _ _ (by simpa using he)]
      obtain ⟨before, hs⟩ := last_suffix_unpieces rows row
      rw [← hs]
      refine List.rdropWhile_eq_self_iff.mpr fun _ hlast => hrow row List.mem_cons_self ?_
      rw [List.getLast_append_of_ne_nil _ he, beq_iff_eq] at hlast
      exact hlast ▸ List.getLast_mem he

theorem dropEnds_unpieces (hb : ∀ row ∈ rows, '\n' ∉ row) :
    dropEnds (· == '\n') (unpieces rows) = unpieces (dropEmptyEnds rows) := by
  rw [dropEnds, dropWhile_unpieces hb, dropTail_unpieces fun row h => hb row (List.dropWhile_subset _ h),
    dropEmptyEnds]

end Joined

end AgentWorkflow.Text

import AgentWorkflow.Program.Printer
import Mathlib

/-!
How the text of statements is laid out.

A text consists of rows, each at its level of nesting. The outline of statements is the rows they ask for. Main
statement: a text has the rows of its outline, less some empty ones, so that there is no empty row at the start, after a
header or after another one; each row stands as deep as its statement is nested, and a statement follows each header.
-/

namespace AgentWorkflow

open Text

/-- What a row of a text is. A call over several rows has one for each argument and one that closes it. -/
inductive RowKind where
  | line
  | header
  | pass
  | comment
  | call
  | argument
  | close
  deriving DecidableEq

namespace RowKind

/-- What a row ends with, besides the line feed. -/
def mark : RowKind → List Char
  | header => [':']
  | argument => [',']
  | _ => []

/-- A statement starts with the row. -/
def isStatement : RowKind → Bool
  | line | header | pass | call => true
  | comment | argument | close => false

end RowKind

/-- A row of a text: an empty one, or one with a text at a level of nesting. The text may hold line ends of its own. -/
inductive Row where
  | gap
  | text (kind : RowKind) (level : ℕ) (cs : List Char)
  deriving DecidableEq

namespace Row

def chars : Row → List Char
  | gap => ['\n']
  | text kind level cs => List.replicate (4 * level) ' ' ++ cs ++ kind.mark ++ ['\n']

def isText : Row → Bool
  | gap => false
  | text _ _ _ => true

def isHeader : Row → Bool
  | text .header _ _ => true
  | _ => false

/-- A row of a block's body that is no part of a statement: an empty one, or a comment at the level of the body. -/
def isSilentAt (level : ℕ) : Row → Bool
  | gap => true
  | text .comment l _ => l == level
  | text _ _ _ => false

end Row

/-- Neither white space nor the mark of a comment stands at the start of a text. -/
def StartsFirmly (cs : List Char) : Prop :=
  ∃ c ∈ cs.head?, isBlank c = false ∧ c ≠ '#'

namespace Stmt

mutual

/-- The texts of the lines, headers and calls of a statement start firmly. -/
def IsFirm : Stmt → Prop
  | .line text => StartsFirmly text.toList
  | .blank => True
  | .comment _ => True
  | .block header body => StartsFirmly header.toList ∧ AreFirm body
  | .call target callee _ => (∀ t ∈ target, StartsFirmly t.toList) ∧ StartsFirmly callee.toList

def AreFirm : List Stmt → Prop
  | [] => True
  | stmt :: rest => stmt.IsFirm ∧ AreFirm rest

end

/-- The rows of a call: one if there is no argument, or if it has no line end and fits into 88 bytes; else one for each
argument. -/
def callRows (level : ℕ) (target : Option String) (callee : String) (args : List Arg) : List Row :=
  if args = [] ∨ '\n' ∉ (flat target callee args).toList ∧
      4 * level + (flat target callee args).utf8ByteSize ≤ 88 then
    [.text .call level (flat target callee args).toList]
  else
    .text .call level (opening target callee).toList ::
      args.map (fun a => .text .argument (level + 1) a.render.toList) ++ [.text .close level [')']]

mutual

/-- The rows that a statement at a level asks for. -/
def outline (level : ℕ) : Stmt → List Row
  | .line text => [.text .line level text.toList]
  | .blank => [.gap]
  | .comment text =>
    (Text.lines text.toList).map fun line => .text .comment level (('#' :: ' ' :: line).rdropWhile isBlank)
  | .block header body =>
    .text .header level header.toList :: outlineAll (level + 1) body ++
      if body.all isSilent then [.text .pass (level + 1) "pass".toList] else []
  | .call target callee args => callRows level target callee args

def outlineAll (level : ℕ) : List Stmt → List Row
  | [] => []
  | stmt :: rest => outline level stmt ++ outlineAll level rest

end

end Stmt

namespace Row

/-- An empty row may follow: the last row has a text, and it is no header. -/
def AdmitGap (rows : List Row) : Prop :=
  ∃ last, rows.getLast? = some last ∧ last.isText = true ∧ last.isHeader = false

/-- Empty rows stand only where they may. -/
def GapsApart (rows : List Row) : Prop :=
  ∀ before after, rows = before ++ gap :: after → AdmitGap before

/-- Past empty rows and comments at a level, the rows start with a statement at this level. -/
def Enter (level : ℕ) (rows : List Row) : Prop :=
  ∃ kind cs, rows.find? (!isSilentAt level ·) = some (text kind level cs) ∧ kind.isStatement = true

end Row

/-- How the rows of a text follow from statements. -/
structure IsLayout (stmts : List Stmt) (rows : List Row) : Prop where
  /-- The rows with a text are those of the outline, in their order. -/
  texts : rows.filter Row.isText = (Stmt.outlineAll 0 stmts).filter Row.isText
  /-- Each empty row is asked for by a statement of its own. -/
  sublist : rows.Sublist (Stmt.outlineAll 0 stmts)
  /-- No empty row stands at the start, behind a header or behind another one. -/
  apart : Row.GapsApart rows
  /-- Each statement starts with four spaces for each level, and not with white space more. -/
  indented : ∀ kind level cs, .text kind level cs ∈ rows → kind.isStatement = true →
    (Row.text kind level cs).chars.takeWhile isBlank = List.replicate (4 * level) ' '
  /-- Behind a header and comments in its body there is a statement one level deeper. -/
  entered : ∀ before level cs after, rows = before ++ .text .header level cs :: after →
    Row.Enter (level + 1) after

section Thinning

/-- Rows that come from others by leaving out empty ones. -/
def Thins (rows all : List Row) : Prop :=
  rows.Sublist all ∧ rows.filter Row.isText = all.filter Row.isText

variable {rows rows' all all' : List Row}

theorem Thins.refl (rows : List Row) : Thins rows rows :=
  ⟨List.Sublist.refl rows, rfl⟩

theorem Thins.append (h : Thins rows all) (h' : Thins rows' all') : Thins (rows ++ rows') (all ++ all') := by
  refine ⟨h.1.append h'.1, ?_⟩
  rw [List.filter_append, List.filter_append, h.2, h'.2]

theorem thins_gap : Thins [] [.gap] :=
  ⟨List.nil_sublist _, rfl⟩

theorem Row.Enter.of_filter_eq {level : ℕ} (h : Row.Enter level all)
    (heq : rows.filter Row.isText = all.filter Row.isText) : Row.Enter level rows := by
  have hfilter (l : List Row) :
      l.find? (!Row.isSilentAt level ·) = (l.filter Row.isText).find? (!Row.isSilentAt level ·) := by
    rw [List.find?_filter]
    congr 1
    funext row
    cases row <;> simp [Row.isText, Row.isSilentAt]
  obtain ⟨kind, cs, hfind, hkind⟩ := h
  refine ⟨kind, cs, ?_, hkind⟩
  rw [hfilter, heq, ← hfilter, hfind]

end Thinning

section Pages

open Page Stmt

/-- What is printed on a page: rows of which the empty ones stand apart. -/
structure Printed (page : Page) (rows : List Row) : Prop where
  page_eq : page = (rows.flatMap Row.chars).reverse
  apart : Row.GapsApart rows

variable {page : Page} {rows : List Row} {depth : ℕ}

theorem printed_nil : Printed [] [] where
  page_eq := rfl
  apart before after h := by simp at h

theorem gapsApart_concat {row : Row} (h : Row.GapsApart rows) (hrow : row = .gap → Row.AdmitGap rows) :
    Row.GapsApart (rows ++ [row]) := by
  intro before after heq
  rcases List.eq_nil_or_concat after with rfl | ⟨after, last, rfl⟩
  · obtain ⟨rfl, hgap⟩ := List.append_inj' heq rfl
    exact hrow (List.singleton_inj.mp hgap)
  · rw [List.concat_eq_append, ← List.cons_append, ← List.append_assoc] at heq
    exact h before after (List.append_inj' heq rfl).1

theorem Printed.write (h : Printed page rows) (kind : RowKind) (depth : ℕ) (cs : List Char)
    (hne : cs ++ kind.mark ≠ []) : Printed (writeLine depth page (cs ++ kind.mark)) (rows ++ [.text kind depth cs]) where
  page_eq := by
    have hindent : (cs ++ kind.mark).isEmpty = false := by simpa [List.isEmpty_eq_false_iff] using hne
    rw [writeLine, hindent, h.page_eq]
    simp [Row.chars, indentWidth, Nat.mul_comm]
  apart := gapsApart_concat h.apart (by simp)

theorem exists_chars_eq (row : Row) : ∃ cs, row.chars = cs ++ ['\n'] := by
  cases row with
  | gap => exact ⟨[], rfl⟩
  | text kind level cs => exact ⟨_, rfl⟩

theorem Printed.admitGap (h : Printed page rows) (hadmits : page.admitsBlank = true) : Row.AdmitGap rows := by
  rcases List.eq_nil_or_concat rows with rfl | ⟨before, last, rfl⟩
  · rw [h.page_eq] at hadmits
    cases hadmits
  · rw [List.concat_eq_append] at h ⊢
    have hpage := h.page_eq
    rw [List.flatMap_append, List.flatMap_singleton, List.reverse_append] at hpage
    refine ⟨last, List.getLast?_concat, ?_, ?_⟩
    · cases last with
      | text kind level cs => rfl
      | gap =>
        -- The row before the last is no empty one, but its line end comes before that of the last.
        obtain ⟨row, hrow, -, -⟩ := h.apart before [] rfl
        obtain ⟨init, rfl⟩ := List.getLast?_eq_some_iff.mp hrow
        obtain ⟨cs, hcs⟩ := exists_chars_eq row
        have hgap : Row.gap.chars = ['\n'] := rfl
        rw [hpage] at hadmits
        simp [hgap, hcs, admitsBlank] at hadmits
    · cases last with
      | gap => rfl
      | text kind level cs =>
        cases kind with
        | header =>
          rw [hpage] at hadmits
          simp [Row.chars, RowKind.mark, admitsBlank] at hadmits
        | _ => rfl

theorem Printed.blank (h : Printed page rows) (hadmits : page.admitsBlank = true) :
    Printed ('\n' :: page) (rows ++ [.gap]) where
  page_eq := by
    rw [h.page_eq]
    simp [Row.chars]
  apart := gapsApart_concat h.apart fun _ => h.admitGap hadmits

theorem Printed.writeAll {α : Type} (h : Printed page rows) (kind : RowKind) (depth : ℕ) (f : α → List Char)
    (l : List α) (hne : ∀ a ∈ l, f a ++ kind.mark ≠ []) :
    Printed (l.foldl (fun page a => writeLine depth page (f a ++ kind.mark)) page)
      (rows ++ l.map fun a => .text kind depth (f a)) := by
  induction l generalizing page rows with
  | nil => simpa using h
  | cons a l ih =>
    obtain ⟨ha, hl⟩ := List.forall_mem_cons.mp hne
    rw [List.map_cons, List.append_cons]
    exact ih (h.write kind depth _ ha) hl

theorem Printed.comment (h : Printed page rows) (lines : List (List Char)) :
    Printed (lines.foldl (fun page line => writeLine depth page (commentLine line)) page)
      (rows ++ lines.map fun line => .text .comment depth (('#' :: ' ' :: line).rdropWhile isBlank)) := by
  have hmark : ∀ line ∈ lines, ('#' :: ' ' :: line).rdropWhile isBlank ++ RowKind.comment.mark ≠ [] := by
    intro line _ hnil
    have hblank := List.rdropWhile_eq_nil_iff.mp (List.append_eq_nil_iff.mp hnil).1 '#' List.mem_cons_self
    exact absurd hblank (by decide)
  have hall := h.writeAll .comment depth _ _ hmark
  simp only [RowKind.mark, List.append_nil] at hall
  exact hall

theorem Printed.call (h : Printed page rows) (target : Option String) (callee : String) (args : List Arg) :
    Printed (printCall depth page target callee args) (rows ++ callRows depth target callee args) := by
  have hflat : (flat target callee args).toList ≠ [] := by simp [flat]
  have hopening : (opening target callee).toList ≠ [] := by
    unfold opening
    split <;> simp
  have hcomma (a : Arg) : (a.render ++ ",").toList = a.render.toList ++ RowKind.argument.mark := by simp [RowKind.mark]
  have hfits : (args.isEmpty = true ∨ depth * indentWidth + (flat target callee args).utf8ByteSize ≤ maxWidth ∧
      '\n' ∉ (flat target callee args).toList) ↔ (args = [] ∨ '\n' ∉ (flat target callee args).toList ∧
      4 * depth + (flat target callee args).utf8ByteSize ≤ 88) := by
    rw [List.isEmpty_iff, indentWidth, maxWidth, Nat.mul_comm, and_comm]
  unfold printCall callRows
  dsimp only
  split_ifs with hprinted hrows hrows
  · simpa [RowKind.mark] using h.write .call depth _ (by simpa [RowKind.mark] using hflat)
  · exact absurd (hfits.mp hprinted) hrows
  · exact absurd (hfits.mpr hrows) hprinted
  · have hfirst := h.write .call depth (opening target callee).toList
      (by simpa [RowKind.mark] using hopening)
    have hargs := hfirst.writeAll .argument (depth + 1) (fun a : Arg => a.render.toList) args
      (by simp [RowKind.mark])
    have hlast := hargs.write .close depth [')'] (by simp)
    simp only [← hcomma] at hlast
    simpa [RowKind.mark, List.append_assoc] using hlast

mutual

/-- A statement puts its outline on a page, less some empty rows. -/
theorem print_printed (depth : ℕ) {page : Page} {rows : List Row} (h : Printed page rows) : ∀ stmt : Stmt,
    stmt.IsFirm → ∃ new, Thins new (outline depth stmt) ∧ Printed (print depth page stmt) (rows ++ new)
  | .line text, hfirm => by
    have hne : text.toList ++ RowKind.line.mark ≠ [] := by
      rintro hnil
      obtain ⟨c, hc, -⟩ := hfirm
      rw [(List.append_eq_nil_iff.mp hnil).1] at hc
      cases hc
    refine ⟨_, .refl _, ?_⟩
    simpa [RowKind.mark, print, outline] using h.write .line depth _ hne
  | .blank, _ => by
    rw [print]
    split_ifs with hadmits
    · exact ⟨_, .refl _, h.blank hadmits⟩
    · exact ⟨[], thins_gap, by rwa [List.append_nil]⟩
  | .comment text, _ => ⟨_, .refl _, h.comment (Text.lines text.toList)⟩
  | .block header body, hfirm => by
    have hheader := h.write .header depth header.toList (by simp [RowKind.mark])
    obtain ⟨new, hthins, hbody⟩ := printAll_printed (depth + 1) hheader body hfirm.2
    have hcolon : header.toList ++ RowKind.header.mark = (header ++ ":").toList := by simp [RowKind.mark]
    rw [hcolon] at hbody
    rw [print, outline]
    split_ifs with hsilent
    · -- The body has put no statement on the page, so the row that fills it comes last.
      refine ⟨(.text .header depth header.toList :: new) ++ [.text .pass (depth + 1) "pass".toList],
        ((Thins.refl [_]).append hthins).append (.refl _), ?_⟩
      have hpass := hbody.write .pass (depth + 1) "pass".toList (by simp)
      simpa [RowKind.mark, List.append_assoc] using hpass
    · refine ⟨.text .header depth header.toList :: new, ?_, ?_⟩
      · rw [List.append_nil]
        exact (Thins.refl [_]).append hthins
      · simpa using hbody
  | .call target callee args, _ => ⟨_, .refl _, h.call target callee args⟩

theorem printAll_printed (depth : ℕ) {page : Page} {rows : List Row} (h : Printed page rows) : ∀ stmts : List Stmt,
    AreFirm stmts → ∃ new, Thins new (outlineAll depth stmts) ∧ Printed (printAll depth page stmts) (rows ++ new)
  | [], _ => ⟨[], .refl [], by rwa [List.append_nil]⟩
  | stmt :: rest, hfirm => by
    obtain ⟨first, hfirst, hpage⟩ := print_printed depth h stmt hfirm.1
    obtain ⟨more, hmore, hpages⟩ := printAll_printed depth hpage rest hfirm.2
    refine ⟨first ++ more, hfirst.append hmore, ?_⟩
    rwa [List.append_assoc] at hpages

end

end Pages

section Outlines

open Stmt

variable {level : ℕ} {rows more : List Row}

theorem outline_silent {stmt : Stmt} (h : stmt.isSilent = true) :
    ∀ row ∈ outline level stmt, row.isSilentAt level = true := by
  intro row hrow
  cases stmt with
  | line text => cases h
  | blank =>
    rw [List.mem_singleton.mp hrow]
    rfl
  | comment text =>
    obtain ⟨line, -, rfl⟩ := List.mem_map.mp hrow
    exact beq_self_eq_true level
  | block header body => cases h
  | call target callee args => cases h

theorem outline_statement (level : ℕ) {stmt : Stmt} (h : stmt.isSilent = false) :
    ∃ kind cs rest, outline level stmt = .text kind level cs :: rest ∧ kind.isStatement = true := by
  cases stmt with
  | line text => exact ⟨_, _, _, rfl, rfl⟩
  | blank => cases h
  | comment text => cases h
  | block header body => exact ⟨_, _, _, rfl, rfl⟩
  | call target callee args =>
    rw [outline, callRows]
    split_ifs
    · exact ⟨_, _, _, rfl, rfl⟩
    · exact ⟨_, _, _, rfl, rfl⟩

theorem isSilentAt_of_isStatement {kind : RowKind} {cs : List Char} (h : kind.isStatement = true) :
    (Row.text kind level cs).isSilentAt level = false := by
  cases kind with
  | comment => cases h
  | _ => rfl

theorem Row.Enter.append (h : Row.Enter level rows) (more : List Row) : Row.Enter level (rows ++ more) := by
  obtain ⟨kind, cs, hfind, hkind⟩ := h
  exact ⟨kind, cs, by rw [List.find?_append, hfind]; rfl, hkind⟩

theorem enter_outlineAll {body : List Stmt} (h : body.all isSilent = false) :
    Row.Enter level (outlineAll level body) := by
  induction body with
  | nil => cases h
  | cons stmt rest ih =>
    rw [outlineAll]
    cases hstmt : stmt.isSilent with
    | true =>
      have hrest : rest.all isSilent = false := by simpa [hstmt] using h
      obtain ⟨kind, cs, hfind, hkind⟩ := ih hrest
      refine ⟨kind, cs, ?_, hkind⟩
      have hnone : (outline level stmt).find? (!Row.isSilentAt level ·) = none := by
        rw [List.find?_eq_none]
        intro row hrow
        simp [outline_silent hstmt row hrow]
      rw [List.find?_append, hnone, hfind]
      rfl
    | false =>
      obtain ⟨kind, cs, more, houtline, hkind⟩ := outline_statement level hstmt
      refine ⟨kind, cs, ?_, hkind⟩
      rw [houtline, List.cons_append, List.find?_cons, isSilentAt_of_isStatement hkind]
      rfl

/-- The rows behind the header of a block: a body without statements is left to the row that fills it. -/
theorem enter_body (body : List Stmt) : Row.Enter level (outlineAll level body ++
    if body.all isSilent then [.text .pass level "pass".toList] else []) := by
  cases hbody : body.all isSilent with
  | false => exact (enter_outlineAll hbody).append _
  | true =>
    have hnone : (outlineAll level body).find? (!Row.isSilentAt level ·) = none := by
      rw [List.find?_eq_none]
      intro row hrow
      induction body with
      | nil => cases hrow
      | cons stmt rest ih =>
        obtain ⟨hstmt, hrest⟩ := Bool.and_eq_true_iff.mp hbody
        rcases List.mem_append.mp hrow with hrow | hrow
        · simp [outline_silent hstmt row hrow]
        · exact ih hrest hrow
    exact ⟨.pass, "pass".toList, by rw [List.find?_append, hnone]; rfl, rfl⟩

/-- Each header in some rows is followed by a statement one level deeper. -/
def HeadersEntered (rows : List Row) : Prop :=
  ∀ before level cs after, rows = before ++ .text .header level cs :: after → Row.Enter (level + 1) after

theorem HeadersEntered.append (h : HeadersEntered rows) (h' : HeadersEntered more) : HeadersEntered (rows ++ more) := by
  intro before level cs after heq
  rcases List.append_eq_append_iff.mp heq with ⟨middle, rfl, hmore⟩ | ⟨middle, hrows, hafter⟩
  · exact h' middle level cs after hmore
  · cases middle with
    | nil =>
      rw [List.nil_append] at hafter
      exact h' [] level cs after hafter.symm
    | cons row middle =>
      rw [List.cons_append, List.cons.injEq] at hafter
      obtain ⟨rfl, rfl⟩ := hafter
      exact (h before level cs middle hrows).append more

theorem HeadersEntered.of_filter_eq (h : HeadersEntered more)
    (heq : rows.filter Row.isText = more.filter Row.isText) : HeadersEntered rows := by
  rintro before level cs after rfl
  have htext : (Row.text .header level cs).isText = true := rfl
  rw [List.filter_append, List.filter_cons_of_pos htext] at heq
  obtain ⟨before', rest, hmore, -, hrest⟩ := List.filter_eq_append_iff.mp heq.symm
  obtain ⟨gaps, after', hsplit, -, -, hafter⟩ := List.filter_eq_cons_iff.mp hrest
  have henter := h (before' ++ gaps) level cs after' (by rw [hmore, hsplit, List.append_assoc])
  exact henter.of_filter_eq hafter.symm

theorem headersEntered_of_forall (h : ∀ row ∈ rows, row.isHeader = false) : HeadersEntered rows := by
  rintro before level cs after rfl
  exact absurd (h (.text .header level cs) (by simp)) (by simp [Row.isHeader])

theorem HeadersEntered.cons_header (level : ℕ) (cs : List Char) (henter : Row.Enter (level + 1) rows)
    (h : HeadersEntered rows) : HeadersEntered (.text .header level cs :: rows) := by
  intro before level' cs' after heq
  cases before with
  | nil =>
    cases heq
    exact henter
  | cons row before =>
    cases heq
    exact h before level' cs' after rfl

mutual

theorem headersEntered_outline (level : ℕ) : ∀ stmt : Stmt, HeadersEntered (outline level stmt)
  | .line _ => headersEntered_of_forall (by simp [outline, Row.isHeader])
  | .blank => headersEntered_of_forall (by simp [outline, Row.isHeader])
  | .comment _ => headersEntered_of_forall (by simp [outline, Row.isHeader])
  | .block header body => by
    have hpass : HeadersEntered
        (if body.all isSilent then [Row.text .pass (level + 1) "pass".toList] else []) := by
      apply headersEntered_of_forall
      split_ifs <;> simp [Row.isHeader]
    exact .cons_header level _ (enter_body body) ((headersEntered_outlineAll (level + 1) body).append hpass)
  | .call target callee args => by
    apply headersEntered_of_forall
    rw [outline, callRows]
    split_ifs
    · simp [Row.isHeader]
    · intro row hrow
      rw [List.cons_append, List.mem_cons, List.mem_append, List.mem_map, List.mem_singleton] at hrow
      rcases hrow with rfl | ⟨a, -, rfl⟩ | rfl
      · rfl
      · rfl
      · rfl

theorem headersEntered_outlineAll (level : ℕ) : ∀ stmts : List Stmt, HeadersEntered (outlineAll level stmts)
  | [] => headersEntered_of_forall (by simp [outlineAll])
  | stmt :: rest => (headersEntered_outline level stmt).append (headersEntered_outlineAll level rest)

end

end Outlines

section Beginnings

open Stmt

variable {cs ds : List Char}

theorem StartsFirmly.append (h : StartsFirmly cs) (ds : List Char) : StartsFirmly (cs ++ ds) := by
  obtain ⟨c, hc, hfirm⟩ := h
  obtain ⟨rest, rfl⟩ := List.head?_eq_some_iff.mp hc
  exact ⟨c, rfl, hfirm⟩

theorem startsFirmly_opening {target : Option String} {callee : String}
    (htarget : ∀ t ∈ target, StartsFirmly t.toList) (hcallee : StartsFirmly callee.toList) :
    StartsFirmly (opening target callee).toList := by
  cases target with
  | none =>
    rw [opening, String.toList_append]
    exact hcallee.append _
  | some t =>
    simp only [opening, String.toList_append, List.append_assoc]
    exact (htarget t rfl).append _

mutual

theorem startsFirmly_of_mem_outline {kind : RowKind} {l : ℕ} (hkind : kind.isStatement = true) (level : ℕ) :
    ∀ stmt : Stmt, stmt.IsFirm → .text kind l cs ∈ outline level stmt → StartsFirmly cs
  | .line text, hfirm, hmem => by
    cases List.mem_singleton.mp hmem
    exact hfirm
  | .blank, _, hmem => by cases List.mem_singleton.mp hmem
  | .comment text, _, hmem => by
    obtain ⟨line, -, hline⟩ := List.mem_map.mp hmem
    cases hline
    cases hkind
  | .block header body, hfirm, hmem => by
    rw [outline, List.cons_append, List.mem_cons, List.mem_append] at hmem
    rcases hmem with hmem | hmem | hmem
    · cases hmem
      exact hfirm.1
    · exact startsFirmly_of_mem_outlineAll hkind (level + 1) body hfirm.2 hmem
    -- The row after a body that only comments fill is `pass`.
    · split_ifs at hmem
      · cases List.mem_singleton.mp hmem
        exact ⟨'p', by simp, by decide⟩
      · cases hmem
  | .call target callee args, hfirm, hmem => by
    have hopening := startsFirmly_opening hfirm.1 hfirm.2
    rw [outline, callRows] at hmem
    split_ifs at hmem
    · cases List.mem_singleton.mp hmem
      simp only [flat, String.toList_append, List.append_assoc]
      exact hopening.append _
    · rw [List.cons_append, List.mem_cons, List.mem_append, List.mem_map, List.mem_singleton] at hmem
      rcases hmem with hmem | ⟨a, -, hmem⟩ | hmem
      · cases hmem
        exact hopening
      · cases hmem
        cases hkind
      · cases hmem
        cases hkind

theorem startsFirmly_of_mem_outlineAll {kind : RowKind} {l : ℕ} (hkind : kind.isStatement = true) (level : ℕ) :
    ∀ stmts : List Stmt, AreFirm stmts → .text kind l cs ∈ outlineAll level stmts → StartsFirmly cs
  | [], _, hmem => by cases hmem
  | stmt :: rest, hfirm, hmem => by
    rcases List.mem_append.mp hmem with hmem | hmem
    · exact startsFirmly_of_mem_outline hkind level stmt hfirm.1 hmem
    · exact startsFirmly_of_mem_outlineAll hkind level rest hfirm.2 hmem

end

theorem takeWhile_chars (kind : RowKind) (level : ℕ) (h : StartsFirmly cs) :
    (Row.text kind level cs).chars.takeWhile isBlank = List.replicate (4 * level) ' ' := by
  obtain ⟨c, hc, hfirm, -⟩ := h
  obtain ⟨rest, rfl⟩ := List.head?_eq_some_iff.mp hc
  have hspaces : ∀ d ∈ List.replicate (4 * level) ' ', isBlank d = true := by
    intro d hd
    rw [List.eq_of_mem_replicate hd]
    decide
  rw [Row.chars, List.append_assoc, List.append_assoc, List.takeWhile_append_of_pos hspaces, List.cons_append,
    List.takeWhile_cons_of_neg (by simp [hfirm]), List.append_nil]

end Beginnings

/-- The text of statements whose texts start firmly is laid out by their outline. -/
theorem Stmt.render_isLayout (stmts : List Stmt) (h : Stmt.AreFirm stmts) :
    ∃ rows, (Stmt.render stmts).toList = rows.flatMap Row.chars ∧ IsLayout stmts rows := by
  obtain ⟨rows, ⟨hsublist, htexts⟩, hprinted⟩ := printAll_printed 0 printed_nil stmts h
  rw [List.nil_append] at hprinted
  refine ⟨rows, ?_, htexts, hsublist, hprinted.apart, ?_, ?_⟩
  · rw [Stmt.render, Page.text, String.toList_ofList, hprinted.page_eq, List.reverse_reverse]
  · intro kind level cs hmem hkind
    exact takeWhile_chars kind level (startsFirmly_of_mem_outlineAll hkind 0 stmts h (hsublist.subset hmem))
  · exact (headersEntered_outlineAll 0 stmts).of_filter_eq htexts

/-- A block without statements, a call that does not fit on a line, and empty lines that are not printed. -/
theorem Stmt.render_isLayout_noop :
    let stmts : List Stmt := [.blank, .block "def noop()" [.blank, .comment "nothing yet"], .blank, .blank,
      .call (some "value") "build" [.named "first" "\"\"\"one\ntwo\"\"\"", .positional "2"]]
    Stmt.render stmts = "def noop():\n    # nothing yet\n    pass\n\n" ++
        "value = build(\n    first=\"\"\"one\ntwo\"\"\",\n    2,\n)\n" ∧
      Stmt.AreFirm stmts ∧ ∃ rows, (Stmt.render stmts).toList = rows.flatMap Row.chars ∧ IsLayout stmts rows := by
  intro stmts
  have hfirm : Stmt.AreFirm stmts := by
    have hheader : StartsFirmly "def noop()".toList := ⟨'d', rfl, by decide⟩
    have hcallee : StartsFirmly "build".toList := ⟨'b', rfl, by decide⟩
    refine ⟨trivial, ⟨hheader, trivial, trivial, trivial⟩, trivial, trivial, ⟨?_, hcallee⟩, trivial⟩
    rintro _ ⟨⟩
    exact ⟨'v', rfl, by decide⟩
  exact ⟨by decide +kernel, hfirm, Stmt.render_isLayout stmts hfirm⟩

end AgentWorkflow

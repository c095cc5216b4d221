import AgentWorkflow.Proofs.Program.Pieces

/-!
Where code is printed.

Code occurs in other code that holds it in one piece, at any level of nesting. Main statement: the statements of
code that occurs in a program are printed one after another in its text, at some level of indentation.
-/

namespace AgentWorkflow

namespace Stmt

open Page

variable {depth : ℕ} {page : Page}

theorem writeLine_suffix (depth : ℕ) (page : Page) (text : List Char) : page <:+ writeLine depth page text := by
  unfold writeLine
  exact (List.suffix_append _ _).trans ((List.suffix_append _ _).trans (List.suffix_cons _ _))

theorem foldl_suffix {α : Type} {f : Page → α → Page} (h : ∀ page a, page <:+ f page a) (l : List α)
    (page : Page) : page <:+ l.foldl f page := by
  induction l generalizing page with
  | nil => exact List.suffix_rfl
  | cons a rest ih => exact (h page a).trans (ih (f page a))

theorem printCall_suffix (depth : ℕ) (page : Page) (target : Option String) (callee : String) (args : List Arg) :
    page <:+ printCall depth page target callee args := by
  unfold printCall
  dsimp only
  split_ifs
  · exact writeLine_suffix _ _ _
  · apply (writeLine_suffix _ _ _).trans
    apply (foldl_suffix _ _ _).trans
    · exact writeLine_suffix _ _ _
    · intro page a
      exact writeLine_suffix _ _ _

theorem block_suffix (depth : ℕ) (page : Page) (header : String) (body : List Stmt) :
    printAll (depth + 1) (writeLine depth page (header ++ ":").toList) body <:+
      print depth page (.block header body) := by
  rw [print]
  split_ifs
  · exact writeLine_suffix _ _ _
  · exact List.suffix_rfl

mutual

theorem print_suffix (depth : ℕ) (page : Page) : ∀ stmt : Stmt, page <:+ print depth page stmt
  | .line text => writeLine_suffix _ _ _
  | .blank => by
    rw [print]
    split_ifs
    · exact List.suffix_cons _ _
    · exact List.suffix_rfl
  | .comment text => by
    rw [print]
    apply foldl_suffix
    intro page line
    exact writeLine_suffix _ _ _
  | .block header body =>
    (writeLine_suffix _ _ _).trans ((printAll_suffix _ _ body).trans (block_suffix _ _ _ _))
  | .call target callee args => printCall_suffix _ _ _ _ _

theorem printAll_suffix (depth : ℕ) (page : Page) : ∀ stmts : List Stmt, page <:+ printAll depth page stmts
  | [] => List.suffix_rfl
  | stmt :: rest => (print_suffix depth page stmt).trans (printAll_suffix depth _ rest)

end

theorem printAll_append (depth : ℕ) (page : Page) (stmts more : List Stmt) :
    printAll depth page (stmts ++ more) = printAll depth (printAll depth page stmts) more := by
  induction stmts generalizing page with
  | nil => rfl
  | cons stmt rest ih => exact ih _

/-- Somewhere in a text the statements are printed one after another. -/
def IsPrintedIn (stmts : List Stmt) (text : String) : Prop :=
  ∃ depth before, printAll depth before stmts <:+ text.toList.reverse

end Stmt

namespace Code

/-- Code stands in other code in one piece, perhaps inside a piece of it. -/
inductive Occurs (code : List Code) : List Code → Prop
  | here {before after : List Code} : Occurs code (before ++ code ++ after)
  | inside {before after : List Code} {c : Code} : Occurs code c.inner → Occurs code (before ++ c :: after)

namespace Occurs

variable {code more rest : List Code} {c : Code}

theorem refl (code : List Code) : Occurs code code := by
  have h : Occurs code ([] ++ code ++ []) := here
  simpa using h

theorem append_right (h : Occurs code more) (rest : List Code) : Occurs code (more ++ rest) := by
  cases h with
  | here =>
    rw [List.append_assoc]
    exact here
  | inside h =>
    rw [List.append_assoc, List.cons_append]
    exact inside h

theorem append_left (h : Occurs code more) (rest : List Code) : Occurs code (rest ++ more) := by
  cases h with
  | here =>
    rw [← List.append_assoc, ← List.append_assoc]
    exact here
  | inside h =>
    rw [← List.append_assoc]
    exact inside h

theorem of_inner (h : Occurs code c.inner) : Occurs code [c] := by
  have h' : Occurs code ([] ++ c :: []) := inside h
  exact h'

theorem trans (h : Occurs code more) (h' : Occurs more rest) : Occurs code rest := by
  induction h' with
  | here => exact (h.append_left _).append_right _
  | inside _ ih => exact inside ih

theorem piecesAll_subset (h : Occurs code more) : piecesAll code ⊆ piecesAll more := by
  induction h with
  | here =>
    rw [piecesAll_append, piecesAll_append]
    exact fun _ hc => List.mem_append_left _ (List.mem_append_right _ hc)
  | @inside before after c _ ih =>
    rw [piecesAll_append, piecesAll]
    exact fun _ hc => List.mem_append_right _ (List.mem_append_left _ (piecesAll_inner_subset c (ih hc)))

end Occurs

variable {code more : List Code} {fragments : List Fragment} {f : Fragment}

theorem occurs_joinBlank_left (code more : List Code) : Occurs code (Fragment.joinBlank code more) := by
  unfold Fragment.joinBlank
  split_ifs with hc
  · rw [List.isEmpty_iff.mp hc]
    exact (Occurs.refl []).append_right more
  · exact (Occurs.refl code).append_right _

theorem occurs_joinBlank_right (code more : List Code) : Occurs more (Fragment.joinBlank code more) := by
  unfold Fragment.joinBlank
  split_ifs
  · exact .refl more
  · rw [← List.singleton_append]
    exact ((Occurs.refl more).append_left _).append_left _

theorem occurs_foldl_joinBlank (code : List Code) :
    Occurs code (fragments.foldl (fun code f => Fragment.joinBlank code f.code) code) := by
  induction fragments generalizing code with
  | nil => exact .refl code
  | cons g rest ih => exact (occurs_joinBlank_left code g.code).trans (ih _)

theorem occurs_layout (hf : f ∈ fragments) : Occurs f.code (Fragment.layout fragments) := by
  obtain ⟨before, after, he⟩ := List.append_of_mem (Fragment.mem_arrange.mpr hf)
  rw [Fragment.layout, he, List.foldl_append, List.foldl_cons]
  exact (occurs_joinBlank_right _ _).trans (occurs_foldl_joinBlank _)

theorem occurs_entry {e : Entry} (hc : e.clients ≠ []) (hf : f ∈ e.inside) : Occurs f.code e.fragment.code := by
  have hlayout := (occurs_layout hf).trans (occurs_joinBlank_left _ [.drive e.execution e.root])
  have hrun : Occurs f.code e.run := by
    rw [Entry.run, if_neg (by simpa using hc)]
    exact .of_inner hlayout
  have hbody : Occurs f.code (Code.main (.line (Literal.docstring "Run the workflow once and print its result.") ::
      promptChoice e.prompt ++ .blank :: e.run)).inner := by
    have hblank : Occurs f.code ([.blank] ++ e.run) := hrun.append_left _
    exact hblank.append_left _
  exact (Occurs.of_inner hbody).append_right _

theorem occurs_program {p : Program} (hf : f ∈ p.fragments) : Occurs f.code p.code := by
  have hblank : Occurs f.code ([.blank] ++ Fragment.layout p.fragments) := (occurs_layout hf).append_left _
  exact hblank.append_left _

theorem stmtsAll_append (code more : List Code) : stmtsAll (code ++ more) = stmtsAll code ++ stmtsAll more := by
  induction code with
  | nil => rfl
  | cons c rest ih => rw [List.cons_append, stmtsAll, stmtsAll, ih, List.append_assoc]

open Stmt

theorem printAll_inner_suffix (c : Code) (depth : ℕ) (page : Page) :
    ∃ depth' before, printAll depth' before (stmtsAll c.inner) <:+ printAll depth page c.stmts := by
  cases c with
  | toolFunction name description body =>
    have hblock := block_suffix depth (Stmt.print depth page (.line "@tool"))
      ("def " ++ name ++ "(query: str) -> str") (.line (Literal.docstring description) :: stmtsAll body)
    rw [Stmt.printAll] at hblock
    exact ⟨_, _, hblock⟩
  | withClients clients body => exact ⟨_, _, block_suffix _ _ _ (stmtsAll body)⟩
  | main body => exact ⟨_, _, block_suffix _ _ _ (stmtsAll body)⟩
  | _ => exact ⟨0, _, List.suffix_rfl⟩

theorem Occurs.printAll_suffix {code more : List Code} (h : Occurs code more) (depth : ℕ) (page : Page) :
    ∃ depth' before, printAll depth' before (stmtsAll code) <:+ printAll depth page (stmtsAll more) := by
  induction h generalizing depth page with
  | @here before after =>
    refine ⟨depth, printAll depth page (stmtsAll before), ?_⟩
    rw [stmtsAll_append, stmtsAll_append, printAll_append, printAll_append]
    exact Stmt.printAll_suffix _ _ _
  | @inside before after c h ih =>
    obtain ⟨depth', page', hinner⟩ := printAll_inner_suffix c depth (printAll depth page (stmtsAll before))
    obtain ⟨depth'', page'', hcode⟩ := ih depth' page'
    refine ⟨depth'', page'', (hcode.trans hinner).trans ?_⟩
    rw [stmtsAll_append, stmtsAll, printAll_append, printAll_append]
    exact Stmt.printAll_suffix _ _ _

end Code

theorem Program.isPrintedIn_text {p : Program} {code : List Code} (h : Code.Occurs code p.code) :
    Stmt.IsPrintedIn (Code.stmtsAll code) p.text := by
  obtain ⟨depth, before, hsuffix⟩ := h.printAll_suffix 0 []
  refine ⟨depth, before, ?_⟩
  have htext : p.text.toList.reverse = Stmt.printAll 0 [] (Code.stmtsAll p.code) := by
    simp [Program.text, Code.render, Stmt.render, Page.text]
  rwa [htext]

end AgentWorkflow

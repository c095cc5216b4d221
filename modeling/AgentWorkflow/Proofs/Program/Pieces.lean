import AgentWorkflow.Proofs.Program.Clients

/-!
The pieces of code, those inside others included.

Main statement: a layout has the pieces of its fragments and empty lines, and nothing else.
-/

namespace AgentWorkflow

namespace Code

mutual

/-- A piece of code and the pieces inside it. -/
def pieces : Code → List Code
  | .toolFunction name description body => .toolFunction name description body :: piecesAll body
  | .withClients clients body => .withClients clients body :: piecesAll body
  | .main body => .main body :: piecesAll body
  | code => [code]

def piecesAll : List Code → List Code
  | [] => []
  | code :: rest => pieces code ++ piecesAll rest

end

def inner : Code → List Code
  | .toolFunction _ _ body | .withClients _ body | .main body => body
  | _ => []

/-- Code that neither declares a part nor does a step of declaring it. -/
def isFrame : Code → Bool
  | .plain _ | .withClients .. | .main _ | .answer .. | .drive .. => true
  | _ => false

/-- Code of which instances are made. -/
def isBuilding : Code → Bool
  | .model .. | .agent .. | .swarm .. | .newBuilder _ | .addNode .. | .addEdge .. | .entryPoint .. | .limit ..
  | .build .. => true
  | _ => false

/-- The name of the instance that a piece of code constructs. -/
def constructs? : Code → Option String
  | .agent name .. | .swarm name .. | .build name _ => some name
  | _ => none

variable {c d : Code} {code more : List Code}

theorem pieces_eq (c : Code) : c.pieces = c :: piecesAll c.inner := by
  cases c <;> simp [pieces, inner, piecesAll]

theorem mem_piecesAll : c ∈ piecesAll code ↔ ∃ d ∈ code, c ∈ pieces d := by
  induction code with
  | nil => simp [piecesAll]
  | cons d rest ih => simp [piecesAll, ih]

theorem piecesAll_append : piecesAll (code ++ more) = piecesAll code ++ piecesAll more := by
  induction code with
  | nil => rfl
  | cons c rest ih => rw [List.cons_append, piecesAll, ih, piecesAll, List.append_assoc]

theorem piecesAll_singleton : piecesAll [c] = c.pieces := by
  rw [piecesAll, piecesAll, List.append_nil]

theorem self_mem_pieces (c : Code) : c ∈ pieces c := by
  rw [pieces_eq]
  exact List.mem_cons_self

theorem mem_piecesAll_of_mem (h : c ∈ code) : c ∈ piecesAll code :=
  mem_piecesAll.mpr ⟨c, h, self_mem_pieces c⟩

theorem piecesAll_inner_subset (c : Code) : piecesAll c.inner ⊆ c.pieces := by
  rw [pieces_eq]
  exact List.subset_cons_self _ _

theorem piecesAll_mono (h : code ⊆ more) : piecesAll code ⊆ piecesAll more := by
  intro c hc
  obtain ⟨d, hd, hc⟩ := mem_piecesAll.mp hc
  exact mem_piecesAll.mpr ⟨d, h hd, hc⟩

theorem piecesAll_eq_self (h : ∀ c ∈ code, c.pieces = [c]) : piecesAll code = code := by
  induction code with
  | nil => rfl
  | cons c rest ih =>
    rw [piecesAll, h c List.mem_cons_self, ih fun d hd => h d (List.mem_cons_of_mem c hd), List.singleton_append]

theorem mem_piecesAll_inner (hd : d.isFrame = true) (hc : c.isFrame = false) (h : c ∈ d.pieces) :
    c ∈ piecesAll d.inner := by
  rw [pieces_eq] at h
  refine (List.mem_cons.mp h).resolve_left ?_
  rintro rfl
  rw [hd] at hc
  cases hc

theorem isFrame_of_isBuilding (hc : c.isBuilding = true) : c.isFrame = false := by
  cases c <;> simp_all [isBuilding, isFrame]

section Gather

variable {α : Type} (select : Code → Option α)

/-- What is selected from code, that inside its pieces included. -/
def selectAll (code : List Code) : List α :=
  (piecesAll code).filterMap select

variable {select}

theorem selectAll_append : selectAll select (code ++ more) = selectAll select code ++ selectAll select more := by
  rw [selectAll, piecesAll_append, List.filterMap_append]
  rfl

theorem selectAll_eq_nil (h : ∀ c ∈ piecesAll code, select c = none) : selectAll select code = [] :=
  List.filterMap_eq_nil_iff.mpr h

variable (hframe : ∀ c, c.isFrame = true → select c = none)

include hframe

theorem selectAll_frame (hc : c.isFrame = true) : selectAll select (c :: code) = selectAll select c.inner ++
    selectAll select code := by
  rw [selectAll, piecesAll, pieces_eq, List.cons_append, List.filterMap_cons_none (hframe c hc), List.filterMap_append]
  rfl

theorem selectAll_blank : selectAll select [.blank] = [] :=
  selectAll_eq_nil fun _ hc => hframe _ (List.mem_singleton.mp hc ▸ rfl)

theorem selectAll_plain (stmts : List Stmt) : selectAll select (stmts.map .plain) = [] := by
  induction stmts with
  | nil => rfl
  | cons stmt rest ih =>
    rw [List.map_cons, selectAll_frame hframe rfl, ih]
    rfl

end Gather

end Code

namespace Fragment

variable {fragments : List Fragment} {c : Code}

theorem piecesAll_subset_layout {f : Fragment} (hf : f ∈ fragments) :
    Code.piecesAll f.code ⊆ Code.piecesAll (layout fragments) :=
  Code.piecesAll_mono fun _ hc => mem_layout_of_mem hf hc

theorem selectAll_layout_eq {α : Type} {select : Code → Option α}
    (hframe : ∀ c, c.isFrame = true → select c = none) {before after : List Fragment} {f : Fragment}
    (h : ∀ g ∈ before ++ after, Code.selectAll select g.code = []) :
    Code.selectAll select (layout (before ++ f :: after)) = Code.selectAll select f.code :=
  gather_layout_eq (fun _ _ => Code.selectAll_append) (Code.selectAll_blank hframe) h

theorem mem_piecesAll_layout (h : c ∈ Code.piecesAll (layout fragments)) :
    c = .blank ∨ ∃ f ∈ fragments, c ∈ Code.piecesAll f.code := by
  obtain ⟨d, hd, hc⟩ := Code.mem_piecesAll.mp h
  rcases mem_layout hd with rfl | ⟨f, hf, hd⟩
  · exact Or.inl (List.mem_singleton.mp hc)
  · exact Or.inr ⟨f, hf, Code.mem_piecesAll.mpr ⟨d, hd, hc⟩⟩

end Fragment

namespace Entry

variable {e : Entry} {c d : Code}

theorem mem_fragment_code (h : d ∈ e.fragment.code) : d = .main e.body ∨ ∃ stmt, d = .plain stmt := by
  rw [fragment_code] at h
  simp only [List.mem_cons, List.not_mem_nil, or_false] at h
  rcases h with rfl | rfl | rfl
  · exact Or.inl rfl
  · exact Or.inr ⟨_, rfl⟩
  · exact Or.inr ⟨_, rfl⟩

theorem mem_body (h : d ∈ e.body) : d ∈ e.run ∨ ∃ stmt, d = .plain stmt := by
  simp only [body, promptChoice, List.cons_append, List.nil_append, List.mem_cons] at h
  rcases h with rfl | rfl | rfl | rfl | rfl | h
  · exact Or.inr ⟨_, rfl⟩
  · exact Or.inr ⟨_, rfl⟩
  · exact Or.inr ⟨_, rfl⟩
  · exact Or.inr ⟨_, rfl⟩
  · exact Or.inr ⟨_, rfl⟩
  · exact Or.inl h

theorem mem_piecesAll_run (h : c ∈ Code.piecesAll e.run) (hc : c.isFrame = false) :
    ∃ f ∈ e.inside, c ∈ Code.piecesAll f.code := by
  unfold run at h
  dsimp only at h
  split_ifs at h
  · rw [Code.piecesAll_singleton] at h
    cases Code.mem_piecesAll_inner rfl hc h
  · rw [Code.piecesAll_singleton] at h
    obtain ⟨d, hd, hcd⟩ := Code.mem_piecesAll.mp (Code.mem_piecesAll_inner rfl hc h)
    rcases Fragment.mem_joinBlank hd with rfl | hd | hd
    · cases Code.mem_piecesAll_inner rfl hc hcd
    · rcases Fragment.mem_piecesAll_layout (Code.mem_piecesAll.mpr ⟨d, hd, hcd⟩) with rfl | h
      · cases hc
      · exact h
    · obtain rfl := List.mem_singleton.mp hd
      cases Code.mem_piecesAll_inner rfl hc hcd

theorem mem_piecesAll_fragment (h : c ∈ Code.piecesAll e.fragment.code) (hc : c.isFrame = false) :
    ∃ f ∈ e.inside, c ∈ Code.piecesAll f.code := by
  obtain ⟨d, hd, hcd⟩ := Code.mem_piecesAll.mp h
  rcases mem_fragment_code hd with rfl | ⟨stmt, rfl⟩
  · obtain ⟨d, hd, hcd⟩ := Code.mem_piecesAll.mp (Code.mem_piecesAll_inner rfl hc hcd)
    rcases mem_body hd with hd | ⟨stmt, rfl⟩
    · exact mem_piecesAll_run (Code.mem_piecesAll.mpr ⟨d, hd, hcd⟩) hc
    · cases Code.mem_piecesAll_inner rfl hc hcd
  · cases Code.mem_piecesAll_inner rfl hc hcd

theorem selectAll_fragment {α : Type} {select : Code → Option α}
    (hframe : ∀ c, c.isFrame = true → select c = none) :
    Code.selectAll select e.fragment.code =
      if e.clients.isEmpty then [] else Code.selectAll select (Fragment.layout e.inside) := by
  have hdrive : Code.selectAll select [.drive e.execution e.root] = [] :=
    Code.selectAll_eq_nil fun _ hc => hframe _ (List.mem_singleton.mp hc ▸ rfl)
  have hrun : Code.selectAll select e.run =
      if e.clients.isEmpty then [] else Code.selectAll select (Fragment.layout e.inside) := by
    unfold run
    split_ifs
    · exact hdrive
    · rw [Code.selectAll_frame hframe rfl, Code.inner, Fragment.gather_joinBlank (fun _ _ => Code.selectAll_append)
        (Code.selectAll_blank hframe), hdrive]
      simp [Code.selectAll, Code.piecesAll]
  have hbody : Code.selectAll select e.body = Code.selectAll select e.run := by
    simp only [body, promptChoice, Code.line, Code.blank, List.cons_append, List.nil_append]
    repeat rw [Code.selectAll_frame hframe rfl]
    rfl
  have hcall : Code.selectAll select [.blank, commandLine] = [] := Code.selectAll_plain hframe [.blank, _]
  rw [fragment_code, Code.selectAll_frame hframe rfl, Code.inner, hbody, hrun, hcall, List.append_nil]

end Entry

namespace Program

/-- The pieces of a program. -/
def pieces (p : Program) : List Code :=
  Code.piecesAll p.code

variable {p : Program} {c : Code}

theorem mem_pieces (h : c ∈ p.pieces) :
    (∃ stmt, c = .plain stmt) ∨ ∃ f ∈ p.fragments, c ∈ Code.piecesAll f.code := by
  obtain ⟨d, hd, hc⟩ := Code.mem_piecesAll.mp h
  rcases mem_code hd with ⟨stmt, rfl⟩ | ⟨f, hf, hd⟩
  · exact Or.inl ⟨stmt, List.mem_singleton.mp hc⟩
  · exact Or.inr ⟨f, hf, Code.mem_piecesAll.mpr ⟨d, hd, hc⟩⟩

theorem filterMap_pieces {α : Type} {select : Code → Option α} (hframe : ∀ c, c.isFrame = true → select c = none) :
    p.pieces.filterMap select = Code.selectAll select (Fragment.layout p.fragments) := by
  change Code.selectAll select p.code = _
  have hheader : Code.selectAll select
      (if p.header then [.plain (.comment headerText), .blank] else []) = [] := by
    split_ifs
    · exact Code.selectAll_plain hframe [.comment headerText, .blank]
    · rfl
  rw [code, Code.selectAll_append, Code.selectAll_append, hheader, Code.selectAll_plain hframe,
    Code.selectAll_frame hframe rfl]
  rfl

end Program

end AgentWorkflow

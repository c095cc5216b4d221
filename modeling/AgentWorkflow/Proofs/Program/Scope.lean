import AgentWorkflow.Proofs.Program.Layout

/-!
Which names code can use.

Code uses names and binds names. At the top level and in the body of a function a name can be used that was
bound before; a function can also use all names that are bound around it, before it or after it. `resolves`
says that code uses no other names. Main statement: a layout resolves if each fragment does after the earlier
ones whose kinds are not later.
-/

namespace AgentWorkflow

/-- The name that an entry of a list of tools uses. What the tool library has is imported. -/
def ToolEntry.read? : ToolEntry → Option String
  | .symbol _ => none
  | .function name | .delegate name => some name
  | .listed client => some client

namespace Code

/-- The names that a piece of code uses where it stands, apart from the pieces inside it. -/
def reads : Code → List String
  | .agent _ _ modelName _ tools _ => modelName :: tools.filterMap ToolEntry.read?
  | .swarm _ members entry _ => members ++ entry.toList
  | .addNode builder member _ => [builder, member]
  | .addEdge builder _ _ | .entryPoint builder _ | .limit builder _ | .build _ builder => [builder]
  | .decorate function => [function]
  | .withClients clients _ => clients
  | .answer _ name | .drive _ name => [name]
  | _ => []

mutual

/-- The names that a piece of code binds where it stands. -/
def binds : Code → List String
  | .model name _ | .agent name .. | .swarm name .. | .newBuilder name | .build name _ | .client name _
  | .definition name _ | .decorate name | .toolFunction name .. => [name]
  | .withClients _ body => bindsAll body
  | .main _ => ["main"]
  | _ => []

def bindsAll : List Code → List String
  | [] => []
  | code :: rest => binds code ++ bindsAll rest

end

mutual

/-- Code uses names that are bound: `now` those that are bound so far, and `late` those that functions can
use that are defined here. -/
def resolves (late now : List String) : Code → Bool
  | .toolFunction _ _ body => resolvesAll (late ++ bindsAll body) late body
  | .main body => resolvesAll (late ++ bindsAll body) late body
  | .withClients clients body => clients.all (now.contains ·) && resolvesAll late now body
  | code => code.reads.all (now.contains ·)

/-- The same of several pieces, each of which can use what those before it bind. -/
def resolvesAll (late now : List String) : List Code → Bool
  | [] => true
  | code :: rest => resolves late now code && resolvesAll late (now ++ binds code) rest

end

variable {late late' now now' : List String} {code more : List Code} {c : Code} {x : String}

@[simp]
theorem bindsAll_append : bindsAll (code ++ more) = bindsAll code ++ bindsAll more := by
  induction code with
  | nil => rfl
  | cons c rest ih => rw [List.cons_append, bindsAll, ih, bindsAll, List.append_assoc]

theorem mem_bindsAll : x ∈ bindsAll code ↔ ∃ c ∈ code, x ∈ c.binds := by
  induction code with
  | nil => simp [bindsAll]
  | cons c rest ih => simp [bindsAll, ih]

theorem mem_now_of_resolves (h : resolves late now c = true) (hx : x ∈ c.reads) : x ∈ now := by
  cases c with
  | toolFunction name description body => cases hx
  | main body => cases hx
  | withClients clients body =>
    rw [resolves, Bool.and_eq_true, List.all_eq_true] at h
    exact List.contains_iff_mem.mp (h.1 x hx)
  | _ => exact List.contains_iff_mem.mp (List.all_eq_true.mp h x hx)

theorem append_subset_append_right {names : List String} (h : now ⊆ now') : now ++ names ⊆ now' ++ names :=
  List.append_subset.mpr ⟨List.subset_append_of_subset_left _ h, List.subset_append_right _ _⟩

theorem mem_of_resolvesAll (h : resolvesAll late now code = true) (hc : c ∈ code) (hx : x ∈ c.reads) :
    x ∈ now ∨ x ∈ bindsAll code := by
  induction code generalizing now with
  | nil => cases hc
  | cons d rest ih =>
    rw [resolvesAll, Bool.and_eq_true] at h
    rcases List.mem_cons.mp hc with rfl | hc
    · exact Or.inl (mem_now_of_resolves h.1 hx)
    · rw [bindsAll, List.mem_append]
      rcases ih h.2 hc with hx | hx
      · exact (List.mem_append.mp hx).imp id Or.inl
      · exact Or.inr (Or.inr hx)

mutual

theorem resolves_mono {late late' now now' : List String} (hl : late ⊆ late') (hn : now ⊆ now') :
    ∀ {c : Code}, resolves late now c = true → resolves late' now' c = true
  | .toolFunction _ _ body, h => by
    rw [resolves] at h ⊢
    exact resolvesAll_mono (append_subset_append_right hl) hl h
  | .main body, h => by
    rw [resolves] at h ⊢
    exact resolvesAll_mono (append_subset_append_right hl) hl h
  | .withClients clients body, h => by
    rw [resolves, Bool.and_eq_true, List.all_eq_true] at h ⊢
    exact ⟨fun x hx => List.contains_iff_mem.mpr (hn (List.contains_iff_mem.mp (h.1 x hx))),
      resolvesAll_mono hl hn h.2⟩
  | .plain _, h | .model .., h | .agent .., h | .swarm .., h | .newBuilder _, h | .addNode .., h
  | .addEdge .., h | .entryPoint .., h | .limit .., h | .build .., h | .client .., h | .definition .., h
  | .decorate _, h | .answer .., h | .drive .., h =>
    List.all_eq_true.mpr fun x hx => List.contains_iff_mem.mpr (hn (mem_now_of_resolves h hx))

theorem resolvesAll_mono {late late' now now' : List String} (hl : late ⊆ late') (hn : now ⊆ now') :
    ∀ {code : List Code}, resolvesAll late now code = true → resolvesAll late' now' code = true
  | [], _ => rfl
  | c :: rest, h => by
    rw [resolvesAll, Bool.and_eq_true] at h ⊢
    exact ⟨resolves_mono hl hn h.1,
      resolvesAll_mono hl (append_subset_append_right hn) h.2⟩

end

theorem resolvesAll_append :
    resolvesAll late now (code ++ more) = true ↔
      resolvesAll late now code = true ∧ resolvesAll late (now ++ bindsAll code) more = true := by
  induction code generalizing now with
  | nil => simp [resolvesAll, bindsAll]
  | cons c rest ih =>
    simp only [List.cons_append, resolvesAll, Bool.and_eq_true, ih, bindsAll, and_assoc, List.append_assoc]

theorem resolvesAll_singleton : resolvesAll late now [c] = resolves late now c := by
  rw [resolvesAll, resolvesAll, Bool.and_true]

theorem bindsAll_eq_nil {code : List Code} (h : ∀ c ∈ code, c.binds = []) : bindsAll code = [] := by
  refine List.eq_nil_iff_forall_not_mem.mpr fun x hx => ?_
  obtain ⟨c, hc, hx⟩ := mem_bindsAll.mp hx
  rw [h c hc] at hx
  cases hx

theorem resolvesAll_of_forall {code : List Code} (h : ∀ c ∈ code, resolves late now c = true) :
    resolvesAll late now code = true := by
  induction code with
  | nil => rfl
  | cons c rest ih =>
    obtain ⟨hc, hr⟩ := List.forall_mem_cons.mp h
    rw [resolvesAll, hc, Bool.true_and]
    exact resolvesAll_mono (List.Subset.refl _) (List.subset_append_left _ _) (ih hr)

end Code

namespace Fragment

open Code

variable {fragments : List Fragment} {f : Fragment} {late now : List String} {code more : List Code} {x : String}

theorem isSequential_resolvesAll (late : List String) :
    IsSequential bindsAll fun now code => resolvesAll late now code = true where
  names_append _ _ := bindsAll_append
  names_blank := rfl
  nil _ := rfl
  blank _ := rfl
  append _ _ _ := resolvesAll_append

@[simp]
theorem bindsAll_joinBlank : bindsAll (joinBlank code more) = bindsAll code ++ bindsAll more :=
  (isSequential_resolvesAll []).names_joinBlank

theorem resolvesAll_joinBlank : resolvesAll late now (joinBlank code more) = true ↔
    resolvesAll late now code = true ∧ resolvesAll late (now ++ bindsAll code) more = true :=
  (isSequential_resolvesAll late).joinBlank

theorem mem_bindsAll_layout : x ∈ bindsAll (layout fragments) ↔ ∃ f ∈ fragments, x ∈ bindsAll f.code := by
  simp only [mem_bindsAll]
  constructor
  · rintro ⟨c, hc, hx⟩
    rcases mem_layout hc with rfl | ⟨f, hf, hc⟩
    · cases hx
    · exact ⟨f, hf, c, hc, hx⟩
  · rintro ⟨f, hf, c, hc, hx⟩
    exact ⟨c, mem_layout_of_mem hf hc, hx⟩

/-- A layout resolves if each fragment does when those before it are bound whose kinds are not later. -/
theorem resolvesAll_layout (h : ∀ earlier f later, fragments = earlier ++ f :: later → ∀ now', now ⊆ now' →
    (∀ g ∈ earlier, g.kind.position ≤ f.kind.position → bindsAll g.code ⊆ now') →
      resolvesAll late now' f.code = true) :
    resolvesAll late now (layout fragments) = true :=
  (isSequential_resolvesAll late).layout h

theorem exists_resolvesAll_of_layout (h : resolvesAll late now (layout fragments) = true) (hf : f ∈ fragments) :
    ∃ now', resolvesAll late now' f.code = true := by
  obtain ⟨before, after, he⟩ := List.append_of_mem (mem_arrange.mpr hf)
  exact ⟨_, ((isSequential_resolvesAll late).foldl_joinBlank.mp h).2 before f after he⟩

end Fragment

namespace Program

/-- All names are bound that the code of a program uses. -/
def IsWellScoped (p : Program) : Prop :=
  Code.resolvesAll (Code.bindsAll p.code) [] p.code = true

instance (p : Program) : Decidable p.IsWellScoped :=
  inferInstanceAs (Decidable (_ = true))

theorem isWellScoped_iff {p : Program} : p.IsWellScoped ↔
    Code.resolvesAll (Code.bindsAll (Fragment.layout p.fragments)) [] (Fragment.layout p.fragments) = true := by
  have hcode : ∃ head : List Stmt, p.code = head.map .plain ++ Fragment.layout p.fragments := by
    refine ⟨(if p.header then [.comment headerText, .blank] else []) ++ p.imports.stmts ++ [.blank], ?_⟩
    unfold code
    split_ifs <;> simp [Code.blank]
  obtain ⟨head, hcode⟩ := hcode
  have hbinds : Code.bindsAll (head.map .plain) = [] := by
    refine Code.bindsAll_eq_nil fun c hc => ?_
    obtain ⟨stmt, -, rfl⟩ := List.mem_map.mp hc
    rfl
  have hresolves (late : List String) : Code.resolvesAll late [] (head.map .plain) = true := by
    refine Code.resolvesAll_of_forall fun c hc => ?_
    obtain ⟨stmt, -, rfl⟩ := List.mem_map.mp hc
    rfl
  unfold IsWellScoped
  rw [hcode, Code.bindsAll_append, Code.resolvesAll_append, hbinds, List.nil_append, List.nil_append]
  exact and_iff_right (hresolves _)

end Program

end AgentWorkflow

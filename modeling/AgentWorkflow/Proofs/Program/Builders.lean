import AgentWorkflow.Proofs.Program.Occurrence

/-!
The dependency graphs that a program builds.

A builder is created, steps and edges are added to it, and it builds the graph. Code builds only some graphs when every
call on a builder belongs to a series of calls, one after another, that builds one of them.
-/

namespace AgentWorkflow

/-- The calls that build a dependency graph. -/
structure GraphCalls where
  builder : String
  name : String
  /-- The steps that are added: what runs, and the id of the step. -/
  steps : List (String × String)
  edges : List (String × String)
  starts : List String
  limits : List Limit

namespace GraphCalls

def code (s : GraphCalls) : List Code :=
  .newBuilder s.builder ::
    (s.steps.map fun (member, id) => .addNode s.builder member id) ++
    (s.edges.map fun (source, target) => .addEdge s.builder source target) ++
    s.starts.map (.entryPoint s.builder) ++ s.limits.map (.limit s.builder) ++ [.build s.name s.builder]

def ids (s : GraphCalls) : List String :=
  s.steps.map Prod.snd

/-- An edge leads from one step to another. -/
def Leads (s : GraphCalls) (source target : String) : Prop :=
  (source, target) ∈ s.edges

end GraphCalls

namespace Code

/-- Whether a piece of code is a call on a builder, or creates one. -/
def isBuilderCall : Code → Bool
  | .newBuilder _ | .addNode .. | .addEdge .. | .entryPoint .. | .limit .. | .build .. => true
  | _ => false

/-- Code of which all calls on builders make up graphs of some sort. -/
inductive BuildsOnly (good : GraphCalls → Prop) : List Code → Prop
  | nil : BuildsOnly good []
  | piece {c : Code} {rest : List Code} : c.isBuilderCall = false → BuildsOnly good c.inner → BuildsOnly good rest →
    BuildsOnly good (c :: rest)
  | graph {s : GraphCalls} {rest : List Code} : good s → BuildsOnly good rest → BuildsOnly good (s.code ++ rest)

namespace BuildsOnly

variable {good : GraphCalls → Prop} {c : Code} {code more : List Code} {fragments : List Fragment}

theorem append (h : BuildsOnly good code) (h' : BuildsOnly good more) : BuildsOnly good (code ++ more) := by
  induction h with
  | nil => exact h'
  | piece hc hinner _ _ ih => exact .piece hc hinner ih
  | graph hs _ ih =>
    rw [List.append_assoc]
    exact .graph hs ih

theorem of_forall (h : ∀ c ∈ code, c.isBuilderCall = false ∧ BuildsOnly good c.inner) : BuildsOnly good code := by
  induction code with
  | nil => exact .nil
  | cons c rest ih =>
    obtain ⟨hc, hrest⟩ := List.forall_mem_cons.mp h
    exact .piece hc.1 hc.2 (ih hrest)

theorem single (hc : c.isBuilderCall = false) (h : BuildsOnly good c.inner) : BuildsOnly good [c] :=
  .piece hc h .nil

theorem plain (stmts : List Stmt) : BuildsOnly good (stmts.map .plain) := by
  refine of_forall fun c hc => ?_
  obtain ⟨stmt, -, rfl⟩ := List.mem_map.mp hc
  exact ⟨rfl, .nil⟩

theorem joinBlank (h : BuildsOnly good code) (h' : BuildsOnly good more) :
    BuildsOnly good (Fragment.joinBlank code more) := by
  unfold Fragment.joinBlank
  split_ifs
  · exact h'
  · exact h.append (.piece rfl .nil h')

theorem layout (h : ∀ f ∈ fragments, BuildsOnly good f.code) : BuildsOnly good (Fragment.layout fragments) := by
  refine List.foldlRecOn (motive := BuildsOnly good) _ _ .nil fun code hcode f hf => ?_
  exact hcode.joinBlank (h f (Fragment.mem_arrange.mp hf))

theorem entry {e : Entry} (h : ∀ f ∈ e.inside, BuildsOnly good f.code) : BuildsOnly good e.fragment.code := by
  have hdrive : BuildsOnly good [.drive e.execution e.root] := single rfl .nil
  have hrun : BuildsOnly good e.run := by
    unfold Entry.run
    dsimp only
    split_ifs
    · exact hdrive
    · exact single rfl ((layout h).joinBlank hdrive)
  refine .piece rfl ?_ (plain [.blank, _])
  exact (plain [.line _, .block _ _, .block _ _, .block _ _, .blank]).append hrun

theorem program {p : Program} (h : ∀ f ∈ p.fragments, BuildsOnly good f.code) : BuildsOnly good p.code := by
  have hheader : BuildsOnly good
      (if p.header then [.plain (.comment Program.headerText), .blank] else []) := by
    split_ifs
    · exact plain [.comment _, .blank]
    · exact .nil
  exact (hheader.append (plain _)).append (.piece rfl .nil (layout h))

end BuildsOnly

end Code

end AgentWorkflow

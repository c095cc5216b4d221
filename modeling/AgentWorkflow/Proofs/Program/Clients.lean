import AgentWorkflow.Proofs.Program.Layout

/-!
How code uses the clients of tool servers.

Code lists the tools of clients, and opens clients in blocks. `usesOpen` says that it lists only where the
client is open and opens no client that is open already. `blocks` are the lists of clients that its blocks
open, those in nested code included.
-/

namespace AgentWorkflow

/-- An entry of a list of tools that lists those of a client lists them where the client is open. -/
def ToolEntry.usesOpen (opened : List String) : ToolEntry → Bool
  | .listed name => opened.contains name
  | _ => true

namespace Code

mutual

/-- Tools are listed only of clients that are open, and no open client is opened again. -/
def usesOpen (opened : List String) : Code → Bool
  | .agent _ _ _ _ tools _ => tools.all (·.usesOpen opened)
  | .toolFunction _ _ body => usesOpenAll opened body
  | .withClients clients body =>
    decide clients.Nodup && clients.all (!opened.contains ·) && usesOpenAll (clients ++ opened) body
  | .main body => usesOpenAll opened body
  | _ => true

def usesOpenAll (opened : List String) : List Code → Bool
  | [] => true
  | code :: rest => usesOpen opened code && usesOpenAll opened rest

end

mutual

/-- The lists of clients that are opened in code. -/
def blocks : Code → List (List String)
  | .toolFunction _ _ body => blocksAll body
  | .withClients clients body => clients :: blocksAll body
  | .main body => blocksAll body
  | _ => []

/-- The lists of clients that are opened in several pieces of code. -/
def blocksAll : List Code → List (List String)
  | [] => []
  | code :: rest => blocks code ++ blocksAll rest

end

variable {opened : List String} {codes : List Code}

theorem usesOpenAll_iff : usesOpenAll opened codes = true ↔ ∀ c ∈ codes, usesOpen opened c = true := by
  induction codes with
  | nil => simp [usesOpenAll]
  | cons c rest ih => simp [usesOpenAll, ih]

theorem mem_blocksAll {clients : List String} :
    clients ∈ blocksAll codes ↔ ∃ c ∈ codes, clients ∈ blocks c := by
  induction codes with
  | nil => simp [blocksAll]
  | cons c rest ih => simp [blocksAll, ih]

theorem blocksAll_eq_nil : blocksAll codes = [] ↔ ∀ c ∈ codes, blocks c = [] := by
  induction codes with
  | nil => simp [blocksAll]
  | cons c rest ih => simp [blocksAll, ih]

def main? : Code → Option (List Code)
  | .main body => some body
  | _ => none

/-- Code that lists the tools of open clients only, opens no clients and is no entry function. -/
structure IsInner (opened : List String) (code : Code) : Prop where
  uses : code.usesOpen opened = true
  blocks : code.blocks = []
  main : code.main? = none

end Code

namespace Entry

variable {e : Entry} {opened : List String}

def body (e : Entry) : List Code :=
  .line (Literal.docstring "Run the workflow once and print its result.") ::
    promptChoice e.prompt ++ .blank :: e.run

theorem fragment_code : e.fragment.code = [.main e.body, .blank, commandLine] := rfl

theorem usesOpenAll_body : Code.usesOpenAll opened e.body = Code.usesOpenAll opened e.run := rfl

theorem blocksAll_body : Code.blocksAll e.body = Code.blocksAll e.run := rfl

end Entry

namespace Program

/-- The bodies of the entry functions of a program. -/
def mains (p : Program) : List (List Code) :=
  p.code.filterMap Code.main?

/-- A program has one entry function, which opens the clients in one block, or no block if there are none. -/
def OpensInMain (p : Program) (clients : List String) : Prop :=
  ∃ body, p.mains = [body] ∧ Code.blocksAll body = if clients = [] then [] else [clients]

/-- All clients that a program opens are declared at its top level. -/
def DeclaresClients (p : Program) : Prop :=
  ∀ clients ∈ Code.blocksAll p.code, ∀ client ∈ clients, ∃ settings, Code.client client settings ∈ p.code

theorem mem_code {p : Program} {c : Code} (h : c ∈ p.code) :
    (∃ stmt, c = .plain stmt) ∨ ∃ f ∈ p.fragments, c ∈ f.code := by
  simp only [code, List.mem_append, List.mem_map, List.mem_cons] at h
  rcases h with (h | ⟨stmt, -, rfl⟩) | rfl | h
  · split_ifs at h with hh
    · rcases List.mem_pair.mp h with rfl | rfl
      · exact Or.inl ⟨_, rfl⟩
      · exact Or.inl ⟨_, rfl⟩
    · cases h
  · exact Or.inl ⟨stmt, rfl⟩
  · exact Or.inl ⟨_, rfl⟩
  · exact (Fragment.mem_layout h).imp (fun h => ⟨_, h⟩) id

theorem mem_code_of_mem {p : Program} {f : Fragment} {c : Code} (hf : f ∈ p.fragments) (hc : c ∈ f.code) :
    c ∈ p.code :=
  List.mem_append_right _ (List.mem_cons_of_mem _ (Fragment.mem_layout_of_mem hf hc))

theorem mains_perm (p : Program) : p.mains.Perm (p.fragments.flatMap fun f => f.code.filterMap Code.main?) := by
  have hm : p.mains = (Fragment.layout p.fragments).filterMap Code.main? := by
    have hi : (p.imports.stmts.map Code.plain).filterMap Code.main? = [] := by
      simp [List.filterMap_map, Function.comp_def, Code.main?]
    unfold mains code
    rw [List.filterMap_append, List.filterMap_append, hi]
    split_ifs <;> rfl
  rw [hm]
  exact Fragment.filterMap_layout_perm rfl

end Program

end AgentWorkflow

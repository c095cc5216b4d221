import AgentWorkflow.Proofs.Compile.Features
import AgentWorkflow.Proofs.Program.Clients

/-!
Names of nodes and imported names.

Main statement: the only names of nodes that the import block of a program binds too are names of clients, and
they are spelled like the functions that open connections.
-/

namespace AgentWorkflow

namespace Imports

/-- The identifier whose client has the name of the function that opens a connection. -/
def openerIdent : Transport → String
  | .stdio => "stdio"
  | .sse => "sse"
  | .streamableHttp => "streamablehttp"

theorem opener_eq (t : Transport) : opener t = openerIdent t ++ NameRole.client.suffix := by
  cases t <;> rfl

theorem underscore_not_mem_modelClass (p : Provider) : '_' ∉ (modelClass p).toList := by
  cases p <;> decide

end Imports

theorem NameRole.underscore_mem_suffix (role : NameRole) : '_' ∈ role.suffix.toList := by
  cases role <;> decide

theorem NameRole.underscore_mem_append (ident : String) (role : NameRole) :
    '_' ∈ (ident ++ role.suffix).toList := by
  rw [String.toList_append]
  exact List.mem_append_right _ role.underscore_mem_suffix

theorem Blueprint.Coherent.imported_name {b : Blueprint} (hb : b.Coherent) {imports : Imports}
    (hsub : imports.builtins ⊆ Builtin.symbols) {id name line : String} {role : NameRole}
    (hname : b.symbols.name? id role = some name) (hline : line ∈ imports.lines) (hmem : name ∈ Imports.boundBy line) :
    role = .client ∧ ∃ t, name = Imports.opener t ∧ Imports.transportLine t ∈ imports.lines := by
  obtain ⟨hfree, -⟩ := hb.name_free hname
  obtain ⟨ident, -, rfl⟩ := SymbolTable.name?_eq_some.mp hname
  have hunder := role.underscore_mem_append ident
  -- Names of nodes are not reserved, and all have an underscore, which no class of models has.
  rcases Imports.mem_boundBy_lines hsub hline hmem with hn | hn | ⟨c, hn⟩ | hn | ⟨t, hn, ht⟩
  · exact absurd (List.mem_append_left _ (List.mem_append_left _ hn)) hfree
  · exact absurd (List.mem_append_left _ (List.mem_append_right _ hn)) hfree
  · exact absurd (hn ▸ hunder) (Imports.underscore_not_mem_modelClass c)
  · exact absurd (hn ▸ hunder) (by decide)
  · exact ⟨(NameRole.append_suffix_inj (hn.trans (Imports.opener_eq t))).2, t, hn, ht⟩

namespace Compilation

variable {g : Graph} {options : Options}

theorem imports_eq {p : Program} (h : (Compilation.mk g options .standard).program? = some p) :
    (Compilation.mk g options .standard).compile.imports = p.imports.lines := by
  obtain ⟨hv, gen, d, hg, rfl⟩ := exists_generated h
  rw [compile_of_ok hv hg]
  rfl

/-- A line of the import block of a generated program binds the name of a node exactly if it is the name of a
client and the line imports the function of that name, which opens connections. -/
theorem compile_imports_name_iff (h : (Compilation.mk g options .standard).compile.isSuccess = true) :
    ∃ root, g.index.rootIn (g.index.effectiveMode options.mode) = .ok root ∧
      ∀ id role name, (g.index.blueprint root).symbols.name? id role = some name →
        ((∃ line ∈ (Compilation.mk g options .standard).compile.imports, name ∈ Imports.boundBy line) ↔
          role = .client ∧ ∃ t, name = Imports.opener t ∧
            Imports.transportLine t ∈ (Compilation.mk g options .standard).compile.imports) := by
  obtain ⟨p, root, l, hp, -, hr, hb, -, -⟩ := exists_accounts h
  refine ⟨root, hr, fun id role name hname => ?_⟩
  rw [imports_eq hp]
  constructor
  · rintro ⟨line, hline, hmem⟩
    exact hb.imported_name (builtins_subset hp) hname hline hmem
  · rintro ⟨-, t, hn, ht⟩
    exact ⟨_, ht, hn ▸ Imports.opener_mem_boundBy t⟩

end Compilation

/-- An agent with a tool server that is labelled like the transport which it uses. -/
def Graph.stdioServer : Graph where
  nodes := [⟨"in", "Prompt", .input .default⟩, ⟨"a", "Writer", .agent .default⟩,
    ⟨"srv1", "stdio", .server { ServerSettings.default with command := some "files" }⟩,
    ⟨"out", "Result", .output .default⟩]
  edges := [⟨"in", .output, "a", .userInput⟩, ⟨"a", .output, "out", .input⟩,
    ⟨"srv1", .toolOutput, "a", .tools⟩]

namespace Compilation

/-- The client that is opened has the name of the imported function that it is made with. -/
theorem stdioServer_rebinds_import :
    (Compilation.ofGraph .stdioServer).validate.valid = true ∧
      (Compilation.ofGraph .stdioServer).compile.isSuccess = true ∧
      (Graph.stdioServer.index.rootIn (Graph.stdioServer.index.effectiveMode Options.default.mode)).toOption =
        some (some "a") ∧
      (Graph.stdioServer.index.blueprint (some "a")).symbols.name? "srv1" .client = some "stdio_client" ∧
      (Compilation.ofGraph .stdioServer).program?.map (fun p => Code.blocksAll p.code) =
        some [["stdio_client"]] ∧
      ∃ line ∈ (Compilation.ofGraph .stdioServer).compile.imports, "stdio_client" ∈ Imports.boundBy line := by
  decide +kernel

/-- The agent beside the server has a name of its own. -/
theorem stdioServer_agent_not_imported :
    (Compilation.mk .stdioServer .default .standard).compile.isSuccess = true ∧
      ∃ root, Graph.stdioServer.index.rootIn (Graph.stdioServer.index.effectiveMode Options.default.mode) =
          .ok root ∧
        ∀ name, (Graph.stdioServer.index.blueprint root).symbols.name? "a" .agent = some name →
          ∀ line ∈ (Compilation.mk .stdioServer .default .standard).compile.imports,
            name ∉ Imports.boundBy line := by
  have success : (Compilation.mk .stdioServer .default .standard).compile.isSuccess = true := by decide +kernel
  obtain ⟨root, hr, hiff⟩ := compile_imports_name_iff success
  refine ⟨success, root, hr, fun name hname line hline hmem => ?_⟩
  exact absurd ((hiff _ _ _ hname).mp ⟨line, hline, hmem⟩).1 (by decide)

end Compilation

end AgentWorkflow

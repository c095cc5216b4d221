import AgentWorkflow.Proofs.Compile.Emissions
import AgentWorkflow.Proofs.Compile.ImportedNames

/-!
The names of tools.

Each custom tool of a program has one name, that of its function. Main statement: if no two custom tools define the
same function, the names of custom tools are distinct; only code that defines a function with a name that is imported,
or that the program has for itself, gives a tool such a name; and an agent lists two of its tools by one name exactly
if the code of one of them defines a function with the name of another one, which is of the tool library.
-/

namespace AgentWorkflow

/-- A program has a custom tool of a node by a name: it has a fragment of the node's that binds the name. -/
def Program.HasTool (p : Program) (t x : String) : Prop :=
  ∃ f ∈ p.fragments, f.kind = .customTool ∧ f.node = some t ∧ x ∈ Code.bindsAll f.code

instance (p : Program) (t x : String) : Decidable (p.HasTool t x) :=
  inferInstanceAs (Decidable (∃ f ∈ p.fragments, f.kind = .customTool ∧ f.node = some t ∧ x ∈ Code.bindsAll f.code))

/-- The names of the parts that programs have for themselves. -/
def Program.ownNames : List String :=
  ["main", Blueprint.workflowBuilder, Blueprint.workflowGraph]

theorem Graph.exists_customTool {g : Graph} {consumer : NodeKind → Bool} {t : String}
    (h : g.attaches NodeKind.isCustomTool consumer t = true) :
    ∃ n s, g.node? t = some n ∧ n.kind = .customTool s := by
  obtain ⟨⟨n, hn, hs⟩, -⟩ := Graph.attaches_iff.mp h
  cases hk : n.kind with
  | customTool s => exact ⟨n, s, hn, hk⟩
  | _ => simp [hk, NodeKind.isCustomTool] at hs

theorem List.two_le_count_map {α β : Type} [DecidableEq α] [DecidableEq β] {f : α → β} {l : List α} {a a' : α}
    (hne : a ≠ a') (ha : a ∈ l) (ha' : a' ∈ l) (h : f a' = f a) : 2 ≤ (l.map f).count (f a) := by
  have hrest : 0 < ((l.erase a).map f).count (f a) := by
    apply List.count_pos_iff.mpr
    rw [← h]
    exact List.mem_map_of_mem ((List.mem_erase_of_ne hne.symm).mpr ha')
  rw [((List.perm_cons_erase ha).map f).count_eq, List.map_cons, List.count_cons_self]
  omega

namespace Blueprint

variable {b : Blueprint} {g : Graph} {root : Option String} {n : Node} {t t' x : String}

theorem mem_bindsAll_customContent_iff :
    x ∈ Code.bindsAll (b.customContent t) ↔ (b.toolbox.get? t).isSome = true ∧ x = b.functionOf t := by
  unfold customContent functionOf
  cases b.toolbox.get? t with
  | none => simp [Code.bindsAll]
  | some custom =>
    rw [Option.bind_some]
    cases hf : custom.function with
    | none => simp [hf, placeholder, Code.bindsAll, Code.binds]
    | some function =>
      simp only [hf]
      split_ifs <;> simp [Code.bindsAll, Code.binds]

section Names

variable (hb : (g.index.blueprint root).Coherent) {s : CustomToolSettings} (hn : g.node? t = some n)
  (hk : n.kind = .customTool s)

include hb hn hk

theorem functionOf_cases : n.function? = some ((g.index.blueprint root).functionOf t) ∨
    (g.index.blueprint root).symbols.name? t .tool = some ((g.index.blueprint root).functionOf t) := by
  cases hf : n.function? with
  | some f => exact Or.inl (congrArg some (function?_reserved root hn hf).2.2.symm)
  | none =>
    rw [functionOf_of_none root hn hk hf]
    exact Or.inr (hb.name?_eq hn (by rw [hk]; rfl) .tool)

theorem functionOf_eq_iff {imports : Imports} (hsub : imports.builtins ⊆ Builtin.symbols)
    (hx : x ∈ Program.ownNames ∨ ∃ line ∈ imports.lines, x ∈ Imports.boundBy line) :
    x = (g.index.blueprint root).functionOf t ↔ n.function? = some x := by
  constructor
  · rintro rfl
    refine (functionOf_cases hb hn hk).resolve_right fun hname => ?_
    obtain ⟨hfree, hgraph, hbuilder⟩ := hb.name_free hname
    rcases hx with hx | ⟨line, hline, hx⟩
    · have hmain : "main" ∈ (g.index.blueprint root).toolbox.reservedNames :=
        List.mem_append_left _ (List.mem_append_left _ (by decide))
      simp only [Program.ownNames, List.mem_cons, List.not_mem_nil, or_false] at hx
      rcases hx with hx | hx | hx
      · exact hfree (hx ▸ hmain)
      · exact hbuilder hx
      · exact hgraph hx
    · exact absurd (hb.imported_name hsub hname hline hx).1 (by decide)
  · intro hf
    exact (function?_reserved root hn hf).2.2.symm

/-- Two custom tools have the same name only if the code of both defines a function of that name. -/
theorem functionOf_inj {m : Node} {s' : CustomToolSettings} (hm : g.node? t' = some m) (hkm : m.kind = .customTool s')
    (h : (g.index.blueprint root).functionOf t = (g.index.blueprint root).functionOf t') :
    t = t' ∨ ∃ f, n.function? = some f ∧ m.function? = some f := by
  rcases functionOf_cases hb hn hk with hf | hname <;> rcases functionOf_cases hb hm hkm with hf' | hname'
  · exact Or.inr ⟨_, hf, h ▸ hf'⟩
  · exact absurd (h ▸ (function?_reserved root hn hf).1) (hb.name_free hname').1
  · exact absurd (h ▸ (function?_reserved root hm hf').1) (hb.name_free hname).1
  · exact Or.inl (hb.name_inj hname (h ▸ hname')).1

end Names

section Program

variable {p : Program} {d : Draft} {l : Ledger}
  (hb : (g.index.blueprint root).Coherent)
  (ha : (g.index.blueprint root).Agenda ((g.index.blueprint root).runServers root)
    ((g.index.blueprint root).agenda root))
  (hacc : (g.index.blueprint root).Accounts root p d l)

theorem Accounts.mem_fragments_iff {f : Fragment} (hacc : b.Accounts root p d l) (hnode : f.node = some t) :
    f ∈ p.fragments ↔ ∃ q, (q, f) ∈ l ∧ q.place = .topLevel := by
  have hworkflow : f ∉ b.workflow root := by
    cases root with
    | some r => exact List.not_mem_nil
    | none =>
      intro hf
      obtain rfl := List.mem_singleton.mp hf
      cases hnode
  obtain ⟨prompt, hfr⟩ := hacc.fragments
  rw [hfr, fragmentsIn, List.mem_append, List.mem_append, Ledger.mem_fragmentsAt]
  constructor
  · rintro ((hf | hf) | hf)
    · exact hf
    · split_ifs at hf
      · exact absurd hf hworkflow
      · cases hf
    · obtain rfl := List.mem_singleton.mp hf
      cases hnode
  · exact fun hf => Or.inl (Or.inl hf)

include hb ha hacc

theorem hasTool_iff : p.HasTool t x ↔
    g.attaches NodeKind.isCustomTool NodeKind.hasAgent t = true ∧ x = (g.index.blueprint root).functionOf t := by
  rw [← customTool_mem_keys hb hacc]
  constructor
  · rintro ⟨f, hf, hkind, hnode, hx⟩
    obtain ⟨q, hq, hplace⟩ := (hacc.mem_fragments_iff hnode).mp hf
    obtain ⟨inside, rfl⟩ := hacc.sound.exists_inside hq
    have hdeclares : ((g.index.blueprint root).fragmentOf inside q).declares .customTool t = true := by
      simp [Fragment.declares, Part.kinds, hkind, hnode]
    obtain ⟨hid, hpart⟩ := (declares_fragmentOf inside).mp hdeclares
    obtain ⟨t, place, part⟩ := q
    dsimp only at hid hpart hplace
    subst hid hpart hplace
    exact ⟨Ledger.mem_keys_of_mem hq, (mem_bindsAll_customContent_iff.mp hx).2⟩
  · rintro ⟨hkey, rfl⟩
    obtain ⟨f, hf⟩ := Ledger.exists_of_mem_keys hkey
    obtain ⟨-, n, s, hn, hk⟩ := ((hacc.sound.demanded hkey).1.placed hb ha).custom rfl
    obtain ⟨custom, hc⟩ := hb.custom hn hk
    obtain ⟨inside, rfl⟩ := hacc.sound.exists_inside hf
    refine ⟨_, (hacc.mem_fragments_iff fragmentOf_node).mpr ⟨_, hf, rfl⟩, rfl, rfl, ?_⟩
    exact mem_bindsAll_customContent_iff.mpr ⟨by rw [hc]; rfl, rfl⟩

end Program

end Blueprint

namespace Compilation

variable {g : Graph} {options : Options}

/-- In a generated program no two custom tools have the same name if no warning says that they define the same
function. A tool has an imported name, or one that the program has for itself, only if its code defines a function of
that name, and an agent lists two tools by one name only if one is of the tool library and the other one's code defines
a function of its name. -/
theorem compile_tools_distinct (h : (Compilation.mk g options .standard).compile.isSuccess = true)
    (distinct : ∀ previous name f, (ToolNotice.redefined previous name f).message ∉
      (Compilation.mk g options .standard).compile.warnings) :
    ∃ p root, (Compilation.mk g options .standard).program? = some p ∧
      (Compilation.mk g options .standard).compile.sourceText = p.text ∧
      g.index.rootIn (g.index.effectiveMode options.mode) = .ok root ∧
      (∀ t, (∃ x, p.HasTool t x) ↔ g.attaches NodeKind.isCustomTool NodeKind.hasAgent t = true) ∧
      (∀ t t' x x', p.HasTool t x → p.HasTool t' x' → (t = t' ↔ x = x')) ∧
      (∀ t x, x ∈ Program.ownNames ∨
          (∃ line ∈ (Compilation.mk g options .standard).compile.imports, x ∈ Imports.boundBy line) →
        (p.HasTool t x ↔ g.attaches NodeKind.isCustomTool NodeKind.hasAgent t = true ∧
          (g.node? t).bind Node.function? = some x)) ∧
      ∀ e ∈ g.edges, g.verdict e = .role .toolAttachment →
        ∀ name tools, (g.index.blueprint root).symbols.name? e.target .agent = some name → (name, tools) ∈ p.equipped →
          ∃ entry ∈ tools, (g.index.blueprint root).listed? e.source = some entry ∧
            ((tools.map ToolEntry.expression).count entry.expression = 1 ↔
              ¬(.symbol entry.expression ∈ tools ∧ .function entry.expression ∈ tools)) := by
  obtain ⟨p, root, l, hp, htext, hr, hb, ha, hacc⟩ := exists_accounts h
  have hnotices := notices_subset_warnings h
  have hasTool {t x : String} := Blueprint.hasTool_iff (t := t) (x := x) hb ha hacc
  refine ⟨p, root, hp, htext, hr, fun t => ?_, fun t t' x x' hx hx' => ?_, fun t x hx => ?_, ?_⟩
  · simp only [hasTool, exists_and_left, exists_eq, and_true]
  · obtain ⟨hattached, rfl⟩ := hasTool.mp hx
    obtain ⟨hattached', rfl⟩ := hasTool.mp hx'
    refine ⟨fun ht => ht ▸ rfl, fun hname => ?_⟩
    obtain ⟨n, s, hn, hk⟩ := Graph.exists_customTool hattached
    obtain ⟨m, s', hm, hk'⟩ := Graph.exists_customTool hattached'
    rcases Blueprint.functionOf_inj hb hn hk hm hk' hname with ht | ⟨f, hf, hf'⟩
    · exact ht
    · by_contra hne
      have hnm : n ≠ m := fun he => hne ((Graph.mem_of_node? hn).2.symm.trans (he ▸ (Graph.mem_of_node? hm).2))
      obtain ⟨previous, name, hr, -⟩ :=
        Toolbox.exists_redefined hnm (Graph.mem_of_node? hn).1 (Graph.mem_of_node? hm).1 hf hf'
      exact distinct previous name f (hnotices (List.mem_map_of_mem hr))
  · rw [hasTool]
    refine and_congr_right fun hattached => ?_
    obtain ⟨n, s, hn, hk⟩ := Graph.exists_customTool hattached
    rw [hn, Option.bind_some]
    exact Blueprint.functionOf_eq_iff hb hn hk (builtins_subset hp) (imports_eq hp ▸ hx)
  · intro e he hv name tools hname htools
    have ht : e.source ∈ g.index.tools e.target := Index.mem_tools_iff_edge.mpr ⟨e, he, hv, rfl, rfl⟩
    obtain ⟨n, hn, hex⟩ := (Index.kinds_of_mem_tools ht).2
    have howned := Blueprint.isOwned_of_executable hb.acyclic root (Index.mem_executables_of_node? hn hex)
    have hneeds := Blueprint.needsSymbol_of_isExecutable hex
    obtain rfl := Option.some.inj (hname.symm.trans (hb.name?_eq hn hneeds .agent))
    obtain ⟨hk, rfl⟩ := (hacc.mem_equipped hb ha hn hex howned tools).mp htools
    have hall := hacc.hasTools howned (by rwa [Blueprint.kindOf_eq (b := g.index.blueprint root) hn])
    obtain ⟨t, entry, -, hlisted, hentry, hcount⟩ :=
      (Blueprint.equips_toolEntries hb hall hnotices).complete e he hv rfl
    refine ⟨entry, hentry, hlisted, fun hone hboth => ?_, fun hnot => ?_⟩
    · have htwo := List.two_le_count_map (f := ToolEntry.expression) (by simp) hboth.1 hboth.2 rfl
      rw [ToolEntry.expression, hone] at htwo
      omega
    · refine hcount.resolve_right ?_
      rintro (⟨previous, name, hr, -⟩ | hboth)
      · exact distinct _ _ _ hr
      · exact hnot hboth

end Compilation

/-- A custom tool that adds numbers by a function of some name. -/
def Node.adder (id label function : String) : Node :=
  ⟨id, label, .customTool { CustomToolSettings.default with code := "def " ++ function ++ "(a, b):\n    return a + b" }⟩

theorem ToolNotice.message_redefined_ne {previous name function label : String} :
    (ToolNotice.redefined previous name function).message ≠ (ToolNotice.noFunction label).message := by
  intro h
  unfold message at h
  dsimp only at h
  have hchars := congrArg (fun s => s.toList.take 12) h
  simp only [String.toList_append, List.append_assoc] at hchars
  rw [List.take_append_of_le_length (by decide), List.take_append_of_le_length (by decide)] at hchars
  exact absurd hchars (by decide)

namespace Compilation

/-- A custom tool that defines the function of another tool of the same agent is not told from it. -/
theorem calculator_defined_twice :
    let g := Graph.desk [⟨"c", "calculator", .builtinTool ⟨"calculator"⟩⟩, .adder "s" "Sum" "calculator"]
    (Compilation.ofGraph g).validate.valid = true ∧
      (Compilation.ofGraph g).compile.isSuccess = true ∧
      (Compilation.ofGraph g).compile.warnings = [] ∧
      (Compilation.ofGraph g).program?.any (fun p => p.HasTool "s" "calculator") = true ∧
      (∃ line ∈ (Compilation.ofGraph g).compile.imports, "calculator" ∈ Imports.boundBy line) ∧
      (Compilation.ofGraph g).program?.map Program.equipped =
        some [("writer_agent", [.symbol "calculator", .function "calculator"])] := by
  decide +kernel

/-- A placeholder is told from the tool of the library that its label spells, and from a tool beside it. -/
theorem loader_without_code_distinct :
    let g := Graph.desk [⟨"c", "calculator", .builtinTool ⟨"calculator"⟩⟩,
      ⟨"p", "load", .customTool .default⟩, .adder "s" "Sum" "add"]
    (Compilation.mk g .default .standard).compile.isSuccess = true ∧
      (∀ previous name f, (ToolNotice.redefined previous name f).message ∉
        (Compilation.mk g .default .standard).compile.warnings) ∧
      ∃ p, (Compilation.mk g .default .standard).program? = some p ∧ ∃ x, p.HasTool "p" x ∧ ¬p.HasTool "s" x ∧
        x ∉ Program.ownNames ∧
        ∀ line ∈ (Compilation.mk g .default .standard).compile.imports, x ∉ Imports.boundBy line := by
  intro g
  have success : (Compilation.mk g .default .standard).compile.isSuccess = true := by decide +kernel
  have warnings : (Compilation.mk g .default .standard).compile.warnings =
      [(ToolNotice.noFunction "load").message] := by decide +kernel
  have attached : g.attaches NodeKind.isCustomTool NodeKind.hasAgent "p" = true := by decide
  have undefined : (g.node? "p").bind Node.function? = none := by decide +kernel
  have distinct (previous name f : String) : (ToolNotice.redefined previous name f).message ∉
      (Compilation.mk g .default .standard).compile.warnings := by
    rw [warnings, List.mem_singleton]
    exact ToolNotice.message_redefined_ne
  obtain ⟨p, root, hp, -, -, htools, hinj, hnames, -⟩ := compile_tools_distinct success distinct
  obtain ⟨x, hx⟩ := (htools "p").mpr attached
  have hfree := mt fun h => ((hnames "p" x h).mp hx).2
  rw [undefined] at hfree
  obtain ⟨hown, himported⟩ := not_or.mp (hfree (by simp))
  refine ⟨success, distinct, p, hp, x, hx, fun hs => ?_, hown, fun line hline hbound => ?_⟩
  · exact absurd ((hinj "p" "s" x x hx hs).mpr rfl) (by decide)
  · exact himported ⟨line, hline, hbound⟩

end Compilation

end AgentWorkflow

import AgentWorkflow.Proofs.Compile.EntryPoints
import AgentWorkflow.Proofs.Compile.RootSelection

/-!
Where the fallback prompt of a program comes from.

The entry function stands last in a program, so the prompt that it falls back to can be read off. Main statement: in
linear mode this prompt is one that an input of the root, or of a node below the root by way of first parents, supplies.
If these are all members of the root, no input of the root is passed over.
-/

namespace AgentWorkflow

open Relation Drafting

/-- The only line of a block that runs when no condition holds. -/
def Code.elseLine? : Code → Option String
  | .plain (.block header [.line text]) => if header = "else" then some text else none
  | _ => none

/-- The line of an entry function that sets the prompt when its caller gives none. -/
def Code.fallback? : Code → Option String
  | .main body => body.findSome? elseLine?
  | _ => none

/-- The line of a program that sets the prompt when its caller gives none. -/
def Program.fallback? (p : Program) : Option String :=
  p.code.reverse.findSome? Code.fallback?

namespace Fragment

variable {fragments : List Fragment} {f : Fragment}

theorem arrange_concat (h : f.kind = .entry) : arrange (fragments ++ [f]) = arrange fragments ++ [f] := by
  simp [arrange, FragmentKind.all, List.filter_append, h]

theorem exists_layout_concat (h : f.kind = .entry) : ∃ before, layout (fragments ++ [f]) = before ++ f.code := by
  rw [layout, arrange_concat h, List.foldl_append, List.foldl_cons, List.foldl_nil, joinBlank]
  split_ifs
  · exact ⟨[], rfl⟩
  · exact ⟨_ ++ [.blank], by rw [List.append_assoc]; rfl⟩

end Fragment

theorem Program.fallback?_of_entry {p : Program} {fragments : List Fragment} {e : Entry}
    (h : p.fragments = fragments ++ [e.fragment]) :
    p.fallback? = some ("prompt = " ++ Literal.text e.prompt) := by
  obtain ⟨before, hlayout⟩ := @Fragment.exists_layout_concat fragments e.fragment rfl
  have hmain : e.fragment.code.reverse.findSome? Code.fallback? = some ("prompt = " ++ Literal.text e.prompt) := rfl
  rw [fallback?, code, h, hlayout, ← List.cons_append, ← List.append_assoc, List.reverse_append,
    List.findSome?_append, hmain]
  rfl

namespace Graph

/-- An input that feeds a node has content by default that is not blank; trimmed, it is the prompt. -/
def Prompts (g : Graph) (id prompt : String) : Prop :=
  ∃ i n settings content, g.Connects .inputFeed i id ∧ g.node? i = some n ∧ n.kind = .input settings ∧
    settings.defaultContent = some content ∧ Text.isBlankText content = false ∧ Text.trim content = prompt

/-- A prompt is one that the inputs of some nodes supply, or the default one if they supply none. -/
def IsFallback (g : Graph) (nodes : String → Prop) (default prompt : String) : Prop :=
  (∃ id, nodes id ∧ g.Prompts id prompt) ∨ (∀ id other, nodes id → ¬g.Prompts id other) ∧ prompt = default

end Graph

namespace Text

theorem all_dropWhile {p : Char → Bool} (cs : List Char) : (cs.dropWhile p).all p = cs.all p := by
  conv_rhs => rw [← List.takeWhile_append_dropWhile (p := p) (l := cs), List.all_append, List.all_takeWhile, Bool.true_and]

theorem isBlankText_trim (s : String) : isBlankText (trim s) = isBlankText s := by
  rw [isBlankText, isBlankText, trim, String.toList_ofList, dropEnds, dropTail, List.all_reverse, all_dropWhile,
    List.all_reverse, all_dropWhile]

theorem trimmed?_eq_some {s t : String} : trimmed? s = some t ↔ isBlankText s = false ∧ trim s = t := by
  rw [trimmed?, nonBlank?, isBlankText_trim]
  cases isBlankText s <;> simp

end Text

namespace Index

variable {g : Graph} {i r prompt : String}

theorem defaultContent?_eq_some : g.index.defaultContent? i = some prompt ↔
    ∃ n settings content, g.node? i = some n ∧ n.kind = .input settings ∧ settings.defaultContent = some content ∧
      Text.isBlankText content = false ∧ Text.trim content = prompt := by
  unfold defaultContent?
  rw [Option.bind_eq_bind, Option.bind_eq_some_iff]
  refine exists_congr fun n => ?_
  cases n.kind with
  | input settings => simp [Option.bind_eq_some_iff, Text.trimmed?_eq_some, Graph.index, node?]
  | _ => simp

theorem isFallback_suppliedPrompt? {ids : List String} {nodes : String → Prop} (hn : ∀ id, id ∈ ids ↔ nodes id)
    (default : String) : g.IsFallback nodes default ((g.index.suppliedPrompt? ids).getD default) := by
  cases hs : g.index.suppliedPrompt? ids with
  | some prompt =>
    obtain ⟨i, hi, hcontent⟩ := List.exists_of_findSome?_eq_some hs
    obtain ⟨id, hid, hfeed⟩ := List.mem_flatMap.mp hi
    obtain ⟨n, settings, content, hsupplied⟩ := defaultContent?_eq_some.mp hcontent
    exact Or.inl ⟨id, (hn id).mp hid, i, n, settings, content, mem_sources_iff.mp hfeed, hsupplied⟩
  | none =>
    refine Or.inr ⟨?_, rfl⟩
    rintro id other hid ⟨i, n, settings, content, hfeed, hsupplied⟩
    have hnone := List.findSome?_eq_none_iff.mp hs i
      (List.mem_flatMap.mpr ⟨id, (hn id).mpr hid, mem_sources_iff.mpr hfeed⟩)
    rw [defaultContent?_eq_some.mpr ⟨n, settings, content, hsupplied⟩] at hnone
    cases hnone

theorem mem_prompters (hac : g.index.IsAcyclic) (hr : r ∈ g.index.topLevel) (id : String) :
    id ∈ r :: g.index.composedBy r ↔ ReflTransGen g.index.HasFirstParent id r := by
  have htop : g.index.isMember r = false := isMember_eq_false.mpr (mem_topLevel.mp hr).2
  rw [List.mem_cons, composedBy, List.mem_filter, beq_iff_eq, outermost?_eq_some_iff hac]
  constructor
  · rintro (rfl | ⟨-, hup, -⟩)
    · exact .refl
    · exact hup.to_reflTransGen
  · intro h
    rcases reflTransGen_iff_eq_or_transGen.mp h with rfl | hup
    · exact Or.inl rfl
    · obtain ⟨p, hp, -⟩ := TransGen.head'_iff.mp hup
      obtain ⟨n, hn, hk⟩ := (kinds_of_mem_members hp.hasMember).2
      exact Or.inr ⟨mem_executables_of_node? hn hk, hup, htop⟩

/-- First parents lead to a node from all its members if none of these is a member of two nodes. -/
theorem reflTransGen_hasFirstParent_iff (hsole : ∀ m, TransGen (g.Connects .membership) r m →
      ∀ p q, g.Connects .membership p m → g.Connects .membership q m → p = q) {id : String} :
    ReflTransGen g.index.HasFirstParent id r ↔ ReflTransGen (g.Connects .membership) r id := by
  constructor
  · intro h
    exact reflTransGen_swap.mp (ReflTransGen.mono (hasFirstParent_le g) _ _ h)
  · intro h
    induction h with
    | refl => exact .refl
    | @tail p m hp hm ih =>
      have hparent : p ∈ g.index.parents m := mem_sources_iff.mpr hm
      obtain ⟨q, hq⟩ := Option.isSome_iff_exists.mp (List.isSome_head?.mpr (List.ne_nil_of_mem hparent))
      obtain rfl := hsole m (.tail' hp hm) p q hm (hasFirstParent_le g m q hq)
      exact .head hq ih

end Index

namespace Blueprint

variable {b : Blueprint}

theorem program_fallback? (options : Options) (run : Run) (d : Draft) : (b.program options run).Leaves d
    (fun p _ => p.fallback? = some ("prompt = " ++
      Literal.text ((b.index.suppliedPrompt? run.prompters).getD options.defaultPrompt))) fun _ => True := by
  rw [program_eq]
  refine leaves_skip fun clients d => leaves_skip fun inside d => leaves_skip fun left d => ?_
  cases left.leftover? with
  | some place => trivial
  | none =>
    refine leaves_skip fun fragments _ => leaves_skip fun last _ => ?_
    have hentry : Program.fallback? ⟨options.header, last.imports, fragments ++ [Entry.fragment ⟨run.name, run.execution,
        (b.index.suppliedPrompt? run.prompters).getD options.defaultPrompt, clients, inside⟩]⟩ = _ :=
      Program.fallback?_of_entry rfl
    exact hentry

end Blueprint

namespace Compilation

variable {c : Compilation} {r : String}

theorem generate_fallback? (hr : c.graph.index.rootIn (c.graph.index.effectiveMode c.options.mode) = .ok (some r)) :
    (c.graph.index.generate c.options c.expanders).Leaves .empty
      (fun gen _ => gen.root = r ∧ gen.program.fallback? = some ("prompt = " ++ Literal.text
        ((c.graph.index.suppliedPrompt? (r :: c.graph.index.composedBy r)).getD c.options.defaultPrompt)))
      fun _ => True := by
  rw [Index.generate_eq hr]
  apply leaves_bind.mpr
  refine (Blueprint.run_shape _ (some r) _).mono (fun run d hrun => ?_) fun _ h => h
  apply leaves_bind.mpr
  refine (Blueprint.program_fallback? c.options run d).mono (fun p d' hp => ?_) fun _ h => h
  rw [hrun.2] at hp
  exact ⟨rfl, hp⟩

/-- In linear mode the prompt that a program falls back to is supplied by an input of the root, or of a node from which
first parents lead to the root, and it is that of the options only if they supply none. These nodes are all members of
the root if none of the members has two compositions. -/
theorem compile_fallback_supplied (h : c.compile.isSuccess = true) (hm : c.compile.mode = some .linear) :
    ∃ r p prompt, c.compile.executionRoot = some r ∧ c.program? = some p ∧ c.compile.sourceText = p.text ∧
      p.fallback? = some ("prompt = " ++ Literal.text prompt) ∧
      c.graph.IsFallback (fun id => ReflTransGen c.graph.index.HasFirstParent id r) c.options.defaultPrompt prompt ∧
      ((∀ m, TransGen (c.graph.Connects .membership) r m →
          ∀ p q, c.graph.Connects .membership p m → c.graph.Connects .membership q m → p = q) →
        c.graph.IsFallback (fun id => ReflTransGen (c.graph.Connects .membership) r id) c.options.defaultPrompt
          prompt) := by
  have hlinear : c.graph.index.effectiveMode c.options.mode = .linear := Option.some.inj ((compile_mode h).symm.trans hm)
  obtain ⟨p, hp, htext⟩ := exists_program h
  obtain ⟨hv, gen, d, hg, rfl⟩ := exists_generated hp
  obtain ⟨root, hroot, htop⟩ := Index.rootIn_of_valid hv (c.graph.index.effectiveMode c.options.mode)
  cases root with
  | none =>
    have hgraph := (Index.root_eq_none_iff hroot).mp rfl
    rw [hlinear] at hgraph
    cases hgraph
  | some r =>
    obtain ⟨hgen, hfallback⟩ := (generate_fallback? hroot).of_run hg
    have hprompters := Index.mem_prompters (Index.isAcyclic hv) (htop r rfl)
    refine ⟨r, gen.program, _, ?_, hp, htext, hfallback, Index.isFallback_suppliedPrompt? hprompters _, fun hsole => ?_⟩
    · rw [compile_of_generate hg hv, ← hgen]
      rfl
    · exact Index.isFallback_suppliedPrompt?
        (fun id => (hprompters id).trans (Index.reflTransGen_hasFirstParent_iff hsole)) _

end Compilation

/-- An input with nothing to say feeds a lead, and one with content feeds a writer that some orchestrators have for a
member. A planner is declared before the lead. -/
def Graph.newsroom (composers : List String) : Graph where
  nodes := [⟨"in", "Greeting", .input .default⟩,
    ⟨"news", "News", .input { InputSettings.default with defaultContent := some "Summarise the news" }⟩,
    ⟨"p", "Planner", .orchestrator .default⟩, ⟨"r", "Lead", .orchestrator .default⟩,
    ⟨"m", "Writer", .agent .default⟩, ⟨"out", "Result", .output .default⟩]
  edges := [⟨"in", .output, "r", .userInput⟩, ⟨"news", .output, "m", .userInput⟩, ⟨"r", .output, "out", .input⟩] ++
    composers.map fun id => ⟨id, .subAgents, "m", .orchestratorInput⟩

theorem Graph.newsroom_prompts {composers : List String} {id prompt : String}
    (h : (newsroom composers).Prompts id prompt) : prompt = "Summarise the news" := by
  obtain ⟨i, n, settings, content, -, hn, hk, hc, -, rfl⟩ := h
  have hmem : n ∈ (newsroom composers).nodes := (Graph.mem_of_node? hn).1
  simp only [newsroom, List.mem_cons, List.not_mem_nil, or_false] at hmem
  rcases hmem with rfl | rfl | rfl | rfl | rfl | rfl
  · cases hk
    cases hc
  · cases hk
    cases hc
    decide
  all_goals cases hk

theorem Graph.newsroom_composes {composers : List String} (h : "r" ∈ composers) :
    (newsroom composers).Connects .membership "r" "m" :=
  ⟨⟨"r", .subAgents, "m", .orchestratorInput⟩, by simp [newsroom, h], rfl, rfl, rfl⟩

theorem Graph.newsroom_prompts_writer (composers : List String) :
    (newsroom composers).Prompts "m" "Summarise the news" :=
  ⟨"news", _, _, _, ⟨⟨"news", .output, "m", .userInput⟩, by simp [newsroom], rfl, rfl, rfl⟩, rfl, rfl, rfl,
    by decide, by decide⟩

namespace Compilation

/-- The lead alone has the writer for a member, so the prompt of the writer's input is taken. -/
theorem newsroom_fallback_supplied :
    let c := ofGraph (.newsroom ["r"])
    c.compile.isSuccess = true ∧ c.compile.mode = some .linear ∧ c.compile.executionRoot = some "r" ∧
      (∀ m, TransGen (c.graph.Connects .membership) "r" m →
        ∀ p q, c.graph.Connects .membership p m → c.graph.Connects .membership q m → p = q) ∧
      ∃ p, c.program? = some p ∧ c.compile.sourceText = p.text ∧
        p.fallback? = some ("prompt = " ++ Literal.text "Summarise the news") := by
  intro c
  have success : c.compile.isSuccess = true ∧ c.compile.mode = some .linear ∧
      c.compile.executionRoot = some "r" := by decide +kernel
  obtain ⟨r, p, prompt, hr, hp, htext, hfallback, -, hsupplied⟩ := compile_fallback_supplied success.1 success.2.1
  obtain rfl := Option.some.inj (success.2.2.symm.trans hr)
  have composer {p m : String} (h : c.graph.Connects .membership p m) : p = "r" := by
    have hlinks : ∀ l ∈ c.graph.index.links, l.role = .membership → l.source = "r" := by decide
    exact hlinks ⟨p, m, .membership⟩ (Graph.mem_links.mpr h) rfl
  have sole : ∀ m, TransGen (c.graph.Connects .membership) "r" m →
      ∀ p q, c.graph.Connects .membership p m → c.graph.Connects .membership q m → p = q :=
    fun m _ p q hp hq => (composer hp).trans (composer hq).symm
  refine ⟨success.1, success.2.1, success.2.2, sole, p, hp, htext, ?_⟩
  rcases hsupplied sole with ⟨id, -, hprompt⟩ | ⟨hnone, -⟩
  · rw [hfallback, Graph.newsroom_prompts hprompt]
  · exact absurd (Graph.newsroom_prompts_writer ["r"]) (hnone "m" _ (.single (Graph.newsroom_composes (by simp))))

-- When the lead comes before the planner, the prompt is taken.
example : ((ofGraph (.newsroom ["r", "p"])).program?.bind Program.fallback?) =
    some ("prompt = " ++ Literal.text "Summarise the news") := by
  decide +kernel

/-- When a planner has the writer for a member before the lead does, first parents lead from the writer to the planner
only. Then the program of the lead falls back to the default prompt, although an input supplies one to a member of the
lead. -/
theorem newsroom_fallback_passed_over :
    let c := ofGraph (.newsroom ["p", "r"])
    c.validate.valid = true ∧ c.compile.isSuccess = true ∧ c.compile.mode = some .linear ∧
      c.compile.executionRoot = some "r" ∧ TransGen (c.graph.Connects .membership) "r" "m" ∧
      c.graph.Prompts "m" "Summarise the news" ∧
      c.program?.bind Program.fallback? = some ("prompt = " ++ Literal.text c.options.defaultPrompt) ∧
      ∀ id prompt, c.graph.Prompts id prompt →
        c.program?.bind Program.fallback? ≠ some ("prompt = " ++ Literal.text prompt) := by
  intro c
  have success : c.validate.valid = true ∧ c.compile.isSuccess = true ∧ c.compile.mode = some .linear ∧
      c.compile.executionRoot = some "r" := by decide +kernel
  have fallback : c.program?.bind Program.fallback? = some ("prompt = " ++ Literal.text c.options.defaultPrompt) := by
    decide +kernel
  refine ⟨success.1, success.2.1, success.2.2.1, success.2.2.2, .single (Graph.newsroom_composes (by simp)),
    Graph.newsroom_prompts_writer ["p", "r"], fallback, fun id prompt hprompt => ?_⟩
  rw [Graph.newsroom_prompts hprompt, fallback]
  decide +kernel

end Compilation

end AgentWorkflow

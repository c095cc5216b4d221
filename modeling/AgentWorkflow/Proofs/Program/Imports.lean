import AgentWorkflow.Tools.Toolbox
import AgentWorkflow.Program.Imports
import Mathlib

/-!
What an import block binds.

A line of the block binds the words after its word `import`. Main statements: beside names that are reserved,
the block binds the classes of models and what transports need; and it binds a name of a feature if a feature that
has the name is in use.
-/

namespace AgentWorkflow.Imports

/-- The names that a line of an import block binds. -/
def boundBy (line : String) : List String :=
  ((((line.toList.filter (· ≠ ',')).splitOn ' ').dropWhile (· ≠ "import".toList)).drop 1).map .ofList

def isWord (s : String) : Bool :=
  s.toList.all fun c => c ≠ ' ' ∧ c ≠ ','

def modelClass : Provider → String
  | .bedrock => "BedrockModel"
  | .anthropic => "AnthropicModel"
  | .ollama => "OllamaModel"
  | .openAi => "OpenAIModel"

def opener : Transport → String
  | .stdio => "stdio_client"
  | .sse => "sse_client"
  | .streamableHttp => "streamablehttp_client"

theorem filter_word {s : String} (h : isWord s = true) : s.toList.filter (· ≠ ',') = s.toList := by
  refine List.filter_eq_self.mpr fun c hc => ?_
  have hword := List.all_eq_true.mp h c hc
  simp only [decide_eq_true_eq] at hword ⊢
  exact hword.2

theorem space_not_mem_word {s : String} (h : isWord s = true) : ' ' ∉ s.toList := by
  intro hc
  have hword := List.all_eq_true.mp h ' ' hc
  simp at hword

theorem filter_intercalate {names : List String} (h : ∀ n ∈ names, isWord n = true) :
    (", ".intercalate names).toList.filter (· ≠ ',') = [' '].intercalate (names.map String.toList) := by
  rw [String.toList_intercalate]
  induction names with
  | nil => rfl
  | cons n rest ih =>
    obtain ⟨hn, hrest⟩ := List.forall_mem_cons.mp h
    cases rest with
    | nil => simpa using filter_word hn
    | cons m rest =>
      have htail := ih hrest
      simp only [List.map_cons] at htail ⊢
      rw [List.intercalate_cons_cons, List.intercalate_cons_cons, List.filter_append, List.filter_append,
        htail, filter_word hn]
      rfl

theorem boundBy_importFrom {module line : String} {names : List String} (hm : isWord module = true)
    (hne : module ≠ "import") (hn : ∀ n ∈ names, isWord n = true) (h : line ∈ importFrom module names) :
    boundBy line = names := by
  unfold importFrom at h
  split_ifs at h with he
  · cases h
  obtain ⟨n, rest, rfl⟩ := List.exists_cons_of_ne_nil (by simpa using he : names ≠ [])
  obtain rfl := List.mem_singleton.mp h
  -- Without its commas the line is its words with single spaces between them.
  let words := "from".toList :: module.toList :: "import".toList :: (n :: rest).map String.toList
  have htext : ("from " ++ module ++ " import " ++ ", ".intercalate (n :: rest)).toList.filter (· ≠ ',') =
      [' '].intercalate words := by
    have hfrom : "from ".toList.filter (· ≠ ',') = "from".toList ++ [' '] := rfl
    have himport : " import ".toList.filter (· ≠ ',') = [' '] ++ "import".toList ++ [' '] := rfl
    simp only [String.toList_append, List.filter_append, filter_word hm, filter_intercalate hn, words,
      List.map_cons, List.intercalate_cons_cons, hfrom, himport, List.append_assoc]
  have hwords : ∀ w ∈ words, ' ' ∉ w := by
    simp only [words, List.mem_cons, List.mem_map]
    rintro w (rfl | rfl | rfl | ⟨s, hs, rfl⟩)
    · decide
    · exact space_not_mem_word hm
    · decide
    · exact space_not_mem_word (hn s (List.mem_cons.mpr hs))
  have hmodule : module.toList ≠ "import".toList := fun he => hne (String.toList_inj.mp he)
  rw [boundBy, htext, List.splitOn_intercalate ' ' hwords (List.cons_ne_nil _ _),
    List.dropWhile_cons_of_pos (by decide), List.dropWhile_cons_of_pos (by exact decide_eq_true hmodule),
    List.dropWhile_cons_of_neg (by decide), List.drop_one, List.tail_cons, List.map_map]
  simp

theorem boundBy_modelLine (p : Provider) : boundBy (modelLine p) = [modelClass p] := by
  cases p <;> rfl

theorem opener_mem_boundBy (t : Transport) : opener t ∈ boundBy (transportLine t) := by
  cases t <;> decide

theorem mem_boundBy_transportLine {t : Transport} {name : String} (h : name ∈ boundBy (transportLine t)) :
    name = opener t ∨ name = "StdioServerParameters" := by
  cases t with
  | stdio => exact (List.mem_pair.mp (show name ∈ ["StdioServerParameters", "stdio_client"] from h)).symm
  | sse => exact Or.inl (List.mem_singleton.mp (show name ∈ ["sse_client"] from h))
  | streamableHttp => exact Or.inl (List.mem_singleton.mp (show name ∈ ["streamablehttp_client"] from h))

variable {imports : Imports} {line name : String}

theorem mem_features_useAll {f : Feature} {fs : List Feature} :
    f ∈ (imports.useAll fs).features ↔ f ∈ imports.features ∨ f ∈ fs := by
  induction fs generalizing imports with
  | nil => simp [useAll]
  | cons f' fs ih =>
    change f ∈ ((imports.use f').useAll fs).features ↔ _
    have huse : f ∈ (imports.use f').features ↔ f ∈ imports.features ∨ f = f' := by
      unfold use
      split_ifs with hc
      · have := List.contains_iff_mem.mp hc
        grind
      · simp
    rw [ih, huse, List.mem_cons, or_assoc]

theorem mem_insertSymbol {s symbol : String} {symbols : List String} :
    s ∈ insertSymbol symbol symbols ↔ s = symbol ∨ s ∈ symbols := by
  induction symbols with
  | nil => simp [insertSymbol]
  | cons t rest ih =>
    unfold insertSymbol
    split_ifs with he
    · simp [he]
    · simp
    · rw [List.mem_cons, ih, List.mem_cons, or_left_comm]

theorem mem_builtins {s : String} : s ∈ imports.builtins ↔ .builtin s ∈ imports.features := by
  unfold builtins
  induction imports.features with
  | nil => simp
  | cons f rest ih =>
    rw [List.foldr_cons, List.mem_cons]
    split
    · rw [mem_insertSymbol, ih, Feature.builtin.injEq]
    · rename_i hf
      rw [ih, or_iff_right]
      rintro rfl
      exact hf s rfl

theorem mem_fixed_of_importFrom {module : String} {fs : List (String × Feature)}
    (hm : isWord module = true ∧ module ≠ "import") (hw : ∀ n ∈ fs.map Prod.fst, isWord n = true)
    (hl : line ∈ importFrom module (imports.names fs)) (h : name ∈ boundBy line) : name ∈ fs.map Prod.fst := by
  have hsub : imports.names fs ⊆ fs.map Prod.fst := (List.filter_sublist.map Prod.fst).subset
  rw [boundBy_importFrom hm.1 hm.2 (fun n hn => hw n (hsub hn)) hl] at h
  exact hsub h

/-- What the lines of an import block bind: names that a program binds itself, symbols of the tool library,
classes of models, and what transports need. -/
theorem mem_boundBy_lines (hb : imports.builtins ⊆ Builtin.symbols) (hl : line ∈ imports.lines)
    (h : name ∈ boundBy line) :
    name ∈ Toolbox.programNames ∨ name ∈ Builtin.symbols ∨ (∃ p, name = modelClass p) ∨
      name = "StdioServerParameters" ∨ ∃ t, name = opener t ∧ transportLine t ∈ imports.lines := by
  have hlines := hl
  simp only [lines, List.mem_append, or_assoc] at hl
  -- One case for each group of lines, in the order of the block.
  rcases hl with hl | hl | hl | hl | hl | hl | hl | hl
  · have hall : ∀ l ∈ ["import argparse", "import asyncio", "import json"],
        ∀ n ∈ boundBy l, n ∈ Toolbox.programNames := by decide
    exact Or.inl (hall line hl name h)
  · have hos : ∀ n ∈ boundBy "import os", n ∈ Toolbox.programNames := by decide
    split_ifs at hl
    · obtain rfl := List.mem_singleton.mp hl
      exact Or.inl (hos name h)
    · cases hl
  · have hall : ∀ n ∈ ["Agent", "tool"], n ∈ Toolbox.programNames := by decide
    exact Or.inl (hall name (mem_fixed_of_importFrom (by decide) (by decide) hl h))
  · obtain ⟨p, -, rfl⟩ := List.mem_map.mp hl
    rw [boundBy_modelLine] at h
    exact Or.inr (Or.inr (Or.inl ⟨p, List.mem_singleton.mp h⟩))
  · have hall : ∀ n ∈ ["GraphBuilder", "Swarm"], n ∈ Toolbox.programNames := by decide
    exact Or.inl (hall name (mem_fixed_of_importFrom (by decide) (by decide) hl h))
  · have hclient : ∀ n ∈ boundBy "from strands.tools.mcp import MCPClient", n ∈ Toolbox.programNames := by
      decide
    split_ifs at hl
    · obtain rfl := List.mem_singleton.mp hl
      exact Or.inl (hclient name h)
    · cases hl
  · have library : ∀ s ∈ Builtin.symbols, isWord s = true := by decide
    rw [boundBy_importFrom (by decide) (by decide) (fun n hn => library n (hb hn)) hl] at h
    exact Or.inr (Or.inl (hb h))
  · obtain ⟨t, -, rfl⟩ := List.mem_map.mp hl
    rcases mem_boundBy_transportLine h with hn | hn
    · exact Or.inr (Or.inr (Or.inr (Or.inr ⟨t, hn, hlines⟩)))
    · exact Or.inr (Or.inr (Or.inr (Or.inl hn)))

end AgentWorkflow.Imports

namespace AgentWorkflow

/-- The names that are imported for a feature. -/
def Feature.names : Feature → List String
  | .os => ["os"]
  | .agent => ["Agent"]
  | .tool => ["tool"]
  | .swarm => ["Swarm"]
  | .graphBuilder => ["GraphBuilder"]
  | .client => ["MCPClient"]
  | .model p => [Imports.modelClass p]
  | .transport .stdio => ["StdioServerParameters", "stdio_client"]
  | .transport t => [Imports.opener t]
  | .builtin symbol => [symbol]

namespace Imports

variable {imports : Imports} {name : String}

/-- The names that an import block binds only if a feature is in use. -/
def optional : List String :=
  ([.os, .agent, .tool, .swarm, .graphBuilder, .client, .model .bedrock, .model .anthropic, .model .ollama,
    .model .openAi, .transport .stdio, .transport .sse, .transport .streamableHttp] : List Feature).flatMap
      Feature.names ++ Builtin.symbols

theorem has_iff {f : Feature} : imports.has f = true ↔ f ∈ imports.features :=
  List.contains_iff_mem

theorem boundBy_transportLine (t : Transport) : boundBy (transportLine t) = (Feature.transport t).names := by
  cases t <;> rfl

theorem bound_if {line : String} {f : Feature} (hb : boundBy line = f.names) :
    (∃ l ∈ (if imports.has f then [line] else []), name ∈ boundBy l) ↔ f ∈ imports.features ∧ name ∈ f.names := by
  by_cases hf : imports.has f = true
  · simp [hf, hb, has_iff.mp hf]
  · simp [hf, mt has_iff.mpr hf]

theorem bound_importFrom {module : String} {names : List String} (hm : isWord module = true ∧ module ≠ "import")
    (hw : ∀ n ∈ names, isWord n = true) : (∃ l ∈ importFrom module names, name ∈ boundBy l) ↔ name ∈ names := by
  constructor
  · rintro ⟨l, hl, hn⟩
    rwa [boundBy_importFrom hm.1 hm.2 hw hl] at hn
  · intro hn
    have hmem : ("from " ++ module ++ " import " ++ ", ".intercalate names) ∈ importFrom module names := by
      rw [importFrom, if_neg (by simpa using List.ne_nil_of_mem hn)]
      exact List.mem_singleton_self _
    refine ⟨_, hmem, ?_⟩
    rwa [boundBy_importFrom hm.1 hm.2 hw hmem]

theorem mem_names {fs : List (String × Feature)} :
    name ∈ imports.names fs ↔ ∃ f ∈ imports.features, (name, f) ∈ fs := by
  simp only [names, List.mem_map, List.mem_filter, Prod.exists, exists_and_right, exists_eq_right, has_iff]
  exact ⟨fun ⟨f, hm, hf⟩ => ⟨f, hf, hm⟩, fun ⟨f, hf, hm⟩ => ⟨f, hm, hf⟩⟩

theorem bound_names {module : String} {fs : List (String × Feature)} (hm : isWord module = true ∧ module ≠ "import")
    (hw : ∀ n ∈ fs.map Prod.fst, isWord n = true) : (∃ l ∈ importFrom module (imports.names fs), name ∈ boundBy l) ↔
      ∃ f ∈ imports.features, (name, f) ∈ fs := by
  have hsub : imports.names fs ⊆ fs.map Prod.fst := (List.filter_sublist.map Prod.fst).subset
  rw [bound_importFrom hm fun n hn => hw n (hsub hn), mem_names]

theorem bound_modelLines : (∃ l ∈ ([.bedrock, .anthropic, .ollama, .openAi].filter fun p =>
    imports.has (.model p)).map modelLine, name ∈ boundBy l) ↔
      ∃ p, .model p ∈ imports.features ∧ name ∈ (Feature.model p).names := by
  simp only [List.mem_map, List.mem_filter, has_iff]
  constructor
  · rintro ⟨_, ⟨p, ⟨-, hp⟩, rfl⟩, hn⟩
    rw [boundBy_modelLine] at hn
    exact ⟨p, hp, hn⟩
  · rintro ⟨p, hp, hn⟩
    exact ⟨_, ⟨p, ⟨by cases p <;> simp, hp⟩, rfl⟩, (boundBy_modelLine p).symm ▸ hn⟩

theorem bound_transportLines : (∃ l ∈ ([.stdio, .sse, .streamableHttp].filter fun t =>
    imports.has (.transport t)).map transportLine, name ∈ boundBy l) ↔
      ∃ t, .transport t ∈ imports.features ∧ name ∈ (Feature.transport t).names := by
  simp only [List.mem_map, List.mem_filter, has_iff]
  constructor
  · rintro ⟨_, ⟨t, ⟨-, ht⟩, rfl⟩, hn⟩
    exact ⟨t, ht, boundBy_transportLine t ▸ hn⟩
  · rintro ⟨t, ht, hn⟩
    exact ⟨_, ⟨t, ⟨by cases t <;> simp, ht⟩, rfl⟩, boundBy_transportLine t ▸ hn⟩

/-- An import block binds an optional name if a feature in use needs it. -/
theorem bound_iff (hb : imports.builtins ⊆ Builtin.symbols) (hname : name ∈ optional) :
    (∃ l ∈ imports.lines, name ∈ boundBy l) ↔ ∃ f ∈ imports.features, name ∈ f.names := by
  have library : ∀ s ∈ Builtin.symbols, isWord s = true := by decide
  have fixed : ∀ n ∈ optional, ¬∃ l ∈ ["import argparse", "import asyncio", "import json"], n ∈ boundBy l := by
    decide +kernel
  have hos : boundBy "import os" = Feature.os.names := rfl
  have hclient : boundBy "from strands.tools.mcp import MCPClient" = Feature.client.names := by decide
  have hagents : (∃ l ∈ importFrom "strands" (imports.names [("Agent", .agent), ("tool", .tool)]), name ∈ boundBy l) ↔
      _ := bound_names (by decide) (by decide)
  have hteams : (∃ l ∈ importFrom "strands.multiagent" (imports.names [("GraphBuilder", .graphBuilder),
      ("Swarm", .swarm)]), name ∈ boundBy l) ↔ _ := bound_names (by decide) (by decide)
  have hbuiltins : (∃ l ∈ importFrom "strands_tools" imports.builtins, name ∈ boundBy l) ↔ _ :=
    bound_importFrom (by decide) fun s hs => library s (hb hs)
  simp only [lines, List.mem_append, or_and_right, exists_or, fixed name hname, false_or, bound_modelLines,
    bound_transportLines, bound_if hos, bound_if hclient, hagents, hteams, hbuiltins, mem_builtins, or_assoc,
    List.mem_pair, Prod.mk.injEq]
  -- The cases are the groups of `lines`, in their order.
  constructor
  · rintro (⟨hf, hn⟩ | ⟨f, hf, ⟨rfl, rfl⟩ | ⟨rfl, rfl⟩⟩ | ⟨p, hf, hn⟩ | ⟨f, hf, ⟨rfl, rfl⟩ | ⟨rfl, rfl⟩⟩ |
      ⟨hf, hn⟩ | hf | ⟨t, hf, hn⟩)
    · exact ⟨_, hf, hn⟩
    · exact ⟨_, hf, List.mem_singleton_self _⟩
    · exact ⟨_, hf, List.mem_singleton_self _⟩
    · exact ⟨_, hf, hn⟩
    · exact ⟨_, hf, List.mem_singleton_self _⟩
    · exact ⟨_, hf, List.mem_singleton_self _⟩
    · exact ⟨_, hf, hn⟩
    · exact ⟨_, hf, List.mem_singleton_self _⟩
    · exact ⟨_, hf, hn⟩
  · rintro ⟨f, hf, hn⟩
    cases f with
    | os => exact Or.inl ⟨hf, hn⟩
    | agent => exact Or.inr (Or.inl ⟨_, hf, Or.inl ⟨List.mem_singleton.mp hn, rfl⟩⟩)
    | tool => exact Or.inr (Or.inl ⟨_, hf, Or.inr ⟨List.mem_singleton.mp hn, rfl⟩⟩)
    | model p => exact Or.inr (Or.inr (Or.inl ⟨p, hf, hn⟩))
    | graphBuilder => exact Or.inr (Or.inr (Or.inr (Or.inl ⟨_, hf, Or.inl ⟨List.mem_singleton.mp hn, rfl⟩⟩)))
    | swarm => exact Or.inr (Or.inr (Or.inr (Or.inl ⟨_, hf, Or.inr ⟨List.mem_singleton.mp hn, rfl⟩⟩)))
    | client => exact Or.inr (Or.inr (Or.inr (Or.inr (Or.inl ⟨hf, hn⟩))))
    | builtin s =>
      obtain rfl := List.mem_singleton.mp hn
      exact Or.inr (Or.inr (Or.inr (Or.inr (Or.inr (Or.inl hf)))))
    | transport t => exact Or.inr (Or.inr (Or.inr (Or.inr (Or.inr (Or.inr ⟨t, hf, hn⟩)))))

end Imports

end AgentWorkflow

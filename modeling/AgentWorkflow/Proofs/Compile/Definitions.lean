import AgentWorkflow.Proofs.Compile.ToolNames
import AgentWorkflow.Proofs.Compile.ToolOrder

/-!
The functions that the custom tools of a program define.

A later definition of a function replaces an earlier one when the program runs. Main statement: a program has the
definitions of the custom tools that are attached to its agents, in the order in which the tools are needed first. So
of two tools that define one function that one wins which is needed last, while the warning names the one that is
declared last in the graph.
-/

namespace AgentWorkflow

open Drafting

/-- The function that a piece of code defines for a custom tool, with the code that defines it. -/
def Code.definition? : Code → Option (String × String)
  | .definition function code => some (function, code)
  | _ => none

/-- The function that a node defines, with the code that defines it. -/
def Node.definition? (n : Node) : Option (String × String) :=
  match n.kind with
  | .customTool s => (CustomCode.scan s.code).function.map fun f => (f, (CustomCode.scan s.code).code)
  | _ => none

theorem Node.function?_eq_map (n : Node) : n.function? = n.definition?.map Prod.fst := by
  unfold function? definition?
  cases n.kind with
  | customTool s =>
    dsimp only
    rw [Option.map_map]
    exact Option.map_id'.symm
  | _ => rfl

namespace Program

/-- The functions that a program defines for custom tools, in the order of the program. -/
def definitions (p : Program) : List (String × String) :=
  p.pieces.filterMap Code.definition?

/-- The code of the last definition of a function. -/
def lastDefinition (p : Program) (f : String) : Option String :=
  ((p.definitions.filter fun definition => definition.1 = f).getLast?).map Prod.snd

end Program

section Lists

variable {α β : Type} [DecidableEq α]

theorem filter_pair {l : List α} {a b : α} (hn : l.Nodup) (ha : a ∈ l) (hb : b ∈ l) (hne : a ≠ b) :
    (l.filter fun x => x = a ∨ x = b) = if l.idxOf a < l.idxOf b then [a, b] else [b, a] := by
  induction l with
  | nil => cases ha
  | cons x rest ih =>
    obtain ⟨hx, hr⟩ := List.nodup_cons.mp hn
    have honly {c : α} (hc : c ∈ rest) : rest.filter (· = c) = [c] := by
      rw [List.filter_eq, List.count_eq_one_of_mem hr hc]
      rfl
    by_cases hxa : x = a
    · subst hxa
      have hb' : b ∈ rest := (List.mem_cons.mp hb).resolve_left hne.symm
      have hrest : (rest.filter fun y => y = x ∨ y = b) = rest.filter (· = b) := by
        refine List.filter_congr fun y hy => ?_
        have hyx : y ≠ x := fun he => hx (he ▸ hy)
        simp [hyx]
      have hlt : (x :: rest).idxOf x < (x :: rest).idxOf b := by simp [hne]
      rw [List.filter_cons_of_pos (by simp), hrest, honly hb', if_pos hlt]
    by_cases hxb : x = b
    · subst hxb
      have ha' : a ∈ rest := (List.mem_cons.mp ha).resolve_left hne
      have hrest : (rest.filter fun y => y = a ∨ y = x) = rest.filter (· = a) := by
        refine List.filter_congr fun y hy => ?_
        have hyx : y ≠ x := fun he => hx (he ▸ hy)
        simp [hyx]
      have hlt : ¬(x :: rest).idxOf a < (x :: rest).idxOf x := by simp [List.idxOf_cons]
      rw [List.filter_cons_of_pos (by simp), hrest, honly ha', if_neg hlt]
    have ha' : a ∈ rest := (List.mem_cons.mp ha).resolve_left (Ne.symm hxa)
    have hb' : b ∈ rest := (List.mem_cons.mp hb).resolve_left (Ne.symm hxb)
    rw [List.filter_cons_of_neg (by simp [hxa, hxb]), ih hr ha' hb']
    simp [hxa, hxb]

theorem getLast?_definitions {l : List α} {a b : α} {f code code' : String} {select : α → Option (String × String)}
    (hn : l.Nodup) (ha : a ∈ l) (hb : b ∈ l) (hne : a ≠ b) (hcode : select a = some (f, code))
    (hcode' : select b = some (f, code')) (honly : ∀ x ∈ l, (select x).map Prod.fst = some f → x = a ∨ x = b) :
    (((l.filterMap select).filter fun definition => definition.1 = f).getLast?).map Prod.snd =
      some (if l.idxOf a < l.idxOf b then code' else code) := by
  have hfilter : (l.filterMap select).filter (fun definition => definition.1 = f) =
      (l.filter fun x => x = a ∨ x = b).filterMap select := by
    rw [List.filter_filterMap, List.filterMap_filter]
    refine List.filterMap_congr fun x hx => ?_
    by_cases hxab : x = a ∨ x = b
    · rw [if_pos (by simpa using hxab)]
      rcases hxab with rfl | rfl
      · rw [hcode]
        simp [Option.filter]
      · rw [hcode']
        simp [Option.filter]
    · rw [if_neg (by simpa using hxab)]
      cases hs : select x with
      | none => rfl
      | some definition =>
        have hf : definition.1 ≠ f := fun hf => hxab (honly x hx (by rw [hs, Option.map_some, hf]))
        simp [Option.filter, hf]
  rw [hfilter, filter_pair hn ha hb hne]
  split_ifs
  · simp [hcode, hcode']
  · simp [hcode, hcode']

end Lists

namespace Toolbox

variable {definers : List (String × String)} {nodes rest : List Node} {n n' : Node} {f previous : String}

theorem redefined_mem_noticesAfter (hprev : Entries.get? f definers = some previous)
    (h : nodes.filter (fun n => n.function? = some f) = n' :: rest) :
    .redefined previous n'.displayName f ∈ noticesAfter definers nodes := by
  induction nodes generalizing definers with
  | nil => cases h
  | cons x nodes ih =>
    obtain ⟨own, he, hown⟩ := noticesAfter_cons definers x nodes
    rw [he]
    by_cases hx : x.function? = some f
    · rw [List.filter_cons_of_pos (by simpa using hx)] at h
      obtain ⟨rfl, -⟩ := List.cons.inj h
      exact List.mem_append_left _ (hown f previous hx hprev)
    · rw [List.filter_cons_of_neg (by simpa using hx)] at h
      exact List.mem_append_right _ (ih ((get?_definersWith hx).trans hprev) h)

theorem redefined_mem_notices (h : nodes.filter (fun n => n.function? = some f) = n :: n' :: rest) :
    .redefined n.displayName n'.displayName f ∈ noticesAfter definers nodes := by
  induction nodes generalizing definers with
  | nil => cases h
  | cons x nodes ih =>
    obtain ⟨own, he, -⟩ := noticesAfter_cons definers x nodes
    rw [he]
    by_cases hx : x.function? = some f
    · rw [List.filter_cons_of_pos (by simpa using hx)] at h
      obtain ⟨rfl, hrest⟩ := List.cons.inj h
      exact List.mem_append_right _ (redefined_mem_noticesAfter (get?_definersWith_self hx) hrest)
    · rw [List.filter_cons_of_neg (by simpa using hx)] at h
      exact List.mem_append_right _ (ih h)

end Toolbox

theorem Fragment.flatMap_arrange {α : Type} {kind : FragmentKind} {fragments : List Fragment}
    {gather : Fragment → List α} (h : ∀ f ∈ fragments, f.kind ≠ kind → gather f = []) :
    (arrange fragments).flatMap gather = (fragments.filter (·.kind = kind)).flatMap gather := by
  have hkinds (kinds : List FragmentKind) (hn : kinds.Nodup) :
      (kinds.flatMap fun k => fragments.filter (·.kind = k)).flatMap gather =
        if kind ∈ kinds then (fragments.filter (·.kind = kind)).flatMap gather else [] := by
    induction kinds with
    | nil => rfl
    | cons k rest ih =>
      obtain ⟨hk, hr⟩ := List.nodup_cons.mp hn
      rw [List.flatMap_cons, List.flatMap_append, ih hr]
      by_cases he : k = kind
      · subst he
        simp [hk]
      · have hnil : (fragments.filter (·.kind = k)).flatMap gather = [] := by
          refine List.flatMap_eq_nil_iff.mpr fun f hf => ?_
          obtain ⟨hf, hfk⟩ := List.mem_filter.mp hf
          exact h f hf fun hkind => he ((of_decide_eq_true hfk).symm.trans hkind)
        simp [hnil, Ne.symm he]
  have hall := hkinds FragmentKind.all (by decide)
  rwa [if_pos (FragmentKind.mem_all kind)] at hall

theorem Code.definition?_of_isFrame {c : Code} (h : c.isFrame = true) : c.definition? = none := by
  cases c <;> simp_all [isFrame, definition?]

namespace Blueprint

variable {b : Blueprint} {first : List Demand} {servers : List String} {root : Option String} {p : Program} {d : Draft}
  {l : Ledger} {q : Demand} {f : Fragment} {id : String} {c : Code}

theorem definition?_graphContent {builder name : String} {members : List String} {limits : List Limit}
    (h : c ∈ b.graphContent builder name members limits) : c.definition? = none := by
  rcases mem_graphContent h with ⟨_, -, rfl⟩ | rfl | rfl | ⟨_, _, rfl⟩ | ⟨_, rfl⟩ | ⟨_, rfl⟩
  all_goals rfl

theorem selectAll_workflow (h : f ∈ b.workflow root) : Code.selectAll Code.definition? f.code = [] := by
  cases root with
  | some r => cases h
  | none =>
    obtain rfl := List.mem_singleton.mp h
    refine Code.selectAll_eq_nil fun c hc => ?_
    obtain ⟨c', hc', hcc'⟩ := Code.mem_piecesAll.mp hc
    rw [pieces_graphContent hc', List.mem_singleton] at hcc'
    exact hcc' ▸ definition?_graphContent hc'

theorem definition?_content (h : c ∈ b.content id) : c.definition? = none := by
  rcases mem_content h with ⟨_, rfl⟩ | ⟨-, _, _, rfl⟩ | ⟨_, -, rfl⟩ | ⟨_, -, hg⟩
  · rfl
  · rfl
  · rfl
  · exact definition?_graphContent hg

theorem definition?_fragmentOf {inside : List Fragment} (hq : q.part ≠ .customTool)
    (h : c ∈ (b.fragmentOf inside q).code) : c.definition? = none := by
  unfold fragmentOf at h
  split at h <;> rename_i hpart
  · exact definition?_content h
  · rw [List.mem_singleton.mp h]
    rfl
  · unfold clientContent at h
    dsimp only at h
    split at h
    · rw [List.mem_singleton.mp h]
      rfl
    · cases h
  · exact absurd hpart hq

section Sound

variable (hb : b.Coherent) (ha : b.Agenda servers first)

include hb ha

theorem Sound.part_ne_customTool (h : b.Sound first l) (hm : (q, f) ∈ l) (hplace : q.place ≠ .topLevel) :
    q.part ≠ .customTool := by
  intro hpart
  exact hplace (((h.demanded (Ledger.mem_keys_of_mem hm)).1.placed hb ha).custom hpart).1

theorem Sound.selectAll_definition? (h : b.Sound first l) (hm : (q, f) ∈ l) (hq : q.part ≠ .customTool) :
    Code.selectAll Code.definition? f.code = [] := by
  refine h.induction (motive := fun q f => q.part ≠ .customTool → Code.selectAll Code.definition? f.code = [])
    (fun q _ hw hq => ?_) (fun q _ hw inside hin hq => ?_) hm hq
  all_goals
    refine Code.selectAll_eq_nil fun c hc => ?_
    by_contra hdef
    have hframe : c.isFrame = false := by
      rw [← Bool.not_eq_true]
      exact fun hframe => hdef (Code.definition?_of_isFrame hframe)
  · rcases mem_piecesAll_fragmentOf hc hframe with hown | ⟨hwrap, -⟩
    · exact hdef (definition?_fragmentOf hq hown)
    · exact hw hwrap
  · rcases mem_piecesAll_fragmentOf hc hframe with hown | ⟨-, hcontent | ⟨g, hg, hcg⟩⟩
    · exact hdef (definition?_fragmentOf hq hown)
    · exact hdef (definition?_content hcontent)
    · obtain ⟨p, hp, hplace, hnone⟩ := hin g hg
      have hpart : p.part ≠ .customTool := h.part_ne_customTool hb ha hp (by rw [hplace]; simp [innerPlace])
      exact hdef (List.filterMap_eq_nil_iff.mp (hnone hpart) c hcg)

end Sound

theorem kind_fragmentOf_iff {inside : List Fragment} :
    (b.fragmentOf inside q).kind = .customTool ↔ q.part = .customTool := by
  unfold fragmentOf
  cases q.part with
  | construction => cases b.kindOf q.id <;> simp [NodeKind.instanceFragment]
  | _ => simp

theorem Accounts.customTools_eq (hacc : b.Accounts root p d l) :
    d.customTools = (l.filter fun e => e.1.part = .customTool).map fun e => e.1.id := by
  have hselect : d.customTools = (d.emitted.reverse.filter (·.2.node.isSome)).filterMap
      fun e => if e.2.kind = .customTool then e.2.node else none := by
    rw [Draft.customTools, List.filterMap_filter]
    refine List.filterMap_congr fun e _ => ?_
    cases hn : e.2.node <;> simp [hn]
  rw [hselect, hacc.emitted, Ledger.emissions, List.filterMap_map, ← List.filterMap_eq_map, List.filterMap_filter]
  refine List.filterMap_congr fun e he => ?_
  obtain ⟨inside, hf⟩ := hacc.sound.exists_inside he
  simp [hf, fragmentOf_node, kind_fragmentOf_iff]

section Program

variable (hb : b.Coherent) (ha : b.Agenda (b.runServers root) (b.agenda root)) (hacc : b.Accounts root p d l)

include hb ha hacc

theorem Accounts.mem_customTools {t : String} : t ∈ d.customTools ↔ ⟨t, .topLevel, .customTool⟩ ∈ l.keys := by
  rw [hacc.customTools_eq, List.mem_map]
  constructor
  · rintro ⟨⟨⟨t, place, part⟩, f⟩, he, rfl⟩
    obtain ⟨he, hpart⟩ := List.mem_filter.mp he
    obtain rfl : part = .customTool := of_decide_eq_true hpart
    have hkey := Ledger.mem_keys_of_mem he
    obtain rfl : place = .topLevel := (((hacc.sound.demanded hkey).1.placed hb ha).custom rfl).1
    exact hkey
  · intro hkey
    obtain ⟨f, hf⟩ := Ledger.exists_of_mem_keys hkey
    exact ⟨_, List.mem_filter.mpr ⟨hf, by simp⟩, rfl⟩

theorem Accounts.customFragments_eq : p.fragments.filter (·.kind = .customTool) =
    d.customTools.map fun t => ⟨.customTool, some t, b.customContent t⟩ := by
  have hworkflow (place : Place) :
      (if place = b.entryPlace root then b.workflow root else []).filter (·.kind = .customTool) = [] := by
    refine List.filter_eq_nil_iff.mpr fun f hf => ?_
    cases root with
    | some r => simp [workflow] at hf
    | none =>
      split_ifs at hf
      · simp [List.mem_singleton.mp hf]
      · cases hf
  have hat : (l.fragmentsAt .topLevel).filter (·.kind = .customTool) =
      (l.filter fun e => e.1.part = .customTool).map Prod.snd := by
    rw [Ledger.fragmentsAt, List.filter_map, List.filter_filter]
    refine congrArg (List.map Prod.snd) (List.filter_congr fun e he => ?_)
    obtain ⟨inside, hf⟩ := hacc.sound.exists_inside he
    by_cases hpart : e.1.part = .customTool
    · have hplace := (((hacc.sound.demanded (Ledger.mem_keys_of_mem he)).1.placed hb ha).custom hpart).1
      simp [hf, kind_fragmentOf_iff, hpart, hplace]
    · simp [hf, kind_fragmentOf_iff, hpart]
  obtain ⟨prompt, hfr⟩ := hacc.fragments
  have hentry : [(b.entryOfRun root prompt l).fragment].filter (·.kind = .customTool) = [] := rfl
  rw [hfr, fragmentsIn, List.filter_append, List.filter_append, hat, hworkflow, hentry, List.append_nil,
    List.append_nil, hacc.customTools_eq, List.map_map]
  refine List.map_congr_left fun e he => ?_
  obtain ⟨he, hpart⟩ := List.mem_filter.mp he
  obtain ⟨inside, hf⟩ := hacc.sound.exists_inside he
  simp [hf, fragmentOf, of_decide_eq_true hpart]

/-- What is inside functions, and what is at the top level beside the custom tools, defines no functions for them. -/
theorem Accounts.selectAll_fragmentsIn {place : Place} (hf : f ∈ b.fragmentsIn root l place)
    (hkind : place ≠ .topLevel ∨ f.kind ≠ .customTool) : Code.selectAll Code.definition? f.code = [] := by
  rcases List.mem_append.mp hf with hf | hf
  · obtain ⟨q, hq, rfl⟩ := Ledger.mem_fragmentsAt.mp hf
    refine hacc.sound.selectAll_definition? hb ha hq (hkind.elim (hacc.sound.part_ne_customTool hb ha hq) ?_)
    obtain ⟨inside, rfl⟩ := hacc.sound.exists_inside hq
    exact mt kind_fragmentOf_iff.mpr
  · split_ifs at hf
    · exact selectAll_workflow hf
    · cases hf

theorem Accounts.selectAll_fragments (hf : f ∈ p.fragments) (hkind : f.kind ≠ .customTool) :
    Code.selectAll Code.definition? f.code = [] := by
  obtain ⟨prompt, hfr⟩ := hacc.fragments
  rw [hfr] at hf
  rcases List.mem_append.mp hf with hf | hf
  · exact hacc.selectAll_fragmentsIn hb ha hf (Or.inr hkind)
  · obtain rfl := List.mem_singleton.mp hf
    rw [Entry.selectAll_fragment fun _ => Code.definition?_of_isFrame, Fragment.gather_layout
      (fun _ _ => Code.selectAll_append) (Code.selectAll_blank fun _ => Code.definition?_of_isFrame)]
    split_ifs
    · rfl
    · refine List.flatMap_eq_nil_iff.mpr fun f hf => ?_
      exact hacc.selectAll_fragmentsIn hb ha (Fragment.mem_arrange.mp hf) (Or.inl (by simp))

theorem Accounts.definitions_eq :
    p.definitions = d.customTools.flatMap fun t => Code.selectAll Code.definition? (b.customContent t) := by
  have hgather : p.definitions =
      (Fragment.arrange p.fragments).flatMap fun f => Code.selectAll Code.definition? f.code := by
    rw [Program.definitions, Program.filterMap_pieces fun _ => Code.definition?_of_isFrame]
    exact Fragment.gather_layout (fun _ _ => Code.selectAll_append)
      (Code.selectAll_blank fun _ => Code.definition?_of_isFrame)
  rw [hgather, Fragment.flatMap_arrange fun f hf hkind => hacc.selectAll_fragments hb ha hf hkind,
    hacc.customFragments_eq hb ha, List.flatMap_map]

end Program

section Graph

variable {g : Graph} {n : Node} {s : CustomToolSettings} {t : String}

theorem selectAll_customContent (root : Option String) (hn : g.node? t = some n) (hk : n.kind = .customTool s) :
    Code.selectAll Code.definition? ((g.index.blueprint root).customContent t) = n.definition?.toList := by
  have hget : (g.index.blueprint root).toolbox.get? t = some (CustomCode.scan s.code) := Toolbox.get?_ofNodes hn hk
  unfold customContent Node.definition?
  rw [hget, hk]
  dsimp only
  cases (CustomCode.scan s.code).function with
  | some f =>
    dsimp only
    split_ifs <;> rfl
  | none =>
    refine Code.selectAll_eq_nil fun c hc => ?_
    rw [Code.piecesAll_singleton, Code.pieces_eq] at hc
    rcases List.mem_cons.mp hc with rfl | hc
    · rfl
    · exact Code.definition?_of_isFrame (isFrame_of_mem_placeholder hc)

end Graph

end Blueprint

/-- If two nodes define a function, and a program has the definitions of both, the last one is that of the node that
comes later among those whose definitions it has. -/
theorem Program.lastDefinition_of_pair {g : Graph} {p : Program} {tools : List String} {f : String} {n n' : Node}
    (hdefinitions : p.definitions = tools.filterMap fun t => (g.node? t).bind Node.definition?) (hnodup : tools.Nodup)
    (hn : g.node? n.id = some n) (hn' : g.node? n'.id = some n') (hne : n.id ≠ n'.id)
    (hdefine : g.nodes.filter (fun n => n.function? = some f) = [n, n']) (hmem : n.id ∈ tools) (hmem' : n'.id ∈ tools) :
    ∃ code code', n.definition? = some (f, code) ∧ n'.definition? = some (f, code') ∧
      p.lastDefinition f = some (if tools.idxOf n.id < tools.idxOf n'.id then code' else code) := by
  have hdefines {m : Node} (hm : m ∈ [n, n']) : ∃ code, m.definition? = some (f, code) := by
    rw [← hdefine] at hm
    have hf : m.definition?.map Prod.fst = some f := m.function?_eq_map ▸ of_decide_eq_true (List.mem_filter.mp hm).2
    obtain ⟨⟨f', code⟩, hcode, rfl⟩ := Option.map_eq_some_iff.mp hf
    exact ⟨code, hcode⟩
  obtain ⟨code, hcode⟩ := hdefines List.mem_cons_self
  obtain ⟨code', hcode'⟩ := hdefines (List.mem_cons_of_mem _ (List.mem_singleton_self _))
  refine ⟨code, code', hcode, hcode', ?_⟩
  rw [lastDefinition, hdefinitions]
  refine getLast?_definitions hnodup hmem hmem' hne (by rw [hn, Option.bind_some, hcode])
    (by rw [hn', Option.bind_some, hcode']) fun t _ hf => ?_
  -- No third node defines the function.
  obtain ⟨definition, hdef, hfst⟩ := Option.map_eq_some_iff.mp hf
  obtain ⟨m, hm, hcodem⟩ := Option.bind_eq_some_iff.mp hdef
  obtain ⟨hnode, rfl⟩ := Graph.mem_of_node? hm
  have hfun : m.function? = some f := by rw [m.function?_eq_map, hcodem, Option.map_some, hfst]
  have hpair : m ∈ [n, n'] := hdefine ▸ List.mem_filter.mpr ⟨hnode, by simpa using hfun⟩
  exact (List.mem_pair.mp hpair).imp (congrArg Node.id) (congrArg Node.id)

/-- A custom tool that tells a price. -/
def Node.pricing (id label amount : String) : Node :=
  ⟨id, label, .customTool { CustomToolSettings.default with code := "def price():\n    return " ++ amount }⟩

/-- An agent with two custom tools that tell a price, the list price being declared first. The agent needs the tools in
the order in which they are attached. -/
def Graph.shop (first second : String) : Graph where
  nodes := [⟨"in", "Prompt", .input .default⟩, ⟨"a", "Writer", .agent .default⟩, ⟨"out", "Result", .output .default⟩,
    .pricing "p" "List price" "20", .pricing "q" "Sale price" "15"]
  edges := [⟨"in", .output, "a", .userInput⟩, ⟨"a", .output, "out", .input⟩, ⟨first, .toolOutput, "a", .tools⟩,
    ⟨second, .toolOutput, "a", .tools⟩]

namespace Compilation

variable {g : Graph} {options : Options}

/-- A program has the definitions of the custom tools that are attached to its agents, in the order in which the tools
are needed first. If two tools that are attached define one function, a warning says that the one wins that is declared
later in the graph; the last definition is the code of the one that is needed later. -/
theorem compile_defines_in_order (h : (Compilation.mk g options .standard).compile.isSuccess = true) :
    ∃ p root, (Compilation.mk g options .standard).program? = some p ∧
      (Compilation.mk g options .standard).compile.sourceText = p.text ∧
      g.index.rootIn (g.index.effectiveMode options.mode) = .ok root ∧
      let b := g.index.blueprint root
      let tools := distinct ((b.declared root).flatMap b.toolsBelow)
      (∀ t, t ∈ tools ↔ g.attaches NodeKind.isCustomTool NodeKind.hasAgent t = true) ∧
      p.definitions = tools.filterMap (fun t => (g.node? t).bind Node.definition?) ∧
      ∀ f n n', g.node? n.id = some n → g.node? n'.id = some n' → n.id ≠ n'.id →
        g.nodes.filter (fun n => n.function? = some f) = [n, n'] →
        g.attaches NodeKind.isCustomTool NodeKind.hasAgent n.id = true →
        g.attaches NodeKind.isCustomTool NodeKind.hasAgent n'.id = true →
        (ToolNotice.redefined n.displayName n'.displayName f).message ∈
            (Compilation.mk g options .standard).compile.warnings ∧
          ∃ code code', n.definition? = some (f, code) ∧ n'.definition? = some (f, code') ∧
            p.lastDefinition f = some (if tools.idxOf n.id < tools.idxOf n'.id then code' else code) := by
  obtain ⟨p, root, l, hp, htext, hr, hb, ha, hacc⟩ := exists_accounts h
  have htools := (generate_unfolds hp hr).1
  have hmem (t : String) :
      t ∈ distinct (((g.index.blueprint root).declared root).flatMap (g.index.blueprint root).toolsBelow) ↔
        g.attaches NodeKind.isCustomTool NodeKind.hasAgent t = true := by
    rw [← htools, hacc.mem_customTools hb ha, Blueprint.customTool_mem_keys hb hacc]
  have hdefinitions : p.definitions =
      (distinct (((g.index.blueprint root).declared root).flatMap (g.index.blueprint root).toolsBelow)).filterMap
        fun t => (g.node? t).bind Node.definition? := by
    rw [hacc.definitions_eq hb ha, htools, List.filterMap_eq_flatMap_toList]
    refine List.flatMap_congr fun t ht => ?_
    obtain ⟨n, s, hn, hk⟩ := Graph.exists_customTool ((hmem t).mp ht)
    rw [hn, Option.bind_some]
    exact Blueprint.selectAll_customContent root hn hk
  refine ⟨p, root, hp, htext, hr, hmem, hdefinitions, fun f n n' hn hn' hne hdefine hattached hattached' => ?_⟩
  have hnotice : .redefined n.displayName n'.displayName f ∈ Toolbox.notices g.nodes :=
    Toolbox.redefined_mem_notices hdefine
  exact ⟨notices_subset_warnings h (List.mem_map_of_mem hnotice), Program.lastDefinition_of_pair hdefinitions
    (distinct_nodup _) hn hn' hne hdefine ((hmem _).mpr hattached) ((hmem _).mpr hattached')⟩

/-- If the tools are attached in the order of the graph, the tool wins that the warning names. -/
theorem sale_price_defined_last :
    (Compilation.mk (.shop "p" "q") .default .standard).compile.isSuccess = true ∧
      ∃ p, (Compilation.mk (.shop "p" "q") .default .standard).program? = some p ∧
        p.definitions = [("price", "def price():\n    return 20"), ("price", "def price():\n    return 15")] ∧
        p.lastDefinition "price" = some "def price():\n    return 15" := by
  have success : (Compilation.mk (.shop "p" "q") .default .standard).compile.isSuccess = true := by decide +kernel
  obtain ⟨p, root, hp, -, hroot, -, hdefinitions, hlast⟩ := compile_defines_in_order success
  have hwriter : (Graph.shop "p" "q").index.rootIn ((Graph.shop "p" "q").index.effectiveMode Options.default.mode) =
      .ok (some "a") := by decide +kernel
  obtain rfl : root = some "a" := Except.ok.inj (hroot.symm.trans hwriter)
  obtain ⟨-, code, code', -, hcode', hlast⟩ := hlast "price" (.pricing "p" "List price" "20")
    (.pricing "q" "Sale price" "15") rfl rfl (by decide) (by decide +kernel) (by decide) (by decide)
  have hsale : (Node.pricing "q" "Sale price" "15").definition? = some ("price", "def price():\n    return 15") := by
    decide +kernel
  obtain rfl : code' = "def price():\n    return 15" := (Prod.mk.inj (Option.some.inj (hcode'.symm.trans hsale))).2
  refine ⟨success, p, hp, hdefinitions.trans (by decide +kernel), ?_⟩
  rw [hlast, if_pos (by decide +kernel)]

/-- If they are attached in the other order, the tool loses that the warning names. -/
theorem list_price_defined_last :
    (Graph.shop "q" "p").index.validate.valid = true ∧ (Graph.shop "q" "p").HasUniqueIds ∧
      (Compilation.mk (.shop "q" "p") .default .standard).compile.isSuccess = true ∧
      (Graph.shop "q" "p").nodes.filter (fun n => n.function? = some "price") =
        [.pricing "p" "List price" "20", .pricing "q" "Sale price" "15"] ∧
      (Graph.shop "q" "p").attaches NodeKind.isCustomTool NodeKind.hasAgent "p" = true ∧
      (Graph.shop "q" "p").attaches NodeKind.isCustomTool NodeKind.hasAgent "q" = true ∧
      (ToolNotice.redefined "List price" "Sale price" "price").message ∈
        (Compilation.mk (.shop "q" "p") .default .standard).compile.warnings ∧
      ((Compilation.mk (.shop "q" "p") .default .standard).program?.bind fun p => p.lastDefinition "price") =
        some "def price():\n    return 20" := by
  decide +kernel

end Compilation

end AgentWorkflow

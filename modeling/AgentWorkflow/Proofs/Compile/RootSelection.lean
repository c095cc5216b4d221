import AgentWorkflow.Proofs.Compile.Root
import AgentWorkflow.Proofs.Graph.Reachability

/-!
Which node a program runs.

When no node is below itself, the search upwards from a member goes to the first parent at every step and never turns
back. Main statement: the root of a valid graph is the first node at the top level that is fed; if none is, it is a
composition at the top level with the first fed executable below it; if nothing is fed, it is the first node at the top
level.
-/

namespace AgentWorkflow

open Relation

def IsFirst {α : Type} (l : List α) (p : α → Prop) (a : α) : Prop :=
  ∃ before after, l = before ++ a :: after ∧ p a ∧ ∀ b ∈ before, ¬p b

theorem IsFirst.holds {α : Type} {l : List α} {p : α → Prop} {a : α} (h : IsFirst l p a) : p a := by
  obtain ⟨-, -, -, ha, -⟩ := h
  exact ha

theorem isFirst_of_find? {α : Type} {l : List α} {q : α → Bool} {p : α → Prop} {a : α} (hp : ∀ b, q b = true ↔ p b)
    (h : l.find? q = some a) : IsFirst l p a := by
  obtain ⟨ha, before, after, hl, hbefore⟩ := List.find?_eq_some_iff_append.mp h
  refine ⟨before, after, hl, (hp a).mp ha, fun b hb hpb => ?_⟩
  have hq := hbefore b hb
  rw [(hp b).mpr hpb] at hq
  exact Bool.false_ne_true hq

namespace Index

def HasFirstParent (ix : Index) (id p : String) : Prop :=
  (ix.parents id).head? = some p

/-- First parents lead from a node to one that is no member. -/
def IsOutermost (ix : Index) (id top : String) : Prop :=
  TransGen ix.HasFirstParent id top ∧ ix.isMember top = false

variable {ix : Index} {g : Graph} {id p top : String}

theorem HasFirstParent.hasMember (h : ix.HasFirstParent id p) : ix.HasMember p id :=
  mem_members.mpr (mem_sources.mp (List.mem_of_head? h))

theorem HasFirstParent.isMember (h : ix.HasFirstParent id p) : ix.isMember id = true := by
  rw [Index.isMember, Bool.not_eq_true', List.isEmpty_eq_false_iff]
  exact List.ne_nil_of_mem (List.mem_of_head? h)

theorem outermostFrom?_eq_some (hac : ix.IsAcyclic) {fuel : ℕ} {seen rest : List String}
    (hf : ix.links.length < fuel + ix.height p) (hs : ∀ x ∈ seen, ix.height x < ix.height p) :
    ∃ top, ix.outermostFrom? fuel seen (p :: rest) = some top ∧ ReflTransGen ix.HasFirstParent p top ∧
      ix.isMember top = false := by
  -- Each first parent is higher than all that was seen, so it is new, and heights bound the steps.
  induction fuel generalizing seen rest p with
  | zero =>
    have hle := height_le_links ix p
    omega
  | succ fuel ih =>
    have hnew : seen.contains p = false := by
      rw [List.contains_eq_mem, decide_eq_false_iff_not]
      exact fun h => Nat.lt_irrefl _ (hs p h)
    rw [outermostFrom?, hnew, if_neg Bool.false_ne_true]
    cases hp : ix.parents p with
    | nil =>
      have hm : ix.isMember p = false := by rw [Index.isMember, hp]; rfl
      exact ⟨p, by simp [hm], .refl, hm⟩
    | cons q others =>
      have hq : ix.HasFirstParent p q := congrArg List.head? hp
      have hlt : ix.height p < ix.height q := height_lt hac (.single hq.hasMember)
      obtain ⟨top, he, hup, htop⟩ := @ih q (p :: seen) (others ++ rest) (by omega) fun x hx => by
        rcases List.mem_cons.mp hx with rfl | hx
        · exact hlt
        · exact (hs x hx).trans hlt
      exact ⟨top, by rw [if_pos hq.isMember, List.cons_append, he], .head hq hup, htop⟩

theorem exists_outermost (hac : ix.IsAcyclic) (h : ix.HasFirstParent id p) :
    ∃ top, ix.outermost? id = some top ∧ ix.IsOutermost id top := by
  obtain ⟨rest, hp⟩ := List.head?_eq_some_iff.mp h
  have hfuel : ix.links.length < 2 * ix.links.length + 1 + ix.height p := by omega
  obtain ⟨top, he, hup, htop⟩ := @outermostFrom?_eq_some ix p hac _ [] rest hfuel (by simp)
  exact ⟨top, by rw [outermost?, hp, he], .head' h hup, htop⟩

theorem IsOutermost.eq {top' : String} (h : ix.IsOutermost id top) (h' : ix.IsOutermost id top') : top = top' := by
  have hunique : Relator.RightUnique ix.HasFirstParent := fun _ _ _ h h' => Option.some.inj (h.symm.trans h')
  have hend {s t : String} (hs : ix.isMember s = false) (hst : ReflTransGen ix.HasFirstParent s t) : s = t := by
    rcases ReflTransGen.cases_head hst with he | ⟨u, hu, -⟩
    · exact he
    · rw [hu.isMember] at hs
      exact absurd hs Bool.noConfusion
  rcases ReflTransGen.total_of_right_unique hunique h.1.to_reflTransGen h'.1.to_reflTransGen with ht | ht
  · exact hend h.2 ht
  · exact (hend h'.2 ht).symm

theorem outermost?_eq_some_iff (hac : ix.IsAcyclic) : ix.outermost? id = some top ↔ ix.IsOutermost id top := by
  constructor
  · intro h
    cases hp : ix.parents id with
    | nil => simp [outermost?, hp, outermostFrom?] at h
    | cons p rest =>
      obtain ⟨top', he, hout⟩ := exists_outermost hac (p := p) (congrArg List.head? hp)
      rwa [Option.some.inj (h.symm.trans he)]
  · intro h
    obtain ⟨p, hp, -⟩ := TransGen.head'_iff.mp h.1
    obtain ⟨top', he, hout⟩ := exists_outermost hac hp
    rwa [h.eq hout]

end Index

namespace Graph

/-- An executable that is no member. -/
structure IsTopLevel (g : Graph) (id : String) : Prop where
  executable : g.IsExecutable id
  outermost : ∀ s, ¬g.Connects .membership s id

/-- What the node is that a program runs. First is what is declared first. -/
structure IsRoot (g : Graph) (r : String) : Prop where
  topLevel : g.IsTopLevel r
  fed : (∃ t, g.IsTopLevel t ∧ g.IsFed t) → IsFirst (g.nodes.map Node.id) (fun t => g.IsTopLevel t ∧ g.IsFed t) r
  composes : (¬∃ t, g.IsTopLevel t ∧ g.IsFed t) → (∃ m, g.IsExecutable m ∧ g.IsFed m) →
    ∃ m, IsFirst (g.nodes.map Node.id) (fun m => g.IsExecutable m ∧ g.IsFed m) m ∧
      TransGen (g.Connects .membership) r m
  first : (¬∃ m, g.IsExecutable m ∧ g.IsFed m) → IsFirst (g.nodes.map Node.id) g.IsTopLevel r

end Graph

namespace Index

variable {g : Graph} {id r : String}

theorem mem_topLevel_iff : id ∈ g.index.topLevel ↔ g.IsTopLevel id := by
  rw [mem_topLevel, mem_executables_iff]
  constructor
  · rintro ⟨h, hm⟩
    exact ⟨h, fun s hs => hm s (mem_members_iff_edge.mpr hs)⟩
  · rintro ⟨h, hm⟩
    exact ⟨h, fun s hs => hm s (mem_members_iff_edge.mp hs)⟩

theorem isMember_eq_false_iff : g.index.isMember id = false ↔ ∀ s, ¬g.Connects .membership s id := by
  rw [isMember, Bool.not_eq_false', List.isEmpty_iff, parents, sources_eq_nil]

theorem executables_eq_filter (ids : g.HasUniqueIds) :
    g.index.executables = (g.nodes.map Node.id).filter fun id => g.index.executables.contains id := by
  have hnode (n : Node) (hn : n ∈ g.nodes) :
      g.index.executables.contains n.id = n.kind.isExecutable := by
    rw [List.contains_eq_mem, Bool.eq_iff_iff, decide_eq_true_iff, mem_executables_iff]
    constructor
    · rintro ⟨m, hm, hid, hk⟩
      rwa [← List.inj_on_of_nodup_map ids hm hn hid]
    · exact fun hk => ⟨n, hn, rfl, hk⟩
  rw [List.filter_map]
  exact congrArg (List.map Node.id) (List.filter_congr fun n hn => (hnode n hn).symm)

theorem isFirst_of_find?_executables (ids : g.HasUniqueIds) {q : String → Bool} {p : String → Prop}
    (hp : ∀ t, g.IsExecutable t ∧ q t = true ↔ p t) (h : g.index.executables.find? q = some r) :
    IsFirst (g.nodes.map Node.id) p r := by
  rw [executables_eq_filter ids, List.find?_filter] at h
  refine isFirst_of_find? (fun t => ?_) h
  rw [← hp, decide_eq_true_iff, List.contains_eq_mem, decide_eq_true_iff, mem_executables_iff]

theorem isTopLevel_iff : g.IsExecutable id ∧ (!g.index.isMember id) = true ↔ g.IsTopLevel id := by
  rw [Bool.not_eq_true', isMember_eq_false_iff]
  constructor
  · rintro ⟨h, hm⟩
    exact ⟨h, hm⟩
  · rintro ⟨h, hm⟩
    exact ⟨h, hm⟩

theorem exists_outermost_of_not_topLevel (hac : g.index.IsAcyclic) (h : g.IsExecutable id) (ht : ¬g.IsTopLevel id) :
    ∃ top, g.index.outermost? id = some top ∧ g.index.IsOutermost id top := by
  rw [← isTopLevel_iff, Bool.not_eq_true', isMember, Bool.not_eq_false', List.isEmpty_iff, not_and] at ht
  obtain ⟨p, rest, hp⟩ := List.exists_cons_of_ne_nil (ht h)
  exact exists_outermost hac (p := p) (congrArg List.head? hp)

theorem hasFirstParent_le (g : Graph) : g.index.HasFirstParent ≤ Function.swap (g.Connects .membership) :=
  fun _ _ hp => mem_members_iff_edge.mp hp.hasMember

theorem IsOutermost.connects {top : String} (h : g.index.IsOutermost id top) :
    TransGen (g.Connects .membership) top id :=
  transGen_swap.mp (TransGen.mono (hasFirstParent_le g) id top h.1)

section Choice

variable {m : String}

theorem root?_of_fed (h : g.index.topLevel.find? g.index.isFed = some r) : g.index.root? = some r := by
  rw [root?, h]
  rfl

theorem root?_of_below (h : g.index.topLevel.find? g.index.isFed = none)
    (hm : g.index.executables.find? g.index.isFed = some m) (hr : g.index.outermost? m = some r) :
    g.index.root? = some r := by
  obtain ⟨rest, hrest⟩ := List.head?_eq_some_iff.mp (List.head?_filter.trans hm)
  rw [root?, h, hrest, List.findSome?_cons, hr]
  rfl

theorem root?_of_unfed (h : g.index.executables.find? g.index.isFed = none) (hr : g.index.topLevel.head? = some r) :
    g.index.root? = some r := by
  have htop : g.index.topLevel.find? g.index.isFed = none :=
    List.find?_eq_none.mpr fun t ht => List.find?_eq_none.mp h t (mem_topLevel.mp ht).1
  have hnil : g.index.executables.filter g.index.isFed = [] := List.filter_eq_nil_iff.mpr (List.find?_eq_none.mp h)
  rw [root?, htop, hnil, hr]
  rfl

end Choice

/-- A valid graph has a root, and it is the one described. -/
theorem exists_isRoot (ids : g.HasUniqueIds) (h : g.index.validate.valid = true) :
    ∃ r, g.index.root? = some r ∧ g.IsRoot r := by
  obtain ⟨r, hr, he⟩ := root?_topLevel h
  refine ⟨r, he, mem_topLevel_iff.mp hr, fun hfed => ?_, fun hnone hfed => ?_, fun hnone => ?_⟩
  · obtain ⟨t, ht, htf⟩ := hfed
    have hsome : (g.index.topLevel.find? g.index.isFed).isSome = true :=
      List.find?_isSome.mpr ⟨t, mem_topLevel_iff.mpr ht, isFed_iff.mpr htf⟩
    obtain ⟨t', hf⟩ := Option.isSome_iff_exists.mp hsome
    obtain rfl := Option.some.inj (he.symm.trans (root?_of_fed hf))
    rw [topLevel, List.find?_filter] at hf
    refine isFirst_of_find?_executables ids (fun t => ?_) hf
    rw [decide_eq_true_iff, ← and_assoc, isTopLevel_iff, isFed_iff]
  · obtain ⟨x, hx, hxf⟩ := hfed
    have hsome : (g.index.executables.find? g.index.isFed).isSome = true :=
      List.find?_isSome.mpr ⟨x, mem_executables_iff.mpr hx, isFed_iff.mpr hxf⟩
    obtain ⟨m, hm⟩ := Option.isSome_iff_exists.mp hsome
    have hfirst : IsFirst (g.nodes.map Node.id) (fun m => g.IsExecutable m ∧ g.IsFed m) m :=
      isFirst_of_find?_executables ids (fun t => by rw [isFed_iff]) hm
    have hmt : ¬g.IsTopLevel m := fun ht => hnone ⟨m, ht, hfirst.holds.2⟩
    have htop : g.index.topLevel.find? g.index.isFed = none :=
      List.find?_eq_none.mpr fun t ht htf => hnone ⟨t, mem_topLevel_iff.mp ht, isFed_iff.mp htf⟩
    obtain ⟨top, ho, hout⟩ := exists_outermost_of_not_topLevel (isAcyclic h) hfirst.holds.1 hmt
    obtain rfl := Option.some.inj (he.symm.trans (root?_of_below htop hm ho))
    exact ⟨m, hfirst, hout.connects⟩
  · have hm : g.index.executables.find? g.index.isFed = none :=
      List.find?_eq_none.mpr fun t ht htf => hnone ⟨t, mem_executables_iff.mp ht, isFed_iff.mp htf⟩
    obtain ⟨t, ht⟩ := Option.isSome_iff_exists.mp (List.isSome_head?.mpr (List.ne_nil_of_mem hr))
    obtain rfl := Option.some.inj (he.symm.trans (root?_of_unfed hm ht))
    rw [topLevel, List.head?_filter] at ht
    exact isFirst_of_find?_executables ids (fun t => isTopLevel_iff) ht

end Index

/-- An input that feeds a writer of two orchestrators. The first of them is a member of a lead, which is declared last;
an agent that nothing feeds is declared first. -/
def Graph.sharedWriter : Graph where
  nodes := [⟨"in", "Prompt", .input .default⟩, ⟨"a", "Archivist", .agent .default⟩,
    ⟨"m", "Writer", .agent .default⟩, ⟨"p", "Planner", .orchestrator .default⟩,
    ⟨"q", "Reviewer", .orchestrator .default⟩, ⟨"r", "Lead", .orchestrator .default⟩,
    ⟨"out", "Result", .output .default⟩]
  edges := [⟨"in", .output, "m", .userInput⟩, ⟨"q", .subAgents, "m", .orchestratorInput⟩,
    ⟨"p", .subAgents, "m", .orchestratorInput⟩, ⟨"r", .subAgents, "q", .orchestratorInput⟩,
    ⟨"r", .output, "out", .input⟩]

namespace Index

/-- No node at the top level is fed, so the root is one with the writer below it: not the agent, nor the orchestrator
that is at the top level too. -/
theorem sharedWriter_isRoot :
    Graph.sharedWriter.HasUniqueIds ∧ Graph.sharedWriter.index.validate.valid = true ∧
      Graph.sharedWriter.index.topLevel = ["a", "p", "r"] ∧ Graph.sharedWriter.index.root? = some "r" ∧
      Graph.sharedWriter.IsTopLevel "r" ∧
      (∃ m, IsFirst (Graph.sharedWriter.nodes.map Node.id)
          (fun m => Graph.sharedWriter.IsExecutable m ∧ Graph.sharedWriter.IsFed m) m ∧
        TransGen (Graph.sharedWriter.Connects .membership) "r" m) := by
  have ids : Graph.sharedWriter.HasUniqueIds := by decide
  have valid : Graph.sharedWriter.index.validate.valid = true := by decide +kernel
  have top : Graph.sharedWriter.index.topLevel = ["a", "p", "r"] := by decide
  have root : Graph.sharedWriter.index.root? = some "r" := by decide +kernel
  obtain ⟨r, hr, isRoot⟩ := exists_isRoot ids valid
  obtain rfl := Option.some.inj (root.symm.trans hr)
  have unfed : ¬∃ t, Graph.sharedWriter.IsTopLevel t ∧ Graph.sharedWriter.IsFed t := by
    rintro ⟨t, ht, hf⟩
    have hnone : ∀ t ∈ Graph.sharedWriter.index.topLevel, Graph.sharedWriter.index.isFed t = false := by decide
    have hfalse := hnone t (mem_topLevel_iff.mpr ht)
    rw [isFed_iff.mpr hf] at hfalse
    exact Bool.noConfusion hfalse
  have writer : Graph.sharedWriter.IsExecutable "m" ∧ Graph.sharedWriter.IsFed "m" :=
    ⟨mem_executables_iff.mp (by decide), isFed_iff.mp (by decide)⟩
  exact ⟨ids, valid, top, root, isRoot.topLevel, isRoot.composes unfed ⟨"m", writer⟩⟩

end Index

end AgentWorkflow

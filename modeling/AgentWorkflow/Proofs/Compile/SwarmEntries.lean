import AgentWorkflow.Proofs.Compile.DataFlow
import AgentWorkflow.Proofs.Compile.ToolOrder
import AgentWorkflow.Proofs.Naming.FixedPoints

/-!
The members that swarms start with.

The settings of a swarm name the member that starts, by its id, its label or its identifier. The members are asked in
order whether they are named in any of the three ways, so one that is called like the id of a later member is taken for
it. A text is made into an identifier before it is compared with those of the members, and so it loses underscores that
an identifier may have. Main statement: which member a swarm of a program starts with, and when it is warned that the
settings name none.
-/

namespace AgentWorkflow

/-- The swarm that a piece of code makes: its variable, those of its members, and that of the member that starts. -/
def Code.swarm? : Code → Option (String × List String × Option String)
  | .swarm name members entry _ => some (name, members, entry)
  | _ => none

def Program.swarms (p : Program) : List (String × List String × Option String) :=
  p.pieces.filterMap Code.swarm?

namespace Blueprint

variable {b : Blueprint} {g : Graph} {root : Option String} {id wanted m w : String} {n : Node}
  {settings : SwarmSettings}

/-- A text names a node other than by its id: it is the node's label without the blanks around it, or what makes the
identifier of the node. -/
def IsCalled (b : Blueprint) (wanted m : String) : Prop :=
  Text.trim (b.nodeOf m).label = wanted ∨ b.identOf m = Identifier.ofLabel wanted

theorem isNamed_iff (hb : b.Coherent) (hm : m ∈ b.index.members id) :
    b.isNamed wanted m = true ↔ m = wanted ∨ b.IsCalled wanted m := by
  obtain ⟨n, hn, hk⟩ := hb.member hm
  simp [isNamed, IsCalled, hn, hb.ident?_eq hn (needsSymbol_of_isExecutable hk), nodeOf_eq hn, or_assoc]

/-- The first member of a swarm that a text names. -/
def picked (b : Blueprint) (id wanted : String) : Option String :=
  (b.index.members id).find? (b.isNamed wanted)

theorem picked_isSome_iff (hb : b.Coherent) : (b.picked id wanted).isSome = true ↔
    ∃ m ∈ b.index.members id, m = wanted ∨ b.IsCalled wanted m := by
  rw [picked, List.find?_isSome]
  exact exists_congr fun m => and_congr_right fun hm => isNamed_iff hb hm

theorem picked_eq_none_iff (hb : b.Coherent) :
    b.picked id wanted = none ↔ ∀ m ∈ b.index.members id, m ≠ wanted ∧ ¬b.IsCalled wanted m := by
  rw [← Option.not_isSome_iff_eq_none, picked_isSome_iff hb]
  push Not
  rfl

theorem picked_eq_some_iff (hb : b.Coherent) : b.picked id wanted = some m ↔
    ∃ before after, b.index.members id = before ++ m :: after ∧ (m = wanted ∨ b.IsCalled wanted m) ∧
      ∀ x ∈ before, x ≠ wanted ∧ ¬b.IsCalled wanted x := by
  have hnamed {before after : List String} (hsplit : b.index.members id = before ++ m :: after) :
      b.isNamed wanted m = true ∧ (∀ x ∈ before, (!b.isNamed wanted x) = true) ↔
        (m = wanted ∨ b.IsCalled wanted m) ∧ ∀ x ∈ before, x ≠ wanted ∧ ¬b.IsCalled wanted x := by
    have hmem {x : String} (hx : x ∈ before ∨ x = m) : x ∈ b.index.members id := by
      rw [hsplit]
      rcases hx with hx | rfl
      · exact List.mem_append_left _ hx
      · exact List.mem_append_right _ List.mem_cons_self
    refine and_congr (isNamed_iff hb (hmem (Or.inr rfl))) (forall₂_congr fun x hx => ?_)
    rw [Bool.not_eq_true', ← Bool.not_eq_true, isNamed_iff hb (hmem (Or.inl hx)), not_or]
  rw [picked, List.find?_eq_some_iff_append]
  constructor
  · rintro ⟨hm, before, after, hsplit, hbefore⟩
    exact ⟨before, after, hsplit, (hnamed hsplit).mp ⟨hm, hbefore⟩⟩
  · rintro ⟨before, after, hsplit, h⟩
    obtain ⟨hm, hbefore⟩ := (hnamed hsplit).mpr h
    exact ⟨hm, before, after, hsplit, hbefore⟩

theorem entryMember_of_unset (h : settings.entryPoint.bind Text.nonBlank? = none) :
    b.entryMember id settings = none := by
  rw [entryMember, h, Option.bind_none]

theorem entryMember_eq (hw : settings.entryPoint.bind Text.nonBlank? = some w) :
    b.entryMember id settings = (b.picked id (Text.trim w)).map b.instanceName := by
  rw [entryMember, hw, Option.bind_some, ← List.map_prod_left_eq_zip, List.find?_map, Option.map_map]
  rfl

/-- The member of a swarm that a text picks as the one that starts, given by its variable. -/
structure Picks (b : Blueprint) (id wanted : String) (entry : Option String) : Prop where
  /-- The first member is picked that the text names in one of the three ways. -/
  first : ∀ m ∈ b.index.members id, entry = some (b.instanceName m) ↔
    ∃ before after, b.index.members id = before ++ m :: after ∧ (m = wanted ∨ b.IsCalled wanted m) ∧
      ∀ x ∈ before, x ≠ wanted ∧ ¬b.IsCalled wanted x
  none_iff : entry = none ↔ ∀ m ∈ b.index.members id, m ≠ wanted ∧ ¬b.IsCalled wanted m
  /-- The id of a member picks a member, and this one unless an earlier one is called so. -/
  by_id : ∀ before after, b.index.members id = before ++ wanted :: after →
    entry.isSome = true ∧ (entry = some (b.instanceName wanted) ↔ ∀ x ∈ before, ¬b.IsCalled wanted x)
  by_label : ∀ m ∈ b.index.members id, Text.trim (b.nodeOf m).label = wanted → entry.isSome = true
  /-- The identifier of a member picks a member unless it has two underscores in a row: then it does so only if it
  happens to name one in another way. -/
  by_ident : ∀ m ∈ b.index.members id, b.identOf m = wanted → (entry.isSome = true ↔
    Identifier.SingleUnderscores wanted.toList ∨ ∃ x ∈ b.index.members id,
      x = wanted ∨ Text.trim (b.nodeOf x).label = wanted ∨ (x ≠ m ∧ b.identOf x = Identifier.ofLabel wanted))

section Picks

theorem Coherent.instanceName_inj (hb : b.Coherent) (hm : m ∈ b.index.members id) {m' : String}
    (hm' : m' ∈ b.index.members id) (h : b.instanceName m = b.instanceName m') : m = m' := by
  obtain ⟨n, hn, hk⟩ := hb.member hm
  obtain ⟨n', hn', hk'⟩ := hb.member hm'
  exact (hb.nameIn_inj hn (needsSymbol_of_isExecutable hk) hn' (needsSymbol_of_isExecutable hk') h).1

theorem map_picked_eq_some_iff (hb : b.Coherent) (hm : m ∈ b.index.members id) :
    (b.picked id wanted).map b.instanceName = some (b.instanceName m) ↔ b.picked id wanted = some m := by
  rw [Option.map_eq_some_iff]
  constructor
  · rintro ⟨x, hx, he⟩
    rwa [← hb.instanceName_inj (List.mem_of_find?_eq_some hx) hm he]
  · exact fun h => ⟨m, h, rfl⟩

theorem picked_id_iff (hb : b.Coherent) {before after : List String}
    (hsplit : b.index.members id = before ++ wanted :: after) :
    b.picked id wanted = some wanted ↔ ∀ x ∈ before, ¬b.IsCalled wanted x := by
  have hnodup : (b.index.members id).Nodup := Index.members_nodup
  have hnot : wanted ∉ before := by
    rw [hsplit] at hnodup
    exact fun h => (List.nodup_append.mp hnodup).2.2 wanted h wanted List.mem_cons_self rfl
  constructor
  · intro h x hx hcalled
    -- Otherwise one of the members before is picked.
    obtain ⟨y, hy⟩ : ∃ y, before.find? (b.isNamed wanted) = some y := by
      rw [← Option.isSome_iff_exists, List.find?_isSome]
      have hmem : x ∈ b.index.members id := hsplit ▸ List.mem_append_left _ hx
      exact ⟨x, hx, (isNamed_iff hb hmem).mpr (Or.inr hcalled)⟩
    rw [picked, hsplit, List.find?_append, hy, Option.some_or] at h
    exact hnot (Option.some.inj h ▸ List.mem_of_find?_eq_some hy)
  · intro h
    refine (picked_eq_some_iff hb).mpr ⟨before, after, hsplit, Or.inl rfl, fun x hx => ⟨?_, h x hx⟩⟩
    exact fun he => hnot (he ▸ hx)

theorem picks (hb : (g.index.blueprint root).Coherent) (id wanted : String) : (g.index.blueprint root).Picks id wanted
    (((g.index.blueprint root).picked id wanted).map (g.index.blueprint root).instanceName) where
  first m hm := (map_picked_eq_some_iff hb hm).trans (picked_eq_some_iff hb)
  none_iff := Option.map_eq_none_iff.trans (picked_eq_none_iff hb)
  by_id before after hsplit := by
    have hm : wanted ∈ (g.index.blueprint root).index.members id := by simp [hsplit]
    rw [Option.isSome_map, picked_isSome_iff hb, map_picked_eq_some_iff hb hm]
    exact ⟨⟨wanted, hm, Or.inl rfl⟩, picked_id_iff hb hsplit⟩
  by_label m hm h := by
    rw [Option.isSome_map, picked_isSome_iff hb]
    exact ⟨m, hm, Or.inr (Or.inl h)⟩
  by_ident m hm h := by
    obtain ⟨n, hn, hk⟩ := hb.member hm
    have hfixed : Identifier.ofLabel wanted = wanted ↔ Identifier.SingleUnderscores wanted.toList := by
      rw [← h]
      exact SymbolTable.ofLabel_ident?_eq_iff (hb.ident?_eq hn (needsSymbol_of_isExecutable hk))
    rw [Option.isSome_map, picked_isSome_iff hb]
    constructor
    · rintro ⟨x, hx, rfl | hlabel | hident⟩
      · exact Or.inr ⟨x, hx, Or.inl rfl⟩
      · exact Or.inr ⟨x, hx, Or.inr (Or.inl hlabel)⟩
      · by_cases hxm : x = m
        · exact Or.inl (hfixed.mp (by rw [← hident, hxm, h]))
        · exact Or.inr ⟨x, hx, Or.inr (Or.inr ⟨hxm, hident⟩)⟩
    · rintro (hs | ⟨x, hx, rfl | hlabel | ⟨-, hident⟩⟩)
      · exact ⟨m, hm, Or.inr (Or.inr (h.trans (hfixed.mpr hs).symm))⟩
      · exact ⟨x, hx, Or.inl rfl⟩
      · exact ⟨x, hx, Or.inr (Or.inl hlabel)⟩
      · exact ⟨x, hx, Or.inr (Or.inr hident)⟩

end Picks

section Program

variable {p : Program} {d : Draft} {l : Ledger} {c : Code} {made : String × List String × Option String}

theorem swarm?_graphContent {builder name : String} {members : List String} {limits : List Limit}
    (h : c ∈ b.graphContent builder name members limits) : c.swarm? = none := by
  rcases mem_graphContent h with ⟨_, -, rfl⟩ | rfl | rfl | ⟨_, _, rfl⟩ | ⟨_, rfl⟩ | ⟨_, rfl⟩
  all_goals rfl

theorem swarm?_content (h : c ∈ b.content id) (hc : c.swarm? = some made) : ∃ settings,
    b.kindOf id = .swarm settings ∧
      made = (b.instanceName id, (b.index.members id).map b.instanceName, b.entryMember id settings) := by
  rcases mem_content h with ⟨_, rfl⟩ | ⟨-, _, _, rfl⟩ | ⟨settings, hk, rfl⟩ | ⟨_, -, hg⟩
  · cases hc
  · cases hc
  · exact ⟨settings, hk, (Option.some.inj hc).symm⟩
  · rw [swarm?_graphContent hg] at hc
    cases hc

theorem Accounts.mem_swarms_iff (hb : b.Coherent) (ha : b.Agenda (b.runServers root) (b.agenda root))
    (hacc : b.Accounts root p d l) (hn : b.index.node? id = some n) (hk : n.kind = .swarm settings)
    (howned : b.IsOwned (b.agenda root) id) {members : List String} {entry : Option String} :
    (b.instanceName id, members, entry) ∈ p.swarms ↔
      members = (b.index.members id).map b.instanceName ∧ entry = b.entryMember id settings := by
  have hkind : b.kindOf id = .swarm settings := (kindOf_eq hn).trans hk
  constructor
  · intro h
    obtain ⟨c, hc, hmade⟩ := List.mem_filterMap.mp h
    have hbuilding : c.isBuilding = true := by
      cases c <;> simp_all [Code.swarm?, Code.isBuilding]
    rcases hacc.exists_content hc hbuilding with ⟨q, -, -, hcq⟩ | ⟨e, he, hce⟩
    · obtain ⟨named, hkq, hown⟩ := swarm?_content hcq hmade
      obtain ⟨hname, hmembers, hentry⟩ : b.instanceName id = b.instanceName q.id ∧ _ := by simpa using hown
      have hsymbol : SymbolTable.needsSymbol (b.nodeOf q.id).kind = true := congrArg SymbolTable.needsSymbol hkq
      have hnq : b.index.node? q.id = some (b.nodeOf q.id) := node?_of_kind (by rw [hkq]; rfl)
      -- Names tell nodes apart.
      obtain ⟨rfl, -⟩ := hb.nameIn_inj hn (by rw [hk]; rfl) hnq hsymbol hname
      obtain rfl : named = settings := NodeKind.swarm.inj (hkq.symm.trans hkind)
      exact ⟨hmembers, hentry⟩
    · cases root with
      | some r => cases he
      | none =>
        obtain rfl := List.mem_singleton.mp he
        rw [swarm?_graphContent hce] at hmade
        cases hmade
  · rintro ⟨rfl, rfl⟩
    obtain ⟨q, hq, rfl, hpart⟩ := howned
    refine List.mem_filterMap.mpr ⟨.swarm (b.instanceName q.id) ((b.index.members q.id).map b.instanceName)
      (b.entryMember q.id settings) settings, hacc.content_subset hb ha (hacc.complete q hq) hpart ?_, rfl⟩
    simp [content, hkind]

end Program

section Warnings

/-- Whether a warning is about a swarm. -/
def isAboutSwarm (warning : String) : Bool :=
  "Swarm '".toList.isPrefixOf warning.toList

theorem isAboutSwarm_iff {warning : String} : isAboutSwarm warning = true ↔ "Swarm '".toList <+: warning.toList := by
  rw [isAboutSwarm, List.isPrefixOf_iff_prefix]

theorem isAboutSwarm_strangerMessage (n : Node) (wanted : String) : isAboutSwarm (strangerMessage n wanted) = true := by
  rw [isAboutSwarm_iff, strangerMessage, String.append_assoc, String.append_assoc, String.append_assoc,
    String.toList_append]
  exact List.prefix_append _ _

-- Other warnings start with other letters.
theorem not_isAboutSwarm_aloneMessage (n : Node) : ¬isAboutSwarm (aloneMessage n) = true := by
  rw [isAboutSwarm_iff, aloneMessage]
  simp [List.cons_prefix_cons]

theorem not_isAboutSwarm_advice (g : Graph) (a : Advice) : ¬isAboutSwarm (a.message g) = true := by
  rw [isAboutSwarm_iff]
  unfold Advice.message
  cases a <;> simp [List.cons_prefix_cons]

theorem not_isAboutSwarm_notice (notice : ToolNotice) : ¬isAboutSwarm notice.message = true := by
  rw [isAboutSwarm_iff]
  unfold ToolNotice.message
  cases notice <;> simp [List.cons_prefix_cons]

theorem not_isAboutSwarm_unchained (h : m ∈ b.unchained) : ¬isAboutSwarm m = true := by
  obtain ⟨source, -, hm⟩ := List.mem_flatMap.mp h
  obtain ⟨target, -, rfl⟩ := List.mem_map.mp hm
  rw [isAboutSwarm_iff]
  unfold unchainedMessage
  simp [List.cons_prefix_cons]

theorem mem_remarks_iff (hb : b.Coherent) (hm : isAboutSwarm m = true) : m ∈ b.remarks id ↔
    ∃ n settings w, b.index.node? id = some n ∧ n.kind = .swarm settings ∧
      settings.entryPoint.bind Text.nonBlank? = some w ∧
      (∀ x ∈ b.index.members id, x ≠ Text.trim w ∧ ¬b.IsCalled (Text.trim w) x) ∧ m = strangerMessage n w := by
  have hany (wanted : String) : ¬(b.index.members id).any (b.isNamed wanted) = true ↔
      ∀ x ∈ b.index.members id, x ≠ wanted ∧ ¬b.IsCalled wanted x := by
    rw [← List.isSome_find?, Option.not_isSome_iff_eq_none]
    exact picked_eq_none_iff hb
  constructor
  · intro h
    unfold remarks at h
    split at h <;> rename_i hk
    · split_ifs at h
      · rw [List.mem_singleton.mp h] at hm
        exact absurd hm (not_isAboutSwarm_aloneMessage _)
      · cases h
    · split at h <;> rename_i hw
      · split_ifs at h with hnamed
        · cases h
        · have hn : b.index.node? id = some (b.nodeOf id) := node?_of_kind (by rw [hk]; rfl)
          exact ⟨_, _, _, hn, hk, hw, (hany _).mp hnamed, List.mem_singleton.mp h⟩
      · cases h
    · cases h
  · rintro ⟨n, settings, w, hn, hk, hw, hnone, rfl⟩
    simp [remarks, kindOf_eq hn, nodeOf_eq hn, hk, hw, (hany _).mpr hnone]

end Warnings

end Blueprint

/-- A swarm of two agents that starts with the one that a text names. -/
def Graph.duo (label label' wanted : String) : Graph where
  nodes := [⟨"in", "Prompt", .input .default⟩,
    ⟨"t", "Team", .swarm { SwarmSettings.default with entryPoint := some wanted }⟩,
    ⟨"lead", label, .agent .default⟩, ⟨"writer", label', .agent .default⟩, ⟨"out", "Result", .output .default⟩]
  edges := [⟨"in", .output, "t", .userInput⟩, ⟨"t", .output, "out", .input⟩,
    ⟨"t", .subAgents, "lead", .orchestratorInput⟩, ⟨"t", .subAgents, "writer", .orchestratorInput⟩]

namespace Compilation

variable {g : Graph} {options : Options}

/-- A warning about a swarm is given for each swarm whose settings name none of its members. -/
theorem mem_warnings_iff_of_isAboutSwarm {root : Option String} {m : String}
    (h : (Compilation.mk g options .standard).compile.isSuccess = true)
    (hr : g.index.rootIn (g.index.effectiveMode options.mode) = .ok root) (hm : Blueprint.isAboutSwarm m = true) :
    m ∈ (Compilation.mk g options .standard).compile.warnings ↔
      ∃ t n settings w, g.node? t = some n ∧ n.kind = .swarm settings ∧
        settings.entryPoint.bind Text.nonBlank? = some w ∧
        (∀ x ∈ g.index.members t, x ≠ Text.trim w ∧ ¬(g.index.blueprint root).IsCalled (Text.trim w) x) ∧
        m = Blueprint.strangerMessage n w := by
  obtain ⟨p, hp, -⟩ := exists_program h
  have hac := Index.isAcyclic (exists_generated hp).1
  have hb := Blueprint.coherent_of_isAcyclic hac root
  -- No other source of warnings spells one like this.
  have hadvice : m ∉ g.index.validate.warnings := by
    intro hadvice
    obtain ⟨a, -, rfl⟩ := List.mem_map.mp hadvice
    exact Blueprint.not_isAboutSwarm_advice _ a hm
  have hnotice : m ∉ (Toolbox.notices g.nodes).map ToolNotice.message := by
    intro hnotice
    obtain ⟨notice, -, rfl⟩ := List.mem_map.mp hnotice
    exact Blueprint.not_isAboutSwarm_notice notice hm
  rw [compile_warnings h, List.mem_append, List.mem_append, (generate_unfolds hp hr).2, or_iff_right hadvice,
    or_iff_right hnotice, or_iff_left fun hlinear => Blueprint.not_isAboutSwarm_unchained hlinear.2.2 hm,
    List.mem_flatMap]
  constructor
  · rintro ⟨top, -, hbelow⟩
    obtain ⟨t, -, hremark⟩ := List.mem_flatMap.mp hbelow
    exact ⟨t, (Blueprint.mem_remarks_iff hb hm).mp hremark⟩
  · rintro ⟨t, n, settings, w, hn, hk, hsaid⟩
    -- Every swarm is below a node at the top level, and those are declared.
    obtain ⟨top, htop, hbelow⟩ := Index.exists_topLevel hac (Index.mem_executables_of_node? hn (by rw [hk]; rfl))
    refine ⟨top, ?_, List.mem_flatMap.mpr ⟨t, Index.mem_unfolding hac hbelow, ?_⟩⟩
    · rw [Blueprint.declared, List.mem_append, mem_distinct]
      exact Blueprint.mem_runs_or_idle root htop
    · exact (Blueprint.mem_remarks_iff hb hm).mpr ⟨n, settings, w, hn, hk, hsaid⟩

/-- A swarm of a program starts with the member that its settings pick, if they name one. The warnings about swarms are
of those whose settings name none of their members. -/
theorem compile_starts_swarms (h : (Compilation.mk g options .standard).compile.isSuccess = true) :
    ∃ p root, (Compilation.mk g options .standard).program? = some p ∧
      (Compilation.mk g options .standard).compile.sourceText = p.text ∧
      g.index.rootIn (g.index.effectiveMode options.mode) = .ok root ∧
      let b := g.index.blueprint root
      (∀ t n settings, g.node? t = some n → n.kind = .swarm settings →
        ∃ entry, (∀ members entry', (b.instanceName t, members, entry') ∈ p.swarms ↔
            members = (g.index.members t).map b.instanceName ∧ entry' = entry) ∧
          (settings.entryPoint.bind Text.nonBlank? = none → entry = none) ∧
          ∀ w, settings.entryPoint.bind Text.nonBlank? = some w → b.Picks t (Text.trim w) entry) ∧
      ∀ m, m ∈ (Compilation.mk g options .standard).compile.warnings ∧ Blueprint.isAboutSwarm m = true ↔
        ∃ t n settings w, g.node? t = some n ∧ n.kind = .swarm settings ∧
          settings.entryPoint.bind Text.nonBlank? = some w ∧
          (∀ x ∈ g.index.members t, x ≠ Text.trim w ∧ ¬b.IsCalled (Text.trim w) x) ∧
          m = Blueprint.strangerMessage n w := by
  obtain ⟨p, root, l, hp, htext, hr, hb, ha, hacc⟩ := exists_accounts h
  refine ⟨p, root, hp, htext, hr, fun t n settings hn hk => ?_, fun m => ⟨?_, ?_⟩⟩
  · have hex := Index.mem_executables_of_node? hn (by rw [hk]; rfl)
    have howned := Blueprint.isOwned_of_executable hb.acyclic root hex
    refine ⟨_, fun members entry => hacc.mem_swarms_iff hb ha hn hk howned, Blueprint.entryMember_of_unset,
      fun w hw => ?_⟩
    rw [Blueprint.entryMember_eq hw]
    exact Blueprint.picks hb t (Text.trim w)
  · exact fun ⟨hwarned, hm⟩ => (mem_warnings_iff_of_isAboutSwarm h hr hm).mp hwarned
  · rintro ⟨t, n, settings, w, hn, hk, hw, hnone, rfl⟩
    have hm := Blueprint.isAboutSwarm_strangerMessage n w
    exact ⟨(mem_warnings_iff_of_isAboutSwarm h hr hm).mpr ⟨t, n, settings, w, hn, hk, hw, hnone, rfl⟩, hm⟩

/-- A text that is the id of one member and names no other picks this one. -/
theorem duo_starts_with_writer :
    (Compilation.mk (.duo "Boss" "Editor" "writer") .default .standard).compile.isSuccess = true ∧
      (∃ p, (Compilation.mk (.duo "Boss" "Editor" "writer") .default .standard).program? = some p ∧
        ("team_swarm", ["boss_agent", "editor_agent"], some "editor_agent") ∈ p.swarms) ∧
      ∀ m ∈ (Compilation.mk (.duo "Boss" "Editor" "writer") .default .standard).compile.warnings,
        ¬Blueprint.isAboutSwarm m = true := by
  have success : (Compilation.mk (.duo "Boss" "Editor" "writer") .default .standard).compile.isSuccess = true := by
    decide +kernel
  obtain ⟨p, root, hp, -, hroot, hswarms, hwarnings⟩ := compile_starts_swarms success
  have hteam : (Graph.duo "Boss" "Editor" "writer").index.rootIn
      ((Graph.duo "Boss" "Editor" "writer").index.effectiveMode Options.default.mode) = .ok (some "t") := by
    decide +kernel
  obtain rfl : root = some "t" := Except.ok.inj (hroot.symm.trans hteam)
  obtain ⟨entry, hmade, -, hpicks⟩ := hswarms "t" _ _ rfl rfl
  have hpicks := hpicks "writer" (by decide)
  have hfree : ∀ x ∈ ["lead"], ¬((Graph.duo "Boss" "Editor" "writer").index.blueprint (some "t")).IsCalled
      (Text.trim "writer") x := by
    unfold Blueprint.IsCalled
    decide +kernel
  have hentry := (hpicks.by_id ["lead"] [] (by decide +kernel)).2.mpr hfree
  refine ⟨success, ⟨p, hp, (hmade _ _).mpr ⟨by decide +kernel, ?_⟩⟩, fun m hm habout => ?_⟩
  · rw [hentry]
    decide +kernel
  · obtain ⟨t, n, settings, w, hn, hk, hw, hnone, -⟩ := (hwarnings m).mp ⟨hm, habout⟩
    obtain ⟨hnode, rfl⟩ := Graph.mem_of_node? hn
    simp only [Graph.duo, List.mem_cons, List.not_mem_nil, or_false] at hnode
    rcases hnode with rfl | rfl | rfl | rfl | rfl
    all_goals cases hk
    obtain rfl : "writer" = w := Option.some.inj hw
    exact (hnone "writer" (by decide +kernel)).1 (by decide)

/-- The id of a member is taken for the label of the other, and an identifier with two underscores in a row for no
name at all. -/
theorem duo_entries_mistaken :
    let byId := Graph.duo "writer" "Editor" "writer"
    let byIdent := Graph.duo "Class" "Class" "class__iter"
    ((Compilation.ofGraph byId).compile.isSuccess = true ∧ byId.index.members "t" = ["lead", "writer"] ∧
        (byId.index.blueprint (some "t")).instanceName "writer" = "editor_agent" ∧
        (Compilation.ofGraph byId).program?.map Program.swarms =
          some [("team_swarm", ["writer_agent", "editor_agent"], some "writer_agent")]) ∧
      (Compilation.ofGraph byIdent).compile.isSuccess = true ∧
        (byIdent.index.blueprint (some "t")).identOf "writer" = "class__iter" ∧
        (Compilation.ofGraph byIdent).program?.map Program.swarms =
          some [("team_swarm", ["class__lead_agent", "class__iter_agent"], none)] ∧
        (Compilation.ofGraph byIdent).compile.warnings = ["Swarm 'Team' names entry point 'class__iter', " ++
          "which is not one of its members; the first member starts instead"] := by
  decide +kernel

end Compilation

end AgentWorkflow

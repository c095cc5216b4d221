import AgentWorkflow.Proofs.Compile.Pieces
import AgentWorkflow.Proofs.Compile.WellScoped
import AgentWorkflow.Proofs.Program.PerCall

/-!
Whether calls share instances.

The first function that wraps a swarm or a container constructs the members in its body. Main statement: all
functions of a generated program do so with the instances that they refer to exactly if no swarm and no
container is wrapped at two places.
-/

namespace AgentWorkflow

open Code

namespace Blueprint

variable {b : Blueprint} {first : List Demand} {servers built : List String} {l : Ledger} {q : Demand}
  {f : Fragment} {inside : List Fragment} {id x : String} {place : Place} {c : Code}

section Content

theorem instances_graphContent {builder name : String} {members : List String} {limits : List Limit}
    (hc : c ∈ b.graphContent builder name members limits) (hx : x ∈ c.instances) :
    ∃ m ∈ members, x = b.instanceName m := by
  rcases mem_graphContent hc with ⟨m, hm, rfl⟩ | rfl | rfl | ⟨_, _, rfl⟩ | ⟨_, rfl⟩ | ⟨_, rfl⟩
  · exact ⟨m, hm, List.mem_singleton.mp hx⟩
  all_goals cases hx

theorem exists_member_of_instances (hc : c ∈ b.content id) (hx : x ∈ c.instances) :
    (b.kindOf id).agent? = none ∧ ∃ m ∈ b.index.members id, x = b.instanceName m ∧
      ∀ place, ⟨m, b.memberPlace m place, .construction⟩ ∈ b.contentDemands id place := by
  have hmember (hk : ∀ place, b.contentDemands id place =
      (b.index.members id).map fun m => ⟨m, b.memberPlace m place, .construction⟩)
      (hx : ∃ m ∈ b.index.members id, x = b.instanceName m) : ∃ m ∈ b.index.members id, x = b.instanceName m ∧
        ∀ place, ⟨m, b.memberPlace m place, .construction⟩ ∈ b.contentDemands id place := by
    obtain ⟨m, hm, rfl⟩ := hx
    exact ⟨m, hm, rfl, fun place => hk place ▸ List.mem_map.mpr ⟨m, hm, rfl⟩⟩
  rcases mem_content hc with ⟨_, rfl⟩ | ⟨-, _, _, rfl⟩ | ⟨_, hk, rfl⟩ | ⟨_, hk, hg⟩
  · cases hx
  · cases hx
  · refine ⟨by rw [hk]; rfl, hmember (fun place => by rw [contentDemands, hk]) ?_⟩
    have hname : x ∈ (b.index.members id).map b.instanceName :=
      (List.mem_append.mp hx).elim (fun hx => hx) fun hx => mem_of_entryMember (Option.mem_toList.mp hx)
    obtain ⟨m, hm, rfl⟩ := List.mem_map.mp hname
    exact ⟨m, hm, rfl⟩
  · refine ⟨by rw [hk]; rfl, hmember (fun place => by rw [contentDemands, hk]) ?_⟩
    exact instances_graphContent hg hx

theorem exists_instances (hk : (b.kindOf id).agent? = none) (hex : (b.kindOf id).isExecutable = true) {m : String}
    (hm : m ∈ b.index.members id) : ∃ c ∈ b.content id, b.instanceName m ∈ c.instances := by
  unfold content
  cases hkind : b.kindOf id with
  | swarm settings =>
    exact ⟨_, List.mem_singleton_self _, List.mem_append_left _ (List.mem_map.mpr ⟨m, hm, rfl⟩)⟩
  | container settings =>
    refine ⟨.addNode (b.nameIn id .builder) (b.instanceName m) (b.identOf m), ?_, List.mem_singleton_self _⟩
    simp only [graphContent, List.mem_cons, List.mem_append, List.mem_map]
    exact Or.inl (Or.inl (Or.inl (Or.inl (Or.inr ⟨m, hm, rfl⟩))))
  | _ => simp_all [NodeKind.agent?, NodeKind.isExecutable]

theorem constructedAll_graphContent {builder name : String} {members : List String} {limits : List Limit} :
    constructedAll (b.graphContent builder name members limits) = [name] := by
  have hsteps {α : Type} (l : List α) (f : α → Code) (h : ∀ a, (f a).constructed = []) :
      constructedAll (l.map f) = [] := by
    refine List.eq_nil_iff_forall_not_mem.mpr fun x hx => ?_
    obtain ⟨c, hc, hx⟩ := mem_constructedAll.mp hx
    obtain ⟨a, -, rfl⟩ := List.mem_map.mp hc
    rw [h a] at hx
    cases hx
  simp only [graphContent, List.cons_append, constructedAll, constructedAll_append]
  rw [hsteps _ _ fun _ => rfl, hsteps _ _ fun _ => rfl, hsteps _ _ fun _ => rfl, hsteps _ _ fun _ => rfl]
  rfl

theorem constructedAll_content (hex : (b.kindOf id).isExecutable = true) :
    constructedAll (b.content id) = [b.instanceName id] := by
  unfold content instanceName
  cases hk : b.kindOf id with
  | agent settings => rfl
  | orchestrator settings => rfl
  | swarm settings =>
    rw [constructedAll_singleton]
    rfl
  | container settings => exact constructedAll_graphContent
  | _ => simp [hk, NodeKind.isExecutable] at hex

theorem body?_graphContent {builder name : String} {members : List String} {limits : List Limit}
    (hc : c ∈ b.graphContent builder name members limits) : c.body? = none := by
  rcases mem_graphContent hc with ⟨_, -, rfl⟩ | rfl | rfl | ⟨_, _, rfl⟩ | ⟨_, rfl⟩ | ⟨_, rfl⟩
  all_goals rfl

theorem body?_content (hc : c ∈ b.content id) : c.body? = none := by
  rcases mem_content hc with ⟨_, rfl⟩ | ⟨-, _, _, rfl⟩ | ⟨_, -, rfl⟩ | ⟨_, -, hg⟩
  · rfl
  · rfl
  · rfl
  · exact body?_graphContent hg

theorem constructsFirstAll_placeholder {n : Node} {function code : String} {body : List Code}
    (h : (placeholder n function code).body? = some body) : constructsFirstAll built body = true := by
  obtain rfl := Option.some.inj h
  refine constructsFirstAll_of_forall fun c hc _ _ => ?_
  rcases List.mem_append.mp hc with hc | hc
  · obtain ⟨text, -, rfl⟩ := List.mem_map.mp hc
    rfl
  · obtain rfl := List.mem_singleton.mp hc
    rfl

theorem constructsFirstAll_content (h : ∀ c ∈ b.content id, ∀ x ∈ c.instances, x ∈ built) :
    constructsFirstAll built (b.content id) = true :=
  constructsFirstAll_of_forall fun c hc _ hn =>
    constructsFirst_of_instances (inner_eq_nil (pieces_content hc)) fun x hx => hn (h c hc x hx)

theorem constructsFirstAll_fragmentOf (hq : q.part ≠ .construction) :
    constructsFirstAll built (b.fragmentOf inside q).code = true := by
  refine constructsFirstAll_of_forall fun c hc now _ => ?_
  rcases mem_fragmentOf hc with ⟨hp, -⟩ | ⟨-, rfl⟩ | htool
  · exact absurd hp hq
  · rfl
  · cases htool <;> rfl

end Content

section Wrapper

variable (hb : b.Coherent) (ha : b.Agenda servers first) (h : b.Sound first l)

theorem memberPlace_innerPlace (m : String) : b.memberPlace m (b.innerPlace id) = b.innerPlace id :=
  if_pos rfl

include hb ha h

theorem Sound.constructedAll_construction (hm : (q, f) ∈ l) (hq : q.part = .construction) :
    constructedAll f.code = [b.instanceName q.id] := by
  rw [h.part_eq hm (by rw [hq]; decide)]
  simp only [fragmentOf, hq]
  have hp := (h.demanded (Ledger.mem_keys_of_mem hm)).1.placed hb ha
  exact constructedAll_content (kindOf_isExecutable (hp.executable (Or.inl hq)))

theorem Sound.constructsFirstAll_inside (id : String) :
    constructsFirstAll [] (Fragment.layout (l.fragmentsAt (b.innerPlace id))) = true := by
  refine isSequential_constructsFirstAll.layout fun earlier f later hsplit now _ he => ?_
  obtain ⟨before, q, after, hl, hp, rfl⟩ := Ledger.fragmentsAt_split hsplit
  have hm : (q, f) ∈ l := by
    rw [hl]
    exact List.mem_append_right _ List.mem_cons_self
  by_cases hq : q.part = .construction
  · rw [h.part_eq hm (by rw [hq]; decide)] at he ⊢
    simp only [fragmentOf, hq] at he ⊢
    refine constructsFirstAll_content fun c hc x hx => ?_
    obtain ⟨-, m, -, rfl, hn⟩ := exists_member_of_instances hc hx
    have hn := hn q.place
    -- A member that is constructed at the same place stands earlier: it was demanded first, and is of a kind
    -- that does not come later.
    obtain ⟨g, hg⟩ := Ledger.exists_of_mem_keys (h.demandsOf_subset hl (by simpa [demandsOf, hq] using hn))
    have hgl : (⟨m, b.memberPlace m q.place, .construction⟩, g) ∈ l := by
      rw [hl]
      exact List.mem_append_left _ hg
    refine he g (Ledger.mem_fragmentsAt.mpr ⟨_, hg, ?_⟩) ?_ ?_
    · rw [hp]
      exact memberPlace_innerPlace m
    · rw [h.kind_eq hgl]
      exact position_of_mem_contentDemands hn
    · rw [h.constructedAll_construction hb ha hgl rfl]
      exact List.mem_singleton_self _
  · obtain ⟨inside, rfl⟩ := h.exists_inside hm
    exact constructsFirstAll_fragmentOf hq

/-- The function that wraps a node constructs the instances first that it refers to, unless the node is a swarm or
a container that was wrapped before. -/
theorem Sound.constructsFirstAll_wrapperBody (hq : q ∈ l.keys) (hw : q.part = .wrapper)
    (hhome : (b.kindOf q.id).agent? = none → l.home? q.id = some q.place) :
    constructsFirstAll [] (b.wrapperBody q.id q.place (b.insideOf l q)) = true := by
  have hp := (h.demanded hq).1.placed hb ha
  have hwork : constructsFirstAll [] (b.work q.id (b.insideOf l q)) = true := by
    refine isSequential_constructsFirstAll.joinBlank.mpr ⟨?_, constructsFirstAll_append.mpr ⟨?_, ?_⟩⟩
    · unfold insideOf
      split_ifs
      · exact h.constructsFirstAll_inside hb ha q.id
      · rfl
    · -- Only a swarm or a container refers to instances, and what was put inside it constructs them.
      refine constructsFirstAll_content fun c hc x hx => ?_
      obtain ⟨hk, m, -, rfl, hn⟩ := exists_member_of_instances hc hx
      have hn := hn (b.innerPlace q.id)
      rw [memberPlace_innerPlace] at hn
      have hkey := h.closed q hq (by simpa [demandsOf, hw] using Or.inl hn)
      obtain ⟨g, hg⟩ := Ledger.exists_of_mem_keys hkey
      rw [insideOf, if_pos (hhome hk), List.nil_append]
      have hname : b.instanceName m ∈ constructedAll g.code := by
        rw [h.constructedAll_construction hb ha hg rfl]
        exact List.mem_singleton_self _
      obtain ⟨c, hc, hx⟩ := mem_constructedAll.mp hname
      exact mem_constructedAll.mpr ⟨c, Fragment.mem_layout_of_mem (Ledger.mem_fragmentsAt.mpr ⟨_, hg, rfl⟩) hc, hx⟩
    · rw [constructsFirstAll_singleton, constructedAll_content (kindOf_isExecutable (hp.executable (Or.inr hw)))]
      simp [constructsFirst, instances]
  unfold wrapperBody
  split_ifs
  · rw [constructsFirstAll_singleton]
    exact hwork
  · exact hwork

theorem Sound.members_ne_nil (hq : q ∈ l.keys) (hpart : q.part = .construction ∨ q.part = .wrapper)
    (hk : (b.kindOf q.id).agent? = none) : b.index.members q.id ≠ [] := by
  obtain ⟨hd, hfits⟩ := h.demanded hq
  have hex := kindOf_isExecutable ((hd.placed hb ha).executable hpart)
  unfold Fits at hfits
  cases hkind : b.kindOf q.id <;> simp_all [NodeKind.agent?, NodeKind.isExecutable]

theorem Sound.home?_of_constructsFirstAll (hq : q ∈ l.keys) (hw : q.part = .wrapper)
    (hk : (b.kindOf q.id).agent? = none)
    (hbody : constructsFirstAll [] (b.wrapperBody q.id q.place (b.insideOf l q)) = true) :
    l.home? q.id = some q.place := by
  by_contra hhome
  have hp := (h.demanded hq).1.placed hb ha
  have hexec := hp.executable (Or.inr hw)
  -- Nothing was put inside, so the member would have to be constructed by the content, which is of the node only.
  obtain ⟨m, hm⟩ := List.exists_mem_of_ne_nil _ (h.members_ne_nil hb ha hq (Or.inr hw) hk)
  obtain ⟨c, hc, hx⟩ := exists_instances hk (kindOf_isExecutable hexec) hm
  have hwork : constructsFirstAll [] (b.work q.id []) = true := by
    rw [insideOf, if_neg hhome] at hbody
    unfold wrapperBody at hbody
    split_ifs at hbody
    · rw [constructsFirstAll_singleton] at hbody
      exact hbody
    · exact hbody
  have hcontent := (constructsFirstAll_append.mp hwork).1
  have hname := (mem_of_constructsFirstAll hcontent hc hx).resolve_left List.not_mem_nil
  rw [constructedAll_content (kindOf_isExecutable hexec), List.mem_singleton] at hname
  obtain ⟨n, hn, hkn⟩ := hexec
  obtain ⟨n', hn', hkn'⟩ := hb.member hm
  obtain ⟨rfl, -⟩ := hb.nameIn_inj hn' (needsSymbol_of_isExecutable hkn') hn (needsSymbol_of_isExecutable hkn) hname
  exact hb.acyclic _ (.single hm)

end Wrapper

section Program

variable {root : Option String} {p : Program} {d : Draft} (hb : b.Coherent)
  (ha : b.Agenda (b.runServers root) (b.agenda root)) (hacc : b.Accounts root p d l)

include hb ha hacc

theorem Accounts.mem_bodies {body : List Code} (h : body ∈ p.bodies) :
    (∃ q ∈ l.keys, q.part = .wrapper ∧ body = b.wrapperBody q.id q.place (b.insideOf l q)) ∨
      constructsFirstAll [] body = true := by
  obtain ⟨c, hc, hbody⟩ := List.mem_filterMap.mp h
  rcases hacc.exists_origin hc (isFrame_of_body? hbody) with ⟨q, f, hm, hcf⟩ | ⟨q, -, -, hcq⟩ | ⟨e, he, hce⟩
  · obtain ⟨inside, rfl⟩ := hacc.sound.exists_inside hm
    rcases mem_fragmentOf hcf with ⟨-, hcontent⟩ | ⟨hq, -⟩ | htool
    · rw [body?_content hcontent] at hbody
      cases hbody
    · rw [hacc.sound.wrapper_code hb ha hm hq] at hcf
      obtain rfl := List.mem_singleton.mp hcf
      exact Or.inl ⟨q, Ledger.mem_keys_of_mem hm, hq, (Option.some.inj hbody).symm⟩
    · cases htool with
      | placeholder => exact Or.inr (constructsFirstAll_placeholder hbody)
      | _ => cases hbody
  · rw [body?_content hcq] at hbody
    cases hbody
  · cases root with
    | some r => cases he
    | none =>
      obtain rfl := List.mem_singleton.mp he
      rw [body?_graphContent hce] at hbody
      cases hbody

theorem Accounts.buildsPerCall_iff : p.BuildsPerCall ↔
    ∀ q ∈ l.keys, q.part = .wrapper → (b.kindOf q.id).agent? = none → l.home? q.id = some q.place := by
  constructor
  · intro h q hq hw hk
    refine hacc.sound.home?_of_constructsFirstAll hb ha hq hw hk (h _ (List.mem_filterMap.mpr ?_))
    obtain ⟨f, hf⟩ := Ledger.exists_of_mem_keys hq
    refine ⟨.toolFunction (b.nameIn q.id .tool) (wrapperText (b.nodeOf q.id))
      (b.wrapperBody q.id q.place (b.insideOf l q)), hacc.piecesAll_subset hb ha hf ?_, rfl⟩
    rw [hacc.sound.wrapper_code hb ha hf hw]
    exact mem_piecesAll_of_mem (List.mem_singleton_self _)
  · intro h body hbody
    rcases hacc.mem_bodies hb ha hbody with ⟨q, hq, hw, rfl⟩ | hfirst
    · exact hacc.sound.constructsFirstAll_wrapperBody hb ha hq hw (h q hq hw)
    · exact hfirst

/-- The functions of a program construct the instances that they refer to exactly if no swarm and no container is
wrapped at two places. -/
theorem Accounts.buildsPerCall_iff_wrappedOnce : p.BuildsPerCall ↔
    ∀ id, (b.kindOf id).agent? = none → ∀ s s', ⟨id, s, .wrapper⟩ ∈ d.demands → ⟨id, s', .wrapper⟩ ∈ d.demands →
      s = s' := by
  simp only [hacc.demands]
  rw [hacc.buildsPerCall_iff hb ha]
  constructor
  · intro h id hk s s' hs hs'
    exact Option.some.inj ((h _ hs rfl hk).symm.trans (h _ hs' rfl hk))
  · rintro h ⟨id, s, part⟩ hq rfl hk
    obtain ⟨home, hhome, hkey⟩ := Sound.exists_home (Sound.isWrapped_of_mem hq rfl)
    rw [hhome, h id hk _ _ hkey hq]

end Program

theorem Demanded.place_of_wrapper {root : Option String} (h : b.Demanded (b.agenda root) q) (hq : q.part = .wrapper) :
    b.closures.needsScope q.id = true ∨ q.place = .topLevel := by
  cases h with
  | first h =>
    rcases mem_agenda.mp h with ⟨id, -, rfl⟩ | ⟨id, -, rfl⟩ | ⟨s, -, rfl⟩
    · cases hq
    · exact Or.inr rfl
    · cases hq
  | @step p _ _ h =>
    have hcontent : ∃ place, q ∈ b.contentDemands p.id place := by
      unfold demandsOf at h
      split at h
      · exact ⟨_, h⟩
      · rcases List.mem_append.mp h with h | h
        · exact ⟨_, h⟩
        · split_ifs at h
          · obtain ⟨s, -, rfl⟩ := List.mem_map.mp h
            cases hq
          · cases h
      all_goals cases h
    obtain ⟨place, hcontent⟩ := hcontent
    rcases mem_contentDemands hcontent with ht | ⟨m, -, rfl⟩ | ⟨m, -, rfl⟩
    · rcases mem_toolDemands ht with ⟨t, -, rfl⟩ | ⟨t, _, -, rfl⟩ <;> cases hq
    · exact (dependencyPlace_eq m place).imp (fun hp => hp.2.2) fun hp => hp
    · cases hq

end Blueprint

/-- A team of one writer with a tool server. It is a member of the lead, and of the planner whom the lead has as
a member too. -/
def Graph.twiceWrapped : Graph where
  nodes := [⟨"in", "Prompt", .input .default⟩, ⟨"r", "Lead", .orchestrator .default⟩,
    ⟨"p", "Planner", .orchestrator .default⟩, ⟨"t", "Team", .swarm .default⟩, ⟨"a", "Writer", .agent .default⟩,
    ⟨"s", "Files", .server { ServerSettings.default with command := some "files" }⟩,
    ⟨"out", "Result", .output .default⟩]
  edges := [⟨"in", .output, "r", .userInput⟩, ⟨"r", .output, "out", .input⟩,
    ⟨"r", .subAgents, "p", .orchestratorInput⟩, ⟨"r", .subAgents, "t", .orchestratorInput⟩,
    ⟨"p", .subAgents, "t", .orchestratorInput⟩, ⟨"t", .subAgents, "a", .orchestratorInput⟩,
    ⟨"s", .toolOutput, "a", .tools⟩]

/-- The same without the server. -/
def Graph.onceWrapped : Graph where
  nodes := Graph.twiceWrapped.nodes.filter (·.id ≠ "s")
  edges := Graph.twiceWrapped.edges.filter (·.source ≠ "s")

namespace Compilation

variable {g : Graph} {options : Options}

/-- In a generated program each function that wraps a node constructs the instances which it refers to exactly if
no swarm and no container is wrapped at two places. -/
theorem compile_buildsPerCall_iff (h : (Compilation.mk g options .standard).compile.isSuccess = true) :
    ∃ p, (Compilation.mk g options .standard).program? = some p ∧
      (Compilation.mk g options .standard).compile.sourceText = p.text ∧
      (p.BuildsPerCall ↔ ∀ id n, g.node? id = some n → n.kind.agent? = none → ∀ s s',
        ⟨id, s, .wrapper⟩ ∈ (Compilation.mk g options .standard).generate.2.demands →
          ⟨id, s', .wrapper⟩ ∈ (Compilation.mk g options .standard).generate.2.demands → s = s') := by
  obtain ⟨p, root, l, hp, htext, -, hb, ha, hacc⟩ := exists_accounts h
  refine ⟨p, hp, htext, (hacc.buildsPerCall_iff_wrappedOnce hb ha).trans ?_⟩
  constructor
  · intro hall id n hn hk
    exact hall id (by rwa [Blueprint.kindOf_eq (b := g.index.blueprint root) hn])
  · intro hall id hk s s' hs
    -- What is wrapped exists.
    obtain ⟨n, hn, -⟩ := ((hacc.sound.demanded ((hacc.demands _).mp hs)).1.placed hb ha).executable (Or.inr rfl)
    rw [Blueprint.kindOf_eq hn] at hk
    exact hall id n hn hk s s' hs

/-- The function that wraps the team stands in the planner's function and in the entry function. The latter refers
to the writer, and does not construct it. -/
theorem twiceWrapped_not_buildsPerCall :
    (Compilation.ofGraph .twiceWrapped).validate.valid = true ∧ Graph.twiceWrapped.HasUniqueIds ∧
      (Compilation.ofGraph .twiceWrapped).compile.isSuccess = true ∧
      ∃ p, (Compilation.ofGraph .twiceWrapped).program? = some p ∧ ¬p.BuildsPerCall := by
  have evaluated : ((Compilation.ofGraph .twiceWrapped).program?.map fun p => decide p.BuildsPerCall) =
      some false := by decide +kernel
  obtain ⟨p, hp, hn⟩ := Option.map_eq_some_iff.mp evaluated
  exact ⟨by decide +kernel, by decide, by decide +kernel, p, hp, of_decide_eq_false hn⟩

/-- Without the server the team is wrapped at the top level only. -/
theorem onceWrapped_buildsPerCall :
    (Compilation.mk .onceWrapped .default .standard).compile.isSuccess = true ∧
      ∃ p, (Compilation.mk .onceWrapped .default .standard).program? = some p ∧ p.BuildsPerCall := by
  have success : (Compilation.mk .onceWrapped .default .standard).compile.isSuccess = true := by decide +kernel
  have once : ∀ q ∈ (Compilation.mk .onceWrapped .default .standard).generate.2.demands,
      q.part = .wrapper → q.place = .topLevel := by decide +kernel
  obtain ⟨p, hp, -, hiff⟩ := compile_buildsPerCall_iff success
  exact ⟨success, p, hp, hiff.mpr fun _ _ _ _ _ _ hs hs' => (once _ hs rfl).trans (once _ hs' rfl).symm⟩

/-- All functions construct the instances that they refer to if no swarm and no container needs a server. -/
theorem compile_buildsPerCall_of_no_servers (h : (Compilation.mk g options .standard).compile.isSuccess = true)
    (hno : ∀ id n, g.node? id = some n → n.kind.agent? = none → g.index.closures.servers id = []) :
    ∃ p, (Compilation.mk g options .standard).program? = some p ∧ p.BuildsPerCall := by
  obtain ⟨p, root, l, hp, -, -, hb, ha, hacc⟩ := exists_accounts h
  refine ⟨p, hp, (hacc.buildsPerCall_iff_wrappedOnce hb ha).mpr fun id hk s s' hs hs' => ?_⟩
  have hplace {s : Place} (hs : ⟨id, s, .wrapper⟩ ∈ (Compilation.mk g options .standard).generate.2.demands) :
      s = .topLevel := by
    have hd := (hacc.sound.demanded ((hacc.demands _).mp hs)).1
    obtain ⟨n, hn, -⟩ := (hd.placed hb ha).executable (Or.inr rfl)
    rw [Blueprint.kindOf_eq hn] at hk
    refine (hd.place_of_wrapper rfl).resolve_left fun hscope => ?_
    exact Blueprint.needsScope_iff.mp hscope (hno id n hn hk)
  rw [hplace hs, hplace hs']

end Compilation

end AgentWorkflow

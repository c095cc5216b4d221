import AgentWorkflow.Proofs.Compile.EntryPoints
import AgentWorkflow.Proofs.Program.Builders

/-!
The dependency graphs that a program builds.

A container and a workflow in graph mode each build a graph of their members. Data flow between members is not circular,
so going back from any of them one comes to a member that starts. Main statement: whenever a program builds a graph, it
adds each member once, the data flow between them and nothing else, and starts from where every member is reached.
-/

namespace AgentWorkflow

open Relation

/-- The calls build the dependency graph of some nodes, along the data flow between them. -/
structure GraphCalls.Models (s : GraphCalls) (b : Blueprint) (members : List String) : Prop where
  /-- Each member is added once, with the variable of its instance and under its identifier. -/
  steps : s.steps = members.map fun m => (b.instanceName m, b.identOf m)
  nodup : members.Nodup
  named : ∀ m ∈ members, b.symbols.ident? m = some (b.identOf m)
  ids_nodup : s.ids.Nodup
  edges : ∀ u ∈ members, ∀ v ∈ members, s.Leads (b.identOf u) (b.identOf v) ↔ b.index.graph.Connects .dataFlow u v
  edges_nodup : s.edges.Nodup
  edges_added : ∀ source target, s.Leads source target → source ∈ s.ids ∧ target ∈ s.ids
  starts_added : s.starts ⊆ s.ids
  starts_ne_nil : s.starts ≠ []
  reached : ∀ id ∈ s.ids, ∃ start ∈ s.starts, ReflTransGen s.Leads start id

namespace Blueprint

/-- The calls that build the dependency graph of some members. -/
def graphCalls (b : Blueprint) (builder name : String) (members : List String) (limits : List Limit) : GraphCalls where
  builder := builder
  name := name
  steps := members.map fun m => (b.instanceName m, b.identOf m)
  edges := b.steps (members.zip (members.map b.identOf))
  starts := b.starts (members.zip (members.map b.identOf))
  limits := limits

variable {b : Blueprint} {builder name : String} {members : List String} {limits : List Limit}

theorem code_graphCalls : (b.graphCalls builder name members limits).code = b.graphContent builder name members limits := by
  simp [graphContent, graphCalls, GraphCalls.code]

theorem ids_graphCalls : (b.graphCalls builder name members limits).ids = members.map b.identOf := by
  simp [graphCalls, GraphCalls.ids]

theorem steps_zip_map : b.steps (members.zip (members.map b.identOf)) =
    (members.flatMap fun m => ((b.index.dataSuccessors m).filter (· ∈ members)).map fun next => (m, next)).map
      (Prod.map b.identOf b.identOf) := by
  rw [steps, ← List.map_prod_left_eq_zip, List.flatMap_map, List.map_flatMap]
  refine List.flatMap_congr fun m _ => ?_
  simp only [List.map_prod_left_eq_zip, Entries.get?_zip_map, List.map_map]
  rw [← List.filterMap_eq_map, List.filterMap_filter]
  refine List.filterMap_congr fun next _ => ?_
  by_cases hn : next ∈ members <;> simp [hn]

theorem mem_joined {pair : String × String} (h : pair ∈ members.flatMap fun m =>
    ((b.index.dataSuccessors m).filter (· ∈ members)).map fun next => (m, next)) :
    pair.1 ∈ members ∧ pair.2 ∈ members := by
  obtain ⟨m, hm, h⟩ := List.mem_flatMap.mp h
  obtain ⟨next, hnext, rfl⟩ := List.mem_map.mp h
  exact ⟨hm, of_decide_eq_true (List.mem_filter.mp hnext).2⟩

theorem joined_nodup (hn : members.Nodup) :
    (members.flatMap fun m => ((b.index.dataSuccessors m).filter (· ∈ members)).map fun next => (m, next)).Nodup := by
  refine List.nodup_flatMap.mpr ⟨fun m _ => ?_, hn.imp fun hne => ?_⟩
  · exact ((distinct_nodup _).filter _).map (Prod.mk_right_injective m)
  · rintro ⟨source, target⟩ h h'
    obtain ⟨_, -, he⟩ := List.mem_map.mp h
    obtain ⟨_, -, he'⟩ := List.mem_map.mp h'
    exact hne ((Prod.mk.inj he).1.trans (Prod.mk.inj he').1.symm)

theorem leads_graphCalls {source target : String} : (b.graphCalls builder name members limits).Leads source target ↔
    ∃ m ∈ members, ∃ next ∈ members, next ∈ b.index.dataSuccessors m ∧
      source = b.identOf m ∧ target = b.identOf next :=
  mem_steps

theorem mem_starts_graphCalls {id : String} : id ∈ (b.graphCalls builder name members limits).starts ↔
    ∃ m ∈ members, (∀ q ∈ b.index.dataPredecessors m, q ∉ members) ∧ b.identOf m = id := by
  change id ∈ b.starts _ ↔ _
  rw [starts_zip_map]
  simp [and_assoc]

/-- Where nothing leads back to itself, one comes from each of finitely many vertices back to one that no other of them
leads to. -/
theorem exists_first {r : String → String → Prop} (hr : ∀ v, ¬TransGen r v v) {m : String} (hm : m ∈ members) :
    ∃ first ∈ members, (∀ q ∈ members, ¬r q first) ∧
      ReflTransGen (fun u v => u ∈ members ∧ v ∈ members ∧ r u v) first m := by
  have hwf : WellFounded fun a b : {v // v ∈ members} => TransGen r a b := by
    have : Finite {v // v ∈ members} := List.finite_toSet members
    have : IsTrans {v // v ∈ members} fun a b => TransGen r a b := ⟨fun _ _ _ => TransGen.trans⟩
    have : Std.Irrefl fun a b : {v // v ∈ members} => TransGen r a b := ⟨fun a => hr a⟩
    exact Finite.wellFounded_of_trans_of_irrefl _
  refine hwf.induction (C := fun m => ∃ first ∈ members, (∀ q ∈ members, ¬r q first) ∧
    ReflTransGen (fun u v => u ∈ members ∧ v ∈ members ∧ r u v) first m) ⟨m, hm⟩ ?_
  rintro ⟨m, hm⟩ ih
  by_cases hq : ∃ q ∈ members, r q m
  · obtain ⟨q, hq, hqm⟩ := hq
    obtain ⟨first, hfirst, hnone, hreach⟩ := ih ⟨q, hq⟩ (.single hqm)
    exact ⟨first, hfirst, hnone, hreach.tail ⟨hq, hm, hqm⟩⟩
  · push Not at hq
    exact ⟨m, hm, hq, .refl⟩

section Models

variable {g : Graph} {root : Option String} (hb : (g.index.blueprint root).Coherent)
  (hex : ∀ m ∈ members, ∃ n, g.node? m = some n ∧ n.kind.isExecutable = true)

include hb hex

theorem identOf_inj_of_mem {u v : String} (hu : u ∈ members) (hv : v ∈ members)
    (h : (g.index.blueprint root).identOf u = (g.index.blueprint root).identOf v) : u = v := by
  obtain ⟨n, hn, hk⟩ := hex u hu
  obtain ⟨n', hn', hk'⟩ := hex v hv
  exact hb.identOf_inj hn hk hn' hk' h

/-- Identifiers tell members apart, so the steps of two members are joined exactly if data flows between them. -/
theorem leads_graphCalls_iff {u v : String} (hu : u ∈ members) (hv : v ∈ members) :
    ((g.index.blueprint root).graphCalls builder name members limits).Leads
      ((g.index.blueprint root).identOf u) ((g.index.blueprint root).identOf v) ↔ g.Connects .dataFlow u v := by
  rw [leads_graphCalls]
  constructor
  · rintro ⟨m, hm, next, hnext, hflow, hum, hvn⟩
    rw [identOf_inj_of_mem hb hex hu hm hum, identOf_inj_of_mem hb hex hv hnext hvn]
    exact Index.mem_dataSuccessors_iff_edge.mp hflow
  · exact fun h => ⟨u, hu, v, hv, Index.mem_dataSuccessors_iff_edge.mpr h, rfl, rfl⟩

theorem edges_graphCalls_nodup (hn : members.Nodup) :
    ((g.index.blueprint root).graphCalls builder name members limits).edges.Nodup := by
  rw [graphCalls, steps_zip_map]
  refine (joined_nodup hn).map_on ?_
  rintro ⟨u, v⟩ huv ⟨u', v'⟩ huv' he
  obtain ⟨hu, hv⟩ := mem_joined huv
  obtain ⟨hu', hv'⟩ := mem_joined huv'
  obtain ⟨hfst, hsnd⟩ := Prod.mk.inj he
  exact Prod.ext (identOf_inj_of_mem hb hex hu hu' hfst) (identOf_inj_of_mem hb hex hv hv' hsnd)

theorem exists_start (builder name : String) (limits : List Limit)
    (hflow : ∀ id, ¬TransGen (g.Connects .dataFlow) id id) {m : String} (hm : m ∈ members) :
    ∃ start ∈ ((g.index.blueprint root).graphCalls builder name members limits).starts,
      ReflTransGen ((g.index.blueprint root).graphCalls builder name members limits).Leads start
        ((g.index.blueprint root).identOf m) := by
  obtain ⟨first, hfirst, hnone, hreach⟩ := exists_first hflow hm
  refine ⟨_, mem_starts_graphCalls.mpr ⟨first, hfirst, fun q hq hmem => ?_, rfl⟩, ?_⟩
  · exact hnone q hmem (Index.mem_dataPredecessors_iff_edge.mp hq)
  · exact hreach.lift _ fun u v ⟨hu, hv, huv⟩ => (leads_graphCalls_iff hb hex hu hv).mpr huv

theorem graphCalls_models (hflow : ∀ id, ¬TransGen (g.Connects .dataFlow) id id) (hn : members.Nodup)
    (hne : members ≠ []) :
    ((g.index.blueprint root).graphCalls builder name members limits).Models (g.index.blueprint root) members where
  steps := rfl
  nodup := hn
  named m hm := by
    obtain ⟨n, hn, hk⟩ := hex m hm
    exact hb.ident?_eq hn (needsSymbol_of_isExecutable hk)
  ids_nodup := by
    rw [ids_graphCalls]
    exact hn.map_on fun u hu v hv h => identOf_inj_of_mem hb hex hu hv h
  edges u hu v hv := leads_graphCalls_iff hb hex hu hv
  edges_nodup := edges_graphCalls_nodup hb hex hn
  edges_added source target h := by
    obtain ⟨m, hm, next, hnext, -, rfl, rfl⟩ := leads_graphCalls.mp h
    rw [ids_graphCalls]
    exact ⟨List.mem_map_of_mem hm, List.mem_map_of_mem hnext⟩
  starts_added id hid := by
    obtain ⟨m, hm, -, rfl⟩ := mem_starts_graphCalls.mp hid
    rw [ids_graphCalls]
    exact List.mem_map_of_mem hm
  starts_ne_nil := by
    obtain ⟨m, hm⟩ := List.exists_mem_of_ne_nil _ hne
    obtain ⟨start, hstart, -⟩ := exists_start hb hex builder name limits hflow hm
    exact List.ne_nil_of_mem hstart
  reached := by
    rw [ids_graphCalls]
    exact List.forall_mem_map.mpr fun m hm => exists_start hb hex builder name limits hflow hm

end Models

section BuildsOnly

variable {root : Option String} {good : GraphCalls → Prop} {id : String} {q : Demand} {f : Fragment} {inside : List Fragment}
  {l : Ledger} {first : List Demand} {p : Program} {d : Draft}

/-- The calls that build the graph of a container. -/
def containerCalls (b : Blueprint) (id : String) (settings : ContainerSettings) : GraphCalls :=
  b.graphCalls (b.nameIn id .builder) (b.nameIn id .graph) (b.index.members id) settings.limits

/-- The calls that build the graph of a workflow. -/
def workflowCalls (b : Blueprint) : GraphCalls :=
  b.graphCalls workflowBuilder workflowGraph (distinct b.index.topLevel) []

theorem buildsOnly_graphContent (h : good (b.graphCalls builder name members limits)) :
    Code.BuildsOnly good (b.graphContent builder name members limits) := by
  rw [← code_graphCalls, ← List.append_nil (GraphCalls.code _)]
  exact .graph h .nil

theorem buildsOnly_content (h : ∀ settings, b.kindOf id = .container settings → good (b.containerCalls id settings)) :
    Code.BuildsOnly good (b.content id) := by
  unfold content
  split <;> rename_i hk
  · exact .piece rfl .nil (.single rfl .nil)
  · exact .piece rfl .nil (.single rfl .nil)
  · exact .single rfl .nil
  · exact buildsOnly_graphContent (h _ hk)
  · exact .nil

theorem IsToolCode.buildsOnly {c : Code} (h : IsToolCode c) :
    c.isBuilderCall = false ∧ Code.BuildsOnly good c.inner := by
  cases h with
  | placeholder =>
    refine ⟨rfl, .append (.of_forall fun c hc => ?_) (.single rfl .nil)⟩
    obtain ⟨_, -, rfl⟩ := List.mem_map.mp hc
    exact ⟨rfl, .nil⟩
  | _ => exact ⟨rfl, .nil⟩

theorem buildsOnly_fragmentOf
    (h : ∀ settings, b.kindOf q.id = .container settings → good (b.containerCalls q.id settings))
    (hin : ∀ f ∈ inside, Code.BuildsOnly good f.code) : Code.BuildsOnly good (b.fragmentOf inside q).code := by
  have hwork : Code.BuildsOnly good (b.work q.id inside) :=
    (Code.BuildsOnly.layout hin).joinBlank ((buildsOnly_content h).append (.single rfl .nil))
  unfold fragmentOf
  split
  · exact buildsOnly_content h
  · refine .single rfl ?_
    change Code.BuildsOnly good (b.wrapperBody q.id q.place inside)
    unfold wrapperBody
    split_ifs
    · exact .single rfl hwork
    · exact hwork
  · exact .of_forall fun c hc => (isToolCode_clientContent hc).buildsOnly
  · exact .of_forall fun c hc => (isToolCode_customContent hc).buildsOnly

theorem Sound.buildsOnly (hs : b.Sound first l)
    (h : ∀ q ∈ l.keys, ∀ settings, b.kindOf q.id = .container settings → good (b.containerCalls q.id settings))
    (hm : (q, f) ∈ l) : Code.BuildsOnly good f.code := by
  refine hs.induction (motive := fun _ f => Code.BuildsOnly good f.code) ?_ ?_ hm
  · exact fun q hq _ => buildsOnly_fragmentOf (h q hq) (by simp)
  · intro q hq _ inside hin
    refine buildsOnly_fragmentOf (h q hq) fun f hf => ?_
    obtain ⟨_, -, -, hf⟩ := hin f hf
    exact hf

theorem Accounts.buildsOnly (hacc : b.Accounts root p d l)
    (h : ∀ q ∈ l.keys, ∀ settings, b.kindOf q.id = .container settings → good (b.containerCalls q.id settings))
    (hw : root = none → good b.workflowCalls) : Code.BuildsOnly good p.code := by
  have hin {place : Place} {f : Fragment} (hf : f ∈ b.fragmentsIn root l place) : Code.BuildsOnly good f.code := by
    rcases List.mem_append.mp hf with hf | hf
    · obtain ⟨q, hq, -⟩ := Ledger.mem_fragmentsAt.mp hf
      exact hacc.sound.buildsOnly h hq
    · split_ifs at hf
      · cases root with
        | some r => cases hf
        | none =>
          obtain rfl := List.mem_singleton.mp hf
          exact buildsOnly_graphContent (hw rfl)
      · cases hf
  obtain ⟨prompt, hfr⟩ := hacc.fragments
  refine .program fun f hf => ?_
  rw [hfr] at hf
  rcases List.mem_append.mp hf with hf | hf
  · exact hin hf
  · obtain rfl := List.mem_singleton.mp hf
    exact .entry fun f hf => hin hf

end BuildsOnly

end Blueprint

/-- The calls build the graph of a container from its members. -/
structure GraphCalls.BuildsContainer (s : GraphCalls) (b : Blueprint) (id : String) : Prop where
  builder : s.builder = b.nameIn id .builder
  name : s.name = b.nameIn id .graph
  models : s.Models b (b.index.members id)

/-- The calls build the graph of a workflow from what is at the top level. -/
structure GraphCalls.BuildsWorkflow (s : GraphCalls) (b : Blueprint) : Prop where
  builder : s.builder = Blueprint.workflowBuilder
  name : s.name = Blueprint.workflowGraph
  models : s.Models b b.index.topLevel

namespace Blueprint

variable {g : Graph} {root : Option String} {p : Program} {d : Draft} {l : Ledger} {id : String}

theorem containerCalls_buildsContainer (hb : (g.index.blueprint root).Coherent)
    (hflow : ∀ id, ¬TransGen (g.Connects .dataFlow) id id) (hne : g.index.members id ≠ [])
    (settings : ContainerSettings) :
    ((g.index.blueprint root).containerCalls id settings).BuildsContainer (g.index.blueprint root) id :=
  ⟨rfl, rfl, graphCalls_models hb (fun _ hm => (Index.kinds_of_mem_members hm).2) hflow Index.members_nodup hne⟩

theorem workflowCalls_buildsWorkflow (ids : g.HasUniqueIds) (hb : (g.index.blueprint root).Coherent)
    (hflow : ∀ id, ¬TransGen (g.Connects .dataFlow) id id) (hne : g.index.topLevel ≠ []) :
    (g.index.blueprint root).workflowCalls.BuildsWorkflow (g.index.blueprint root) := by
  have htop : distinct g.index.topLevel = g.index.topLevel := distinct_eq_self (Index.topLevel_nodup ids)
  have hex : ∀ m ∈ g.index.topLevel, ∃ n, g.node? m = some n ∧ n.kind.isExecutable = true :=
    fun _ hm => (Index.mem_executables ids).mp (Index.mem_topLevel.mp hm).1
  refine ⟨rfl, rfl, ?_⟩
  change (GraphCalls.Models ((g.index.blueprint root).graphCalls _ _ (distinct g.index.topLevel) _) _ g.index.topLevel)
  rw [htop]
  exact graphCalls_models hb hex hflow (Index.topLevel_nodup ids) hne

end Blueprint

namespace Compilation

variable {g : Graph} {options : Options}

end Compilation

end AgentWorkflow

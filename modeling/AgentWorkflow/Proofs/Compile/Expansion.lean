import AgentWorkflow.Proofs.Compile.Delivery
import AgentWorkflow.Proofs.Compile.Steps

/-!
What an expansion delivers.

Each way to declare a part delivers the demand for it, and each way to construct an instance delivers what
the instance demands, if nothing is missing that the node needs; else it fails. Main statement: expansions
that nest deeper than the node is high construct the instance of every executable that is demanded.
-/

namespace AgentWorkflow.Blueprint

open Drafting

variable {b : Blueprint} {first active : List Demand} {servers : List String} {held : Held}
  {id : String} {n : Node}

theorem needsSymbol_of_isExecutable {kind : NodeKind} (h : kind.isExecutable = true) :
    SymbolTable.needsSymbol kind = true := by
  cases kind <;> simp_all [NodeKind.isExecutable, SymbolTable.needsSymbol]

theorem Coherent.name_eq_ok (hb : b.Coherent) (hn : b.index.node? id = some n)
    (hk : SymbolTable.needsSymbol n.kind = true) (role : NameRole) :
    b.name id role = .ok (b.nameIn id role) := by
  rw [name, hb.name?_eq hn hk]

theorem Coherent.ident_eq_ok (hb : b.Coherent) (hn : b.index.node? id = some n)
    (hk : SymbolTable.needsSymbol n.kind = true) : b.ident id = .ok (b.identOf id) := by
  rw [ident, hb.ident?_eq hn hk]

theorem Coherent.instanceVariable_eq_ok (hb : b.Coherent) (hn : b.index.node? id = some n)
    (hk : n.kind.isExecutable = true) : b.instanceVariable id = .ok (b.instanceName id) := by
  rw [instanceVariable, node_eq_ok hn]
  exact hb.name_eq_ok hn (needsSymbol_of_isExecutable hk) _

theorem exists_server {s : String} (h : b.index.isServer s = true) :
    ∃ n settings, b.index.node? s = some n ∧ n.kind = .server settings := by
  obtain ⟨n, hn, hk⟩ := (Option.any_eq_true _ _).mp h
  cases hkind : n.kind with
  | server settings => exact ⟨n, settings, hn, hkind⟩
  | _ => simp [hkind, NodeKind.isServer] at hk

section Tools

variable (hb : b.Coherent) (ha : b.Agenda servers first)

include hb ha

theorem declareClient_delivers {s : String} (hq : b.Ready first active ⟨s, .topLevel, .client⟩)
    (hheld : held .topLevel = none) :
    b.Delivers first active held (b.declareClient s) (b.nameIn s .client) [⟨s, .topLevel, .client⟩] := by
  obtain ⟨-, x, hx⟩ := (hq.demanded.placed hb ha).server rfl
  obtain ⟨n, settings, hn, hk⟩ := exists_server (isServer_of_ownServers hx)
  have hfit : b.Fits s ↔ settings.fault? = none := by simp only [Fits, kindOf_eq hn, hk]
  refine .bind_nil (.ofExcept (hb.name_eq_ok hn (by rw [hk]; rfl) .client)) ?_
  refine (Delivers.once_part hb ha hq (by simp) hheld (fun hf => ?_) fun hf => ?_).then_nil .pure
  · refine .bind_nil (.ofExcept (node_eq_ok hn)) ?_
    rw [nodeOf_eq hn]
    simp only [hk, hfit.mp hf]
    refine .bind_nil .use ?_
    simp only [fragmentOf, clientContent, kindOf_eq hn, hk]
    exact .pure
  · obtain ⟨fault, hfault⟩ := Option.ne_none_iff_exists'.mp (mt hfit.mpr hf)
    refine (Delivers.ofExcept (node_eq_ok hn)).bind_fails ?_
    rw [nodeOf_eq hn]
    simp only [hk, hfault]
    exact .error rfl hq.demanded hf

theorem declareClients_delivers {ss : List String}
    (hq : ∀ q ∈ clientDemands ss, b.Ready first active q) (hheld : ∀ s ∈ ss, held .topLevel = none) :
    b.Delivers first active held (b.declareClients ss) (ss.map fun s => b.nameIn s .client)
      (clientDemands ss) := by
  exact .mapM_single fun s hs =>
    declareClient_delivers hb ha (hq _ (List.mem_map.mpr ⟨s, hs, rfl⟩)) (hheld s hs)

theorem declareCustomTool_delivers {t : String} (hq : b.Ready first active ⟨t, .topLevel, .customTool⟩) :
    b.Delivers first active .free (b.declareCustomTool t) (b.functionOf t)
      [⟨t, .topLevel, .customTool⟩] := by
  obtain ⟨-, n, s, hn, hk⟩ := (hq.demanded.placed hb ha).custom rfl
  obtain ⟨custom, hc⟩ := hb.custom hn hk
  have hname : b.toolFunction t custom = .ok (b.functionOf t) := by
    simp only [toolFunction, functionOf, hc, Option.bind_some]
    cases custom.function with
    | none => exact hb.name_eq_ok hn (by rw [hk]; rfl) .tool
    | some function => rfl
  have hcode : b.customToolCode t (b.functionOf t) custom = .ok (b.customContent t) := by
    simp only [customToolCode, functionOf, customContent, hc, Option.bind_some]
    cases hfun : custom.function with
    | none =>
      simp only [Option.getD_none, node_eq_ok hn]
      rfl
    | some function => rfl
  have hfit : b.Fits t := by simp only [Fits, kindOf_eq hn, hk]
  simp only [declareCustomTool, hc]
  refine .bind_nil (.ofExcept hname) ?_
  refine (Delivers.once_part hb ha hq (by simp) (by simp) (fun _ => ?_) fun hf => absurd hfit hf).then_nil .pure
  refine .bind_nil .use (.bind_nil (.ofExcept hcode) ?_)
  exact .pure

theorem declareTool_delivers {a : Attachment} (hat : a ∈ b.attached id)
    (hq : ∀ q ∈ b.toolDemands id, b.Ready first active q) :
    b.Delivers first active .free (b.declareTool a) (b.entryOf a) (toolDemand? a).toList := by
  have ready {q : Demand} (h : toolDemand? a = some q) : b.Ready first active q :=
    hq q (List.mem_filterMap.mpr ⟨a, hat, h⟩)
  cases a with
  | builtin symbol => exact .bind_nil .use .pure
  | custom t => exact (declareCustomTool_delivers hb ha (ready rfl)).map _
  | server t client => exact (declareClient_delivers hb ha (ready rfl) (by simp)).map _

theorem declareTools_delivers (ht : b.HasTools id) (hq : ∀ q ∈ b.toolDemands id, b.Ready first active q) :
    b.Delivers first active .free (b.declareTools id) ((b.attached id).map fun a => (a, b.entryOf a))
      (b.toolDemands id) := by
  refine .bind_nil (.ofExcept (hb.toolbelt_ok ht)) ?_
  rw [toolDemands, List.filterMap_eq_flatMap_toList]
  exact .mapM fun a hat => (declareTool_delivers hb ha hat hq).map _

omit ha in
theorem declareTools_fails (ht : ¬b.HasTools id) {q : Demand} (hq : b.Demanded first q)
    (hf : ¬b.Fits q.id) : b.Fails first active held (b.declareTools id) := by
  obtain ⟨name, missing, he⟩ := hb.toolbelt_error ht
  rw [declareTools, he]
  exact (Fails.error rfl hq hf).bind

section Agent

variable (hn : b.index.node? id = some n) (hk : n.kind.isExecutable = true)
  (settings : AgentSettings) (delegates : List String) (coordination : Option String)

include hn hk

theorem agentCode_delivers (ht : b.HasTools id) (hq : ∀ q ∈ b.toolDemands id, b.Ready first active q) :
    b.Delivers first active .free (b.agentCode n settings delegates coordination)
      (b.agentContent id settings delegates coordination) (b.toolDemands id) := by
  have hs := needsSymbol_of_isExecutable hk
  obtain rfl := hb.node_id hn
  refine .bind_nil (.ofExcept (hb.ident_eq_ok hn hs)) ?_
  refine .bind_nil (.ofExcept (hb.name_eq_ok hn hs .model)) ?_
  refine .bind_nil (.ofExcept (hb.name_eq_ok hn hs .agent)) ?_
  refine (declareTools_delivers hb ha ht hq).then_nil ?_
  exact .bind_nil .use .pure

omit ha in
theorem agentCode_fails (ht : ¬b.HasTools id) {q : Demand} (hq : b.Demanded first q)
    (hf : ¬b.Fits q.id) :
    b.Fails first active .free (b.agentCode n settings delegates coordination) := by
  have hs := needsSymbol_of_isExecutable hk
  obtain rfl := hb.node_id hn
  refine (Delivers.ofExcept (hb.ident_eq_ok hn hs)).bind_fails ?_
  refine (Delivers.ofExcept (hb.name_eq_ok hn hs .model)).bind_fails ?_
  refine (Delivers.ofExcept (hb.name_eq_ok hn hs .agent)).bind_fails ?_
  exact (declareTools_fails hb ht hq hf).bind

end Agent

end Tools

/-- A way to construct instances works for executables up to a height: it delivers what the instance
demands, or fails if the node does not fit. -/
def Builds (b : Blueprint) (first : List Demand) (build : Build) (bound : ℕ) : Prop :=
  ∀ id place active, b.index.height id < bound →
    (∃ n, b.index.node? id = some n ∧ n.kind.isExecutable = true) →
    (∃ q, b.Demanded first q ∧ q.id = id) →
    (∀ q ∈ b.contentDemands id place, b.Ready first active q) →
    (b.Fits id → b.Delivers first active .free (build id place) (b.content id) (b.contentDemands id place)) ∧
      (¬b.Fits id → b.Fails first active .free (build id place))

theorem Placed.innerPlace_eq {place : Place} (hp : b.Placed servers ⟨id, place, .wrapper⟩) :
    Place.wrapper id (place.isScoped || b.closures.needsScope id) = b.innerPlace id := by
  rcases hp.wrapped rfl with ⟨-, hneed⟩ | he
  · simp only [innerPlace, hneed, Bool.or_true]
  · simp only at he
    simp only [innerPlace, he, Place.isScoped, Bool.false_or]

section Parts

variable {build : Build} {bound : ℕ} {place : Place} (hb : b.Coherent) (ha : b.Agenda servers first)
  (hbuild : b.Builds first build bound)

include hb ha hbuild

theorem declareInstance_delivers (hh : b.index.height id < bound)
    (hq : b.Ready first active ⟨id, place, .construction⟩) :
    b.Delivers first active .free (b.declareInstance build id place) (b.instanceName id)
      [⟨id, place, .construction⟩] := by
  obtain ⟨n, hn, hk⟩ := (hq.demanded.placed hb ha).executable (Or.inl rfl)
  obtain ⟨hd, hf⟩ := hbuild id place (active ++ [⟨id, place, .construction⟩]) hh ⟨n, hn, hk⟩
    ⟨_, hq.demanded, rfl⟩ fun q hc => hq.of_demandsOf hb hc
  refine .bind_nil (.ofExcept (hb.instanceVariable_eq_ok hn hk)) ?_
  refine (Delivers.once_part hb ha hq (by simp) (by simp) (fun h => ?_) fun h => (hf h).bind).then_nil .pure
  refine (hd h).then_nil (.bind_nil (.ofExcept (node_eq_ok hn)) ?_)
  exact .pure

/-- The function that wraps a node takes the fragments put inside it. -/
theorem wrapperCode_ends (hh : b.index.height id < bound)
    (hq : b.Ready first active ⟨id, place, .wrapper⟩) {d : Draft} {l : Ledger}
    (ht : b.Tracks first (active ++ [⟨id, place, .wrapper⟩]) .free d l) :
    (b.wrapperCode build id place).Ends d
      (fun code d' => ∃ l', l.Extends .free l' ∧
        b.Tracks first (active ++ [⟨id, place, .wrapper⟩]) (.only (b.innerPlace id) []) d' l' ∧
        b.demandsOf ⟨id, place, .wrapper⟩ ⊆ l'.keys ∧ b.Fits id ∧
        code = .toolFunction (b.nameIn id .tool) (wrapperText (b.nodeOf id))
          (b.wrapperBody id place (l'.pending (b.innerPlace id)))) (b.Justified first) := by
  have hp := hq.demanded.placed hb ha
  obtain ⟨n, hn, hk⟩ := hp.executable (Or.inr rfl)
  have hready (q : Demand) (hc : q ∈ b.demandsOf ⟨id, place, .wrapper⟩) := hq.of_demandsOf hb hc
  obtain ⟨hd, hf⟩ := hbuild id (b.innerPlace id) _ hh ⟨n, hn, hk⟩ ⟨_, hq.demanded, rfl⟩
    fun q hc => hready q (List.mem_append_left _ hc)
  unfold wrapperCode
  dsimp only at hn ⊢
  rw [node_eq_ok hn, hb.name_eq_ok hn (needsSymbol_of_isExecutable hk), hp.innerPlace_eq,
    hb.instanceVariable_eq_ok hn hk]
  refine ends_bind.mpr (ends_ofExcept_ok.mpr (ends_bind.mpr (ends_ofExcept_ok.mpr (ends_bind.mpr ?_))))
  by_cases hfit : b.Fits id
  · refine (hd hfit d l ht).mono ?_ fun _ h => h
    rintro _ d₁ ⟨rfl, l₁, he₁, ht₁, hc₁⟩
    have hinside : d₁.fragments (b.innerPlace id) = l₁.pending (b.innerPlace id) := by
      simpa using ht₁.fragments (b.innerPlace id)
    -- What the content put inside is taken before the clients are declared; these add nothing inside again.
    refine ends_bind.mpr (ends_take.mpr (ends_bind.mpr (ends_ofExcept_ok.mpr ?_)))
    rw [hinside]
    change (if b.opens id place = true then _ else _ : Drafting Code).Ends _ _ _
    by_cases ho : b.opens id place = true
    · rw [if_pos ho]
      refine ends_bind.mpr ((declareClients_delivers hb ha (fun q hc => hready q ?_)
        (by simp [innerPlace])
        _ _ (ht₁.take _)).mono ?_ fun _ h => h)
      · simp only [demandsOf, if_pos ho]
        exact List.mem_append_right _ hc
      · rintro _ d₂ ⟨rfl, l₂, he₂, ht₂, hc₂⟩
        refine ⟨l₂, ⟨fun _ h => he₂.keys (he₁.keys h), by simp⟩, ht₂, ?_, hfit, ?_⟩
        · simp only [demandsOf, if_pos ho]
          exact List.append_subset.mpr ⟨fun _ h => he₂.keys (hc₁ h), hc₂⟩
        · rw [wrapperBody, if_pos ho, he₂.kept _ (by simp)]
          rfl
    · rw [if_neg ho]
      refine ⟨l₁, he₁, ht₁.take _, ?_, hfit, ?_⟩
      · simpa only [demandsOf, if_neg ho, List.append_nil] using hc₁
      · rw [wrapperBody, if_neg ho]
        rfl
  · exact (hf hfit d l ht).mono (fun _ _ h => h.elim) fun _ h => h

theorem declareWrapper_delivers (hh : b.index.height id < bound)
    (hq : b.Ready first active ⟨id, place, .wrapper⟩) :
    b.Delivers first active .free (b.declareWrapper build id place) (b.nameIn id .tool)
      [⟨id, place, .wrapper⟩] := by
  obtain ⟨n, hn, hk⟩ := (hq.demanded.placed hb ha).executable (Or.inr rfl)
  refine .bind_nil (.ofExcept (hb.name_eq_ok hn (needsSymbol_of_isExecutable hk) .tool)) ?_
  refine (Delivers.once hb ha hq (fun _ => rfl) (by simp) fun d l ht => ?_).then_nil .pure
  refine ends_bind.mpr ((wrapperCode_ends hb ha hbuild hh hq ht).mono ?_ fun _ h => h)
  rintro _ d' ⟨l', he, ht', hc, hfit, rfl⟩
  refine ends_bind.mpr (ends_use.mpr (ends_pure.mpr ⟨l', he, ?_, hc, hfit, rfl⟩))
  rw [taken, if_pos rfl]
  exact ⟨ht'.sound, ht'.apart, ht'.demands, ht'.order, ht'.places, ht'.fragments, ht'.emitted, ht'.unowned⟩

variable (hn : b.index.node? id = some n) (hh : b.index.height id ≤ bound)

omit ha hbuild in
include hh in
theorem height_lt_bound {m : String} (hm : m ∈ b.index.members id) : b.index.height m < bound :=
  (Index.height_lt hb.acyclic (.single hm)).trans_le hh

include hn hh

section Orchestrator

variable {settings : OrchestratorSettings} (hk : n.kind = .orchestrator settings)
  (hq : ∀ q ∈ b.contentDemands id place, b.Ready first active q)

include hk hq

theorem delegates_delivers :
    b.Delivers first active .free
      ((b.index.members id).mapM fun m => b.declareWrapper build m (b.dependencyPlace m place))
      ((b.index.members id).map fun m => b.nameIn m .tool)
      ((b.index.members id).map fun m => ⟨m, b.dependencyPlace m place, .wrapper⟩) := by
  refine .mapM_single fun m hm =>
    declareWrapper_delivers hb ha hbuild (height_lt_bound hb hh hm) (hq _ ?_)
  simp only [contentDemands, kindOf_eq hn, hk]
  exact List.mem_append_left _ (List.mem_map.mpr ⟨m, hm, rfl⟩)

theorem orchestratorCode_delivers (ht : b.HasTools id) :
    b.Delivers first active .free (b.orchestratorCode build n settings place) (b.content id)
      (b.contentDemands id place) := by
  obtain rfl := hb.node_id hn
  have hc : b.contentDemands n.id place = ((b.index.members n.id).map fun m =>
      ⟨m, b.dependencyPlace m place, .wrapper⟩) ++ b.toolDemands n.id := by
    simp only [contentDemands, kindOf_eq hn, hk]
  have hct : b.content n.id = b.agentContent n.id settings.agent
      ((b.index.members n.id).map fun m => b.nameIn m .tool) settings.coordinationPrompt := by
    simp only [content, kindOf_eq hn, hk]
  have hagent := (delegates_delivers hb ha hbuild hn hh hk hq).bind
    (f := fun delegates => b.agentCode n settings.agent delegates settings.coordinationPrompt)
    (agentCode_delivers hb ha hn (by rw [hk]; rfl) settings.agent
      ((b.index.members n.id).map fun m => b.nameIn m .tool) settings.coordinationPrompt ht
      fun q h => hq q (by rw [hc]; exact List.mem_append_right _ h))
  rw [hct, hc, orchestratorCode_eq]
  exact .bind_nil .warn_ite hagent

theorem orchestratorCode_fails (ht : ¬b.HasTools id) {q : Demand} (hd : b.Demanded first q)
    (hf : ¬b.Fits q.id) : b.Fails first active .free (b.orchestratorCode build n settings place) := by
  obtain rfl := hb.node_id hn
  have hagent := (delegates_delivers hb ha hbuild hn hh hk hq).bind_fails
    (f := fun delegates => b.agentCode n settings.agent delegates settings.coordinationPrompt)
    (agentCode_fails hb hn (by rw [hk]; rfl) settings.agent
      ((b.index.members n.id).map fun m => b.nameIn m .tool) settings.coordinationPrompt ht hd hf)
  rw [orchestratorCode_eq]
  exact Delivers.warn_ite.bind_fails hagent

end Orchestrator

section Swarm

variable {settings : SwarmSettings} (hk : n.kind = .swarm settings)

omit hn hh in
theorem declareTeammate_delivers {m : String} {node : Node} (hhm : b.index.height m < bound)
    (hm : (b.kindOf m).isTeammate = true)
    (hq : b.Ready first active ⟨m, b.memberPlace m place, .construction⟩) :
    b.Delivers first active .free (b.declareTeammate build node place m) (b.instanceName m)
      [⟨m, b.memberPlace m place, .construction⟩] := by
  obtain ⟨nm, hnm, -⟩ := (hq.demanded.placed hb ha).executable (Or.inl rfl)
  refine .bind_nil (.ofExcept (node_eq_ok hnm)) ?_
  rw [kindOf] at hm
  rw [if_pos hm]
  exact declareInstance_delivers hb ha hbuild hhm hq

omit hb ha hbuild hn hh in
theorem declareTeammate_fails {m : String} {node nm : Node} (hnm : b.index.node? m = some nm)
    (hm : (b.kindOf m).isTeammate = false) {q : Demand} (hd : b.Demanded first q)
    (hf : ¬b.Fits q.id) : b.Fails first active held (b.declareTeammate build node place m) := by
  refine (Delivers.ofExcept (node_eq_ok hnm)).bind_fails ?_
  rw [kindOf] at hm
  rw [if_neg (by simp [hm])]
  exact .error rfl hd hf

omit hb ha hbuild hn hh in
theorem swarmEntry_delivers :
    b.Delivers first active held
      (b.swarmEntry n settings ((b.index.members id).zip ((b.index.members id).map b.instanceName)))
      (b.entryMember id settings) [] := by
  unfold swarmEntry entryMember
  cases settings.entryPoint.bind Text.nonBlank? with
  | none => exact .pure
  | some wanted =>
    simp only [Option.bind_some]
    cases ((b.index.members id).zip ((b.index.members id).map b.instanceName)).find? fun member =>
        b.isNamed (Text.trim wanted) member.1 with
    | none => exact .bind_nil .warn .pure
    | some entry => exact .pure

include hk

omit hb ha hbuild hh in
theorem contentDemands_swarm : b.contentDemands id place =
    (b.index.members id).map fun m => ⟨m, b.memberPlace m place, .construction⟩ := by
  simp only [contentDemands, kindOf_eq hn, hk]

theorem swarmCode_delivers (hq : ∀ q ∈ b.contentDemands id place, b.Ready first active q)
    (hf : b.Fits id) :
    b.Delivers first active .free (b.swarmCode build n settings place) (b.content id)
      (b.contentDemands id place) := by
  obtain rfl := hb.node_id hn
  have hc : b.contentDemands n.id place = _ := contentDemands_swarm hn hk
  have hct : b.content n.id = [.swarm (b.instanceName n.id) ((b.index.members n.id).map b.instanceName)
      (b.entryMember n.id settings) settings] := by
    simp only [content, kindOf_eq hn, hk]
  simp only [Fits, kindOf_eq hn, hk] at hf
  rw [hct, hc, swarmCode_eq, if_neg (by simpa using hf.1)]
  refine (Delivers.mapM_single (g := b.instanceName) fun m hm => ?_).then_nil ?_
  · exact declareTeammate_delivers hb ha hbuild (height_lt_bound hb hh hm) (hf.2 m hm)
      (hq _ (by rw [hc]; exact List.mem_map.mpr ⟨m, hm, rfl⟩))
  · refine .bind_nil swarmEntry_delivers (.bind_nil .use (.bind_nil (.ofExcept ?_) .pure))
    exact hb.instanceVariable_eq_ok hn (by rw [hk]; rfl)

theorem swarmCode_fails (hq : ∀ q ∈ b.contentDemands id place, b.Ready first active q)
    (hf : ¬b.Fits id) {q : Demand} (hd : b.Demanded first q) (hfq : ¬b.Fits q.id) :
    b.Fails first active .free (b.swarmCode build n settings place) := by
  obtain rfl := hb.node_id hn
  have hc : b.contentDemands n.id place = _ := contentDemands_swarm hn hk
  simp only [Fits, kindOf_eq hn, hk, not_and_or, not_forall, not_not] at hf
  rw [swarmCode_eq]
  by_cases hm : b.index.members n.id = []
  · rw [if_pos (by simp [hm])]
    exact .error rfl hd hfq
  · rw [if_neg (by simpa using hm)]
    obtain ⟨m, hmem, hteam⟩ := hf.resolve_left hm
    refine (Fails.mapM (g := b.instanceName)
      (r := fun x => [⟨x, b.memberPlace x place, .construction⟩]) (fun x hx => ?_)
      ⟨m, hmem, ?_⟩).bind
    · by_cases ht : (b.kindOf x).isTeammate = true
      · exact declareTeammate_delivers hb ha hbuild (height_lt_bound hb hh hx) ht
          (hq _ (by rw [hc]; exact List.mem_map.mpr ⟨x, hx, rfl⟩))
      · obtain ⟨nx, hnx, -⟩ := hb.member hx
        exact (declareTeammate_fails hnx (by simpa using ht) hd hfq).delivers
    · obtain ⟨nm, hnm, -⟩ := hb.member hmem
      exact declareTeammate_fails hnm (by simpa using hteam) hd hfq

end Swarm

omit hn hh in
theorem declareStep_delivers {m : String} (hhm : b.index.height m < bound)
    (hq : b.Ready first active ⟨m, b.memberPlace m place, .construction⟩) :
    b.Delivers first active .free (b.declareStep build place m) (b.instanceName m, b.identOf m)
      [⟨m, b.memberPlace m place, .construction⟩] := by
  obtain ⟨nm, hnm, hk⟩ := (hq.demanded.placed hb ha).executable (Or.inl rfl)
  refine (declareInstance_delivers hb ha hbuild hhm hq).then_nil ?_
  exact (Delivers.ofExcept (hb.ident_eq_ok hnm (needsSymbol_of_isExecutable hk))).map _

omit hn hh in
theorem dependencyGraph_delivers (members : List String) (hhm : ∀ m ∈ members, b.index.height m < bound)
    (hq : ∀ m ∈ members, b.Ready first active ⟨m, b.memberPlace m place, .construction⟩)
    (builder name : String) (limits : List Limit) :
    b.Delivers first active .free (b.dependencyGraph build builder name members limits place)
      (b.graphContent builder name (distinct members) limits)
      ((distinct members).map fun m => ⟨m, b.memberPlace m place, .construction⟩) := by
  have hcontent : b.graphContent builder name (distinct members) limits =
      let declared := (distinct members).map fun m => (b.instanceName m, b.identOf m)
      let idents := (distinct members).zip (declared.map (·.2))
      .newBuilder builder ::
        (declared.map fun step => .addNode builder step.1 step.2) ++
        ((b.steps idents).map fun step => .addEdge builder step.1 step.2) ++
        ((b.starts idents).map (.entryPoint builder)) ++
        limits.map (.limit builder) ++ [.build name builder] := by
    simp only [graphContent, List.map_map]
    rfl
  rw [hcontent, dependencyGraph]
  refine (Delivers.mapM_single (g := fun m => (b.instanceName m, b.identOf m)) fun m hmem =>
    declareStep_delivers hb ha hbuild (hhm m (mem_distinct.mp hmem)) (hq m (mem_distinct.mp hmem))).then_nil ?_
  exact .bind_nil .use .pure

section Container

variable {settings : ContainerSettings} (hk : n.kind = .container settings)

include hk

theorem containerCode_delivers (hq : ∀ q ∈ b.contentDemands id place, b.Ready first active q)
    (hf : b.Fits id) :
    b.Delivers first active .free (b.containerCode build n settings place) (b.content id)
      (b.contentDemands id place) := by
  obtain rfl := hb.node_id hn
  have hc : b.contentDemands n.id place =
      (b.index.members n.id).map fun m => ⟨m, b.memberPlace m place, .construction⟩ := by
    simp only [contentDemands, kindOf_eq hn, hk]
  have hct : b.content n.id = b.graphContent (b.nameIn n.id .builder) (b.nameIn n.id .graph)
      (b.index.members n.id) settings.limits := by
    simp only [content, kindOf_eq hn, hk]
  have hs : SymbolTable.needsSymbol n.kind = true := by
    rw [hk]
    rfl
  simp only [Fits, kindOf_eq hn, hk] at hf
  rw [hct, hc, containerCode_eq, if_neg (by simpa using hf)]
  refine .bind_nil (.ofExcept (hb.name_eq_ok hn hs .builder)) ?_
  refine .bind_nil (.ofExcept (hb.name_eq_ok hn hs .graph)) ?_
  have hgraph := dependencyGraph_delivers hb ha hbuild (b.index.members n.id)
    (fun m hm => height_lt_bound hb hh hm)
    (fun m hm => hq _ (by rw [hc]; exact List.mem_map.mpr ⟨m, hm, rfl⟩))
    (b.nameIn n.id .builder) (b.nameIn n.id .graph) settings.limits
  rwa [distinct_eq_self Index.members_nodup] at hgraph

omit hb ha hbuild hh in
theorem containerCode_fails (hb : b.Coherent) (hf : ¬b.Fits id) {q : Demand}
    (hd : b.Demanded first q) (hfq : ¬b.Fits q.id) :
    b.Fails first active .free (b.containerCode build n settings place) := by
  obtain rfl := hb.node_id hn
  simp only [Fits, kindOf_eq hn, hk, not_not] at hf
  rw [containerCode_eq, if_pos (by simp [hf])]
  exact .error rfl hd hfq

end Container

end Parts

theorem expand_standard {build : Build} {place : Place} {pattern : Pattern}
    (hn : b.index.node? id = some n) (hp : n.kind.pattern? = some pattern) :
    b.expand .standard build id place = b.patternCode build pattern n place := by
  rw [expand, node_eq_ok hn, nodeOf_eq hn]
  change pure n >>= _ = _
  rw [pure_bind, hp]
  rfl

/-- Expansions that nest deeper than a node is high construct its instance. -/
theorem builds_expandWithin (hb : b.Coherent) (ha : b.Agenda servers first) (bound : ℕ) :
    b.Builds first (b.expandWithin .standard bound) bound := by
  induction bound with
  | zero => exact fun id _ _ hh => absurd hh (Nat.not_lt_zero _)
  | succ bound ih =>
    rintro id place active hh ⟨n, hn, hk⟩ ⟨q, hd, rfl⟩ hq
    have hle : b.index.height q.id ≤ bound := Nat.lt_succ_iff.mp hh
    have hkind := kindOf_eq hn
    rw [expandWithin]
    cases hkn : n.kind with
    | agent settings =>
      have hf : b.Fits q.id ↔ b.HasTools q.id := by simp only [Fits, hkind, hkn]
      have hc : b.contentDemands q.id place = b.toolDemands q.id := by
        simp only [contentDemands, hkind, hkn]
      have hct : b.content q.id = b.agentContent q.id settings [] none := by
        simp only [content, hkind, hkn]
      rw [expand_standard hn (show n.kind.pattern? = some .agent by rw [hkn]; rfl), hct, hc]
      simp only [patternCode, hkn]
      exact ⟨fun h => agentCode_delivers hb ha hn hk settings [] none (hf.mp h) (hc ▸ hq),
        fun h => agentCode_fails hb hn hk settings [] none (mt hf.mpr h) hd h⟩
    | orchestrator settings =>
      have hf : b.Fits q.id ↔ b.HasTools q.id := by simp only [Fits, hkind, hkn]
      rw [expand_standard hn (show n.kind.pattern? = some .orchestrator by rw [hkn]; rfl)]
      simp only [patternCode, hkn]
      exact ⟨fun h => orchestratorCode_delivers hb ha ih hn hle hkn hq (hf.mp h),
        fun h => orchestratorCode_fails hb ha ih hn hle hkn hq (mt hf.mpr h) hd h⟩
    | swarm settings =>
      rw [expand_standard hn (show n.kind.pattern? = some .swarm by rw [hkn]; rfl)]
      simp only [patternCode, hkn]
      exact ⟨swarmCode_delivers hb ha ih hn hle hkn hq,
        fun h => swarmCode_fails hb ha ih hn hle hkn hq h hd h⟩
    | container settings =>
      rw [expand_standard hn (show n.kind.pattern? = some .container by rw [hkn]; rfl)]
      simp only [patternCode, hkn]
      exact ⟨containerCode_delivers hb ha ih hn hle hkn hq,
        fun h => containerCode_fails hn hkn hb h hd h⟩
    -- Tools, servers, inputs and outputs are not executable: nothing asks for their instance.
    | _ => simp [hkn, NodeKind.isExecutable] at hk

theorem builds_code (hb : b.Coherent) (ha : b.Agenda servers first) :
    b.Builds first (b.code .standard) b.depth :=
  builds_expandWithin hb ha b.depth

end AgentWorkflow.Blueprint

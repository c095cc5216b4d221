import AgentWorkflow.Proofs.Compile.Success
import AgentWorkflow.Proofs.Program.Clients

/-!
Where the clients of tool servers are open.

At each place of a program certain clients are open: those of the run inside the entry function, those of
a node inside the function that wraps it. Main statement: a generated program lists the tools of clients
only where they are open, opens none that is open already, and opens for the run exactly the clients of
the servers that the nodes it runs need.
-/

namespace AgentWorkflow

open Relation

namespace Blueprint

variable {b : Blueprint} {first : List Demand} {servers opened : List String} {id : String}
  {place : Place} {q : Demand} {f : Fragment} {l : Ledger}

/-- The clients of all servers that a node needs are open. -/
def Covers (b : Blueprint) (opened : List String) (id : String) : Prop :=
  ∀ s ∈ b.closures.servers id, b.nameIn s .client ∈ opened

/-- What is open at a place, when the servers of a run are given. -/
def OpenAt (b : Blueprint) (servers opened : List String) : Place → Prop
  | .topLevel => opened = []
  | .root => ∀ s ∈ servers, b.nameIn s .client ∈ opened
  | .wrapper owner _ => b.Covers opened owner

theorem exists_covers (b : Blueprint) (id : String) : ∃ opened, b.Covers opened id :=
  ⟨_, fun s hs => List.mem_map.mpr ⟨s, hs, rfl⟩⟩

theorem exists_openAt (b : Blueprint) (servers : List String) (place : Place) :
    ∃ opened, b.OpenAt servers opened place := by
  cases place with
  | topLevel => exact ⟨[], rfl⟩
  | root => exact ⟨_, fun s hs => List.mem_map.mpr ⟨s, hs, rfl⟩⟩
  | wrapper owner isOpen => exact b.exists_covers owner

theorem Covers.of_isBelow (hb : b.Coherent) {m : String} (hm : b.index.IsBelow m id)
    (h : b.Covers opened id) : b.Covers opened m :=
  fun s hs => h s (hb.servers_subset hm hs)

theorem covers_of_not_needsScope (h : b.closures.needsScope id ≠ true) : b.Covers opened id := by
  have hs : b.closures.servers id = [] := not_not.mp (mt needsScope_iff.mpr h)
  intro s hmem
  rw [hs] at hmem
  cases hmem

/-- Where the instance of a node is constructed, the clients are open that the node needs. -/
theorem Placed.covers (hb : b.Coherent) (h : b.Placed servers q)
    (hq : b.closures.needsScope q.id = true → q.place.isScoped = true)
    (ho : b.OpenAt servers opened q.place) : b.Covers opened q.id := by
  have hin := h.within
  cases hp : q.place with
  | topLevel =>
    refine covers_of_not_needsScope fun hn => ?_
    have := hq hn
    rw [hp] at this
    cases this
  | root =>
    rw [hp] at hin ho
    exact fun s hs => ho s (hin.2 hs)
  | wrapper owner isOpen =>
    rw [hp] at hin ho
    exact Covers.of_isBelow hb hin.2 ho

section Content

theorem usesOpen_agent {name ident modelName prompt : String} {description : Option String}
    {delegates : List String} (hb : b.Coherent) (hex : ∃ n, b.index.node? id = some n ∧ n.kind.isExecutable = true)
    (h : b.Covers opened id) :
    (Code.agent name ident modelName prompt (b.toolEntries id delegates) description).usesOpen opened = true := by
  rw [Code.usesOpen, List.all_eq_true]
  intro e he
  rcases mem_toolEntries he with ⟨a, ha, rfl⟩ | ⟨delegate, -, rfl⟩
  · cases a with
    | server t client =>
      obtain ⟨n, hn, hk⟩ := hex
      have ht := (hb.mem_attached_server ha).1
      have hs : t ∈ b.closures.servers id := ((hb.closure hn hk).2 t).mpr ⟨id, .refl, ht⟩
      exact List.contains_iff_mem.mpr (h t hs)
    | _ => rfl
  · rfl

theorem graphContent_isInner {c : Code} {builder name : String} {members : List String}
    {limits : List Limit} (h : c ∈ b.graphContent builder name members limits) :
    c.IsInner opened := by
  simp only [graphContent, List.mem_cons, List.mem_append, List.mem_map, List.not_mem_nil, or_false] at h
  rcases h with ((((rfl | ⟨_, -, rfl⟩) | ⟨_, -, rfl⟩) | ⟨_, -, rfl⟩) | ⟨_, -, rfl⟩) | rfl
  all_goals exact ⟨rfl, rfl, rfl⟩

theorem agentContent_isInner (hb : b.Coherent) (hex : ∃ n, b.index.node? id = some n ∧ n.kind.isExecutable = true)
    (ho : b.Covers opened id) {c : Code} {settings : AgentSettings} {delegates : List String}
    {coordination : Option String} (h : c ∈ b.agentContent id settings delegates coordination) :
    c.IsInner opened := by
  simp only [agentContent, List.mem_cons, List.not_mem_nil, or_false] at h
  rcases h with rfl | rfl
  · exact ⟨rfl, rfl, rfl⟩
  · exact ⟨usesOpen_agent hb hex ho, rfl, rfl⟩

theorem content_isInner (hb : b.Coherent) (hex : ∃ n, b.index.node? id = some n ∧ n.kind.isExecutable = true)
    (ho : b.Covers opened id) {c : Code} (h : c ∈ b.content id) :
    c.IsInner opened := by
  unfold content at h
  split at h
  · exact agentContent_isInner hb hex ho h
  · exact agentContent_isInner hb hex ho h
  · obtain rfl := List.mem_singleton.mp h
    exact ⟨rfl, rfl, rfl⟩
  · exact graphContent_isInner h
  · cases h

theorem clientContent_isInner {c : Code} (h : c ∈ b.clientContent id) :
    c.IsInner opened := by
  unfold clientContent at h
  split at h
  · obtain rfl := List.mem_singleton.mp h
    exact ⟨rfl, rfl, rfl⟩
  · cases h

theorem placeholder_isInner {n : Node} {function code : String} :
    (placeholder n function code).IsInner opened := by
  have plain (c : Code) (hc : c ∈ (Text.nonBlank? code).toList.map (fun c => .plain (.comment c)) ++
      [.line ("return " ++ Literal.line (n.displayName ++ " has no implementation yet."))]) :
      c.IsInner opened := by
    rcases List.mem_append.mp hc with hc | hc
    · obtain ⟨text, -, rfl⟩ := List.mem_map.mp hc
      exact ⟨rfl, rfl, rfl⟩
    · obtain rfl := List.mem_singleton.mp hc
      exact ⟨rfl, rfl, rfl⟩
  exact {
    uses := Code.usesOpenAll_iff.mpr fun c hc => (plain c hc).uses
    blocks := Code.blocksAll_eq_nil.mpr fun c hc => (plain c hc).blocks
    main := rfl }

theorem customContent_isInner {c : Code} (h : c ∈ b.customContent id) :
    c.IsInner opened := by
  unfold customContent at h
  split at h
  · cases h
  · split at h
    · rcases List.mem_cons.mp h with rfl | h
      · exact ⟨rfl, rfl, rfl⟩
      · split_ifs at h
        · cases h
        · obtain rfl := List.mem_singleton.mp h
          exact ⟨rfl, rfl, rfl⟩
    · obtain rfl := List.mem_singleton.mp h
      exact placeholder_isInner

end Content

section Parts

variable (hb : b.Coherent) (hp : b.Placed servers q)

/-- The fragment that meets a demand uses clients where they are open, opens none where servers are open,
opens only clients that are declared, and is no entry function. -/
structure UsesClients (b : Blueprint) (servers : List String) (l : Ledger) (q : Demand) (f : Fragment) : Prop where
  uses : ∀ opened, b.OpenAt servers opened q.place → Code.usesOpenAll opened f.code = true
  opensNone : q.place.isScoped = true → Code.blocksAll f.code = []
  declared : ∀ clients ∈ Code.blocksAll f.code, ∀ client ∈ clients,
    ∃ s, client = b.nameIn s .client ∧ ⟨s, .topLevel, .client⟩ ∈ l.keys
  main : ∀ c ∈ f.code, c.main? = none

theorem UsesClients.of_isInner (h : ∀ opened, b.OpenAt servers opened q.place → ∀ c ∈ f.code,
    c.IsInner opened) : b.UsesClients servers l q f := by
  obtain ⟨opened, ho⟩ := b.exists_openAt servers q.place
  have hn : Code.blocksAll f.code = [] := Code.blocksAll_eq_nil.mpr fun c hc => (h opened ho c hc).blocks
  exact {
    uses := fun opened ho => Code.usesOpenAll_iff.mpr fun c hc => (h opened ho c hc).uses
    opensNone := fun _ => hn
    declared := by simp [hn]
    main := fun c hc => (h opened ho c hc).main }

include hb hp

theorem part_usesClients (hq : q.part ≠ .wrapper) : b.UsesClients servers l q (b.fragmentOf [] q) := by
  refine .of_isInner fun opened ho c hc => ?_
  unfold fragmentOf at hc
  cases hpart : q.part with
  | construction =>
    rw [hpart] at hc
    exact content_isInner hb (hp.executable (Or.inl hpart)) (hp.covers hb (hp.opened hpart) ho) hc
  | wrapper => exact absurd hpart hq
  | client =>
    rw [hpart] at hc
    exact clientContent_isInner hc
  | customTool =>
    rw [hpart] at hc
    exact customContent_isInner hc

omit hp in
theorem clients_nodup {ss : List String} (hs : ∀ s ∈ ss, ∃ x, s ∈ b.index.ownServers x) (hn : ss.Nodup) :
    (ss.map (b.nameIn · .client)).Nodup := by
  refine hn.map_on fun s hms s' hms' he => ?_
  obtain ⟨x, hx⟩ := hs s hms
  obtain ⟨x', hx'⟩ := hs s' hms'
  obtain ⟨n, settings, hn, hk⟩ := exists_server (isServer_of_ownServers hx)
  obtain ⟨n', settings', hn', hk'⟩ := exists_server (isServer_of_ownServers hx')
  exact (hb.nameIn_inj hn (by rw [hk]; rfl) hn' (by rw [hk']; rfl) he).1

end Parts

section Work

variable {inside : List Fragment} {clients : List String}

variable (hb : b.Coherent) (hex : ∃ n, b.index.node? id = some n ∧ n.kind.isExecutable = true)
  (hin : ∀ f ∈ inside, ∃ p : Demand, p.place = b.innerPlace id ∧ b.UsesClients servers l p f)

include hb hex hin

theorem work_usesOpen (ho : b.Covers opened id) : Code.usesOpenAll opened (b.work id inside) = true := by
  refine Code.usesOpenAll_iff.mpr fun c hc => ?_
  rcases mem_work hc with ⟨f, hf, hcf⟩ | hc | rfl | rfl
  · obtain ⟨p, hp, hu⟩ := hin f hf
    exact Code.usesOpenAll_iff.mp (hu.uses opened (hp ▸ ho)) c hcf
  · exact (content_isInner hb hex ho hc).uses
  · rfl
  · rfl

theorem blocks_work (h : clients ∈ Code.blocksAll (b.work id inside)) :
    ∃ p f, p.place = b.innerPlace id ∧ b.UsesClients servers l p f ∧ clients ∈ Code.blocksAll f.code := by
  obtain ⟨c, hc, hcl⟩ := Code.mem_blocksAll.mp h
  rcases mem_work hc with ⟨f, hf, hcf⟩ | hc | rfl | rfl
  · obtain ⟨p, hp, hu⟩ := hin f hf
    exact ⟨p, f, hp, hu, Code.mem_blocksAll.mpr ⟨c, hcf, hcl⟩⟩
  · obtain ⟨opened, ho⟩ := b.exists_covers id
    rw [(content_isInner hb hex ho hc).blocks] at hcl
    cases hcl
  · cases hcl
  · cases hcl

end Work

section Wrapper

variable (hb : b.Coherent) (hp : b.Placed servers q) (hq : q.part = .wrapper) {inside : List Fragment}

include hp hq

theorem place_of_opens (h : b.opens q.id q.place = true) : q.place = .topLevel :=
  (hp.wrapped hq).resolve_left fun hw => by simp [opens, hw.1] at h

include hb

theorem wrapperBody_usesOpen
    (hin : ∀ f ∈ inside, ∃ p : Demand, p.place = b.innerPlace q.id ∧ b.UsesClients servers l p f)
    (ho : b.OpenAt servers opened q.place) :
    Code.usesOpenAll opened (b.wrapperBody q.id q.place inside) = true := by
  have hex := hp.executable (Or.inr hq)
  unfold wrapperBody
  split_ifs with hop
  · rw [place_of_opens hp hq hop] at ho
    obtain rfl := ho
    have hn := clients_nodup hb (fun s hs => hb.attached_of_mem_servers hs) (hb.servers_nodup q.id)
    have hw : Code.usesOpenAll ((b.closures.servers q.id).map fun s => b.nameIn s .client)
        (b.work q.id inside) = true :=
      work_usesOpen hb hex hin fun s hs => List.mem_map.mpr ⟨s, hs, rfl⟩
    simp [Code.usesOpenAll, Code.usesOpen, hn, hw]
  · refine work_usesOpen hb hex hin (hp.covers hb (fun hn => ?_) ho)
    simpa [opens, hn] using hop

theorem wrapper_usesClients (hd : b.demandsOf q ⊆ l.keys)
    (hin : ∀ f ∈ inside, ∃ p : Demand, p.place = b.innerPlace q.id ∧ b.UsesClients servers l p f) :
    b.UsesClients servers l q (b.fragmentOf inside q) := by
  have hex := hp.executable (Or.inr hq)
  have hblocks : Code.blocksAll (b.fragmentOf inside q).code =
      Code.blocksAll (b.wrapperBody q.id q.place inside) := by
    rw [fragmentOf_wrapper_code hq, Code.blocksAll, Code.blocksAll, Code.blocks, List.append_nil]
  constructor
  · intro opened ho
    rw [fragmentOf_wrapper_code hq, Code.usesOpenAll, Code.usesOpenAll, Code.usesOpen, Bool.and_true]
    exact wrapperBody_usesOpen hb hp hq hin ho
  · intro hsc
    -- Where servers are open the node needs some, so they are open inside its function too.
    have hn : b.closures.needsScope q.id = true :=
      ((hp.wrapped hq).resolve_right fun h => by simp [h, Place.isScoped] at hsc).2
    have hop : ¬b.opens q.id q.place = true := by simp [opens, hsc]
    rw [hblocks, wrapperBody, if_neg hop]
    refine List.eq_nil_iff_forall_not_mem.mpr fun clients hc => ?_
    obtain ⟨p, f, hpl, hu, hcl⟩ := blocks_work hb hex hin hc
    rw [hu.opensNone (by rw [hpl]; exact hn)] at hcl
    cases hcl
  · intro clients hc client hcl
    have inner (hc : clients ∈ Code.blocksAll (b.work q.id inside)) :
        ∃ s, client = b.nameIn s .client ∧ ⟨s, .topLevel, .client⟩ ∈ l.keys := by
      obtain ⟨p, f, -, hu, hf⟩ := blocks_work hb hex hin hc
      exact hu.declared clients hf client hcl
    rw [hblocks, wrapperBody] at hc
    split_ifs at hc with hop
    · rw [Code.blocksAll, Code.blocks, Code.blocksAll, List.append_nil] at hc
      rcases List.mem_cons.mp hc with rfl | hc
      · obtain ⟨s, hs, rfl⟩ := List.mem_map.mp hcl
        refine ⟨s, rfl, hd ?_⟩
        simp only [demandsOf, hq, hop, if_true]
        exact List.mem_append_right _ (List.mem_map.mpr ⟨s, hs, rfl⟩)
      · exact inner hc
    · exact inner hc
  · rw [fragmentOf_wrapper_code hq]
    exact List.forall_mem_singleton.mpr rfl

end Wrapper

theorem Sound.usesClients (hb : b.Coherent) (ha : b.Agenda servers first) (h : b.Sound first l)
    (hm : (q, f) ∈ l) : b.UsesClients servers l q f := by
  have placed {q : Demand} (hq : q ∈ l.keys) : b.Placed servers q := (h.demanded hq).1.placed hb ha
  refine h.induction (motive := b.UsesClients servers l) (fun q hq hw => ?_) (fun q hq hw inside hin => ?_) hm
  · exact part_usesClients hb (placed hq) hw
  · exact wrapper_usesClients hb (placed hq) hw (h.closed q hq) fun f hf =>
      (hin f hf).imp fun _ hp => hp.2

section Program

variable {root : Option String} {p : Program} {d : Draft} {prompt : String}

/-- The clients that are open during a run. -/
def runClients (b : Blueprint) (root : Option String) : List String :=
  (b.runServers root).map fun s => b.nameIn s .client

theorem runClients_nodup (hb : b.Coherent) : (b.runClients root).Nodup := by
  refine clients_nodup hb (fun s hs => ?_) (distinct_nodup _)
  obtain ⟨id, -, hs⟩ := Index.mem_union.mp hs
  exact hb.attached_of_mem_servers hs

variable (hb : b.Coherent) (ha : b.Agenda (b.runServers root) (b.agenda root)) (hs : b.Sound (b.agenda root) l)

include hb ha hs

theorem fragmentsIn_usesClients (hf : f ∈ b.fragmentsIn root l place) :
    ∃ q : Demand, q.place = place ∧ b.UsesClients (b.runServers root) l q f := by
  rcases List.mem_append.mp hf with hf | hf
  · obtain ⟨q, hq, hp⟩ := Ledger.mem_fragmentsAt.mp hf
    exact ⟨q, hp, hs.usesClients hb ha hq⟩
  · refine ⟨⟨"", place, .client⟩, rfl, .of_isInner fun opened _ c hc => ?_⟩
    split_ifs at hf
    · cases root with
      | some r => cases hf
      | none =>
        obtain rfl := List.mem_singleton.mp hf
        exact graphContent_isInner hc
    · cases hf

theorem mem_driven {c drive : Code} (hdrive : ∀ opened, drive.IsInner opened)
    (hc : c ∈ Fragment.joinBlank (Fragment.layout (b.fragmentsIn root l .root)) [drive]) :
    (∀ opened, c.IsInner opened) ∨
      ∃ q f, q.place = .root ∧ b.UsesClients (b.runServers root) l q f ∧ c ∈ f.code := by
  rcases Fragment.mem_joinBlank hc with rfl | hc | hc
  · exact Or.inl fun _ => ⟨rfl, rfl, rfl⟩
  · rcases Fragment.mem_layout hc with rfl | ⟨f, hf, hc⟩
    · exact Or.inl fun _ => ⟨rfl, rfl, rfl⟩
    · obtain ⟨q, hp, hu⟩ := fragmentsIn_usesClients hb ha hs hf
      exact Or.inr ⟨q, f, hp, hu, hc⟩
  · obtain rfl := List.mem_singleton.mp hc
    exact Or.inl hdrive

theorem entryRun_usesOpen : Code.usesOpenAll [] (b.entryOfRun root prompt l).run = true := by
  unfold Entry.run
  dsimp only
  split_ifs with hc
  · rfl
  · have hn : (b.runClients root).Nodup := runClients_nodup hb
    have hin : Code.usesOpenAll (b.runClients root) (Fragment.joinBlank
        (Fragment.layout (b.fragmentsIn root l .root)) [.drive (b.runOf root).execution (b.runOf root).name]) =
        true := by
      refine Code.usesOpenAll_iff.mpr fun c hc => ?_
      rcases mem_driven hb ha hs (fun _ => ⟨rfl, rfl, rfl⟩) hc with h | ⟨q, f, hp, hu, hcf⟩
      · exact (h _).uses
      · refine Code.usesOpenAll_iff.mp (hu.uses _ ?_) c hcf
        rw [hp]
        exact fun s hs => List.mem_map.mpr ⟨s, hs, rfl⟩
    rw [Code.usesOpenAll, Code.usesOpenAll, Code.usesOpen, Bool.and_true, List.append_nil, Bool.and_eq_true,
      Bool.and_eq_true]
    exact ⟨⟨decide_eq_true hn, by simp⟩, hin⟩

theorem blocksAll_entryRun : Code.blocksAll (b.entryOfRun root prompt l).run =
    if b.runClients root = [] then [] else [b.runClients root] := by
  have hclients : (b.entryOfRun root prompt l).clients = b.runClients root := rfl
  unfold Entry.run
  dsimp only
  rw [hclients]
  by_cases hc : b.runClients root = []
  · rw [if_pos hc, if_pos (by rw [hc]; rfl)]
    rfl
  · have hin : Code.blocksAll (Fragment.joinBlank
        (Fragment.layout (b.fragmentsIn root l .root)) [.drive (b.runOf root).execution (b.runOf root).name]) =
        [] := by
      refine Code.blocksAll_eq_nil.mpr fun c hc => ?_
      rcases mem_driven hb ha hs (fun _ => ⟨rfl, rfl, rfl⟩) hc with h | ⟨q, f, hp, hu, hcf⟩
      · exact (h []).blocks
      · exact Code.blocksAll_eq_nil.mp (hu.opensNone (by rw [hp]; rfl)) c hcf
    rw [if_neg hc, if_neg (by simpa using hc), Code.blocksAll, Code.blocks, Code.blocksAll, List.append_nil]
    exact congrArg (List.cons _) hin

variable (hacc : b.Accounts root p d l)

omit hs
include hacc

theorem program_usesOpen : Code.usesOpenAll [] p.code = true := by
  refine Code.usesOpenAll_iff.mpr fun c hc => ?_
  obtain ⟨prompt, hfr⟩ := hacc.fragments
  rcases Program.mem_code hc with ⟨stmt, rfl⟩ | ⟨f, hf, hcf⟩
  · rfl
  · rw [hfr] at hf
    rcases List.mem_append.mp hf with hf | hf
    · obtain ⟨q, hp, hu⟩ := fragmentsIn_usesClients hb ha hacc.sound hf
      exact Code.usesOpenAll_iff.mp (hu.uses [] (by rw [hp]; rfl)) c hcf
    · obtain rfl := List.mem_singleton.mp hf
      rw [Entry.fragment_code] at hcf
      rcases List.mem_cons.mp hcf with rfl | hcf
      · rw [Code.usesOpen, Entry.usesOpenAll_body]
        exact entryRun_usesOpen hb ha hacc.sound
      · rcases List.mem_pair.mp hcf with rfl | rfl <;> rfl

theorem program_opensInMain : p.OpensInMain (b.runClients root) := by
  obtain ⟨prompt, hfr⟩ := hacc.fragments
  refine ⟨(b.entryOfRun root prompt l).body, ?_, ?_⟩
  · have hn : (b.fragmentsIn root l .topLevel).flatMap (fun f => f.code.filterMap Code.main?) = [] := by
      refine List.flatMap_eq_nil_iff.mpr fun f hf => List.filterMap_eq_nil_iff.mpr ?_
      obtain ⟨q, -, hu⟩ := fragmentsIn_usesClients hb ha hacc.sound hf
      exact hu.main
    have hperm := p.mains_perm
    rw [hfr, List.flatMap_append, hn, List.nil_append, List.flatMap_singleton, Entry.fragment_code] at hperm
    exact List.perm_singleton.mp hperm
  · rw [Entry.blocksAll_body]
    exact blocksAll_entryRun hb ha hacc.sound

theorem client_mem_code {s : String} (h : ⟨s, .topLevel, .client⟩ ∈ l.keys) :
    ∃ settings, Code.client (b.nameIn s .client) settings ∈ p.code := by
  obtain ⟨prompt, hfr⟩ := hacc.fragments
  obtain ⟨-, x, hx⟩ := ((hacc.sound.demanded h).1.placed hb ha).server rfl
  obtain ⟨n, settings, hn, hk⟩ := exists_server (isServer_of_ownServers hx)
  obtain ⟨f, hf⟩ := Ledger.exists_of_mem_keys h
  have hcode : f.code = [.client (b.nameIn s .client) settings] := by
    rw [hacc.sound.part_eq hf (by simp)]
    simp only [fragmentOf, clientContent, kindOf_eq hn, hk]
  have hmem : f ∈ p.fragments := by
    rw [hfr]
    exact List.mem_append_left _ (List.mem_append_left _ (Ledger.mem_fragmentsAt.mpr ⟨_, hf, rfl⟩))
  exact ⟨settings, Program.mem_code_of_mem hmem (by rw [hcode]; exact List.mem_singleton_self _)⟩

theorem program_declaresClients : p.DeclaresClients := by
  intro clients hc client hcl
  suffices h : ∃ s, client = b.nameIn s .client ∧ ⟨s, .topLevel, .client⟩ ∈ l.keys by
    obtain ⟨s, rfl, hs⟩ := h
    exact client_mem_code hb ha hacc hs
  obtain ⟨prompt, hfr⟩ := hacc.fragments
  obtain ⟨c, hc, hclients⟩ := Code.mem_blocksAll.mp hc
  rcases Program.mem_code hc with ⟨stmt, rfl⟩ | ⟨f, hf, hcf⟩
  · cases hclients
  · rw [hfr] at hf
    rcases List.mem_append.mp hf with hf | hf
    · obtain ⟨q, -, hu⟩ := fragmentsIn_usesClients hb ha hacc.sound hf
      exact hu.declared clients (Code.mem_blocksAll.mpr ⟨c, hcf, hclients⟩) client hcl
    · obtain rfl := List.mem_singleton.mp hf
      rw [Entry.fragment_code] at hcf
      rcases List.mem_cons.mp hcf with rfl | hcf
      · rw [Code.blocks, Entry.blocksAll_body, blocksAll_entryRun hb ha hacc.sound] at hclients
        split_ifs at hclients
        · cases hclients
        · obtain rfl := List.mem_singleton.mp hclients
          obtain ⟨s, hs, rfl⟩ := List.mem_map.mp hcl
          exact ⟨s, rfl, hacc.complete _ (.first (mem_agenda.mpr (Or.inr (Or.inr ⟨s, hs, rfl⟩))))⟩
      · rcases List.mem_pair.mp hcf with rfl | rfl <;> cases hclients

end Program

end Blueprint

namespace Compilation

variable {g : Graph} {options : Options}

end Compilation

end AgentWorkflow

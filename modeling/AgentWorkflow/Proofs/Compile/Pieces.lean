import AgentWorkflow.Proofs.Compile.Accounts
import AgentWorkflow.Proofs.Program.Occurrence

/-!
Which pieces a generated program has.

Main statements: what declares a part is of the code that meets a demand, or of the dependency graph that the
program runs; and what meets a demand stands in the program in one piece.
-/

namespace AgentWorkflow.Blueprint

/-- The functions that wrap the members of an orchestrator. -/
def delegates (b : Blueprint) (id : String) : List String :=
  match b.kindOf id with
  | .orchestrator _ => (b.index.members id).map fun m => b.nameIn m .tool
  | _ => []

variable {b : Blueprint} {first : List Demand} {servers : List String} {l : Ledger} {q : Demand}
  {f : Fragment} {inside : List Fragment} {id : String} {c : Code}

section Origin

theorem mem_graphContent {builder name : String} {members : List String} {limits : List Limit}
    (h : c ∈ b.graphContent builder name members limits) :
    (∃ m ∈ members, c = .addNode builder (b.instanceName m) (b.identOf m)) ∨ c = .newBuilder builder ∨
      c = .build name builder ∨ (∃ source target, c = .addEdge builder source target) ∨
      (∃ start, c = .entryPoint builder start) ∨ ∃ bound, c = .limit builder bound := by
  simp only [graphContent, List.mem_cons, List.mem_append, List.mem_map, List.not_mem_nil, or_false] at h
  rcases h with ((((rfl | ⟨m, hm, rfl⟩) | ⟨step, -, rfl⟩) | ⟨start, -, rfl⟩) | ⟨bound, -, rfl⟩) | rfl
  · exact Or.inr (Or.inl rfl)
  · exact Or.inl ⟨m, hm, rfl⟩
  · exact Or.inr (Or.inr (Or.inr (Or.inl ⟨_, _, rfl⟩)))
  · exact Or.inr (Or.inr (Or.inr (Or.inr (Or.inl ⟨_, rfl⟩))))
  · exact Or.inr (Or.inr (Or.inr (Or.inr (Or.inr ⟨_, rfl⟩))))
  · exact Or.inr (Or.inr (Or.inl rfl))

theorem pieces_graphContent {builder name : String} {members : List String} {limits : List Limit}
    (h : c ∈ b.graphContent builder name members limits) : c.pieces = [c] := by
  rcases mem_graphContent h with ⟨_, -, rfl⟩ | rfl | rfl | ⟨_, _, rfl⟩ | ⟨_, rfl⟩ | ⟨_, rfl⟩
  all_goals rfl

theorem mem_content (h : c ∈ b.content id) :
    (∃ settings, c = .model (b.nameIn id .model) settings) ∨
      ((b.kindOf id).agent?.isSome = true ∧ ∃ prompt description, c = .agent (b.nameIn id .agent) (b.identOf id)
        (b.nameIn id .model) prompt (b.toolEntries id (b.delegates id)) description) ∨
      (∃ settings, b.kindOf id = .swarm settings ∧ c = .swarm (b.instanceName id)
        ((b.index.members id).map b.instanceName) (b.entryMember id settings) settings) ∨
      ∃ settings, b.kindOf id = .container settings ∧
        c ∈ b.graphContent (b.nameIn id .builder) (b.nameIn id .graph) (b.index.members id) settings.limits := by
  unfold content at h
  unfold delegates
  split at h <;> rename_i hk
  · rcases List.mem_pair.mp h with rfl | rfl
    · exact Or.inl ⟨_, rfl⟩
    · simp only [hk]
      exact Or.inr (Or.inl ⟨rfl, _, _, rfl⟩)
  · rcases List.mem_pair.mp h with rfl | rfl
    · exact Or.inl ⟨_, rfl⟩
    · simp only [hk]
      exact Or.inr (Or.inl ⟨rfl, _, _, rfl⟩)
  · exact Or.inr (Or.inr (Or.inl ⟨_, hk, List.mem_singleton.mp h⟩))
  · exact Or.inr (Or.inr (Or.inr ⟨_, hk, h⟩))
  · cases h

theorem pieces_content (h : c ∈ b.content id) : c.pieces = [c] := by
  rcases mem_content h with ⟨_, rfl⟩ | ⟨-, _, _, rfl⟩ | ⟨_, -, rfl⟩ | ⟨_, -, hg⟩
  · rfl
  · rfl
  · rfl
  · exact pieces_graphContent hg

/-- Code that declares a tool: the client of a server, or what makes the function of a custom tool. -/
inductive IsToolCode : Code → Prop
  | client {name : String} {settings : ServerSettings} : IsToolCode (.client name settings)
  | definition {function code : String} : IsToolCode (.definition function code)
  | decorate {function : String} : IsToolCode (.decorate function)
  | placeholder {n : Node} {function code : String} : IsToolCode (placeholder n function code)

theorem isToolCode_clientContent (h : c ∈ b.clientContent id) : IsToolCode c := by
  unfold clientContent at h
  split at h
  · exact List.mem_singleton.mp h ▸ .client
  · cases h

theorem isToolCode_customContent (h : c ∈ b.customContent id) : IsToolCode c := by
  unfold customContent at h
  split at h
  · cases h
  · split at h
    · rcases List.mem_cons.mp h with rfl | h
      · exact .definition
      · split_ifs at h
        · cases h
        · exact List.mem_singleton.mp h ▸ .decorate
    · exact List.mem_singleton.mp h ▸ .placeholder

theorem mem_fragmentOf (h : c ∈ (b.fragmentOf inside q).code) :
    (q.part = .construction ∧ c ∈ b.content q.id) ∨
      (q.part = .wrapper ∧ c = .toolFunction (b.nameIn q.id .tool) (wrapperText (b.nodeOf q.id))
        (b.wrapperBody q.id q.place inside)) ∨ IsToolCode c := by
  unfold fragmentOf at h
  split at h <;> rename_i hp
  · exact Or.inl ⟨hp, h⟩
  · exact Or.inr (Or.inl ⟨hp, List.mem_singleton.mp h⟩)
  · exact Or.inr (Or.inr (isToolCode_clientContent h))
  · exact Or.inr (Or.inr (isToolCode_customContent h))

theorem isFrame_of_mem_placeholder {n : Node} {function code : String}
    (h : c ∈ Code.piecesAll (placeholder n function code).inner) : c.isFrame = true := by
  obtain ⟨d, hd, hc⟩ := Code.mem_piecesAll.mp h
  rcases List.mem_append.mp hd with hd | hd
  · obtain ⟨text, -, rfl⟩ := List.mem_map.mp hd
    exact List.mem_singleton.mp hc ▸ rfl
  · obtain rfl := List.mem_singleton.mp hd
    exact List.mem_singleton.mp hc ▸ rfl

theorem IsToolCode.eq_of_mem_pieces {d : Code} (h : IsToolCode d) (hcd : c ∈ d.pieces) (hc : c.isFrame = false) :
    c = d := by
  rw [Code.pieces_eq] at hcd
  refine (List.mem_cons.mp hcd).resolve_right fun hinner => ?_
  cases h with
  | placeholder =>
    rw [isFrame_of_mem_placeholder hinner] at hc
    cases hc
  | _ => cases hinner

theorem mem_piecesAll_wrapperBody {place : Place} (h : c ∈ Code.piecesAll (b.wrapperBody id place inside))
    (hc : c.isFrame = false) : c ∈ b.content id ∨ ∃ f ∈ inside, c ∈ Code.piecesAll f.code := by
  have hwork : c ∈ Code.piecesAll (b.work id inside) := by
    unfold wrapperBody at h
    split_ifs at h
    · rw [Code.piecesAll_singleton] at h
      exact Code.mem_piecesAll_inner rfl hc h
    · exact h
  obtain ⟨d, hd, hcd⟩ := Code.mem_piecesAll.mp hwork
  rcases mem_work hd with ⟨f, hf, hd⟩ | hd | rfl | rfl
  · exact Or.inr ⟨f, hf, Code.mem_piecesAll.mpr ⟨d, hd, hcd⟩⟩
  · rw [pieces_content hd] at hcd
    exact Or.inl (List.mem_singleton.mp hcd ▸ hd)
  all_goals cases Code.mem_piecesAll_inner rfl hc hcd

theorem mem_piecesAll_fragmentOf (h : c ∈ Code.piecesAll (b.fragmentOf inside q).code) (hc : c.isFrame = false) :
    c ∈ (b.fragmentOf inside q).code ∨
      q.part = .wrapper ∧ (c ∈ b.content q.id ∨ ∃ f ∈ inside, c ∈ Code.piecesAll f.code) := by
  obtain ⟨d, hd, hcd⟩ := Code.mem_piecesAll.mp h
  rcases mem_fragmentOf hd with ⟨-, hcontent⟩ | ⟨hp, rfl⟩ | htool
  · rw [pieces_content hcontent] at hcd
    exact Or.inl (List.mem_singleton.mp hcd ▸ hd)
  · rw [Code.pieces_eq] at hcd
    rcases List.mem_cons.mp hcd with rfl | hbody
    · exact Or.inl hd
    · exact Or.inr ⟨hp, mem_piecesAll_wrapperBody hbody hc⟩
  · exact Or.inl (htool.eq_of_mem_pieces hcd hc ▸ hd)

theorem occurs_work (hp : q.part = .wrapper) : Code.Occurs (b.work q.id inside) (b.fragmentOf inside q).code := by
  rw [fragmentOf_wrapper_code hp]
  refine .of_inner ?_
  change Code.Occurs _ (b.wrapperBody q.id q.place inside)
  unfold wrapperBody
  split_ifs
  · exact .of_inner (.refl _)
  · exact .refl _

theorem Sound.exists_origin (h : b.Sound first l) (hm : (q, f) ∈ l) (hcf : c ∈ Code.piecesAll f.code)
    (hc : c.isFrame = false) :
    (∃ p g, (p, g) ∈ l ∧ c ∈ g.code) ∨ ∃ p ∈ l.keys, p.part = .wrapper ∧ c ∈ b.content p.id := by
  refine h.induction (motive := fun q f => (q, f) ∈ l → c ∈ Code.piecesAll f.code →
    (∃ p g, (p, g) ∈ l ∧ c ∈ g.code) ∨ ∃ p ∈ l.keys, p.part = .wrapper ∧ c ∈ b.content p.id) ?_ ?_ hm hm hcf
  · intro q hq hp hm hcf
    rcases mem_piecesAll_fragmentOf hcf hc with hown | ⟨hw, -⟩
    · exact Or.inl ⟨q, _, hm, hown⟩
    · exact absurd hw hp
  · intro q hq hp inside hin hm hcf
    rcases mem_piecesAll_fragmentOf hcf hc with hown | ⟨-, hcontent | ⟨g, hg, hcg⟩⟩
    · exact Or.inl ⟨q, _, hm, hown⟩
    · exact Or.inr ⟨q, hq, hp, hcontent⟩
    · obtain ⟨p, hpm, -, hmotive⟩ := hin g hg
      exact hmotive hpm hcg

theorem content_of_isBuilding (h : c ∈ (b.fragmentOf inside q).code) (hc : c.isBuilding = true) :
    q.part = .construction ∧ c ∈ b.content q.id := by
  rcases mem_fragmentOf h with hcontent | ⟨-, rfl⟩ | htool
  · exact hcontent
  · cases hc
  · cases htool <;> cases hc

variable {root : Option String} {p : Program} {d : Draft} (hacc : b.Accounts root p d l)

include hacc

/-- What declares a part of a program is of what meets a demand, of the instance in a function that wraps a node,
or of the dependency graph that runs. -/
theorem Accounts.exists_origin (hcp : c ∈ p.pieces) (hc : c.isFrame = false) :
    (∃ q g, (q, g) ∈ l ∧ c ∈ g.code) ∨ (∃ q ∈ l.keys, q.part = .wrapper ∧ c ∈ b.content q.id) ∨
      ∃ e ∈ b.workflow root, c ∈ e.code := by
  have hin {place : Place} {f : Fragment} (hf : f ∈ b.fragmentsIn root l place) (hcf : c ∈ Code.piecesAll f.code) :
      (∃ q g, (q, g) ∈ l ∧ c ∈ g.code) ∨ (∃ q ∈ l.keys, q.part = .wrapper ∧ c ∈ b.content q.id) ∨
        ∃ e ∈ b.workflow root, c ∈ e.code := by
    rcases List.mem_append.mp hf with hf | hf
    · obtain ⟨q, hq, -⟩ := Ledger.mem_fragmentsAt.mp hf
      exact (hacc.sound.exists_origin hq hcf hc).imp_right Or.inl
    · have hw : f ∈ b.workflow root := by
        split_ifs at hf
        · exact hf
        · cases hf
      cases root with
      | some r => cases hw
      | none =>
        obtain rfl := List.mem_singleton.mp hw
        obtain ⟨d, hd, hcd⟩ := Code.mem_piecesAll.mp hcf
        rw [pieces_graphContent hd] at hcd
        exact Or.inr (Or.inr ⟨_, hw, List.mem_singleton.mp hcd ▸ hd⟩)
  obtain ⟨prompt, hfr⟩ := hacc.fragments
  rcases Program.mem_pieces hcp with ⟨stmt, rfl⟩ | ⟨f, hf, hcf⟩
  · cases hc
  rw [hfr] at hf
  rcases List.mem_append.mp hf with hf | hf
  · exact hin hf hcf
  obtain rfl := List.mem_singleton.mp hf
  obtain ⟨f, hf, hcf⟩ := Entry.mem_piecesAll_fragment hcf hc
  exact hin hf hcf

theorem Accounts.exists_content (hcp : c ∈ p.pieces) (hc : c.isBuilding = true) :
    (∃ q ∈ l.keys, (q.part = .construction ∨ q.part = .wrapper) ∧ c ∈ b.content q.id) ∨
      ∃ e ∈ b.workflow root, c ∈ e.code := by
  rcases hacc.exists_origin hcp (Code.isFrame_of_isBuilding hc) with ⟨q, g, hm, hcg⟩ | ⟨q, hq, hp, hcq⟩ | he
  · obtain ⟨inside, rfl⟩ := hacc.sound.exists_inside hm
    obtain ⟨hp, hcontent⟩ := content_of_isBuilding hcg hc
    exact Or.inl ⟨q, Ledger.mem_keys_of_mem hm, Or.inl hp, hcontent⟩
  · exact Or.inl ⟨q, hq, Or.inr hp, hcq⟩
  · exact Or.inr he

end Origin

section Kept

variable {root : Option String} {p : Program} {d : Draft} (hb : b.Coherent)
  (ha : b.Agenda (b.runServers root) (b.agenda root)) (hacc : b.Accounts root p d l)

include hacc

theorem Accounts.occurs_of_outside (hf : f ∈ b.fragmentsIn root l .topLevel ∨
    f ∈ b.fragmentsIn root l .root ∧ b.runServers root ≠ []) : Code.Occurs f.code p.code := by
  obtain ⟨prompt, hfr⟩ := hacc.fragments
  rcases hf with hf | ⟨hf, hne⟩
  · refine Code.occurs_program ?_
    rw [hfr]
    exact List.mem_append_left _ hf
  · have hentry : (b.entryOfRun root prompt l).fragment ∈ p.fragments := by
      rw [hfr]
      exact List.mem_append_right _ (List.mem_singleton_self _)
    have hclients : (b.entryOfRun root prompt l).clients ≠ [] := by
      simpa [entryOfRun] using hne
    exact (Code.occurs_entry hclients hf).trans (Code.occurs_program hentry)

theorem Accounts.occurs_workflow (hf : f ∈ b.workflow root) : Code.Occurs f.code p.code := by
  apply hacc.occurs_of_outside
  by_cases hne : b.runServers root = []
  · have hplace : Place.topLevel = b.entryPlace root := by rw [entryPlace, hne]; rfl
    exact Or.inl (List.mem_append_right _ (by rwa [if_pos hplace]))
  · have hplace : Place.root = b.entryPlace root := by rw [entryPlace, if_neg (by simpa using hne)]
    exact Or.inr ⟨List.mem_append_right _ (by rwa [if_pos hplace]), hne⟩

theorem Accounts.workflow_subset (hf : f ∈ b.workflow root) : Code.piecesAll f.code ⊆ p.pieces :=
  (hacc.occurs_workflow hf).piecesAll_subset

include hb ha

/-- No fragment is lost: what meets a demand stands in the program. -/
theorem Accounts.occurs (hm : (q, f) ∈ l) : Code.Occurs f.code p.code := by
  -- The function that takes a fragment wraps a higher node, and no node is as high as the bound on depth.
  induction hk : b.depth - b.index.height q.id using Nat.strong_induction_on generalizing q f with
  | _ k ih =>
    have hd := (hacc.sound.demanded (Ledger.mem_keys_of_mem hm)).1
    have hwithin := (hd.placed hb ha).within
    cases hplace : q.place with
    | topLevel =>
      refine hacc.occurs_of_outside (Or.inl (List.mem_append_left _ ?_))
      exact Ledger.mem_fragmentsAt.mpr ⟨q, hm, hplace⟩
    | root =>
      rw [hplace] at hwithin
      refine hacc.occurs_of_outside (Or.inr ⟨List.mem_append_left _ ?_, fun hnil => ?_⟩)
      · exact Ledger.mem_fragmentsAt.mpr ⟨q, hm, hplace⟩
      · have hservers := hwithin.2
        rw [hnil, List.subset_nil] at hservers
        exact needsScope_iff.mp hwithin.1 hservers
    | wrapper owner isOpen =>
      obtain ⟨hinner, hbelow⟩ := hwithin.of_owner (show q.place.owner? = some owner by rw [hplace]; rfl)
      obtain ⟨s, hs⟩ := hd.exists_wrapper (fun q hq => ha.outside q hq) hplace
      have hwrapped : l.isWrapped owner = true := Ledger.isWrapped_iff.mpr ⟨s, hacc.complete _ hs⟩
      obtain ⟨home, hhome, hkey⟩ := Sound.exists_home (q := ⟨owner, s, .wrapper⟩) hwrapped
      obtain ⟨w, hw⟩ := Ledger.exists_of_mem_keys hkey
      have htaken := hacc.sound.wrapper_eq hb ha hw rfl
      rw [if_pos hhome] at htaken
      have hf : f ∈ l.fragmentsAt (b.innerPlace owner) := Ledger.mem_fragmentsAt.mpr ⟨q, hm, hinner⟩
      have hlt := Index.height_lt hb.acyclic hbelow
      have hshallow := hb.shallow owner
      have howner : Code.Occurs w.code p.code := ih _ (by simp only; omega) hw rfl
      have hwork : Code.Occurs f.code (b.work owner (l.fragmentsAt (b.innerPlace owner))) :=
        (Code.occurs_layout hf).trans (Code.occurs_joinBlank_left _ _)
      rw [htaken] at howner
      exact (hwork.trans (occurs_work (q := ⟨owner, home, .wrapper⟩) rfl)).trans howner

theorem Accounts.piecesAll_subset (hm : (q, f) ∈ l) : Code.piecesAll f.code ⊆ p.pieces :=
  (hacc.occurs hb ha hm).piecesAll_subset

theorem Accounts.occurs_content (hq : q ∈ l.keys) (hp : q.part = .construction ∨ q.part = .wrapper) :
    Code.Occurs (b.content q.id) p.code := by
  obtain ⟨f, hf⟩ := Ledger.exists_of_mem_keys hq
  refine Code.Occurs.trans ?_ (hacc.occurs hb ha hf)
  obtain ⟨inside, rfl⟩ := hacc.sound.exists_inside hf
  rcases hp with hp | hp
  · simp only [fragmentOf, hp]
    exact .refl _
  · have hwork : Code.Occurs (b.content q.id) (b.work q.id inside) :=
      ((Code.Occurs.refl _).append_right _).trans (Code.occurs_joinBlank_right _ _)
    exact hwork.trans (occurs_work hp)

theorem Accounts.content_subset (hq : q ∈ l.keys) (hp : q.part = .construction ∨ q.part = .wrapper) :
    b.content q.id ⊆ p.pieces :=
  fun _ hc => (hacc.occurs_content hb ha hq hp).piecesAll_subset (Code.mem_piecesAll_of_mem hc)

end Kept

end AgentWorkflow.Blueprint

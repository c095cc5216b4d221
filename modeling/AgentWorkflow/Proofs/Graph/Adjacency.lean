import AgentWorkflow.Proofs.Graph.IllTyped

/-!
What an index keeps of a graph.

Each edge has a role, is ill-typed, or dangles. Main statement: an index sorts the edges into these three
classes, lists the ends of those with a role once and in the order of the edges, and each of the others is the
subject of one warning.
-/

namespace AgentWorkflow

section Distinct

variable {α β : Type} [DecidableEq β] (f : α → Option β)

theorem distinct_filterMap_pairwise (l : List α) :
    (distinct (l.filterMap f)).Pairwise fun b b' =>
      l.findIdx (fun a => f a = some b) < l.findIdx (fun a => f a = some b') := by
  induction l with
  | nil => exact .nil
  | cons a rest ih =>
    -- What the new element is not selected as moves on by one place.
    have shift (b : β) (hb : f a ≠ some b) :
        (a :: rest).findIdx (fun a => f a = some b) = rest.findIdx (fun a => f a = some b) + 1 := by
      simp [List.findIdx_cons, hb]
    cases hf : f a with
    | none =>
      rw [List.filterMap_cons_none hf]
      apply ih.imp
      intro b b' hlt
      rw [shift b (by simp [hf]), shift b' (by simp [hf])]
      omega
    | some c =>
      rw [List.filterMap_cons_some hf, distinct, List.pairwise_cons]
      constructor
      · intro b hb
        have hne : f a ≠ some b := by
          rw [hf]
          rintro ⟨⟩
          simp at hb
        rw [shift b hne, List.findIdx_cons]
        simp [hf]
      · apply (ih.filter _).imp_of_mem
        intro b b' hb hb' hlt
        have hne : ∀ x ∈ (distinct (rest.filterMap f)).filter (· ≠ c), f a ≠ some x := by
          rintro x hx he
          rw [hf] at he
          cases he
          simp at hx
        rw [shift b (hne b hb), shift b' (hne b' hb')]
        omega

end Distinct

namespace Graph

variable {g : Graph}

/-- Whether an edge leads from one node to another in a role. -/
def joins (g : Graph) (role : EdgeRole) (s t : String) (e : Edge) : Bool :=
  g.verdict e = .role role ∧ e.source = s ∧ e.target = t

theorem joins_iff {role : EdgeRole} {s t : String} {e : Edge} :
    g.joins role s t e = true ↔ g.verdict e = .role role ∧ e.source = s ∧ e.target = t := by
  simp [joins]

/-- The role of the edge at a place in the order of declaration. -/
def roleAt? (g : Graph) (i : ℕ) : Option EdgeRole :=
  g.edges[i]?.bind fun e => (g.verdict e).role?

/-- The ids that some edge leads to, each once, in the order of the first edges that lead to them. -/
structure Lists (g : Graph) (leads : String → Edge → Bool) (ids : List String) : Prop where
  mem : ∀ id, id ∈ ids ↔ ∃ e ∈ g.edges, leads id e = true
  nodup : ids.Nodup
  ordered : ids.Pairwise fun a b => g.edges.findIdx (leads a) < g.edges.findIdx (leads b)

theorem lists_distinct {leads : String → Edge → Bool} {f : Edge → Option String}
    (hf : ∀ e id, f e = some id ↔ leads id e = true) : g.Lists leads (distinct (g.edges.filterMap f)) where
  mem id := by simp [hf]
  nodup := distinct_nodup _
  ordered := by
    have hleads (id : String) : leads id = fun e => decide (f e = some id) := by
      funext e
      rw [Bool.eq_iff_iff, decide_eq_true_eq]
      exact (hf e id).symm
    simp only [hleads]
    exact distinct_filterMap_pairwise f g.edges

theorem links_filter_map (g : Graph) (p : Link → Bool) (end' : Link → String) :
    (g.links.filter p).map end' =
      g.edges.filterMap fun e => ((g.link? e).filter p).map end' := by
  rw [links, List.filter_filterMap, List.map_filterMap]

theorem lists_targets (g : Graph) (role : EdgeRole) (s : String) :
    g.Lists (fun t => g.joins role s t) (g.index.targets role s) := by
  change g.Lists _ (distinct ((g.links.filter fun l => l.role = role ∧ l.source = s).map Link.target))
  rw [links_filter_map]
  apply lists_distinct
  intro e t
  rw [joins_iff, link?]
  cases g.verdict e <;> simp [Verdict.role?, Option.filter_some, and_assoc]

theorem lists_sources (g : Graph) (role : EdgeRole) (t : String) :
    g.Lists (fun s => g.joins role s t) (g.index.sources role t) := by
  change g.Lists _ (distinct ((g.links.filter fun l => l.role = role ∧ l.target = t).map Link.source))
  rw [links_filter_map]
  apply lists_distinct
  intro e s
  rw [joins_iff, link?]
  cases g.verdict e <;> simp [Verdict.role?, Option.filter_some]
  tauto

theorem Lists.mem_iff {role : EdgeRole} {s t : String} {leads : String → Edge → Bool} {ids : List String}
    (h : g.Lists leads ids) (id : String) (hl : leads id = g.joins role s t) :
    id ∈ ids ↔ g.Connects role s t := by
  rw [h.mem, hl]
  simp only [joins_iff]
  rfl

theorem mem_tools_of_missing {e : Edge} {n : Node} (he : e ∈ g.edges) (hs : g.node? e.source = none)
    (hh : e.targetHandle = .tools) (ht : g.node? e.target = some n) (hk : n.kind.isExecutable = true) :
    e.source ∈ g.index.tools e.target := by
  apply Index.mem_tools_iff_edge.mpr
  refine ⟨e, he, ?_, rfl, rfl⟩
  simp [verdict, hs, ht, hh, hk]

/-- The places of the edges with a verdict of some sort. -/
def placesOf (g : Graph) (sort : Verdict → Bool) : List ℕ :=
  (List.range g.edges.length).filter fun i => (g.edges[i]?.map g.verdict).any sort

theorem placesOf_isSome_role (g : Graph) :
    g.placesOf (fun v => v.role?.isSome) =
      (List.range g.edges.length).filter fun i => (g.roleAt? i).isSome := by
  apply List.filter_congr
  intro i _
  rw [roleAt?]
  cases g.edges[i]? <;> rfl

/-- Sorts of verdicts that exclude one another share out the places. -/
theorem placesOf_append_perm (g : Graph) {p q r : Verdict → Bool} (hp : ∀ v, p v = true → r v = true)
    (hq : ∀ v, q v = (r v && !p v)) : (g.placesOf p ++ g.placesOf q).Perm (g.placesOf r) := by
  have hleft : g.placesOf p = (g.placesOf r).filter fun i => (g.edges[i]?.map g.verdict).any p := by
    rw [placesOf, placesOf, List.filter_filter]
    apply List.filter_congr
    intro i _
    cases g.edges[i]? with
    | none => rfl
    | some e =>
      have h := hp (g.verdict e)
      simp only [Option.map_some, Option.any_some]
      cases hv : p (g.verdict e) <;> simp_all
  have hright : g.placesOf q = (g.placesOf r).filter fun i => !(g.edges[i]?.map g.verdict).any p := by
    rw [placesOf, placesOf, List.filter_filter]
    apply List.filter_congr
    intro i _
    cases g.edges[i]? with
    | none => rfl
    | some e =>
      simp only [Option.map_some, Option.any_some, hq]
      rw [Bool.and_comm]
  rw [hleft, hright]
  exact List.filter_append_perm _ _

theorem placesOf_true (g : Graph) : g.placesOf (fun _ => true) = List.range g.edges.length := by
  apply List.filter_eq_self.mpr
  intro i hi
  rw [List.getElem?_eq_getElem (List.mem_range.mp hi)]
  rfl

end Graph

namespace Index

variable {g : Graph} {sort : Verdict → Bool}

theorem getElem?_of_mem_rejected {p : ℕ × Edge × String} (hp : p ∈ g.index.rejected sort) :
    g.edges[p.1]? = some p.2.1 := by
  obtain ⟨⟨e, i⟩, he, hp⟩ := List.mem_filterMap.mp hp
  have hat : g.edges[i]? = some e := List.mk_mem_zipIdx_iff_getElem?.mp he
  dsimp only at hp
  split_ifs at hp
  obtain ⟨reason, -, rfl⟩ := Option.map_eq_some_iff.mp hp
  exact hat

theorem rejected_map_fst (hs : ∀ v, sort v = true → (v.reason?).isSome = true) :
    (g.index.rejected sort).map Prod.fst = g.placesOf sort := by
  have hrange : List.range g.edges.length = g.edges.zipIdx.map Prod.snd := by
    rw [List.zipIdx_map_snd, List.range_eq_range']
  rw [Graph.placesOf, hrange, List.filter_map, rejected, List.map_filterMap, ← List.filterMap_eq_map,
    ← List.filterMap_eq_filter, List.filterMap_filterMap]
  apply List.filterMap_congr
  rintro ⟨e, i⟩ he
  have hat : g.edges[i]? = some e := List.mk_mem_zipIdx_iff_getElem?.mp he
  change Option.map _ (if sort (g.verdict e) = true then (g.verdict e).reason?.map _ else none) = _
  simp only [Function.comp_apply, Option.guard, hat, Option.map_some, Option.any_some]
  cases hv : sort (g.verdict e) with
  | false => simp
  | true =>
    obtain ⟨reason, hr⟩ := Option.isSome_iff_exists.mp (hs _ hv)
    simp [hr]

theorem illTyped_map_fst (g : Graph) : g.index.illTyped.map Prod.fst = g.placesOf Verdict.isIllTyped := by
  apply rejected_map_fst
  intro v hv
  cases v <;> simp_all [Verdict.isIllTyped, Verdict.reason?]

theorem dangling_map_fst (g : Graph) : g.index.dangling.map Prod.fst = g.placesOf Verdict.isDangling := by
  apply rejected_map_fst
  intro v hv
  cases v <;> simp_all [Verdict.isDangling, Verdict.reason?]

theorem classes_perm (g : Graph) :
    ((List.range g.edges.length).filter (fun i => (g.roleAt? i).isSome) ++ g.index.illTyped.map Prod.fst ++
      g.index.dangling.map Prod.fst).Perm (List.range g.edges.length) := by
  rw [← Graph.placesOf_isSome_role, illTyped_map_fst, dangling_map_fst, ← Graph.placesOf_true]
  have htwo : (g.placesOf (fun v => v.role?.isSome) ++ g.placesOf Verdict.isIllTyped).Perm
      (g.placesOf fun v => !v.isDangling) := by
    apply Graph.placesOf_append_perm
    · intro v
      cases v <;> simp [Verdict.role?, Verdict.isDangling]
    · intro v
      cases v <;> rfl
  apply (htwo.append_right _).trans
  apply Graph.placesOf_append_perm
  · intro v _
    rfl
  · intro v
    cases v <;> rfl

/-- Whether a warning says that an edge is left out. -/
def isIgnoring (warning : String) : Bool :=
  "Ignored connection ".toList.isPrefixOf warning.toList

theorem message_ignoredEdge (g : Graph) (e : Edge) (reason : String) :
    "Ignored connection ".toList <+: ((Advice.ignoredEdge e reason).message g).toList := by
  have hfrom : "Ignored connection from '" = "Ignored connection " ++ "from '" := rfl
  unfold Advice.message
  simp only [hfrom, String.append_assoc]
  rw [String.toList_append]
  exact ⟨_, rfl⟩

theorem isIgnoring_message (g : Graph) (a : Advice) :
    isIgnoring (a.message g) = true ↔ ∃ e reason, a = .ignoredEdge e reason := by
  rw [isIgnoring, List.isPrefixOf_iff_prefix]
  cases a with
  | ignoredEdge e reason =>
    simp only [message_ignoredEdge g e reason, Advice.ignoredEdge.injEq, exists_eq_right', exists_eq']
  | _ =>
    -- The other warnings start with another letter.
    unfold Advice.message
    simp [List.cons_prefix_cons]

theorem warnings_filter (g : Graph) : g.index.validate.warnings.filter isIgnoring =
    (g.index.illTyped ++ g.index.dangling).map fun p => (Advice.ignoredEdge p.2.1 p.2.2).message g := by
  rw [warnings_eq, List.append_assoc, ← List.map_append, List.filter_append]
  have hnodes : (g.index.nodeAdvice.map (·.message g)).filter isIgnoring = [] := by
    apply List.filter_eq_nil_iff.mpr
    intro w hw
    obtain ⟨a, ha, rfl⟩ := List.mem_map.mp hw
    rw [isIgnoring_message]
    rintro ⟨e, reason, rfl⟩
    simp [nodeAdvice] at ha
  rw [hnodes, List.nil_append]
  apply List.filter_eq_self.mpr
  intro w hw
  obtain ⟨p, -, rfl⟩ := List.mem_map.mp hw
  exact (isIgnoring_message g _).mpr ⟨_, _, rfl⟩

/-- What an index is to tell of a graph. -/
structure Mirrors (ix : Index) (g : Graph) : Prop where
  /-- Each edge has a role, is ill-typed or dangles, and is only one of these. -/
  classes : ((List.range g.edges.length).filter (fun i => (g.roleAt? i).isSome) ++ ix.illTyped.map Prod.fst ++
    ix.dangling.map Prod.fst).Perm (List.range g.edges.length)
  rejected : ∀ p ∈ ix.illTyped ++ ix.dangling, g.edges[p.1]? = some p.2.1
  /-- There is one warning for each edge without a role. -/
  warned : ix.validate.warnings.filter isIgnoring =
    (ix.illTyped ++ ix.dangling).map fun p => (Advice.ignoredEdge p.2.1 p.2.2).message g
  dataSuccessors : ∀ s, g.Lists (g.joins .dataFlow s) (ix.dataSuccessors s)
  dataPredecessors : ∀ t, g.Lists (fun s => g.joins .dataFlow s t) (ix.dataPredecessors t)
  members : ∀ s, g.Lists (g.joins .membership s) (ix.members s)
  parents : ∀ t, g.Lists (fun s => g.joins .membership s t) (ix.parents t)
  inputFeeds : ∀ t, g.Lists (fun s => g.joins .inputFeed s t) (ix.inputFeeds t)
  tools : ∀ t, g.Lists (fun s => g.joins .toolAttachment s t) (ix.tools t)
  /-- A tool that does not exist is attached all the same. -/
  missing : ∀ e ∈ g.edges, g.node? e.source = none → e.targetHandle = .tools →
    (∃ n, g.node? e.target = some n ∧ n.kind.isExecutable = true) → e.source ∈ ix.tools e.target
  flow : ∀ s t, t ∈ ix.dataSuccessors s →
    (∃ n, g.node? s = some n ∧ n.kind.isExecutable = true) ∧ ∃ n, g.node? t = some n ∧ n.kind.isExecutable = true
  composition : ∀ s t, t ∈ ix.members s →
    (∃ n, g.node? s = some n ∧ n.kind.isComposite = true) ∧ ∃ n, g.node? t = some n ∧ n.kind.isExecutable = true

end Index

namespace Graph

end Graph

end AgentWorkflow

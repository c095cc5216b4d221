import AgentWorkflow.Proofs.Compile.WellScoped

/-!
Programs of forests.

In a forest no node is a member of two others, so each executable is declared at one place, and no function
wraps a node that another one wraps. Main statement: a program that is generated from a forest binds all
names that it uses.
-/

namespace AgentWorkflow

/-- No node is a member of two others. -/
def Index.IsForest (ix : Index) : Prop :=
  ∀ m id id', m ∈ ix.members id → m ∈ ix.members id' → id = id'

namespace Blueprint

variable {b : Blueprint} {root : Option String} {id : String} {place : Place} {p q q' : Demand} {l : Ledger}

theorem mem_members_of_contentDemands (h : q ∈ b.contentDemands id place)
    (hq : q.part = .construction ∨ q.part = .wrapper) : q.id ∈ b.index.members id := by
  rcases mem_contentDemands h with h | ⟨m, hm, rfl⟩ | ⟨m, hm, rfl⟩
  · rcases mem_toolDemands h with ⟨t, -, rfl⟩ | ⟨t, _, -, rfl⟩ <;> simp at hq
  · exact hm
  · exact hm

theorem mem_contentDemands_of_demandsOf (h : q ∈ b.demandsOf p) (hq : q.part = .construction ∨ q.part = .wrapper) :
    (p.part = .construction ∨ p.part = .wrapper) ∧ ∃ place, q ∈ b.contentDemands p.id place ∧
      ∀ q' ∈ b.demandsOf p, q'.part = .construction ∨ q'.part = .wrapper → q' ∈ b.contentDemands p.id place := by
  cases hp : p.part with
  | construction =>
    simp only [demandsOf, hp] at h ⊢
    exact ⟨by simp, p.place, h, fun _ h _ => h⟩
  | wrapper =>
    have inner (q' : Demand) (h : q' ∈ b.demandsOf p) (hq : q'.part = .construction ∨ q'.part = .wrapper) :
        q' ∈ b.contentDemands p.id (b.innerPlace p.id) := by
      simp only [demandsOf, hp] at h
      rcases List.mem_append.mp h with h | h
      · exact h
      · split_ifs at h
        · obtain ⟨s, -, rfl⟩ := List.mem_map.mp h
          simp at hq
        · cases h
    exact ⟨Or.inr rfl, _, inner q h hq, inner⟩
  | client => simp [demandsOf, hp] at h
  | customTool => simp [demandsOf, hp] at h

theorem contentDemands_unique (h : q ∈ b.contentDemands id place) (h' : q' ∈ b.contentDemands id place)
    (hq : q.part = .construction ∨ q.part = .wrapper) (hq' : q'.part = .construction ∨ q'.part = .wrapper)
    (hid : q.id = q'.id) : q = q' := by
  have tool (n : Demand) (h : n ∈ b.toolDemands id) : ¬(n.part = .construction ∨ n.part = .wrapper) := by
    rcases mem_toolDemands h with ⟨t, -, rfl⟩ | ⟨t, _, -, rfl⟩ <;> simp
  unfold contentDemands at h h'
  cases hk : b.kindOf id with
  | agent settings =>
    rw [hk] at h
    exact absurd hq (tool q h)
  | orchestrator settings =>
    rw [hk] at h h'
    obtain ⟨m, -, rfl⟩ := List.mem_map.mp ((List.mem_append.mp h).resolve_right fun h => tool q h hq)
    obtain ⟨m', -, rfl⟩ := List.mem_map.mp ((List.mem_append.mp h').resolve_right fun h => tool q' h hq')
    obtain rfl : m = m' := hid
    rfl
  | swarm settings =>
    rw [hk] at h h'
    obtain ⟨m, -, rfl⟩ := List.mem_map.mp h
    obtain ⟨m', -, rfl⟩ := List.mem_map.mp h'
    obtain rfl : m = m' := hid
    rfl
  | container settings =>
    rw [hk] at h h'
    obtain ⟨m, -, rfl⟩ := List.mem_map.mp h
    obtain ⟨m', -, rfl⟩ := List.mem_map.mp h'
    obtain rfl : m = m' := hid
    rfl
  | _ =>
    rw [hk] at h
    cases h

theorem idle_disjoint (hid : id ∈ b.runs root) : id ∉ b.idle root := by
  cases root with
  | none => exact List.not_mem_nil
  | some r =>
    intro h
    have := (List.mem_filter.mp h).2
    rw [List.mem_singleton.mp hid] at this
    simp at this

theorem agenda_unique (h : q ∈ b.agenda root) (h' : q' ∈ b.agenda root)
    (hq : q.part = .construction ∨ q.part = .wrapper) (hq' : q'.part = .construction ∨ q'.part = .wrapper)
    (hid : q.id = q'.id) : q = q' := by
  have parts {n : Demand} (h : n ∈ b.agenda root) (hn : n.part = .construction ∨ n.part = .wrapper) :
      n.id ∈ b.runs root ∧ n = ⟨n.id, b.runPlace n.id, .construction⟩ ∨
        n.id ∈ b.idle root ∧ n = b.idleDemand n.id := by
    rcases mem_agenda.mp h with ⟨id, hid, rfl⟩ | ⟨id, hid, rfl⟩ | ⟨s, -, rfl⟩
    · exact Or.inl ⟨hid, rfl⟩
    · exact Or.inr ⟨hid, rfl⟩
    · simp at hn
  rcases parts h hq with ⟨hr, he⟩ | ⟨hi, he⟩ <;> rcases parts h' hq' with ⟨hr', he'⟩ | ⟨hi', he'⟩
  · rw [he, he', hid]
  · exact absurd hi' (hid ▸ idle_disjoint hr)
  · exact absurd hi (hid.symm ▸ idle_disjoint hr')
  · rw [he, he', hid]

theorem not_mem_members_of_agenda (hroot : ∀ r, root = some r → r ∈ b.index.topLevel) (h : q ∈ b.agenda root)
    (hq : q.part = .construction ∨ q.part = .wrapper) (owner : String) : q.id ∉ b.index.members owner := by
  have htop : q.id ∈ b.index.topLevel := by
    rcases mem_agenda.mp h with ⟨id, hid, rfl⟩ | ⟨id, hid, rfl⟩ | ⟨s, -, rfl⟩
    · exact mem_topLevel_of_runs hroot (Or.inl hid)
    · exact mem_topLevel_of_runs hroot (Or.inr hid)
    · simp at hq
  have hm : b.index.isMember q.id = false := by simpa using (List.mem_filter.mp htop).2
  exact Index.isMember_eq_false.mp hm owner

/-- In a forest one part is demanded of each executable. -/
theorem Demanded.eq_of_isForest (hf : b.index.IsForest) (hroot : ∀ r, root = some r → r ∈ b.index.topLevel)
    (h : b.Demanded (b.agenda root) q) (h' : b.Demanded (b.agenda root) q')
    (hq : q.part = .construction ∨ q.part = .wrapper) (hq' : q'.part = .construction ∨ q'.part = .wrapper)
    (hid : q.id = q'.id) : q = q' := by
  -- The owners of both are one node, of which one part is demanded by induction.
  induction h generalizing q' with
  | first hfirst =>
    cases h' with
    | first hfirst' => exact agenda_unique hfirst hfirst' hq hq' hid
    | step hp' hd' =>
      obtain ⟨-, place', hc', -⟩ := mem_contentDemands_of_demandsOf hd' hq'
      exact absurd (hid ▸ mem_members_of_contentDemands hc' hq') (not_mem_members_of_agenda hroot hfirst hq _)
  | @step p q hp hd ih =>
    obtain ⟨hpart, place, hc, hall⟩ := mem_contentDemands_of_demandsOf hd hq
    have hm := mem_members_of_contentDemands hc hq
    cases h' with
    | first hfirst' => exact absurd (hid ▸ hm) (not_mem_members_of_agenda hroot hfirst' hq' _)
    | @step p' _ hp' hd' =>
      obtain ⟨hpart', place', hc', -⟩ := mem_contentDemands_of_demandsOf hd' hq'
      have howner : p.id = p'.id := hf q.id _ _ hm (hid ▸ mem_members_of_contentDemands hc' hq')
      obtain rfl := ih hp' hpart hpart' howner
      exact contentDemands_unique hc (hall q' hd' hq') hq hq' hid

theorem Sound.laterWrappersSee_of_isForest (hf : b.index.IsForest)
    (hroot : ∀ r, root = some r → r ∈ b.index.topLevel) (h : b.Sound (b.agenda root) l) :
    b.LaterWrappersSee l.keys l.home? := by
  intro q hq hw hhome
  obtain ⟨s, hs, hkey⟩ := Sound.exists_home (Sound.isWrapped_of_mem hq hw)
  have heq := (h.demanded hq).1.eq_of_isForest hf hroot (h.demanded hkey).1 (Or.inr hw) (Or.inr rfl) rfl
  have hplace : q.place = s := congrArg Demand.place heq
  exact absurd (hplace ▸ hs) hhome

end Blueprint

/-- A program that the standard expanders generate from a forest binds all names that it uses. -/
theorem Compilation.isWellScoped_of_isForest {g : Graph} {options : Options} (ids : g.HasUniqueIds)
    (hf : g.index.IsForest) (h : (Compilation.mk g options .standard).compile.isSuccess = true) :
    ∃ p, (Compilation.mk g options .standard).program? = some p ∧
      (Compilation.mk g options .standard).compile.sourceText = p.text ∧ p.IsWellScoped := by
  obtain ⟨p, hp, ht⟩ := exists_program h
  obtain ⟨root, l, hv, -, hroot, hacc⟩ := accounts_of_program? ids hp
  have hb := Blueprint.coherent ids (Index.isAcyclic_of_valid ids hv) root
  have ha := (runnable ids hv hroot).agenda hb
  exact ⟨p, hp, ht, hacc.isWellScoped hb ha (hacc.sound.laterWrappersSee_of_isForest hf hroot)⟩

end AgentWorkflow

import AgentWorkflow.Compile.Generation
import AgentWorkflow.Proofs.Graph.Acyclic

/-!
Where the node is that a program runs.

Main statement: a valid graph has a root, and the root is at the top level.
-/

namespace AgentWorkflow.Index

variable {g : Graph}

theorem exists_executable_of_valid (h : g.index.validate.valid = true) :
    ∃ id, id ∈ g.index.executables := by
  have hp : g.index.problems = [] := List.isEmpty_iff.mp h
  simp only [problems, missingKinds, List.append_eq_nil_iff] at hp
  by_contra hn
  push Not at hn
  have he := List.eq_nil_iff_forall_not_mem.mpr hn
  simp [he] at hp

theorem topLevel_ne_nil (h : g.index.validate.valid = true) :
    g.index.topLevel ≠ [] := by
  obtain ⟨id, hid⟩ := exists_executable_of_valid h
  obtain ⟨top, ht, -⟩ := exists_topLevel (isAcyclic h) hid
  exact List.ne_nil_of_mem ht

theorem parents_executable {id p : String} (h : p ∈ g.index.parents id) :
    p ∈ g.index.executables := by
  obtain ⟨n, hn, hc⟩ := (kinds_of_mem_members (mem_members.mpr (mem_sources.mp h))).1
  exact mem_executables_of_node? hn (isExecutable_of_isComposite hc)

theorem mem_topLevel_of_outermostFrom? {fuel : ℕ} {seen waiting : List String} {top : String}
    (hw : ∀ id ∈ waiting, id ∈ g.index.executables)
    (h : g.index.outermostFrom? fuel seen waiting = some top) : top ∈ g.index.topLevel := by
  induction fuel generalizing seen waiting with
  | zero => simp [outermostFrom?] at h
  | succ fuel ih =>
    cases waiting with
    | nil => simp [outermostFrom?] at h
    | cons id rest =>
      obtain ⟨hid, hrest⟩ := List.forall_mem_cons.mp hw
      rw [outermostFrom?] at h
      split_ifs at h with hs hm
      · exact ih hrest h
      · refine ih (fun x hx => ?_) h
        exact (List.mem_append.mp hx).elim parents_executable (hrest x)
      · obtain rfl := Option.some.inj h
        exact mem_topLevel.mpr ⟨hid, isMember_eq_false.mp (by simpa using hm)⟩

theorem root?_topLevel (h : g.index.validate.valid = true) :
    ∃ r ∈ g.index.topLevel, g.index.root? = some r := by
  have hne := topLevel_ne_nil h
  obtain ⟨t, ht⟩ := List.exists_mem_of_ne_nil _ hne
  have hhead : g.index.topLevel.head? = some (g.index.topLevel.head hne) := List.head?_eq_some_head hne
  cases hf : g.index.topLevel.find? g.index.isFed with
  | some r => exact ⟨r, List.mem_of_find?_eq_some hf, by simp [root?, hf]⟩
  | none =>
    cases ho : (g.index.executables.filter g.index.isFed).findSome? g.index.outermost? with
    | some r =>
      obtain ⟨id, -, hr⟩ := List.exists_of_findSome?_eq_some ho
      exact ⟨r, mem_topLevel_of_outermostFrom? (fun _ hp => parents_executable hp) hr,
        by simp [root?, hf, ho]⟩
    | none => exact ⟨_, List.head_mem hne, by simp [root?, hf, ho, hhead]⟩

/-- In every mode a valid graph has something to run. -/
theorem rootIn_of_valid (h : g.index.validate.valid = true) (mode : Mode) :
    ∃ root, g.index.rootIn mode = .ok root ∧ ∀ r, root = some r → r ∈ g.index.topLevel := by
  obtain ⟨r, hr, he⟩ := root?_topLevel h
  cases mode with
  | graph => exact ⟨none, rfl, by simp⟩
  | _ => exact ⟨some r, by simp [rootIn, he], by rintro _ ⟨⟩; exact hr⟩

end AgentWorkflow.Index

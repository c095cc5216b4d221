import AgentWorkflow.Proofs.Compile.Expansion
import AgentWorkflow.Proofs.Compile.Root

/-!
What a program demands first.

A program demands the instances of the nodes that it runs, where servers are open if they need any, the
parts of other nodes at the top level, and the clients of all servers that the run needs.
-/

namespace AgentWorkflow.Blueprint

variable (b : Blueprint)

/-- The nodes that a program runs: its root, or everything at the top level. -/
def runs : Option String → List String
  | some root => [root]
  | none => b.index.topLevel

/-- The nodes at the top level that a program declares and does not run. -/
def idle : Option String → List String
  | some root => b.index.topLevel.filter (· ≠ root)
  | none => []

/-- The servers that are open during a run. -/
def runServers (root : Option String) : List String :=
  b.closures.union (b.runs root)

/-- The place of a node that a program runs. -/
def runPlace (id : String) : Place :=
  if b.closures.needsScope id then .root else .topLevel

/-- What a node demands that is declared and not run. -/
def idleDemand (id : String) : Demand :=
  ⟨id, .topLevel, if b.closures.needsScope id then .wrapper else .construction⟩

/-- What a program demands first. -/
def agenda (root : Option String) : List Demand :=
  ((b.runs root).map fun id => ⟨id, b.runPlace id, .construction⟩) ++
    (b.idle root).map b.idleDemand ++ clientDemands (b.runServers root)

variable {b} {root : Option String}

theorem mem_agenda {q : Demand} :
    q ∈ b.agenda root ↔ (∃ id ∈ b.runs root, q = ⟨id, b.runPlace id, .construction⟩) ∨
      (∃ id ∈ b.idle root, q = b.idleDemand id) ∨
      ∃ s ∈ b.runServers root, q = ⟨s, .topLevel, .client⟩ := by
  simp only [agenda, clientDemands, List.mem_append, List.mem_map, or_assoc, eq_comm]

theorem mem_topLevel_of_runs (hroot : ∀ r, root = some r → r ∈ b.index.topLevel) {id : String}
    (h : id ∈ b.runs root ∨ id ∈ b.idle root) : id ∈ b.index.topLevel := by
  cases root with
  | none => exact h.elim (fun h => h) fun h => absurd h List.not_mem_nil
  | some r =>
    rcases h with h | h
    · exact List.mem_singleton.mp h ▸ hroot r rfl
    · exact List.mem_of_mem_filter h

theorem placed_of_mem_agenda (hb : b.Coherent) {q : Demand} (hq : q ∈ b.agenda root)
    (hexec : q.part ≠ .client → ∃ n, b.index.node? q.id = some n ∧ n.kind.isExecutable = true) :
    b.Placed (b.runServers root) q := by
  rcases mem_agenda.mp hq with ⟨id, hid, rfl⟩ | ⟨id, hid, rfl⟩ | ⟨s, hs, rfl⟩
  · exact {
      executable := fun _ => hexec (by simp)
      server := by simp
      custom := by simp
      opened := fun _ hn => by
        simp only at hn
        simp only [runPlace, hn, if_true, Place.isScoped]
      wrapped := by simp
      within := by
        simp only [runPlace]
        split_ifs with hn
        · exact ⟨hn, fun s hs => Index.mem_union.mpr ⟨id, hid, hs⟩⟩
        · trivial }
  · exact {
      executable := fun hor => hexec (by rcases hor with h | h <;> simp [h])
      server := by
        simp only [idleDemand]
        split_ifs <;> simp
      custom := by
        simp only [idleDemand]
        split_ifs <;> simp
      opened := by
        simp only [idleDemand]
        split_ifs with hn
        · simp
        · exact fun _ h => absurd h hn
      wrapped := fun _ => Or.inr rfl
      within := trivial }
  · obtain ⟨id, -, hs⟩ := Index.mem_union.mp hs
    exact placed_client (hb.attached_of_mem_servers hs)

theorem isOutside_of_mem_agenda {q : Demand} (hq : q ∈ b.agenda root) : q.place.isWrapper = false := by
  rcases mem_agenda.mp hq with ⟨id, -, rfl⟩ | ⟨id, -, rfl⟩ | ⟨s, -, rfl⟩
  · simp only [runPlace]
    split_ifs <;> rfl
  · rfl
  · rfl

theorem agenda_fits (hb : b.Coherent) (hroot : ∀ r, root = some r → r ∈ b.index.topLevel)
    (htop : ∀ id ∈ b.index.topLevel, ∃ n, b.index.node? id = some n ∧ n.kind.isExecutable = true) :
    b.Agenda (b.runServers root) (b.agenda root) where
  placed q hq := placed_of_mem_agenda hb hq fun hc => by
    rcases mem_agenda.mp hq with ⟨id, hid, rfl⟩ | ⟨id, hid, rfl⟩ | ⟨s, -, rfl⟩
    · exact htop id (mem_topLevel_of_runs hroot (Or.inl hid))
    · exact htop id (mem_topLevel_of_runs hroot (Or.inr hid))
    · exact absurd rfl hc
  outside _ hq := isOutside_of_mem_agenda hq

end AgentWorkflow.Blueprint

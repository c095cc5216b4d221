import AgentWorkflow.Compile.Expansion
import AgentWorkflow.Proofs.Compile.Content

/-!
What the parts of nodes demand.

A part demands the parts that its code uses, each at its place. Starting from what a program demands
first, all that is demanded has a place that fits it: what needs servers is where they are open, and what
is inside the function that wraps a node is below that node. Ranks go down along demands, so no part is
demanded for its own sake.
-/

namespace AgentWorkflow.Blueprint

open Relation

variable (b : Blueprint)

/-- What an attached tool demands. -/
def toolDemand? : Attachment → Option Demand
  | .builtin _ => none
  | .custom t => some ⟨t, .topLevel, .customTool⟩
  | .server t _ => some ⟨t, .topLevel, .client⟩

def toolDemands (id : String) : List Demand :=
  (b.attached id).filterMap toolDemand?

/-- What the instance of an executable at a place demands. -/
def contentDemands (id : String) (place : Place) : List Demand :=
  match b.kindOf id with
  | .agent _ => b.toolDemands id
  | .orchestrator _ =>
    ((b.index.members id).map fun m => ⟨m, b.dependencyPlace m place, .wrapper⟩) ++ b.toolDemands id
  | .swarm _ | .container _ =>
    (b.index.members id).map fun m => ⟨m, b.memberPlace m place, .construction⟩
  | _ => []

def clientDemands (servers : List String) : List Demand :=
  servers.map fun s => ⟨s, .topLevel, .client⟩

def demandsOf (q : Demand) : List Demand :=
  match q.part with
  | .construction => b.contentDemands q.id q.place
  | .wrapper =>
    b.contentDemands q.id (b.innerPlace q.id) ++
      if b.opens q.id q.place then clientDemands (b.closures.servers q.id) else []
  | .client | .customTool => []

/-- What is demanded, given what is demanded first. -/
inductive Demanded (first : List Demand) : Demand → Prop
  | first {q : Demand} : q ∈ first → Demanded first q
  | step {p q : Demand} : Demanded first p → q ∈ b.demandsOf p → Demanded first q

/-- A number that is smaller for what a part demands than for the part. -/
noncomputable def rank (q : Demand) : ℕ :=
  match q.part with
  | .construction => 2 * b.index.height q.id + 1
  | .wrapper => 2 * b.index.height q.id + 2
  | .client | .customTool => 0

variable {b} {id : String} {place : Place} {p q : Demand}

theorem mem_toolDemands (h : q ∈ b.toolDemands id) :
    (∃ t, .custom t ∈ b.attached id ∧ q = ⟨t, .topLevel, .customTool⟩) ∨
      ∃ t client, .server t client ∈ b.attached id ∧ q = ⟨t, .topLevel, .client⟩ := by
  obtain ⟨a, ha, hq⟩ := List.mem_filterMap.mp h
  cases a with
  | builtin symbol => cases hq
  | custom t => exact Or.inl ⟨t, ha, (Option.some.inj hq).symm⟩
  | server t client => exact Or.inr ⟨t, client, ha, (Option.some.inj hq).symm⟩

theorem mem_contentDemands (h : q ∈ b.contentDemands id place) :
    q ∈ b.toolDemands id ∨
      (∃ m ∈ b.index.members id, q = ⟨m, b.dependencyPlace m place, .wrapper⟩) ∨
      ∃ m ∈ b.index.members id, q = ⟨m, b.memberPlace m place, .construction⟩ := by
  unfold contentDemands at h
  split at h
  · exact Or.inl h
  · rcases List.mem_append.mp h with h | h
    · obtain ⟨m, hm, rfl⟩ := List.mem_map.mp h
      exact Or.inr (Or.inl ⟨m, hm, rfl⟩)
    · exact Or.inl h
  · obtain ⟨m, hm, rfl⟩ := List.mem_map.mp h
    exact Or.inr (Or.inr ⟨m, hm, rfl⟩)
  · obtain ⟨m, hm, rfl⟩ := List.mem_map.mp h
    exact Or.inr (Or.inr ⟨m, hm, rfl⟩)
  · cases h

theorem rank_contentDemands (hb : b.Coherent) (h : q ∈ b.contentDemands id place) :
    b.rank q < 2 * b.index.height id + 1 := by
  rcases mem_contentDemands h with h | ⟨m, hm, rfl⟩ | ⟨m, hm, rfl⟩
  · rcases mem_toolDemands h with ⟨t, -, rfl⟩ | ⟨t, _, -, rfl⟩ <;> exact Nat.succ_pos _
  all_goals
    have := Index.height_lt hb.acyclic (.single hm)
    simp only [rank]
    omega

theorem rank_lt (hb : b.Coherent) (h : q ∈ b.demandsOf p) : b.rank q < b.rank p := by
  unfold demandsOf at h
  unfold rank
  split at h
  · exact rank_contentDemands hb h
  · rcases List.mem_append.mp h with h | h
    · exact Nat.lt_succ_of_lt (rank_contentDemands hb h)
    · split_ifs at h
      · obtain ⟨s, -, rfl⟩ := List.mem_map.mp h
        exact Nat.succ_pos _
      · cases h
  all_goals cases h

theorem dependencyPlace_eq (m : String) (place : Place) :
    (b.dependencyPlace m place = place ∧ place.isScoped = true ∧ b.closures.needsScope m = true) ∨
      b.dependencyPlace m place = .topLevel := by
  unfold dependencyPlace
  split_ifs with h
  · exact Or.inl ⟨rfl, Bool.and_eq_true_iff.mp h⟩
  · exact Or.inr rfl

theorem memberPlace_eq (m : String) (place : Place) :
    b.memberPlace m place = place ∨ b.memberPlace m place = .topLevel := by
  unfold memberPlace
  split_ifs
  · exact Or.inl rfl
  · exact (dependencyPlace_eq m place).imp And.left fun h => h

theorem place_of_mem_contentDemands (h : q ∈ b.contentDemands id place) :
    q.place = place ∨ q.place = .topLevel := by
  rcases mem_contentDemands h with h | ⟨m, -, rfl⟩ | ⟨m, -, rfl⟩
  · rcases mem_toolDemands h with ⟨t, -, rfl⟩ | ⟨t, _, -, rfl⟩ <;> exact Or.inr rfl
  · exact (dependencyPlace_eq m place).imp And.left fun h => h
  · exact memberPlace_eq m place

/-- What is demanded inside the function that wraps a node is demanded by each wrapping of the node. -/
theorem Demanded.mem_of_closed {first keys : List Demand} (closed : ∀ p ∈ keys, b.demandsOf p ⊆ keys)
    (outside : ∀ q ∈ first, q.place.isWrapper = false) (h : b.Demanded first q) {x : String}
    {isOpen : Bool} (hp : q.place = .wrapper x isOpen) {s : Place} (hx : ⟨x, s, .wrapper⟩ ∈ keys) :
    q ∈ keys := by
  induction h with
  | first hq =>
    have := outside _ hq
    rw [hp] at this
    cases this
  | @step p q hd hq ih =>
    unfold demandsOf at hq
    split at hq
    · rename_i hc
      refine closed p (ih ?_) (by simpa [demandsOf, hc] using hq)
      exact (place_of_mem_contentDemands hq).elim (fun he => he ▸ hp) fun he => by simp [he] at hp
    · rcases List.mem_append.mp hq with hq | hq
      · have hi : b.innerPlace p.id = .wrapper x isOpen :=
          (place_of_mem_contentDemands hq).elim (fun he => he ▸ hp) fun he => by simp [he] at hp
        obtain ⟨rfl, -⟩ := Place.wrapper.inj hi
        exact closed _ hx (by simpa [demandsOf] using Or.inl hq)
      · split_ifs at hq
        · obtain ⟨t, -, rfl⟩ := List.mem_map.mp hq
          cases hp
        · cases hq
    all_goals cases hq

theorem Demanded.exists_wrapper {first : List Demand}
    (outside : ∀ q ∈ first, q.place.isWrapper = false) (h : b.Demanded first q) {x : String}
    {isOpen : Bool} (hp : q.place = .wrapper x isOpen) : ∃ s, b.Demanded first ⟨x, s, .wrapper⟩ := by
  induction h with
  | first hq =>
    have := outside _ hq
    rw [hp] at this
    cases this
  | @step p q hd hq ih =>
    unfold demandsOf at hq
    split at hq
    · exact ih ((place_of_mem_contentDemands hq).elim (fun he => he ▸ hp) fun he => by simp [he] at hp)
    · rename_i hw
      rcases List.mem_append.mp hq with hq | hq
      · have hi : b.innerPlace p.id = .wrapper x isOpen :=
          (place_of_mem_contentDemands hq).elim (fun he => he ▸ hp) fun he => by simp [he] at hp
        obtain ⟨rfl, -⟩ := Place.wrapper.inj hi
        exact ⟨p.place, by rwa [← hw]⟩
      · split_ifs at hq
        · obtain ⟨t, -, rfl⟩ := List.mem_map.mp hq
          cases hp
        · cases hq
    all_goals cases hq

/-- A node can be declared at a place: at the root it needs servers, all of them among those that are open
there, and inside the function that wraps another node it is below that node. -/
def Within (b : Blueprint) (servers : List String) (id : String) : Place → Prop
  | .topLevel => True
  | .root => b.closures.needsScope id = true ∧ b.closures.servers id ⊆ servers
  | .wrapper owner isOpen => isOpen = b.closures.needsScope owner ∧ b.index.IsBelow id owner

/-- Code of a node can stand at a place. Other than a declaration it can stand inside the function that
wraps the node itself. -/
def Hosts (b : Blueprint) (servers : List String) (id : String) : Place → Prop
  | .topLevel => True
  | .root => b.closures.servers id ⊆ servers
  | .wrapper owner isOpen =>
    isOpen = b.closures.needsScope owner ∧ ReflTransGen b.index.HasMember owner id

theorem Within.hosts {servers : List String} (h : b.Within servers id place) :
    b.Hosts servers id place := by
  cases place with
  | topLevel => trivial
  | root => exact h.2
  | wrapper owner isOpen => exact ⟨h.1, h.2.to_reflTransGen⟩

/-- What is demanded fits its place. -/
structure Placed (b : Blueprint) (servers : List String) (q : Demand) : Prop where
  executable : q.part = .construction ∨ q.part = .wrapper →
    ∃ n, b.index.node? q.id = some n ∧ n.kind.isExecutable = true
  server : q.part = .client → q.place = .topLevel ∧ ∃ x, q.id ∈ b.index.ownServers x
  custom : q.part = .customTool →
    q.place = .topLevel ∧ ∃ n s, b.index.node? q.id = some n ∧ n.kind = .customTool s
  opened : q.part = .construction → b.closures.needsScope q.id = true → q.place.isScoped = true
  wrapped : q.part = .wrapper →
    q.place.isScoped = true ∧ b.closures.needsScope q.id = true ∨ q.place = .topLevel
  within : b.Within servers q.id q.place

theorem isServer_of_ownServers {ix : Index} {s x : String} (h : s ∈ ix.ownServers x) :
    ix.isServer s = true :=
  (List.mem_filter.mp h).2

theorem Coherent.attached_of_mem_servers (hb : b.Coherent) {s : String} (h : s ∈ b.closures.servers id) :
    ∃ x, s ∈ b.index.ownServers x :=
  (hb.needed h).imp fun _ hx => hx.2

theorem Coherent.servers_subset (hb : b.Coherent) {m : String} (hm : b.index.IsBelow m id) :
    b.closures.servers m ⊆ b.closures.servers id := by
  obtain ⟨x, hx, -⟩ := TransGen.head'_iff.mp hm
  obtain ⟨n, hn, hk⟩ := hb.owner hx
  intro s hs
  exact ((hb.closure hn hk).2 s).mpr (.of_isBelow hm (hb.needed hs))

theorem needsScope_iff : b.closures.needsScope id = true ↔ b.closures.servers id ≠ [] := by
  simp [Closures.needsScope]

theorem Coherent.needsScope_mono (hb : b.Coherent) {m : String} (hm : b.index.IsBelow m id)
    (h : b.closures.needsScope m = true) : b.closures.needsScope id = true := by
  rw [needsScope_iff] at h ⊢
  obtain ⟨s, hs⟩ := List.exists_mem_of_ne_nil _ h
  exact List.ne_nil_of_mem (hb.servers_subset hm hs)

theorem placed_client {servers : List String} {s : String} (h : ∃ x, s ∈ b.index.ownServers x) :
    b.Placed servers ⟨s, .topLevel, .client⟩ where
  executable h := by simp at h
  server _ := ⟨rfl, h⟩
  custom h := by simp at h
  opened h := by simp at h
  wrapped h := by simp at h
  within := trivial

theorem placed_custom {servers : List String} {t : String}
    (h : ∃ n s, b.index.node? t = some n ∧ n.kind = .customTool s) : b.Placed servers ⟨t, .topLevel, .customTool⟩ where
  executable h := by simp at h
  server h := by simp at h
  custom _ := ⟨rfl, h⟩
  opened h := by simp at h
  wrapped h := by simp at h
  within := trivial

/-- A member that stays at the place is within it: it is below what its composition is below. -/
theorem Hosts.within (hb : b.Coherent) {servers : List String} (hh : b.Hosts servers id place) {m : String}
    (hm : m ∈ b.index.members id) (hor : b.closures.needsScope m = true ∨ place.isWrapper = true) :
    b.Within servers m place := by
  cases place with
  | topLevel => trivial
  | root => exact ⟨hor.resolve_right Bool.false_ne_true, fun s hs => hh (hb.servers_subset (.single hm) hs)⟩
  | wrapper owner isOpen => exact ⟨hh.1, TransGen.tail' hh.2 hm⟩

theorem placed_content (hb : b.Coherent) {servers : List String}
    (hs : b.closures.needsScope id = true → place.isScoped = true) (hh : b.Hosts servers id place)
    (h : q ∈ b.contentDemands id place) : b.Placed servers q := by
  rcases mem_contentDemands h with h | ⟨m, hm, rfl⟩ | ⟨m, hm, rfl⟩
  · rcases mem_toolDemands h with ⟨t, ht, rfl⟩ | ⟨t, client, ht, rfl⟩
    · exact placed_custom (hb.mem_attached_custom ht)
    · exact placed_client ⟨id, (hb.mem_attached_server ht).1⟩
  · have hp := dependencyPlace_eq (b := b) m place
    exact {
      executable := fun _ => hb.member hm
      server := by simp
      custom := by simp
      opened := by simp
      wrapped := fun _ => hp.imp (fun ⟨he, hsc, hn⟩ => ⟨(congrArg Place.isScoped he).trans hsc, hn⟩) fun h => h
      within := by
        rcases hp with ⟨he, -, hn⟩ | he <;> simp only [he]
        · exact hh.within hb hm (Or.inl hn)
        · trivial }
  · exact {
      executable := fun _ => hb.member hm
      server := by simp
      custom := by simp
      opened := fun _ hn => by
        have hsc := hs (hb.needsScope_mono (.single hm) hn)
        simp only [memberPlace, dependencyPlace, hsc, hn, Bool.and_self, if_true, ite_self]
      wrapped := by simp
      within := by
        simp only [memberPlace, dependencyPlace]
        split_ifs with hw hc
        · exact hh.within hb hm (Or.inr hw)
        · exact hh.within hb hm (Or.inl (Bool.and_eq_true_iff.mp hc).2)
        · trivial }

theorem placed_step (hb : b.Coherent) {servers : List String} (hp : b.Placed servers p)
    (h : q ∈ b.demandsOf p) : b.Placed servers q := by
  unfold demandsOf at h
  split at h
  · rename_i hc
    exact placed_content hb (hp.opened hc) hp.within.hosts h
  · rcases List.mem_append.mp h with h | h
    · refine placed_content hb ?_ ?_ h
      · exact fun hn => hn
      · exact ⟨rfl, .refl⟩
    · split_ifs at h
      · obtain ⟨s, hs, rfl⟩ := List.mem_map.mp h
        exact placed_client (hb.attached_of_mem_servers hs)
      · cases h
  all_goals cases h

/-- What a program demands first: every part fits its place, outside of all functions that wrap nodes. -/
structure Agenda (b : Blueprint) (servers : List String) (first : List Demand) : Prop where
  placed : ∀ q ∈ first, b.Placed servers q
  outside : ∀ q ∈ first, q.place.isWrapper = false

theorem Demanded.placed (hb : b.Coherent) {servers : List String} {first : List Demand}
    (ha : b.Agenda servers first) (h : b.Demanded first q) : b.Placed servers q := by
  induction h with
  | first hq => exact ha.placed _ hq
  | step _ hq ih => exact placed_step hb ih hq

/-- Nothing is missing that the code of a node needs. -/
def Fits (b : Blueprint) (id : String) : Prop :=
  match b.kindOf id with
  | .agent _ | .orchestrator _ => b.HasTools id
  | .swarm _ => b.index.members id ≠ [] ∧ ∀ m ∈ b.index.members id, (b.kindOf m).isTeammate = true
  | .container _ => b.index.members id ≠ []
  | .server settings => settings.fault? = none
  | _ => True

end AgentWorkflow.Blueprint

import AgentWorkflow.Proofs.Graph.Acyclic
import AgentWorkflow.Tools.Closure

/-!
What closures hold.

Closures that were found are taken as they are, so what holds of a closure must be passed on from members to the nodes
that they belong to. Main statement: when no node is below itself, the closure of an executable holds, without
repetition, the servers attached to the node and to all nodes below it.
-/

namespace AgentWorkflow

open Relation

section Distinct

variable {α : Type} [DecidableEq α]

theorem distinct_append (l m : List α) : distinct (l ++ m) = distinct l ++ (distinct m).filter (· ∉ l) := by
  induction l with
  | nil => simp [distinct]
  | cons a rest ih =>
    rw [List.cons_append, distinct, distinct, ih, List.filter_append, List.filter_filter, List.cons_append]
    congr 2
    refine List.filter_congr fun b _ => ?_
    simp [not_or]

theorem distinct_distinct_append (l m : List α) : distinct (distinct l ++ m) = distinct (l ++ m) := by
  rw [distinct_append, distinct_append, distinct_eq_self (distinct_nodup l)]
  simp only [mem_distinct]

theorem distinct_append_distinct (l m : List α) : distinct (l ++ distinct m) = distinct (l ++ m) := by
  rw [distinct_append, distinct_append, distinct_eq_self (distinct_nodup m)]

end Distinct

namespace Index

variable {ix : Index}

/-- A node needs a server: the server is attached to it or to a node below it. -/
def Needs (ix : Index) (id server : String) : Prop :=
  ∃ x, ReflTransGen ix.HasMember id x ∧ server ∈ ix.ownServers x

theorem needs_iff {id server : String} :
    ix.Needs id server ↔ server ∈ ix.ownServers id ∨ ∃ m ∈ ix.members id, ix.Needs m server := by
  constructor
  · rintro ⟨x, hx, hs⟩
    rcases ReflTransGen.cases_head hx with rfl | ⟨m, hm, hx⟩
    · exact Or.inl hs
    · exact Or.inr ⟨m, hm, x, hx, hs⟩
  · rintro (hs | ⟨m, hm, x, hx, hs⟩)
    · exact ⟨id, .refl, hs⟩
    · exact ⟨x, .head hm hx, hs⟩

theorem Needs.of_isBelow {id m server : String} (h : ix.IsBelow m id) (hs : ix.Needs m server) :
    ix.Needs id server :=
  hs.imp fun _ hx => ⟨h.to_reflTransGen.trans hx.1, hx.2⟩

/-- A list is the closure of a node. -/
def IsClosure (ix : Index) (id : String) (servers : List String) : Prop :=
  servers.Nodup ∧ ∀ s, s ∈ servers ↔ ix.Needs id s

/-- A property that a list of servers has if a node adds its own in front of lists that have it for its members. -/
def Passes (ix : Index) (P : String → List String → Prop) : Prop :=
  ∀ id lists, List.Forall₂ P (ix.members id) lists → P id (distinct (ix.ownServers id ++ lists.flatten))

/-- All closures found have a property. -/
def FindsClosures (P : String → List String → Prop) (found : Closures) : Prop :=
  ∀ id servers, found.get? id = some servers → P id servers

/-- A search for the closure of a node went well. -/
structure Finds (P : String → List String → Prop) (id : String) (found : Closures) (r : List String × Closures) :
    Prop where
  closure : P id r.1
  right : FindsClosures P r.2
  kept : ∀ k, (found.get? k).isSome → (r.2.get? k).isSome
  entry : (r.2.get? id).isSome

/-- One step of a search: the closure of a member is added. -/
def gather (ix : Index) (fuel : ℕ) (visiting : List String) (r : List String × Closures)
    (member : String) : List String × Closures :=
  let (more, found) := needed ix fuel visiting member r.2
  (distinct (r.1 ++ more), found)

theorem needed_succ (fuel : ℕ) (visiting : List String) (id : String) (found : Closures) :
    ix.needed (fuel + 1) visiting id found =
      match found.get? id with
      | some servers => (servers, found)
      | none =>
        if visiting.contains id then ([], found)
        else
          let r := (ix.members id).foldl (ix.gather fuel (id :: visiting)) (ix.ownServers id, found)
          (r.1, ⟨Entries.put id r.1 r.2.entries⟩) := rfl

section Search

variable {P : String → List String → Prop}

theorem gather_members {fuel : ℕ} {visiting : List String} {members : List String}
    (finds : ∀ m ∈ members, ∀ found, FindsClosures P found → Finds P m found (ix.needed fuel visiting m found))
    {r : List String × Closures} (hn : r.1.Nodup) (hr : FindsClosures P r.2) :
    let r' := members.foldl (ix.gather fuel visiting) r
    (∃ lists, List.Forall₂ P members lists ∧ r'.1 = distinct (r.1 ++ lists.flatten)) ∧ FindsClosures P r'.2 ∧
      ∀ k, (r.2.get? k).isSome → (r'.2.get? k).isSome := by
  induction members generalizing r with
  | nil =>
    refine ⟨⟨[], .nil, ?_⟩, hr, fun _ h => h⟩
    rw [List.flatten_nil, List.append_nil, distinct_eq_self hn]
    rfl
  | cons m rest ih =>
    obtain ⟨hm, hright, hkept, -⟩ := finds m (by simp) r.2 hr
    obtain ⟨⟨lists, hlists, he⟩, hr', hk⟩ := ih (fun x hx => finds x (List.mem_cons_of_mem _ hx))
      (r := ix.gather fuel visiting r m) (distinct_nodup _) hright
    refine ⟨⟨_, .cons hm hlists, ?_⟩, hr', fun k h => hk k (hkept k h)⟩
    rw [List.foldl_cons, he, List.flatten_cons, ← List.append_assoc]
    exact distinct_distinct_append _ _

theorem ownServers_nodup (id : String) : (ix.ownServers id).Nodup :=
  tools_nodup.filter _

theorem finds_needed (hac : ix.IsAcyclic) (hP : ix.Passes P) {fuel : ℕ} {visiting : List String} {id : String}
    {found : Closures} (hf : ix.height id < fuel) (hv : ∀ v ∈ visiting, ix.height id < ix.height v)
    (hr : FindsClosures P found) : Finds P id found (ix.needed fuel visiting id found) := by
  induction fuel generalizing visiting id found with
  | zero => omega
  | succ fuel ih =>
    rw [needed_succ]
    split
    · rename_i servers hg
      exact ⟨hr id servers hg, hr, fun _ h => h, by simp [hg]⟩
    · -- Those that are being visited are higher than the node, so it is not among them.
      have hvis : visiting.contains id = false := by
        simpa using fun h => lt_irrefl _ (hv id h)
      rw [hvis, if_neg Bool.false_ne_true]
      have finds : ∀ m ∈ ix.members id, ∀ found, FindsClosures P found →
          Finds P m found (ix.needed fuel (id :: visiting) m found) := by
        intro m hm found hr
        have hlt := height_lt hac (.single hm)
        refine ih (by omega) (fun v hmem => ?_) hr
        rcases List.mem_cons.mp hmem with rfl | hmem
        · exact hlt
        · exact hlt.trans (hv v hmem)
      obtain ⟨⟨lists, hlists, he⟩, hr', hk⟩ := gather_members finds (r := (ix.ownServers id, found))
        (ownServers_nodup id) hr
      have hc : P id ((ix.members id).foldl (ix.gather fuel (id :: visiting)) (ix.ownServers id, found)).1 :=
        he ▸ hP id lists hlists
      refine ⟨hc, fun k servers h => ?_, fun k h => ?_, ?_⟩
      · rw [Closures.get?, Entries.get?_put] at h
        split_ifs at h with he
        · cases h
          exact he ▸ hc
        · exact hr' k servers h
      · simp only [Closures.get?, Entries.get?_put]
        split_ifs
        · rfl
        · exact hk k h
      · simp [Closures.get?]

/-- What members pass on to the nodes that they belong to holds of all closures, and each executable has one. -/
theorem finds_closures (hac : ix.IsAcyclic) (hP : ix.Passes P) :
    FindsClosures P ix.closures ∧ ∀ id ∈ ix.executables, (ix.closures.get? id).isSome := by
  suffices h : ∀ ids : List String, ∀ found, FindsClosures P found →
      let found' := ids.foldl (fun found id => (ix.needed (ix.links.length + 2) [] id found).2) found
      FindsClosures P found' ∧ (∀ k, (found.get? k).isSome → (found'.get? k).isSome) ∧
        ∀ id ∈ ids, (found'.get? id).isSome by
    obtain ⟨hr, -, he⟩ := h ix.executables ⟨[]⟩ (by simp [FindsClosures, Closures.get?, Entries.get?])
    exact ⟨hr, he⟩
  intro ids
  induction ids with
  | nil => exact fun found hr => ⟨hr, fun _ h => h, by simp⟩
  | cons id rest ih =>
    intro found hr
    have hf : Finds P id found (ix.needed (ix.links.length + 2) [] id found) :=
      finds_needed hac hP (Nat.lt_add_right 1 (Nat.lt_succ_of_le (ix.height_le_links id))) (by simp) hr
    obtain ⟨hr', hk, he⟩ := ih _ hf.right
    refine ⟨hr', fun k h => hk k (hf.kept k h), fun x hx => ?_⟩
    rcases List.mem_cons.mp hx with rfl | hx
    · exact hk _ hf.entry
    · exact he x hx

theorem servers_of_passes (hac : ix.IsAcyclic) (hP : ix.Passes P) {id : String} (h : id ∈ ix.executables) :
    ix.closures.get? id = some (ix.closures.servers id) ∧ P id (ix.closures.servers id) := by
  obtain ⟨hr, he⟩ := finds_closures hac hP
  obtain ⟨servers, hs⟩ := Option.isSome_iff_exists.mp (he id h)
  have hservers : ix.closures.servers id = servers := by rw [Closures.servers, hs, Option.getD_some]
  rw [hservers]
  exact ⟨hs, hr id servers hs⟩

end Search

theorem mem_flatten_needs {ms : List String} {lists : List (List String)} (h : List.Forall₂ ix.IsClosure ms lists)
    {s : String} : s ∈ lists.flatten ↔ ∃ m ∈ ms, ix.Needs m s := by
  induction h with
  | nil => simp
  | cons hm _ ih => rw [List.flatten_cons, List.mem_append, hm.2, ih, List.exists_mem_cons_iff]

theorem isClosure_passes : ix.Passes ix.IsClosure := by
  intro id lists h
  refine ⟨distinct_nodup _, fun s => ?_⟩
  rw [mem_distinct, List.mem_append, mem_flatten_needs h, needs_iff]

theorem isClosure_servers (hac : ix.IsAcyclic) {id : String} (h : id ∈ ix.executables) :
    ix.IsClosure id (ix.closures.servers id) :=
  (servers_of_passes hac isClosure_passes h).2

theorem servers_nodup (hac : ix.IsAcyclic) (id : String) : (ix.closures.servers id).Nodup := by
  cases h : ix.closures.get? id with
  | none => simp [Closures.servers, h]
  | some servers => simpa [Closures.servers, h] using ((finds_closures hac isClosure_passes).1 id servers h).1

theorem needs_of_mem_servers (hac : ix.IsAcyclic) {id s : String} (h : s ∈ ix.closures.servers id) :
    ix.Needs id s := by
  cases hg : ix.closures.get? id with
  | none => simp [Closures.servers, hg] at h
  | some servers =>
    exact (((finds_closures hac isClosure_passes).1 id servers hg).2 s).mp (by simpa [Closures.servers, hg] using h)

theorem mem_servers (hac : ix.IsAcyclic) {id s : String} (h : id ∈ ix.executables) :
    s ∈ ix.closures.servers id ↔ ix.Needs id s :=
  (isClosure_servers hac h).2 s

theorem mem_union {c : Closures} {ids : List String} {s : String} :
    s ∈ c.union ids ↔ ∃ id ∈ ids, s ∈ c.servers id := by
  simp [Closures.union]

end Index

end AgentWorkflow

import AgentWorkflow.Naming.SymbolTable
import AgentWorkflow.Proofs.Graph.Links
import AgentWorkflow.Proofs.Naming.Identifier

/-!
The identifiers that a symbol table allots.

Each is the first free one of numbered candidates; the candidates cannot all be blocked, since there are
more of them than names taken and reserved. Main statement: the names of a graph's nodes are
well-formed, pairwise different in all roles, and none of them is reserved.
-/

namespace AgentWorkflow

namespace SymbolTable

open Identifier

theorem not_isReserved {reserved : List String} {ident : String} :
    isReserved reserved ident = false ↔
      ident ≠ syntheticIdent ∧ ∀ role : NameRole, ident ++ role.suffix ∉ reserved := by
  have all (role : NameRole) : role ∈ NameRole.all := by cases role <;> decide
  simp only [isReserved, Bool.or_eq_false_iff, beq_eq_false_iff_ne, List.any_eq_false,
    List.contains_eq_mem, decide_eq_true_eq]
  exact and_congr_right fun _ => ⟨fun h role => h role (all role), fun h role _ => h role⟩

theorem toString_injective {m n : ℕ} (h : toString m = toString n) : m = n :=
  Nat.repr_injective h

theorem candidates_nodup (ident : String) (count : ℕ) : (candidates ident count).Nodup := by
  refine List.nodup_cons.mpr ⟨fun h => ?_, List.Nodup.map (fun i j h => ?_) List.nodup_range⟩
  · obtain ⟨i, -, hi⟩ := List.mem_map.mp h
    have hl := congrArg String.length hi
    simp only [String.length_append] at hl
    have : "_".length = 1 := rfl
    omega
  · have := toString_injective ((String.append_right_inj _).mp h)
    omega

theorem candidates_plain {ident c : String} {count : ℕ} (hi : IsPlain ident)
    (hc : c ∈ candidates ident count) :
    IsPlain c ∧ (ident ∉ keywords → c ∉ keywords) := by
  rcases List.mem_cons.mp hc with rfl | hc
  · exact ⟨hi, id⟩
  · obtain ⟨i, -, rfl⟩ := List.mem_map.mp hc
    have digits : ∀ d ∈ (toString (i + 2)).toList, isPlainChar d = true := by
      intro d hd
      have hr : d ∈ Nat.toDigits 10 (i + 2) := by rwa [Nat.toString_eq_repr, Nat.toList_repr] at hd
      simp [isPlainChar, Nat.isDigit_of_mem_toDigits (by decide) (by decide) hr]
    exact ⟨hi.append_underscore digits, fun _ => joined_not_keyword _ _⟩

theorem card_le_reserved {reserved : List String} {blocked : Finset String}
    (h : ∀ c ∈ blocked, ∃ role : NameRole, c ++ role.suffix ∈ reserved) :
    blocked.card ≤ reserved.length := by
  have : Nonempty NameRole := ⟨.agent⟩
  choose! role hr using h
  calc blocked.card
      ≤ reserved.toFinset.card := by
        refine Finset.card_le_card_of_injOn (fun c => c ++ (role c).suffix) ?_ ?_
        · exact fun c hc => List.mem_toFinset.mpr (hr c hc)
        · exact fun c _ d _ h => (NameRole.append_suffix_inj h).1
    _ ≤ reserved.length := reserved.toFinset_card_le

/-- A numbered search ends: more candidates are at hand than can be blocked. -/
theorem exists_free (reserved taken : List String) (ident : String) :
    ∃ c ∈ candidates ident (reserved.length + taken.length + 2),
      c ∉ taken ∧ isReserved reserved c = false := by
  classical
  -- Otherwise each candidate would be taken, synthetic, or blocked by a reserved name, and there are too few of these.
  by_contra hall
  push Not at hall
  let all := (candidates ident (reserved.length + taken.length + 2)).toFinset
  let blocked := all.filter fun c => ∃ role : NameRole, c ++ role.suffix ∈ reserved
  have hb : blocked.card ≤ reserved.length := card_le_reserved fun c hc => (Finset.mem_filter.mp hc).2
  have hs : all ⊆ taken.toFinset ∪ ({syntheticIdent} ∪ blocked) := by
    intro c hc
    by_cases ht : c ∈ taken
    · simp [ht]
    · have hr := hall c (List.mem_toFinset.mp hc) ht
      by_cases hw : c = syntheticIdent
      · simp [hw]
      · have : ∃ role : NameRole, c ++ role.suffix ∈ reserved := by
          by_contra hn
          push Not at hn
          exact hr (not_isReserved.mpr ⟨hw, hn⟩)
        simp [blocked, hc, this]
  have hc : all.card = reserved.length + taken.length + 3 := by
    rw [List.toFinset_card_of_nodup (candidates_nodup _ _)]
    simp [candidates]
  have ht : taken.toFinset.card ≤ taken.length := taken.toFinset_card_le
  have h1 : ({syntheticIdent} : Finset String).card = 1 := Finset.card_singleton _
  have := Finset.card_le_card hs
  have := Finset.card_union_le taken.toFinset ({syntheticIdent} ∪ blocked)
  have := Finset.card_union_le {syntheticIdent} blocked
  omega

theorem firstFree_mem (reserved taken : List String) (ident : String) :
    firstFree reserved taken ident ∈ candidates ident (reserved.length + taken.length + 2) ∧
      firstFree reserved taken ident ∉ taken ∧
      isReserved reserved (firstFree reserved taken ident) = false := by
  obtain ⟨c, hc, ht, hr⟩ := exists_free reserved taken ident
  have hs : ((candidates ident (reserved.length + taken.length + 2)).find? fun c =>
      !(taken.contains c || isReserved reserved c)).isSome :=
    List.find?_isSome.mpr ⟨c, hc, by simp [ht, hr]⟩
  obtain ⟨d, hd⟩ := Option.isSome_iff_exists.mp hs
  have he : firstFree reserved taken ident = d := by simp only [firstFree, hd, Option.getD_some]
  have hp := List.find?_some hd
  simp only [Bool.not_eq_true', Bool.or_eq_false_iff, List.contains_eq_mem, decide_eq_false_iff_not] at hp
  exact he ▸ ⟨List.mem_of_find?_eq_some hd, hp⟩

theorem firstFree_self {reserved taken : List String} {ident : String} (ht : ident ∉ taken)
    (hr : isReserved reserved ident = false) : firstFree reserved taken ident = ident := by
  simp [firstFree, candidates, ht, hr]

theorem slug_plain (kind : NodeKind) : IsPlain kind.slug ∧ kind.slug ∉ keywords := by
  have plain {s : String} (h : (s.toList.head?.any Char.isLower && s.toList.all isPlainChar) = true) :
      IsPlain s := by
    rw [Bool.and_eq_true, Option.any_eq_true, List.all_eq_true] at h
    exact h
  cases kind
  all_goals
    simp only [NodeKind.slug]
    exact ⟨plain (by decide), by decide⟩

theorem baseIdent_plain (n : Node) : IsPlain (baseIdent n) ∧ baseIdent n ∉ keywords := by
  unfold baseIdent
  split_ifs
  · exact slug_plain n.kind
  · exact ⟨ofLabel_isPlain _, ofLabel_not_keyword _⟩

section Allotment

variable {nodes : List Node} {root : Option String} {reserved taken : List String}

theorem allot_free (n : Node) :
    allot nodes root reserved taken n ∉ taken ∧
      isReserved reserved (allot nodes root reserved taken n) = false :=
  (firstFree_mem _ _ _).2

theorem allot_plain (n : Node) :
    IsPlain (allot nodes root reserved taken n) ∧ allot nodes root reserved taken n ∉ keywords := by
  obtain ⟨hp, hk⟩ := baseIdent_plain n
  have suffixed : IsPlain (baseIdent n ++ "_" ++ idSuffix n.id) ∧
      baseIdent n ++ "_" ++ idSuffix n.id ∉ keywords :=
    ⟨hp.append_underscore (idSuffix_plain n.id), joined_not_keyword _ _⟩
  have candidate (ident : String) (h : IsPlain ident ∧ ident ∉ keywords) :
      IsPlain (firstFree reserved taken ident) ∧ firstFree reserved taken ident ∉ keywords :=
    (candidates_plain h.1 (firstFree_mem reserved taken ident).1).imp_right fun hi => hi h.2
  unfold allot
  dsimp only
  split_ifs
  · exact candidate _ ⟨hp, hk⟩
  · exact candidate _ suffixed

theorem allot_root {n : Node} (hr : root = some n.id) (hb : isReserved reserved (baseIdent n) = false) :
    allot nodes root reserved [] n = baseIdent n := by
  simp [allot, hr, hb, firstFree_self]

/-- What holds of the identifiers allotted so far: they are well-formed, free, and all different. -/
structure Allotted (reserved taken : List String) (idents : List (String × String)) : Prop where
  isTaken : ∀ {id ident}, Entries.get? id idents = some ident → ident ∈ taken
  inj : ∀ {id id' ident}, Entries.get? id idents = some ident → Entries.get? id' idents = some ident →
    id = id'
  free : ∀ {id ident}, Entries.get? id idents = some ident → isReserved reserved ident = false
  plain : ∀ {id ident}, Entries.get? id idents = some ident → IsPlain ident ∧ ident ∉ keywords

theorem Allotted.put {idents : List (String × String)} (h : Allotted reserved taken idents) (id : String)
    {ident : String} (ht : ident ∉ taken) (hr : isReserved reserved ident = false)
    (hp : IsPlain ident ∧ ident ∉ keywords) :
    Allotted reserved (ident :: taken) (Entries.put id ident idents) := by
  have old {k x : String} (hx : Entries.get? k idents = some x) : x ≠ ident :=
    fun he => ht (he ▸ h.isTaken hx)
  constructor
  · intro k x hx
    rw [Entries.get?_put] at hx
    split_ifs at hx
    · cases hx; exact List.mem_cons_self
    · exact List.mem_cons_of_mem _ (h.isTaken hx)
  · intro k k' x hx hx'
    rw [Entries.get?_put] at hx hx'
    split_ifs at hx hx' with hk hk' hk'
    · rw [hk, hk']
    · cases hx; exact absurd rfl (old hx')
    · cases hx'; exact absurd rfl (old hx)
    · exact h.inj hx hx'
  · intro k x hx
    rw [Entries.get?_put] at hx
    split_ifs at hx
    · cases hx; exact hr
    · exact h.free hx
  · intro k x hx
    rw [Entries.get?_put] at hx
    split_ifs at hx
    · cases hx; exact hp
    · exact h.plain hx

theorem Allotted.allotAll {idents : List (String × String)} (rest : List Node)
    (h : Allotted reserved taken idents) :
    ∃ taken', Allotted reserved taken' (allotAll nodes root reserved taken idents rest) := by
  induction rest generalizing taken idents with
  | nil => exact ⟨taken, h⟩
  | cons n rest ih =>
    have hfree : allot nodes root reserved taken n ∉ taken ∧
        isReserved reserved (allot nodes root reserved taken n) = false := allot_free n
    exact ih (h.put n.id hfree.1 hfree.2 (allot_plain n))

theorem get?_allotAll_of_not_mem {idents : List (String × String)} {rest : List Node} {id : String}
    (h : id ∉ rest.map Node.id) :
    Entries.get? id (allotAll nodes root reserved taken idents rest) = Entries.get? id idents := by
  induction rest generalizing taken idents with
  | nil => rfl
  | cons n rest ih =>
    simp only [List.map_cons, List.mem_cons, not_or] at h
    rw [allotAll, ih h.2, Entries.get?_put, if_neg h.1]

theorem get?_allotAll_isSome {idents : List (String × String)} {rest : List Node} {id : String}
    (h : id ∈ rest.map Node.id ∨ (Entries.get? id idents).isSome) :
    (Entries.get? id (allotAll nodes root reserved taken idents rest)).isSome := by
  induction rest generalizing taken idents with
  | nil => simpa [allotAll] using h
  | cons n rest ih =>
    apply ih
    rw [Entries.get?_put]
    by_cases hid : id = n.id
    · simp [hid]
    · simpa [hid] using h

end Allotment

variable (g : Graph) (root : Option String) (reserved : List String)

theorem allotted_build : ∃ taken, Allotted reserved taken (build g root reserved).idents :=
  Allotted.allotAll _ ⟨by simp [Entries.get?], by simp [Entries.get?], by simp [Entries.get?],
    by simp [Entries.get?]⟩

variable {g root reserved}

theorem ident?_inj {id id' ident : String} (h : (build g root reserved).ident? id = some ident)
    (h' : (build g root reserved).ident? id' = some ident) : id = id' :=
  (allotted_build g root reserved).elim fun _ ha => ha.inj h h'

theorem ident?_free {id ident : String} (h : (build g root reserved).ident? id = some ident) :
    isReserved reserved ident = false :=
  (allotted_build g root reserved).elim fun _ ha => ha.free h

theorem ident?_plain {id ident : String} (h : (build g root reserved).ident? id = some ident) :
    IsPlain ident ∧ ident ∉ keywords :=
  (allotted_build g root reserved).elim fun _ ha => ha.plain h

theorem mem_order {n : Node} :
    n ∈ order g root ↔ (∃ id, root = some id ∧ g.node? id = some n) ∨
      n ∈ g.nodes ∧ needsSymbol n.kind = true ∧ some n.id ≠ root := by
  simp [order, Option.bind_eq_some_iff]

theorem ident?_isSome_of_node? {n : Node} (hn : g.node? n.id = some n)
    (h : root = some n.id ∨ needsSymbol n.kind = true) :
    ((build g root reserved).ident? n.id).isSome := by
  apply get?_allotAll_isSome
  refine Or.inl (List.mem_map_of_mem (mem_order.mpr ?_))
  by_cases hr : root = some n.id
  · exact Or.inl ⟨n.id, hr, hn⟩
  · exact Or.inr ⟨(Graph.mem_of_node? hn).1, h.resolve_left hr, fun he => hr he.symm⟩

theorem ident?_isSome (ids : g.HasUniqueIds) {n : Node} (hn : n ∈ g.nodes)
    (h : root = some n.id ∨ needsSymbol n.kind = true) :
    ((build g root reserved).ident? n.id).isSome :=
  ident?_isSome_of_node? (ids.node?_eq_some.mpr ⟨hn, rfl⟩) h

theorem name?_eq_some {t : SymbolTable} {id name : String} {role : NameRole} :
    t.name? id role = some name ↔ ∃ ident, t.ident? id = some ident ∧ name = ident ++ role.suffix := by
  simp [name?, eq_comm]

theorem name?_inj {id id' name : String} {role role' : NameRole}
    (h : (build g root reserved).name? id role = some name)
    (h' : (build g root reserved).name? id' role' = some name) : id = id' ∧ role = role' := by
  obtain ⟨ident, hi, rfl⟩ := name?_eq_some.mp h
  obtain ⟨ident', hi', he⟩ := name?_eq_some.mp h'
  obtain ⟨rfl, rfl⟩ := NameRole.append_suffix_inj he
  exact ⟨ident?_inj hi hi', rfl⟩

theorem name?_not_reserved {id name : String} {role : NameRole}
    (h : (build g root reserved).name? id role = some name) : name ∉ reserved := by
  obtain ⟨ident, hi, rfl⟩ := name?_eq_some.mp h
  exact (not_isReserved.mp (ident?_free hi)).2 role

theorem name?_ne_synthetic {id name : String} {role : NameRole}
    (h : (build g root reserved).name? id role = some name) (role' : NameRole) : name ≠ syntheticIdent ++ role'.suffix := by
  obtain ⟨ident, hi, rfl⟩ := name?_eq_some.mp h
  exact fun he => (not_isReserved.mp (ident?_free hi)).1 (NameRole.append_suffix_inj he).1

theorem ident?_root {n : Node} (hn : g.node? n.id = some n) (hr : root = some n.id)
    (hb : isReserved reserved (baseIdent n) = false) :
    (build g root reserved).ident? n.id = some (baseIdent n) := by
  have ho : order g root = n :: g.nodes.filter fun m => needsSymbol m.kind ∧ some m.id ≠ root := by
    simp [order, hr, hn]
  simp only [ident?, build, ho, allotAll]
  rw [get?_allotAll_of_not_mem (by simp [hr]), Entries.get?_put, if_pos rfl, allot_root hr hb]

/-- The identifiers of a graph's nodes. The numbered search for each of them ends; the root and every node
that needs names have one; identifiers differ from node to node and names from role to role; none is
reserved or the synthetic root's; all are well-formed and no keywords; and the root keeps its bare
identifier, which is made from its label, or from its kind if the label is blank, unless that is
reserved. -/
theorem build_names_unique (ids : g.HasUniqueIds) (root : Option String) (reserved : List String) :
    (∀ (taken : List String) (ident : String), ∃ c ∈ candidates ident (reserved.length + taken.length + 2),
      c ∉ taken ∧ isReserved reserved c = false) ∧
    (∀ n ∈ g.nodes, root = some n.id ∨ n.kind.isExecutable = true ∨ (∃ s, n.kind = .customTool s) ∨
      (∃ s, n.kind = .server s) → ∃ ident, (build g root reserved).ident? n.id = some ident) ∧
    (∀ id id' ident, (build g root reserved).ident? id = some ident →
      (build g root reserved).ident? id' = some ident → id = id') ∧
    (∀ id id' role role' name, (build g root reserved).name? id role = some name →
      (build g root reserved).name? id' role' = some name → id = id' ∧ role = role') ∧
    (∀ id role name, (build g root reserved).name? id role = some name →
      name ∉ reserved ∧ name ≠ "workflow_graph" ∧ name ≠ "workflow_builder") ∧
    (∀ id ident, (build g root reserved).ident? id = some ident → IsPlain ident ∧ ident ∉ keywords) ∧
    (∀ n ∈ g.nodes, root = some n.id → isReserved reserved (baseIdent n) = false →
      (build g root reserved).ident? n.id = some (baseIdent n)) := by
  refine ⟨fun taken ident => exists_free reserved taken ident, fun n hn h => ?_, fun _ _ _ => ident?_inj,
    fun _ _ _ _ _ => name?_inj, fun id role name h => ?_, fun _ _ => ident?_plain, fun n hn hr => ?_⟩
  · refine Option.isSome_iff_exists.mp (ident?_isSome ids hn (h.imp_right fun hk => ?_))
    rcases hk with hk | ⟨s, hk⟩ | ⟨s, hk⟩
    · cases hk' : n.kind <;> simp_all [needsSymbol, NodeKind.isExecutable]
    · simp [needsSymbol, hk]
    · simp [needsSymbol, hk]
  · exact ⟨name?_not_reserved h, name?_ne_synthetic h .graph, name?_ne_synthetic h .builder⟩
  · exact ident?_root (ids.node?_eq_some.mpr ⟨hn, rfl⟩) hr

def namesakes : Graph :=
  ⟨[⟨"a-1111", "Helper", .agent .default⟩, ⟨"b-2222", "Helper", .agent .default⟩], []⟩

theorem namesakes_names_unique : namesakes.HasUniqueIds ∧
    (build namesakes (some "b-2222") ["helper_1111_tool"]).ident? "b-2222" = some "helper" ∧
    ∃ ident, (build namesakes (some "b-2222") ["helper_1111_tool"]).ident? "a-1111" = some ident ∧
      ident ≠ "helper" := by
  have ids : namesakes.HasUniqueIds := by decide
  obtain ⟨-, total, inj, -, -, -, bare⟩ := build_names_unique ids (some "b-2222") ["helper_1111_tool"]
  have root : (build namesakes (some "b-2222") ["helper_1111_tool"]).ident? "b-2222" = some "helper" :=
    (bare ⟨"b-2222", "Helper", .agent .default⟩ (by simp [namesakes]) rfl (by decide +kernel)).trans
      (by decide +kernel)
  obtain ⟨ident, h⟩ := total ⟨"a-1111", "Helper", .agent .default⟩ (by simp [namesakes]) (Or.inr (Or.inl rfl))
  refine ⟨ids, root, ident, h, ?_⟩
  rintro rfl
  exact absurd (inj _ _ _ h root) (by decide)

def unlabelled : Graph :=
  ⟨[⟨"a-1111", " ", .agent .default⟩], []⟩

/-- A root whose label is blank does not keep the identifier of its label. -/
theorem blank_root_not_label : unlabelled.HasUniqueIds ∧ isReserved [] (ofLabel " ") = false ∧
    ofLabel " " = "node" ∧ (build unlabelled (some "a-1111") []).ident? "a-1111" = some "agent" := by
  decide +kernel

end SymbolTable

end AgentWorkflow

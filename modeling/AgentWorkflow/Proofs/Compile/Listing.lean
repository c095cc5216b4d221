import AgentWorkflow.Proofs.Compile.Features
import AgentWorkflow.Proofs.Compile.Names
import AgentWorkflow.Proofs.Compile.Pieces
import AgentWorkflow.Proofs.Tools.Toolbox

/-!
How the tools of an agent are listed.

Main statements: an agent lists what is attached to its node and the functions that wrap its members; and a
tool is listed once, unless another one that is attached has the same name.
-/

namespace AgentWorkflow

namespace Blueprint

variable (b : Blueprint)

/-- The entry of a node in a list of tools; nothing if it is no tool. -/
def listed? (t : String) : Option ToolEntry :=
  (b.attachmentOf t).map b.entryOf

variable {b} {id t : String}

section Toolbelt

variable (hb : b.Coherent) (ht : b.HasTools id)

include hb ht

theorem Coherent.attached_perm : (b.attached id).Perm (b.unsorted id) := by
  rw [attached, hb.toolbelt_eq ht]
  simp only [Except.toOption, Option.getD_some, List.partition_eq_filter_filter]
  exact List.filter_append_perm _ _

theorem Coherent.attached_nodup : (b.attached id).Nodup :=
  (hb.attached_perm ht).nodup_iff.mpr (distinct_nodup _)

theorem Coherent.mem_attached_iff {a : Attachment} :
    a ∈ b.attached id ↔ ∃ t ∈ b.index.tools id, b.attachmentOf t = some a := by
  rw [(hb.attached_perm ht).mem_iff, unsorted, mem_distinct, List.mem_filterMap]

omit hb ht in
theorem toolEntries_perm (id : String) (delegates : List String) :
    (b.toolEntries id delegates).Perm ((b.attached id).map b.entryOf ++ delegates.map .delegate) := by
  let entries := (b.attached id).map fun a => (a, b.entryOf a)
  have hsplit : (entries.filter (fun e => !e.1.isServer) ++ entries.filter (fun e => e.1.isServer)).Perm entries :=
    List.perm_append_comm.trans (List.filter_append_perm (fun e => e.1.isServer) entries)
  have hmap : ((entries.filter fun e => !e.1.isServer).map (·.2) ++
      (entries.filter fun e => e.1.isServer).map (·.2)).Perm ((b.attached id).map b.entryOf) := by
    rw [← List.map_append]
    simpa [entries, List.map_map, Function.comp_def] using hsplit.map (·.2)
  have htools : b.toolEntries id delegates = (entries.filter fun e => !e.1.isServer).map (·.2) ++
      delegates.map .delegate ++ (entries.filter fun e => e.1.isServer).map (·.2) := by
    simp only [toolEntries, List.partition_eq_filter_filter, entries]
    rfl
  rw [htools, List.append_assoc]
  exact (List.perm_append_comm.append_left _).trans (by rw [← List.append_assoc]; exact hmap.append_right _)

end Toolbelt

section Names

variable {g : Graph} {root : Option String} {n : Node} {a a' : Attachment} {t' f : String}

open CustomCode (StartsLikeName)

variable (hb : (g.index.blueprint root).Coherent)

theorem startsLikeName_symbol {s : String} (h : s ∈ Builtin.symbols) : StartsLikeName s := by
  have hall : ∀ s ∈ Builtin.symbols, s.toList.head?.any CustomCode.startsName = true := by decide
  obtain ⟨c, hc, hs⟩ := (Option.any_eq_true _ _).mp (hall s h)
  exact ⟨c, hc, hs⟩

theorem function?_reserved (root : Option String) (hn : g.node? t = some n) (hf : n.function? = some f) :
    f ∈ (g.index.blueprint root).toolbox.reservedNames ∧ StartsLikeName f ∧
      (g.index.blueprint root).functionOf t = f := by
  obtain ⟨s, hk⟩ := Node.exists_customTool hf
  rw [Node.function?_eq hk] at hf
  have hget : (g.index.blueprint root).toolbox.get? t = some (CustomCode.scan s.code) :=
    Toolbox.get?_ofNodes hn hk
  refine ⟨List.mem_append_right _ (Toolbox.mem_functions hget hf), CustomCode.function_starts hf, ?_⟩
  rw [functionOf, hget, Option.bind_some, hf, Option.getD_some]

theorem functionOf_of_none (root : Option String) {s : CustomToolSettings} (hn : g.node? t = some n)
    (hk : n.kind = .customTool s) (hf : n.function? = none) :
    (g.index.blueprint root).functionOf t = (g.index.blueprint root).nameIn t .tool := by
  rw [Node.function?_eq hk] at hf
  have hget : (g.index.blueprint root).toolbox.get? t = some (CustomCode.scan s.code) :=
    Toolbox.get?_ofNodes hn hk
  rw [functionOf, hget, Option.bind_some, hf, Option.getD_none]

section Symbols

variable (hn : g.node? id = some n) (hk : SymbolTable.needsSymbol n.kind = true) (role : NameRole)

include hb hn hk

theorem nameIn_not_reserved : (g.index.blueprint root).nameIn id role ∉
    (g.index.blueprint root).toolbox.reservedNames :=
  (hb.name_free (hb.name?_eq hn hk role)).1

theorem startsLikeName_nameIn : StartsLikeName ((g.index.blueprint root).nameIn id role) := by
  obtain ⟨⟨c, hc, hl⟩, -⟩ := (SymbolTable.ident?_plain (hb.ident?_eq hn hk)).1
  refine ⟨c, ?_, ?_⟩
  · rw [nameIn, String.toList_append, List.head?_append, hc]
    rfl
  · simp only [CustomCode.startsName, Char.isAlpha, hl, Bool.or_true, Bool.true_or]

end Symbols

theorem exists_of_mem_delegates {d : String} (hd : d ∈ (g.index.blueprint root).delegates id) :
    ∃ m settings, (g.index.blueprint root).kindOf id = .orchestrator settings ∧ m ∈ g.index.members id ∧
      d = (g.index.blueprint root).nameIn m .tool := by
  unfold delegates at hd
  split at hd
  · obtain ⟨m, hm, rfl⟩ := List.mem_map.mp hd
    exact ⟨m, _, ‹_›, hm, rfl⟩
  · cases hd

theorem exists_attachmentOf (hn : b.index.node? t = some n) (hk : n.kind.isTool = true) :
    ∃ a, b.attachmentOf t = some a := by
  rw [attachmentOf, kindOf_eq hn]
  cases hkn : n.kind <;> simp_all [NodeKind.isTool]

/-- How an attached tool is listed: a tool of the library by its symbol, a custom tool by the function that it
defines or else by a name of its own, and a server by its client. -/
inductive Listing (b : Blueprint) (t : String) : Attachment → String → Prop
  | symbol {s : String} : s ∈ Builtin.symbols → Listing b t (.builtin s) s
  | function {n : Node} {f : String} : b.index.node? t = some n → n.function? = some f →
    b.functionOf t = f → Listing b t (.custom t) f
  | placeholder {n : Node} {s : CustomToolSettings} : b.index.node? t = some n → n.kind = .customTool s →
    b.functionOf t = b.nameIn t .tool → Listing b t (.custom t) (b.nameIn t .tool)
  | server {n : Node} {s : ServerSettings} : b.index.node? t = some n → n.kind = .server s →
    Listing b t (.server t (b.nameIn t .client)) ("*" ++ b.nameIn t .client ++ ".list_tools_sync()")

theorem listing (h : (g.index.blueprint root).attachmentOf t = some a) :
    (g.index.blueprint root).Listing t a ((g.index.blueprint root).entryOf a).expression := by
  cases a with
  | builtin symbol => exact .symbol (attachmentOf_builtin h)
  | custom t' =>
    obtain ⟨rfl, s, hk⟩ := attachmentOf_custom h
    have hn : g.node? t' = some ((g.index.blueprint root).nodeOf t') :=
      node?_of_kind (b := g.index.blueprint root) (by rw [hk]; rfl)
    cases hf : ((g.index.blueprint root).nodeOf t').function? with
    | some f =>
      obtain ⟨-, -, hfun⟩ := function?_reserved root hn hf
      rw [entryOf, ToolEntry.expression, hfun]
      exact .function hn hf hfun
    | none =>
      have hfun := functionOf_of_none root hn hk hf
      rw [entryOf, ToolEntry.expression, hfun]
      exact .placeholder hn hk hfun
  | server t' client =>
    obtain ⟨rfl, rfl, s, hk⟩ := attachmentOf_server h
    have hn : g.node? t' = some ((g.index.blueprint root).nodeOf t') :=
      node?_of_kind (b := g.index.blueprint root) (by rw [hk]; rfl)
    exact .server hn hk

theorem not_startsLikeName_star {s : String} : ¬StartsLikeName ("*" ++ s) := by
  rintro ⟨c, hc, hs⟩
  rw [String.toList_append] at hc
  obtain rfl : '*' = c := by simpa using hc
  cases hs

include hb

theorem Listing.startsLikeName {x : String} (h : (g.index.blueprint root).Listing t a x) :
    a.isServer = false ∧ StartsLikeName x ∨ a.isServer = true ∧ ¬StartsLikeName x := by
  cases h with
  | symbol hs => exact Or.inl ⟨rfl, startsLikeName_symbol hs⟩
  | function hn hf _ => exact Or.inl ⟨rfl, (function?_reserved root hn hf).2.1⟩
  | placeholder hn hk _ => exact Or.inl ⟨rfl, startsLikeName_nameIn hb hn (by rw [hk]; rfl) .tool⟩
  | server hn hk =>
    rw [String.append_assoc]
    exact Or.inr ⟨rfl, not_startsLikeName_star⟩

theorem Listing.isServer_eq {x : String} (h : (g.index.blueprint root).Listing t a x)
    (h' : (g.index.blueprint root).Listing t' a' x) : a.isServer = a'.isServer := by
  rcases h.startsLikeName hb with ⟨hs, hx⟩ | ⟨hs, hx⟩ <;> rcases h'.startsLikeName hb with ⟨hs', hx'⟩ | ⟨hs', hx'⟩
  · exact hs.trans hs'.symm
  · exact absurd hx hx'
  · exact absurd hx' hx
  · exact hs.trans hs'.symm

theorem Listing.ne_nameIn {m x : String} (h : (g.index.blueprint root).Listing t a x) (hm : g.node? m = some n)
    (hk : n.kind.isExecutable = true) : x ≠ (g.index.blueprint root).nameIn m .tool := by
  have hneeds := needsSymbol_of_isExecutable hk
  have hfree := nameIn_not_reserved hb hm hneeds .tool
  intro he
  rcases h with hs | ⟨hn, hf, -⟩ | ⟨hn, hkt, -⟩ | ⟨hn, hkt⟩
  · exact hfree (he ▸ List.mem_append_left _ (List.mem_append_right _ hs))
  · exact hfree (he ▸ (function?_reserved root hn hf).1)
  · obtain ⟨rfl, -⟩ := hb.nameIn_inj hn (by rw [hkt]; rfl) hm hneeds he
    obtain rfl := Option.some.inj (hn.symm.trans hm)
    rw [hkt] at hk
    cases hk
  · rw [String.append_assoc] at he
    exact not_startsLikeName_star (he ▸ startsLikeName_nameIn hb hm hneeds .tool)

/-- Different tools are listed differently, unless they are custom tools that define one function, or a custom
tool defines a function with the name of a tool of the library. -/
theorem Listing.inj {x x' : String} (h : (g.index.blueprint root).Listing t a x)
    (h' : (g.index.blueprint root).Listing t' a' x') (he : x = x') :
    a = a' ∨
      (∃ n n', g.node? t = some n ∧ g.node? t' = some n' ∧ n ≠ n' ∧ n.function? = some x ∧
        n'.function? = some x) ∨
      .symbol x ∈ [(g.index.blueprint root).entryOf a, (g.index.blueprint root).entryOf a'] ∧
        .function x ∈ [(g.index.blueprint root).entryOf a, (g.index.blueprint root).entryOf a'] := by
  have hserver : a.isServer = a'.isServer := (he ▸ h).isServer_eq hb h'
  have hreserved {y : String} (hy : y ∈ Builtin.symbols) : y ∈ (g.index.blueprint root).toolbox.reservedNames :=
    List.mem_append_left _ (List.mem_append_right _ hy)
  -- A server is listed like no other tool. Names that the blueprint allots are not reserved, and what custom
  -- code defines and what the library has is.
  rcases h with hs | ⟨hn, hf, hfun⟩ | ⟨hn, hk, -⟩ | ⟨hn, hk⟩ <;>
    rcases h' with hs' | ⟨hn', hf', hfun'⟩ | ⟨hn', hk', -⟩ | ⟨hn', hk'⟩ <;> try cases hserver
  · exact Or.inl (congrArg _ he)
  · refine Or.inr (Or.inr ⟨List.mem_cons_self, List.mem_cons_of_mem _ ?_⟩)
    rw [entryOf, hfun', he]
    exact List.mem_singleton_self _
  · exact absurd (he ▸ hreserved hs) (nameIn_not_reserved hb hn' (by rw [hk']; rfl) .tool)
  · refine Or.inr (Or.inr ⟨List.mem_cons_of_mem _ ?_, ?_⟩)
    · rw [he]
      exact List.mem_singleton_self _
    · exact List.mem_cons.mpr (Or.inl (congrArg ToolEntry.function hfun.symm))
  · by_cases ht : t = t'
    · exact Or.inl (congrArg _ ht)
    · refine Or.inr (Or.inl ⟨_, _, hn, hn', fun hnn => ht ?_, hf, he ▸ hf'⟩)
      exact (Graph.mem_of_node? hn).2.symm.trans (hnn ▸ (Graph.mem_of_node? hn').2)
  · exact absurd (he ▸ (function?_reserved root hn hf).1) (nameIn_not_reserved hb hn' (by rw [hk']; rfl) .tool)
  · exact absurd (he ▸ hreserved hs') (nameIn_not_reserved hb hn (by rw [hk]; rfl) .tool)
  · exact absurd (he ▸ (function?_reserved root hn' hf').1) (nameIn_not_reserved hb hn (by rw [hk]; rfl) .tool)
  · obtain ⟨rfl, -⟩ := hb.nameIn_inj hn (by rw [hk]; rfl) hn' (by rw [hk']; rfl) he
    exact Or.inl rfl
  · have hname := (String.append_right_inj _).mp ((String.append_left_inj _).mp he)
    obtain ⟨rfl, -⟩ := hb.nameIn_inj hn (by rw [hk]; rfl) hn' (by rw [hk']; rfl) hname
    exact Or.inl rfl

/-- What shares its entry with nothing else that is attached is listed once: no delegate has its entry. -/
theorem count_toolEntries_eq_one (ha : (g.index.blueprint root).attachmentOf t = some a)
    (hall : (g.index.blueprint root).HasTools id) (hmem : a ∈ (g.index.blueprint root).attached id)
    (halone : ∀ a' ∈ (g.index.blueprint root).attached id, ((g.index.blueprint root).entryOf a').expression =
      ((g.index.blueprint root).entryOf a).expression ↔ a' = a) :
    (((g.index.blueprint root).toolEntries id ((g.index.blueprint root).delegates id)).map ToolEntry.expression).count
      ((g.index.blueprint root).entryOf a).expression = 1 := by
  have hown : (((g.index.blueprint root).attached id).map
      (ToolEntry.expression ∘ (g.index.blueprint root).entryOf)).count
        ((g.index.blueprint root).entryOf a).expression = 1 := by
    rw [List.count, List.countP_map, List.countP_congr (q := (· == a)) fun a' ha' => by simpa using halone a' ha']
    exact List.count_eq_one_of_mem (hb.attached_nodup hall) hmem
  have hdelegates : (((g.index.blueprint root).delegates id).map
      (ToolEntry.expression ∘ .delegate)).count ((g.index.blueprint root).entryOf a).expression = 0 := by
    refine List.count_eq_zero.mpr fun hx => ?_
    obtain ⟨d, hd, hdx⟩ := List.mem_map.mp hx
    obtain ⟨m, -, -, hm, rfl⟩ := exists_of_mem_delegates hd
    obtain ⟨-, n, hm, hk⟩ := Index.kinds_of_mem_members hm
    exact (listing ha).ne_nameIn hb hm hk hdx.symm
  have hperm := toolEntries_perm (b := g.index.blueprint root) id ((g.index.blueprint root).delegates id)
  rw [(hperm.map _).count_eq, List.map_append, List.map_map, List.map_map, List.count_append, hown, hdelegates]

/-- An attached tool stands once in a list of tools, unless a notice or another entry tells why not. -/
theorem count_toolEntries (ht : t ∈ g.index.tools id) (hn : g.node? t = some n)
    (ha : (g.index.blueprint root).attachmentOf t = some a) (hall : (g.index.blueprint root).HasTools id) :
    let entries := (g.index.blueprint root).toolEntries id ((g.index.blueprint root).delegates id)
    let x := ((g.index.blueprint root).entryOf a).expression
    (entries.map ToolEntry.expression).count x = 1 ∨
      (∃ previous name, .redefined previous name x ∈ Toolbox.notices g.nodes ∧
        (n.displayName = previous ∨ n.displayName = name)) ∨
      .symbol x ∈ entries ∧ .function x ∈ entries := by
  intro entries x
  have hperm := toolEntries_perm (b := g.index.blueprint root) id ((g.index.blueprint root).delegates id)
  have hmem : a ∈ (g.index.blueprint root).attached id := (hb.mem_attached_iff hall).mpr ⟨t, ht, ha⟩
  have hentry {a' : Attachment} (ha' : a' ∈ (g.index.blueprint root).attached id) :
      (g.index.blueprint root).entryOf a' ∈ entries :=
    hperm.mem_iff.mpr (List.mem_append_left _ (List.mem_map_of_mem ha'))
  -- What is attached is not repeated, so a tool is listed twice only beside another one of its name.
  by_cases halone : ∀ a' ∈ (g.index.blueprint root).attached id,
      ((g.index.blueprint root).entryOf a').expression = x ↔ a' = a
  · exact Or.inl (count_toolEntries_eq_one hb ha hall hmem halone)
  · push Not at halone
    obtain ⟨a', ha', ⟨hx, hne⟩ | ⟨hx, rfl⟩⟩ := halone
    · obtain ⟨t', -, hat'⟩ := hb.mem_attached ha'
      rcases (listing ha).inj hb (listing hat') hx.symm with rfl | ⟨n', m, hn', hm, hnm, hf, hfm⟩ | ⟨hs, hf⟩
      · exact absurd rfl hne
      · obtain rfl := Option.some.inj (hn.symm.trans hn')
        exact Or.inr (Or.inl (Toolbox.exists_redefined hnm (Graph.mem_of_node? hn).1 (Graph.mem_of_node? hm).1 hf hfm))
      · have hpair : [(g.index.blueprint root).entryOf a, (g.index.blueprint root).entryOf a'] ⊆ entries := by
          simpa using ⟨hentry hmem, hentry ha'⟩
        exact Or.inr (Or.inr ⟨hpair hs, hpair hf⟩)
    · exact absurd rfl hx

end Names

end Blueprint

end AgentWorkflow

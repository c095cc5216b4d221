import AgentWorkflow.Proofs.Compile.Emissions
import AgentWorkflow.Proofs.Compile.Recorded

/-!
The custom tools that building a node comes to.

The instance of a node is made after those of its members, and again for each place that needs one. A tool is declared
where it is needed first, so a part that was demanded before adds nothing: all that is below its node was declared with
it. Main statement: a part of a node declares those of the tools below the node that are not declared yet, in the order
in which the unfolding of the node comes to them, also if the part was demanded before.
-/

namespace AgentWorkflow

open Relation Drafting

section Distinct

variable {α β : Type} [DecidableEq α] [DecidableEq β]

theorem distinct_append_of_subset {l m : List α} (hn : l.Nodup) (h : m ⊆ l) : distinct (l ++ m) = l := by
  rw [distinct_append, distinct_eq_self hn, List.filter_eq_nil_iff.mpr, List.append_nil]
  exact fun a ha => by simpa using h (mem_distinct.mp ha)

theorem distinct_filterMap {f : α → Option β} (hf : ∀ a a' b, f a = some b → f a' = some b → a = a') (l : List α) :
    (distinct l).filterMap f = distinct (l.filterMap f) := by
  induction l with
  | nil => rfl
  | cons a rest ih =>
    have hfilter : ((distinct rest).filter (· ≠ a)).filterMap f =
        (distinct (rest.filterMap f)).filter fun b => some b ≠ f a := by
      rw [← ih, List.filterMap_filter, List.filter_filterMap]
      refine List.filterMap_congr fun x _ => ?_
      cases hx : f x with
      | none => simp
      | some b =>
        have hiff : x = a ↔ some b = f a := ⟨fun h => h ▸ hx.symm, fun h => hf x a b hx h.symm⟩
        by_cases hxa : x = a
        · simp [hxa, ← hiff.mp hxa, Option.filter]
        · simp [hxa, mt hiff.mpr hxa, Option.filter]
    rw [distinct, List.filterMap_cons, hfilter]
    cases ha : f a with
    | none => simp [ha]
    | some b => simp [ha, distinct]

end Distinct

theorem Drafting.Gives.of_leaves {α : Type} {m : Drafting α} {good : α → Prop}
    (h : ∀ d, m.Leaves d (fun a _ => good a) fun _ => True) : m.Gives good := by
  intro d
  have hd := h d
  unfold Leaves at hd
  unfold Ends
  split at hd
  · rename_i hr
    rwa [hr]
  · rename_i hr
    rw [hr]
    trivial
  · rename_i hr
    rw [hr]
    trivial

namespace Index

/-- The nodes below a node and the node itself, each after its members and as often as there are ways down to it. The
fuel bounds how far down they are. -/
def unfold (ix : Index) : ℕ → String → List String
  | 0, _ => []
  | fuel + 1, id => (ix.members id).flatMap (ix.unfold fuel) ++ [id]

/-- The nodes that are built for a node, in order. -/
def unfolding (ix : Index) (id : String) : List String :=
  ix.unfold (ix.links.length + 1) id

/-- The custom tools of an agent or an orchestrator, in the order in which they are attached. -/
def ownCustomTools (ix : Index) (id : String) : List String :=
  if (ix.node? id).any fun n => n.kind.hasAgent then
    (ix.tools id).filter fun t => (ix.node? t).any fun n => n.kind.isCustomTool
  else []

variable {ix : Index} {id x : String}

theorem unfold_eq (hac : ix.IsAcyclic) {n m : ℕ} (hn : ix.height id < n) (hm : ix.height id < m) :
    ix.unfold n id = ix.unfold m id := by
  induction n generalizing m id with
  | zero => omega
  | succ n ih =>
    obtain ⟨m, rfl⟩ : ∃ k, m = k + 1 := ⟨m - 1, by omega⟩
    rw [unfold, unfold]
    congr 1
    refine List.flatMap_congr fun x hx => ?_
    have hlt := height_lt hac (.single hx)
    exact ih (by omega) (by omega)

theorem unfolding_eq (hac : ix.IsAcyclic) (id : String) :
    ix.unfolding id = (ix.members id).flatMap ix.unfolding ++ [id] := by
  rw [unfolding, unfold]
  congr 1
  refine List.flatMap_congr fun x hx => ?_
  have hlt := height_lt hac (.single hx)
  have hle := ix.height_le_links id
  exact unfold_eq hac (by omega) (by omega)

theorem mem_unfolding (hac : ix.IsAcyclic) (h : ReflTransGen ix.HasMember id x) : x ∈ ix.unfolding id := by
  induction h using ReflTransGen.head_induction_on with
  | refl =>
    rw [unfolding_eq hac]
    exact List.mem_append_right _ (List.mem_singleton_self x)
  | @head id m hm _ ih =>
    rw [unfolding_eq hac]
    exact List.mem_append_left _ (List.mem_flatMap.mpr ⟨m, hm, ih⟩)

end Index

def Attachment.customTool? : Attachment → Option String
  | .custom t => some t
  | _ => none

/-- The custom tools that were declared, in order. -/
def Draft.customTools (d : Draft) : List String :=
  d.emitted.reverse.filterMap fun (_, f) => if f.kind = .customTool then f.node else none

namespace Draft

variable {d : Draft} {place : Place} {f : Fragment}

theorem customTools_emit (h : f.kind ≠ .customTool) : (d.emit place f).customTools = d.customTools := by
  simp [customTools, emit, h]

theorem customTools_emit_custom {t : String} (h : f.kind = .customTool) (hn : f.node = some t) :
    (d.emit place f).customTools = d.customTools ++ [t] := by
  simp [customTools, emit, h, hn]

end Draft

namespace Blueprint

variable (b : Blueprint)

/-- What is said of an orchestrator that has nobody to delegate to. -/
def aloneMessage (n : Node) : String :=
  "Orchestrator '" ++ n.displayName ++ "' has no sub-agents and will run as a plain agent"

/-- What is said of a swarm whose settings name nobody of it as the one that starts. -/
def strangerMessage (n : Node) (wanted : String) : String :=
  "Swarm '" ++ n.displayName ++ "' names entry point '" ++ wanted ++
    "', which is not one of its members; the first member starts instead"

/-- What a node gives reason to warn of when it is built. -/
def remarks (id : String) : List String :=
  match b.kindOf id with
  | .orchestrator _ => if (b.index.members id).isEmpty then [aloneMessage (b.nodeOf id)] else []
  | .swarm settings =>
    match settings.entryPoint.bind Text.nonBlank? with
    | some wanted =>
      if (b.index.members id).any (b.isNamed (Text.trim wanted)) then [] else [strangerMessage (b.nodeOf id) wanted]
    | none => []
  | _ => []

/-- The custom tools that building a node comes to. -/
def toolsBelow (id : String) : List String :=
  (b.index.unfolding id).flatMap b.index.ownCustomTools

/-- What building a node gives reason to warn of. -/
def remarksBelow (id : String) : List String :=
  (b.index.unfolding id).flatMap b.remarks

/-- While a node is built that is not as high as `k`, the parts of lower nodes that were demanded are complete. -/
structure Settled (k : ℕ) (d : Draft) : Prop where
  nodup : d.customTools.Nodup
  requested : ∀ t, ⟨t, .topLevel, .customTool⟩ ∈ d.demands ↔ t ∈ d.customTools
  tools : ∀ q ∈ d.demands, q.part = .construction ∨ q.part = .wrapper → b.index.height q.id < k →
    b.toolsBelow q.id ⊆ d.customTools
  remarks : ∀ q ∈ d.demands, q.part = .construction ∨ q.part = .wrapper → b.index.height q.id < k →
    b.remarksBelow q.id ⊆ d.diagnostics.warnings

/-- One draft comes after another: custom tools were declared and warnings given in between, for the parts of nodes
that are lower than `k`. -/
structure Advances (k : ℕ) (d d' : Draft) (tools remarks : List String) : Prop where
  settled : b.Settled k d'
  customTools : d'.customTools = distinct (d.customTools ++ tools)
  warnings : ∀ m, m ∈ d'.diagnostics.warnings ↔ m ∈ d.diagnostics.warnings ∨ m ∈ remarks
  demands : ∀ q ∈ d'.demands, q.part = .construction ∨ q.part = .wrapper → q ∈ d.demands ∨ b.index.height q.id < k

/-- A computation declares those of some custom tools that are not declared yet, and gives some warnings. -/
def Brings (k : ℕ) {α : Type} (m : Drafting α) (tools remarks : List String) : Prop :=
  ∀ d, b.Settled k d → m.Ends d (fun _ d' => b.Advances k d d' tools remarks) fun _ => True

variable {b} {k : ℕ} {α β : Type} {m : Drafting α} {tools tools' remarks remarks' : List String} {id : String}
  {place : Place} {d d' d'' : Draft}

theorem settled_empty : b.Settled k .empty where
  nodup := List.nodup_nil
  requested t := by simp [Draft.empty, Draft.customTools]
  tools q hq := absurd hq List.not_mem_nil
  remarks q hq := absurd hq List.not_mem_nil

theorem Settled.congr (h : b.Settled k d) (hdemands : d'.demands = d.demands)
    (hwarnings : d'.diagnostics.warnings = d.diagnostics.warnings) (htools : d'.customTools = d.customTools) :
    b.Settled k d' where
  nodup := htools ▸ h.nodup
  requested t := by rw [hdemands, htools, h.requested]
  tools q hq hp hk := by
    rw [htools]
    exact h.tools q (hdemands ▸ hq) hp hk
  remarks q hq hp hk := by
    rw [hwarnings]
    exact h.remarks q (hdemands ▸ hq) hp hk

theorem Settled.advances (h : b.Settled k d) (hdemands : d'.demands = d.demands)
    (hwarnings : d'.diagnostics.warnings = d.diagnostics.warnings) (htools : d'.customTools = d.customTools) :
    b.Advances k d d' [] [] where
  settled := h.congr hdemands hwarnings htools
  customTools := by rw [htools, List.append_nil, distinct_eq_self h.nodup]
  warnings m := by simp [hwarnings]
  demands q hq _ := Or.inl (hdemands ▸ hq)

theorem Settled.advances_of_subset (h : b.Settled k d) (htools : tools ⊆ d.customTools)
    (hremarks : remarks ⊆ d.diagnostics.warnings) : b.Advances k d d tools remarks where
  settled := h
  customTools := (distinct_append_of_subset h.nodup htools).symm
  warnings _ := (or_iff_left_of_imp fun hm => hremarks hm).symm
  demands _ hq _ := Or.inl hq

theorem Settled.demand {q : Demand} {k' : ℕ} (h : b.Settled k d) (hq : q.part ≠ .customTool) (hk : k' ≤ k)
    (hhigh : q.part = .construction ∨ q.part = .wrapper → k' ≤ b.index.height q.id) :
    b.Settled k' { d with demands := q :: d.demands } := by
  have hold {p : Demand} (hp : p ∈ q :: d.demands) (hpart : p.part = .construction ∨ p.part = .wrapper)
      (hlow : b.index.height p.id < k') : p ∈ d.demands := by
    refine (List.mem_cons.mp hp).resolve_left ?_
    rintro rfl
    exact absurd (hhigh hpart) (by omega)
  exact {
    nodup := h.nodup
    requested := fun t => by
      have hne : (⟨t, .topLevel, .customTool⟩ : Demand) ≠ q := fun he => hq (congrArg Demand.part he).symm
      rw [List.mem_cons, or_iff_right hne, h.requested]
      rfl
    tools := fun p hp hpart hlow => h.tools p (hold hp hpart hlow) hpart (by omega)
    remarks := fun p hp hpart hlow => h.remarks p (hold hp hpart hlow) hpart (by omega) }

/-- A node is complete once all that is below it was declared and said. -/
theorem Settled.complete {q : Demand} (h : b.Settled k d) (hk : b.index.height q.id < k)
    (ha : b.Advances (b.index.height q.id) { d with demands := q :: d.demands } d' (b.toolsBelow q.id)
      (b.remarksBelow q.id)) : b.Advances k d d' (b.toolsBelow q.id) (b.remarksBelow q.id) := by
  have hbelow : b.toolsBelow q.id ⊆ d'.customTools := by
    intro t ht
    rw [ha.customTools]
    exact mem_distinct.mpr (List.mem_append_right _ ht)
  have hkept : d.customTools ⊆ d'.customTools := by
    intro t ht
    rw [ha.customTools]
    exact mem_distinct.mpr (List.mem_append_left _ ht)
  -- A part that was demanded is this one, an older one, or one that was demanded meanwhile for a lower node.
  have hcases {p : Demand} (hp : p ∈ d'.demands) (hpart : p.part = .construction ∨ p.part = .wrapper) :
      p = q ∨ p ∈ d.demands ∨ b.index.height p.id < b.index.height q.id :=
    (ha.demands p hp hpart).elim (fun hp => (List.mem_cons.mp hp).imp_right Or.inl) fun hlow => Or.inr (Or.inr hlow)
  exact {
    settled := {
      nodup := ha.settled.nodup
      requested := ha.settled.requested
      tools := fun p hp hpart hlow => by
        rcases hcases hp hpart with rfl | hp' | hlow'
        · exact hbelow
        · exact List.Subset.trans (h.tools p hp' hpart hlow) hkept
        · exact ha.settled.tools p hp hpart hlow'
      remarks := fun p hp hpart hlow => by
        rcases hcases hp hpart with rfl | hp' | hlow'
        · exact fun m hm => (ha.warnings m).mpr (Or.inr hm)
        · exact fun m hm => (ha.warnings m).mpr (Or.inl (h.remarks p hp' hpart hlow hm))
        · exact ha.settled.remarks p hp hpart hlow' }
    customTools := ha.customTools
    warnings := ha.warnings
    demands := fun p hp hpart => by
      rcases hcases hp hpart with rfl | hp' | hlow'
      · exact Or.inr hk
      · exact Or.inl hp'
      · exact Or.inr (hlow'.trans hk) }

theorem Settled.declareTool (h : b.Settled k d) (hnew : ⟨id, .topLevel, .customTool⟩ ∉ d.demands)
    (hdemands : d'.demands = ⟨id, .topLevel, .customTool⟩ :: d.demands)
    (hwarnings : d'.diagnostics.warnings = d.diagnostics.warnings) (htools : d'.customTools = d.customTools ++ [id]) :
    b.Advances k d d' [id] [] := by
  have hid : id ∉ d.customTools := mt (h.requested id).mpr hnew
  have hnodup : (d.customTools ++ [id]).Nodup := by
    refine List.nodup_append.mpr ⟨h.nodup, List.nodup_singleton id, fun t ht t' ht' he => hid ?_⟩
    rwa [← List.mem_singleton.mp ht', ← he]
  -- The new demand is for neither a construction nor a wrapper.
  have hold {p : Demand} (hp : p ∈ d'.demands) (hpart : p.part = .construction ∨ p.part = .wrapper) :
      p ∈ d.demands := by
    rw [hdemands] at hp
    refine (List.mem_cons.mp hp).resolve_left ?_
    rintro rfl
    simp at hpart
  exact {
    settled := {
      nodup := htools ▸ hnodup
      requested := fun t => by
        rw [hdemands, htools, List.mem_cons, h.requested, List.mem_append, List.mem_singleton, or_comm,
          Demand.mk.injEq]
        simp
      tools := fun p hp hpart hlow => by
        rw [htools]
        exact List.subset_append_of_subset_left _ (h.tools p (hold hp hpart) hpart hlow)
      remarks := fun p hp hpart hlow => by
        rw [hwarnings]
        exact h.remarks p (hold hp hpart) hpart hlow }
    customTools := by rw [htools, distinct_eq_self hnodup]
    warnings := fun m => by simp [hwarnings]
    demands := fun p hp hpart => Or.inl (hold hp hpart) }

theorem Advances.trans (h : b.Advances k d d' tools remarks) (h' : b.Advances k d' d'' tools' remarks') :
    b.Advances k d d'' (tools ++ tools') (remarks ++ remarks') where
  settled := h'.settled
  customTools := by rw [h'.customTools, h.customTools, distinct_distinct_append, List.append_assoc]
  warnings m := by rw [h'.warnings, h.warnings, List.mem_append, or_assoc]
  demands q hq hp := (h'.demands q hq hp).elim (fun hq => h.demands q hq hp) Or.inr

namespace Brings

theorem congr (h : b.Brings k m tools remarks) (ht : tools = tools') (hr : ∀ m, m ∈ remarks ↔ m ∈ remarks') :
    b.Brings k m tools' remarks' := by
  intro d hd
  refine (h d hd).mono (fun _ d' ha => ?_) fun _ h => h
  exact ⟨ha.settled, ht ▸ ha.customTools, fun m => (ha.warnings m).trans (or_congr Iff.rfl (hr m)), ha.demands⟩

theorem pure {a : α} : b.Brings k (Pure.pure a) [] [] :=
  fun _ hd => hd.advances rfl rfl rfl

theorem fail {e : CompileError} : b.Brings k (Drafting.fail e : Drafting α) tools remarks :=
  fun _ _ => trivial

theorem fail_bind {e : CompileError} {f : α → Drafting β} : b.Brings k (Drafting.fail e >>= f) tools remarks :=
  fun _ _ => trivial

theorem ofExcept {e : Except CompileError α} : b.Brings k (Drafting.ofExcept e) [] [] := by
  cases e with
  | error e => exact fail
  | ok a => exact pure

theorem get : b.Brings k (MonadState.get : Drafting Draft) [] [] :=
  fun _ hd => hd.advances rfl rfl rfl

theorem use {features : List Feature} : b.Brings k (Drafting.use features) [] [] :=
  fun _ hd => hd.advances rfl rfl rfl

theorem take : b.Brings k (Drafting.take place) [] [] :=
  fun _ hd => hd.advances rfl rfl rfl

theorem emit {f : Fragment} (h : f.kind ≠ .customTool) : b.Brings k (Drafting.emit place f) [] [] :=
  fun _ hd => hd.advances rfl rfl (Draft.customTools_emit h)

theorem warn {message : String} : b.Brings k (Drafting.warn message) [] [message] := by
  intro d hd
  apply ends_warn.mpr
  have hmem (m : String) : m ∈ (d.diagnostics.warn message).warnings ↔ m ∈ d.diagnostics.warnings ∨ m ∈ [message] :=
    List.mem_append
  exact {
    settled := {
      nodup := hd.nodup
      requested := hd.requested
      tools := hd.tools
      remarks := fun q hq hp hk m hm => (hmem m).mpr (Or.inl (hd.remarks q hq hp hk hm)) }
    customTools := by
      rw [List.append_nil, distinct_eq_self hd.nodup]
      rfl
    warnings := hmem
    demands := fun q hq _ => Or.inl hq }

theorem bind {f : α → Drafting β} (h : b.Brings k m tools remarks) (hf : ∀ a, b.Brings k (f a) tools' remarks') :
    b.Brings k (m >>= f) (tools ++ tools') (remarks ++ remarks') := by
  intro d hd
  apply ends_bind.mpr
  refine (h d hd).mono (fun a d' ha => ?_) fun _ h => h
  exact (hf a d' ha.settled).mono (fun _ d'' ha' => ha.trans ha') fun _ h => h

theorem bind_gives {f : α → Drafting β} {good : α → Prop} (h : b.Brings k m tools remarks) (hg : m.Gives good)
    (hf : ∀ a, good a → b.Brings k (f a) tools' remarks') :
    b.Brings k (m >>= f) (tools ++ tools') (remarks ++ remarks') := by
  intro d hd
  apply ends_bind.mpr
  refine ((h d hd).and (hg d)).mono (fun a d' ⟨ha, hgood⟩ => ?_) fun _ _ => trivial
  exact (hf a hgood d' ha.settled).mono (fun _ d'' ha' => ha.trans ha') fun _ h => h

theorem before {f : α → Drafting β} (h : b.Brings k m [] []) (hf : ∀ a, b.Brings k (f a) tools remarks) :
    b.Brings k (m >>= f) tools remarks :=
  h.bind hf

theorem after {f : α → Drafting β} (h : b.Brings k m tools remarks) (hf : ∀ a, b.Brings k (f a) [] []) :
    b.Brings k (m >>= f) tools remarks := by
  have hbind := h.bind hf
  rwa [List.append_nil, List.append_nil] at hbind

theorem mapM {f : α → Drafting β} {xs : List α} {more said : α → List String}
    (h : ∀ x ∈ xs, b.Brings k (f x) (more x) (said x)) : b.Brings k (xs.mapM f) (xs.flatMap more) (xs.flatMap said) := by
  induction xs with
  | nil => exact pure
  | cons x xs ih =>
    rw [List.mapM_cons]
    refine (h x List.mem_cons_self).bind fun y => ?_
    exact (ih fun z hz => h z (List.mem_cons_of_mem x hz)).after fun _ => pure

theorem forM {f : α → Drafting PUnit} {xs : List α} {more said : α → List String}
    (h : ∀ x ∈ xs, b.Brings k (f x) (more x) (said x)) : b.Brings k (xs.forM f) (xs.flatMap more) (xs.flatMap said) := by
  induction xs with
  | nil => exact pure
  | cons x xs ih => exact (h x List.mem_cons_self).bind fun _ => ih fun z hz => h z (List.mem_cons_of_mem x hz)

theorem discard (h : b.Brings k m tools remarks) : b.Brings k (Functor.discard m) tools remarks := by
  rw [Functor.discard, LawfulFunctor.map_const, Function.comp_apply, ← bind_pure_comp]
  exact h.after fun _ => pure

end Brings

theorem toolsBelow_eq (hac : b.index.IsAcyclic) (id : String) :
    b.toolsBelow id = (b.index.members id).flatMap b.toolsBelow ++ b.index.ownCustomTools id := by
  rw [toolsBelow, Index.unfolding_eq hac, List.flatMap_append, List.flatMap_assoc, List.flatMap_singleton]
  rfl

theorem remarksBelow_eq (hac : b.index.IsAcyclic) (id : String) :
    b.remarksBelow id = (b.index.members id).flatMap b.remarksBelow ++ b.remarks id := by
  rw [remarksBelow, Index.unfolding_eq hac, List.flatMap_append, List.flatMap_assoc, List.flatMap_singleton]
  rfl

namespace Brings

variable {q : Demand} {make : Drafting Fragment}

theorem once_client (hq : q.part = .client) (h : b.Brings k make [] [])
    (hkind : make.Gives fun f => f.kind ≠ .customTool) : b.Brings k (Drafting.once q make) [] [] := by
  intro d hd
  apply ends_bind.mpr
  apply ends_isFirst.mpr
  by_cases hmem : q ∈ d.demands
  · rw [if_pos hmem]
    exact hd.advances rfl rfl rfl
  rw [if_neg hmem]
  have hnew : b.Settled k { d with demands := q :: d.demands } := hd.demand (by simp [hq]) le_rfl (by simp [hq])
  have hmake : b.Brings k (make >>= Drafting.emit q.place) [] [] := bind_gives h hkind fun f hf => emit hf
  refine (hmake _ hnew).mono (fun _ d' ha => ?_) fun _ h => h
  exact ⟨ha.settled, ha.customTools, ha.warnings, fun p hp hpart => (ha.demands p hp hpart).imp_left fun hp =>
    (List.mem_cons.mp hp).resolve_left fun he => by simp [he, hq] at hpart⟩

/-- The part of a node is made once. What is below the node is made with it, at the height of the node: the node itself
is not complete meanwhile, but nothing that is below demands it. -/
theorem once_node (hq : q.part = .construction ∨ q.part = .wrapper) (hk : b.index.height q.id < k)
    (h : b.Brings (b.index.height q.id) make (b.toolsBelow q.id) (b.remarksBelow q.id))
    (hkind : make.Gives fun f => f.kind ≠ .customTool) :
    b.Brings k (Drafting.once q make) (b.toolsBelow q.id) (b.remarksBelow q.id) := by
  intro d hd
  apply ends_bind.mpr
  apply ends_isFirst.mpr
  by_cases hmem : q ∈ d.demands
  · rw [if_pos hmem]
    exact hd.advances_of_subset (hd.tools q hmem hq hk) (hd.remarks q hmem hq hk)
  rw [if_neg hmem]
  have hnew : b.Settled (b.index.height q.id) { d with demands := q :: d.demands } :=
    hd.demand (by rcases hq with hq | hq <;> simp [hq]) hk.le fun _ => le_rfl
  have hmake : b.Brings (b.index.height q.id) (make >>= Drafting.emit q.place) (b.toolsBelow q.id)
      (b.remarksBelow q.id) := by
    have hemit (f : Fragment) (hf : f.kind ≠ .customTool) :
        b.Brings (b.index.height q.id) (Drafting.emit q.place f) [] [] := emit hf
    have hbind := bind_gives h hkind hemit
    rwa [List.append_nil, List.append_nil] at hbind
  exact (hmake _ hnew).mono (fun _ _ ha => hd.complete hk ha) fun _ h => h

end Brings

end Blueprint

end AgentWorkflow

import AgentWorkflow.Proofs.Compile.Accounts
import AgentWorkflow.Proofs.Program.Imports
import AgentWorkflow.Proofs.Program.Pieces

/-!
Which features a generation records.

A feature is recorded as soon as the code is made that needs it, and the code is emitted later. So a computation
takes a debt over and leaves one: features that are recorded while their code is not emitted yet. Main statement:
at the end of a generation there is no debt but for the dependency graph that a program runs; and all features are
recorded that the pieces of the program need.
-/

namespace AgentWorkflow

open Drafting

namespace Code

/-- The features that code needs, the pieces inside its pieces included. -/
def needs (code : List Code) : Set Feature :=
  {f | ∃ c ∈ piecesAll code, f ∈ c.features}

variable {c : Code} {code more : List Code} {fragments : List Fragment}

theorem features_of_isFrame (h : c.isFrame = true) : c.features = [] := by
  cases c <;> simp_all [isFrame, features]

theorem needs_nil : needs [] = ∅ := by
  simp [needs, piecesAll]

theorem needs_append : needs (code ++ more) = needs code ∪ needs more := by
  ext f
  simp [needs, piecesAll_append, or_and_right, exists_or]

theorem needs_cons : needs (c :: more) = {f | f ∈ c.features} ∪ needs c.inner ∪ needs more := by
  ext f
  simp [needs, piecesAll, pieces_eq, or_and_right, exists_or, or_assoc]

theorem needs_eq_features (h : ∀ c ∈ code, c.inner = []) : needs code = {f | f ∈ code.flatMap features} := by
  induction code with
  | nil => simp [needs_nil]
  | cons c rest ih =>
    obtain ⟨hc, hrest⟩ := List.forall_mem_cons.mp h
    rw [needs_cons, hc, needs_nil, ih hrest, Set.union_empty]
    ext f
    simp

theorem needs_joinBlank : needs (Fragment.joinBlank code more) = needs code ∪ needs more := by
  unfold Fragment.joinBlank
  split_ifs with h
  · rw [List.isEmpty_iff.mp h, needs_nil, Set.empty_union]
  · have hblank : needs (.blank :: more) = needs more := by
      rw [needs_cons]
      simp [blank, features, inner, needs_nil]
    rw [needs_append, hblank]

theorem needs_layout : needs (Fragment.layout fragments) = {f | ∃ g ∈ fragments, f ∈ needs g.code} := by
  ext f
  constructor
  · rintro ⟨c, hc, hf⟩
    rcases Fragment.mem_piecesAll_layout hc with rfl | ⟨g, hg, hc⟩
    · cases hf
    · exact ⟨g, hg, c, hc, hf⟩
  · rintro ⟨g, hg, c, hc, hf⟩
    exact ⟨c, Fragment.piecesAll_subset_layout hg hc, hf⟩

end Code

/-- Each feature that is recorded is needed by a fragment that was emitted for a node, or is a debt; debts are
recorded, and so is what the fragments need that stand at a place. -/
structure Draft.Owes (debt : Set Feature) (d : Draft) : Prop where
  places : (d.places.map Prod.fst).Nodup
  settled : ∀ f ∈ d.imports.features, f ∈ debt ∨ ∃ e ∈ d.emitted, e.2.node ≠ none ∧ f ∈ Code.needs e.2.code
  recorded : ∀ f ∈ debt, f ∈ d.imports.features
  standing : ∀ place, ∀ g ∈ d.fragments place, ∀ f ∈ Code.needs g.code, f ∈ d.imports.features

namespace Draft

variable {d : Draft} {debt : Set Feature} {g : Fragment} {place : Place}

theorem owes_empty : Draft.empty.Owes ∅ where
  places := List.nodup_nil
  settled _ hf := absurd hf List.not_mem_nil
  recorded _ hf := absurd hf (Set.notMem_empty _)
  standing _ _ hg := absurd hg List.not_mem_nil

theorem Owes.emit (h : d.Owes debt) (hg : ∀ f ∈ Code.needs g.code, f ∈ d.imports.features) (place : Place) :
    (d.emit place g).Owes debt where
  places := Entries.nodup_put h.places
  settled f hf := (h.settled f hf).imp_right fun ⟨e, he, hn⟩ => ⟨e, List.mem_cons_of_mem _ he, hn⟩
  recorded := h.recorded
  standing p g' hg' := by
    rw [fragments_emit] at hg'
    split_ifs at hg' with hp
    · rcases List.mem_append.mp hg' with hg' | hg'
      · exact h.standing place g' hg'
      · rw [List.mem_singleton.mp hg']
        exact hg
    · exact h.standing p g' hg'

/-- A fragment that is emitted for a node settles the debt of its code. -/
theorem Owes.settle (h : d.Owes (debt ∪ Code.needs g.code)) (hnode : g.node ≠ none) (place : Place) :
    (d.emit place g).Owes debt where
  places := Entries.nodup_put h.places
  settled f hf := by
    rcases h.settled f hf with (hf | hf) | ⟨e, he, hn⟩
    · exact Or.inl hf
    · exact Or.inr ⟨_, List.mem_cons_self, hnode, hf⟩
    · exact Or.inr ⟨e, List.mem_cons_of_mem _ he, hn⟩
  recorded f hf := h.recorded f (Or.inl hf)
  standing := (h.emit (fun f hf => h.recorded f (Or.inr hf)) place).standing

theorem Owes.use (h : d.Owes debt) (fs : List Feature) :
    Owes (debt ∪ {f | f ∈ fs}) { d with imports := d.imports.useAll fs } where
  places := h.places
  settled f hf := by
    rcases Imports.mem_features_useAll.mp hf with hf | hf
    · exact (h.settled f hf).imp_left Or.inl
    · exact Or.inl (Or.inr hf)
  recorded f hf := Imports.mem_features_useAll.mpr (hf.imp_left (h.recorded f))
  standing p g hg f hf := Imports.mem_features_useAll.mpr (Or.inl (h.standing p g hg f hf))

theorem Owes.needs_fragments (h : d.Owes debt) (place : Place) :
    ∀ f ∈ Code.needs (Fragment.layout (d.fragments place)), f ∈ d.imports.features := by
  intro f hf
  rw [Code.needs_layout] at hf
  obtain ⟨g, hg, hf⟩ := hf
  exact h.standing place g hg f hf

theorem Owes.clear (h : d.Owes debt) (place : Place) : (d.clear place).Owes debt where
  places := ((Entries.erase_sublist place).map Prod.fst).nodup h.places
  settled := h.settled
  recorded := h.recorded
  standing p g hg := by
    rw [fragments_clear h.places] at hg
    split_ifs at hg
    · cases hg
    · exact h.standing p g hg

theorem Owes.add {more : Set Feature} (h : d.Owes debt) (hmore : ∀ f ∈ more, f ∈ d.imports.features) :
    d.Owes (debt ∪ more) where
  places := h.places
  settled f hf := (h.settled f hf).imp_left Or.inl
  recorded f hf := hf.elim (h.recorded f) (hmore f)
  standing := h.standing

end Draft

/-- Whatever a computation starts from, its result has a property. -/
def Drafting.Gives {α : Type} (m : Drafting α) (good : α → Prop) : Prop :=
  ∀ d : Draft, m.Ends d (fun a _ => good a) fun _ => True

theorem Drafting.Gives.bind {α β : Type} {m : Drafting α} {f : α → Drafting β} {good : β → Prop}
    (h : ∀ a, (f a).Gives good) : (m >>= f).Gives good := by
  intro d
  apply ends_bind.mpr
  exact (ends_trivial m d).mono (fun a d' _ => h a d') fun _ h => h

theorem Drafting.Gives.pure {α : Type} {a : α} {good : α → Prop} (h : good a) : Gives (Pure.pure a) good :=
  fun _ => h

/-- A computation that takes a debt over, and leaves one with its result. -/
def Drafting.Settles {α : Type} (before : Set Feature) (m : Drafting α) (after : α → Set Feature) : Prop :=
  ∀ d : Draft, d.Owes before → m.Ends d (fun a d' => d'.Owes (after a)) fun _ => True

namespace Drafting.Settles

variable {α β : Type} {m : Drafting α} {before : Set Feature} {after : α → Set Feature} {rest : β → Set Feature}

theorem pure {a : α} : Settles before (Pure.pure a) fun _ => before :=
  fun _ hd => hd

theorem done {a : α} (h : before = after a) : Settles before (Pure.pure a) after := by
  intro d hd
  apply ends_pure.mpr
  rwa [← h]

theorem bind {f : α → Drafting β} (h : Settles before m after) (hf : ∀ a, Settles (after a) (f a) rest) :
    Settles before (m >>= f) rest := by
  intro d hd
  apply ends_bind.mpr
  exact (h d hd).mono (fun a d' hd' => hf a d' hd') fun _ h => h

theorem congr {after' : α → Set Feature} (h : Settles before m after) (he : ∀ a, after a = after' a) :
    Settles before m after' := by
  rwa [← funext he]

theorem ofExcept {e : Except CompileError α} : Settles before (Drafting.ofExcept e) fun _ => before := by
  cases e with
  | error e => exact fun _ _ => trivial
  | ok a => exact fun _ hd => hd

theorem fail {e : CompileError} : Settles before (Drafting.fail e) after :=
  fun _ _ => trivial

theorem emit {place : Place} {g : Fragment} (hg : Code.needs g.code ⊆ before) :
    Settles before (Drafting.emit place g) fun _ => before :=
  fun _ hd => hd.emit (fun f hf => hd.recorded f (hg hf)) place

theorem warn {message : String} : Settles before (Drafting.warn message) fun _ => before :=
  fun _ hd => ⟨hd.places, hd.settled, hd.recorded, hd.standing⟩

theorem use (fs : List Feature) : Settles before (Drafting.use fs) fun _ => before ∪ {f | f ∈ fs} :=
  fun _ hd => hd.use fs

theorem take {place : Place} : Settles before (Drafting.take place)
    fun fragments => before ∪ Code.needs (Fragment.layout fragments) :=
  fun _ hd => (hd.clear place).add (hd.needs_fragments place)

theorem bind_gives {f : α → Drafting β} {good : α → Prop} (h : Settles before m after) (hg : m.Gives good)
    (hf : ∀ a, good a → Settles (after a) (f a) rest) : Settles before (m >>= f) rest := by
  intro d hd
  apply ends_bind.mpr
  exact ((h d hd).and (hg d)).mono (fun a d' ⟨hd', ha⟩ => hf a ha d' hd') fun _ _ => trivial

theorem of_gives {after' : α → Set Feature} {good : α → Prop} (h : Settles before m after) (hg : m.Gives good)
    (he : ∀ a, good a → after a = after' a) : Settles before m after' := by
  intro d hd
  exact ((h d hd).and (hg d)).mono (fun a _ ⟨hd', ha⟩ => he a ha ▸ hd') fun _ _ => trivial

theorem once {q : Demand} {make : Drafting Fragment} (h : Settles before make fun g => before ∪ Code.needs g.code)
    (hnode : make.Gives fun g => g.node ≠ none) : Settles before (Drafting.once q make) fun _ => before := by
  intro d hd
  apply ends_bind.mpr
  apply ends_isFirst.mpr
  by_cases hq : q ∈ d.demands
  · rw [if_pos hq]
    exact hd
  · rw [if_neg hq]
    have hmake : Settles before (make >>= Drafting.emit q.place) fun _ => before :=
      bind_gives h hnode fun g hn _ hg => hg.settle hn q.place
    exact hmake { d with demands := q :: d.demands } ⟨hd.places, hd.settled, hd.recorded, hd.standing⟩

theorem mapM {f : α → Drafting β} {more : β → Set Feature} {xs : List α}
    (h : ∀ x ∈ xs, ∀ before, Settles before (f x) fun y => before ∪ more y) (before : Set Feature) :
    Settles before (xs.mapM f) fun ys => before ∪ {x | ∃ y ∈ ys, x ∈ more y} := by
  induction xs generalizing before with
  | nil =>
    intro d hd
    apply ends_pure.mpr
    simpa using hd
  | cons x xs ih =>
    rw [List.mapM_cons]
    apply bind (h x List.mem_cons_self before)
    intro y
    apply bind (ih (fun z hz => h z (List.mem_cons_of_mem x hz)) _)
    intro ys d hd
    apply ends_pure.mpr
    convert hd using 1
    ext f
    simp [or_and_right, exists_or, or_assoc]

theorem mapM_even {f : α → Drafting β} {xs : List α} (h : ∀ x ∈ xs, Settles before (f x) fun _ => before) :
    Settles before (xs.mapM f) fun _ => before := by
  induction xs with
  | nil => exact fun _ hd => hd
  | cons x xs ih =>
    rw [List.mapM_cons]
    apply bind (h x List.mem_cons_self)
    intro y
    apply bind (ih fun z hz => h z (List.mem_cons_of_mem x hz))
    exact fun ys => pure

theorem forM {f : α → Drafting PUnit} {xs : List α} (h : ∀ x ∈ xs, Settles before (f x) fun _ => before) :
    Settles before (xs.forM f) fun _ => before := by
  induction xs with
  | nil => exact fun _ hd => hd
  | cons x xs ih => exact bind (h x List.mem_cons_self) fun _ => ih fun z hz => h z (List.mem_cons_of_mem x hz)

theorem discard (h : Settles before m fun _ => before) : Settles before (Functor.discard m) fun _ => before := by
  rw [Functor.discard, LawfulFunctor.map_const, Function.comp_apply, ← bind_pure_comp]
  exact bind h fun _ _ hd => hd

end Drafting.Settles

namespace Blueprint

variable {b : Blueprint} {id : String} {place : Place} {before : Set Feature}

theorem declareClient_settles : Settles before (b.declareClient id) fun _ => before := by
  apply Settles.bind .ofExcept
  intro name
  refine Settles.bind (.once ?_ ?_) fun _ => .pure
  · apply Settles.bind .ofExcept
    intro n
    split
    · split
      · exact .fail
      · apply Settles.bind (.use _)
        intro _
        apply Settles.done
        dsimp only
        rw [Code.needs_eq_features (by simp [Code.inner])]
    · exact .fail
  · apply Gives.bind
    intro n
    split
    · split
      · exact fun _ => trivial
      · exact .bind fun _ => .pure (by simp)
    · exact fun _ => trivial

theorem declareClients_settles {ids : List String} : Settles before (b.declareClients ids) fun _ => before :=
  .mapM_even fun _ _ => declareClient_settles

theorem needs_placeholder {n : Node} {function code : String} :
    Code.needs [placeholder n function code] = {.tool} := by
  have hinner : Code.needs (placeholder n function code).inner = ∅ := by
    rw [Code.needs_eq_features]
    · ext f
      simp [placeholder, Code.inner, Code.features, Code.line]
    · intro c hc
      rcases List.mem_append.mp hc with hc | hc
      · obtain ⟨text, -, rfl⟩ := List.mem_map.mp hc
        rfl
      · rw [List.mem_singleton.mp hc]
        rfl
  rw [Code.needs_cons, hinner, Code.needs_nil]
  simp [placeholder, Code.features]

theorem needs_customToolCode {function : String} {custom : CustomCode} {code : List Code}
    (h : b.customToolCode id function custom = .ok code) : Code.needs code = {.tool} := by
  unfold customToolCode at h
  split at h
  · obtain rfl := Except.ok.inj h
    rw [Code.needs_eq_features (by split_ifs <;> simp [Code.inner])]
    split_ifs <;> simp [Code.features]
  · cases hn : b.node id with
    | error e =>
      rw [hn] at h
      cases h
    | ok n =>
      rw [hn] at h
      obtain rfl := Except.ok.inj h
      exact needs_placeholder

theorem declareCustomTool_settles : Settles before (b.declareCustomTool id) fun _ => before := by
  unfold declareCustomTool
  split
  · exact .fail
  · rename_i custom _
    apply Settles.bind .ofExcept
    intro function
    refine Settles.bind (.once ?_ ?_) fun _ => .pure
    · apply Settles.bind (.use _)
      intro _
      cases hcode : b.customToolCode id function custom with
      | error e => exact .fail
      | ok code =>
        apply Settles.done
        dsimp only
        rw [needs_customToolCode hcode]
        simp
    · exact .bind fun _ => .bind fun _ => .pure (by simp)

/-- The feature that an entry of a list of tools needs. -/
def entryNeeds (e : ToolEntry) : Set Feature :=
  {f | ∃ s, e = .symbol s ∧ f = .builtin s}

theorem declareTool_settles {a : Attachment} :
    Settles before (b.declareTool a) fun e => before ∪ entryNeeds e := by
  cases a with
  | builtin symbol =>
    apply Settles.bind (.use _)
    intro _
    exact .done (by simp [entryNeeds])
  | custom id =>
    apply Settles.bind declareCustomTool_settles
    intro function
    exact .done (by simp [entryNeeds])
  | server id client =>
    apply Settles.bind declareClient_settles
    intro name
    exact .done (by simp [entryNeeds])

theorem declareTools_settles : Settles before (b.declareTools id)
    fun r => before ∪ {f | ∃ e ∈ r, f ∈ entryNeeds e.2} := by
  apply Settles.bind .ofExcept
  intro attached
  apply Settles.mapM
  intro a _ before
  exact Settles.bind declareTool_settles fun e d hd => hd

theorem agentCode_settles {n : Node} {settings : AgentSettings} {delegates : List String}
    {coordination : Option String} : Settles before (b.agentCode n settings delegates coordination)
      fun code => before ∪ Code.needs code := by
  apply Settles.bind .ofExcept
  intro ident
  apply Settles.bind .ofExcept
  intro model
  apply Settles.bind .ofExcept
  intro name
  apply Settles.bind declareTools_settles
  intro r
  apply Settles.bind (.use _)
  intro _
  apply Settles.done
  dsimp only
  -- What the entries need is also needed by the agent that lists them.
  rw [Code.needs_eq_features (by simp [Code.inner]), Set.union_assoc]
  congr 1
  apply Set.union_eq_self_of_subset_left
  rintro _ ⟨e, he, s, hs, rfl⟩
  simp only [List.flatMap_cons, List.flatMap_nil, List.append_nil, Set.mem_ofPred_eq, List.mem_append]
  right
  rw [Code.features]
  apply List.mem_cons_of_mem
  apply List.mem_filterMap.mpr
  refine ⟨.symbol s, ?_, rfl⟩
  change _ ∈ (r.partition fun x => x.1.isServer).2.map _ ++ _ ++ (r.partition fun x => x.1.isServer).1.map _
  simp only [List.partition_eq_filter_filter, List.mem_append, List.mem_map, List.mem_filter]
  by_cases hserver : e.1.isServer = true
  · exact Or.inr ⟨e, ⟨he, hserver⟩, hs⟩
  · exact Or.inl (Or.inl ⟨e, ⟨he, by simp [hserver]⟩, hs⟩)

section Build

variable {build : Build}
  (hbuild : ∀ id place before, Settles before (build id place) fun code => before ∪ Code.needs code)

include hbuild

theorem declareInstance_settles : Settles before (b.declareInstance build id place) fun _ => before := by
  apply Settles.bind .ofExcept
  intro name
  refine Settles.bind (.once ?_ ?_) fun _ => .pure
  · apply Settles.bind (hbuild id place before)
    intro code
    exact Settles.bind .ofExcept fun _ => .done rfl
  · exact .bind fun _ => .bind fun _ => .pure (by simp)

omit hbuild in
theorem wrapperCode_gives : (b.wrapperCode build id place).Gives fun c => c.features = [.tool] := by
  refine .bind fun _ => .bind fun _ => .bind fun _ => .bind fun _ => .bind fun _ => ?_
  dsimp only
  split_ifs
  · exact .bind fun _ => .pure rfl
  · exact .pure rfl

theorem wrapperCode_settles : Settles before (b.wrapperCode build id place)
    fun c => before ∪ Code.needs c.inner := by
  apply Settles.bind .ofExcept
  intro n
  apply Settles.bind .ofExcept
  intro name
  apply Settles.bind (hbuild id _ before)
  intro own
  apply Settles.bind .take
  intro inside
  apply Settles.bind .ofExcept
  intro var
  have hwork : before ∪ Code.needs own ∪ Code.needs (Fragment.layout inside) =
      before ∪ Code.needs (Fragment.joinBlank (Fragment.layout inside) (own ++ [.answer n.kind.execution var])) := by
    have hanswer : Code.needs [.answer n.kind.execution var] = ∅ := by
      rw [Code.needs_eq_features (by simp [Code.inner])]
      simp [Code.features]
    rw [Code.needs_joinBlank, Code.needs_append, hanswer, Set.union_empty, Set.union_assoc,
      Set.union_comm (Code.needs own)]
  dsimp only
  split_ifs
  · apply Settles.bind declareClients_settles
    intro clients
    apply Settles.done
    rw [hwork]
    simp [Code.inner, Code.needs_cons, Code.needs_nil, Code.features]
  · exact .done hwork

theorem declareWrapper_settles : Settles before (b.declareWrapper build id place) fun _ => before := by
  apply Settles.bind .ofExcept
  intro name
  refine Settles.bind (.once ?_ ?_) fun _ => .pure
  · apply Settles.bind_gives (wrapperCode_settles hbuild) wrapperCode_gives
    intro c hc
    apply Settles.bind (.use _)
    intro _
    apply Settles.done
    dsimp only
    rw [Code.needs_cons, Code.needs_nil, hc, Set.union_empty, Set.union_assoc, Set.union_comm (Code.needs c.inner)]
  · exact .bind fun _ => .bind fun _ => .pure (by simp)

theorem orchestratorCode_settles {n : Node} {settings : OrchestratorSettings} :
    Settles before (b.orchestratorCode build n settings place) fun code => before ∪ Code.needs code := by
  have hwarn {c : Prop} [Decidable c] {message : String} : Settles before
      (if c then Drafting.warn message else pure ⟨⟩) fun _ => before := by
    split_ifs
    · exact .warn
    · exact .pure
  rw [orchestratorCode_eq]
  apply Settles.bind hwarn
  intro _
  apply Settles.bind (.mapM_even fun _ _ => declareWrapper_settles hbuild)
  exact fun _ => agentCode_settles

theorem declareTeammate_settles {n : Node} {member : String} :
    Settles before (b.declareTeammate build n place member) fun _ => before := by
  apply Settles.bind .ofExcept
  intro teammate
  split_ifs
  · exact declareInstance_settles hbuild
  · exact .fail

omit hbuild in
theorem swarmEntry_settles {n : Node} {settings : SwarmSettings} {team : List (String × String)} :
    Settles before (b.swarmEntry n settings team) fun _ => before := by
  unfold swarmEntry
  split
  · exact .pure
  · split
    · exact .pure
    · exact .bind .warn fun _ => .pure

theorem swarmCode_settles {n : Node} {settings : SwarmSettings} :
    Settles before (b.swarmCode build n settings place) fun code => before ∪ Code.needs code := by
  rw [swarmCode_eq]
  split_ifs
  · exact .fail
  · apply Settles.bind (.mapM_even fun _ _ => declareTeammate_settles hbuild)
    intro names
    apply Settles.bind swarmEntry_settles
    intro entry
    apply Settles.bind (.use _)
    intro _
    apply Settles.bind .ofExcept
    intro name
    apply Settles.done
    rw [Code.needs_eq_features (by simp [Code.inner])]
    simp [Code.features]

theorem dependencyGraph_settles {builder name : String} {members : List String} {limits : List Limit} :
    Settles before (b.dependencyGraph build builder name members limits place)
      fun _ => before ∪ {.graphBuilder} := by
  have hstep (member : String) : Settles before (b.declareStep build place member) fun _ => before := by
    apply Settles.bind (declareInstance_settles hbuild)
    intro name
    exact .bind .ofExcept fun _ => .pure
  apply Settles.bind (.mapM_even fun member _ => hstep member)
  intro declared
  apply Settles.bind (.use _)
  intro _
  exact .done (by simp)

omit hbuild in
theorem dependencyGraph_gives {builder name : String} {members : List String} {limits : List Limit} :
    (b.dependencyGraph build builder name members limits place).Gives fun code =>
      Code.needs code = {.graphBuilder} := by
  refine .bind fun declared => .bind fun _ => .pure ?_
  dsimp only
  rw [Code.needs_eq_features]
  · ext f
    simp [Code.features]
  · simp only [List.cons_append, List.forall_mem_cons, List.forall_mem_append, List.forall_mem_map]
    simp [Code.inner]

theorem containerCode_settles {n : Node} {settings : ContainerSettings} :
    Settles before (b.containerCode build n settings place) fun code => before ∪ Code.needs code := by
  rw [containerCode_eq]
  split_ifs
  · exact .fail
  · apply Settles.bind .ofExcept
    intro builder
    apply Settles.bind .ofExcept
    intro name
    apply Settles.of_gives (dependencyGraph_settles hbuild) dependencyGraph_gives
    intro code hcode
    rw [hcode]

end Build

theorem expandWithin_settles (bound : ℕ) : ∀ id place before,
    Settles before (b.expandWithin .standard bound id place) fun code => before ∪ Code.needs code := by
  induction bound with
  | zero => exact fun _ _ _ _ _ => trivial
  | succ bound ih =>
    intro id place before
    rw [expandWithin]
    apply Settles.bind .ofExcept
    intro n
    split
    · exact .fail
    · rename_i pattern _
      change Settles before (b.patternCode (b.expandWithin .standard bound) pattern n place) _
      unfold patternCode
      split
      · exact agentCode_settles
      · exact orchestratorCode_settles ih
      · exact swarmCode_settles ih
      · exact containerCode_settles ih
      · exact .fail

section Run

theorem declareIdle_settles : Settles before (b.declareIdle (b.code .standard) id) fun _ => before := by
  unfold declareIdle
  split_ifs
  · exact declareWrapper_settles (expandWithin_settles b.depth)
  · exact declareInstance_settles (expandWithin_settles b.depth)

theorem linearRun_settles {requested : Mode} {root : String} :
    Settles before (b.linearRun (b.code .standard) requested root) fun _ => before := by
  apply Settles.bind (declareInstance_settles (expandWithin_settles b.depth))
  intro name
  apply Settles.bind .ofExcept
  intro n
  apply Settles.bind (.forM fun id _ => .discard declareIdle_settles)
  intro _
  split_ifs
  · exact .bind (.forM fun _ _ => .forM fun _ _ => .warn) fun _ => .pure
  · exact .pure

/-- The dependency graph that a program runs is emitted for no node, so what it needs stays a debt. -/
theorem graphRun_settles : Settles before (b.graphRun (b.code .standard)) fun _ => before ∪ {.graphBuilder} := by
  rw [graphRun_eq]
  split
  · exact .fail
  · apply Settles.bind_gives (dependencyGraph_settles (expandWithin_settles b.depth)) dependencyGraph_gives
    intro code hcode
    have hneeds : Code.needs code ⊆ before ∪ {.graphBuilder} := by
      rw [hcode]
      exact Set.subset_union_right
    exact .bind (.emit hneeds) fun _ => .pure

/-- The features of a program are those that its pieces need, but for a debt; the fragments that were emitted for
nodes tell what they are needed for. -/
structure Records (debt : Set Feature) (p : Program) (d : Draft) : Prop where
  settled : ∀ f ∈ p.imports.features, f ∈ debt ∨ ∃ e ∈ d.emitted, e.2.node ≠ none ∧ f ∈ Code.needs e.2.code
  recorded : ∀ c ∈ p.pieces, ∀ f ∈ c.features, f ∈ p.imports.features

theorem Records.of_owes {header : Bool} {entry : Entry} {d : Draft} (h : d.Owes before)
    (hinside : ∀ g ∈ entry.inside, ∀ f ∈ Code.needs g.code, f ∈ d.imports.features) :
    Records before ⟨header, d.imports, d.fragments .topLevel ++ [entry.fragment]⟩ (d.clear .topLevel) where
  settled := h.settled
  recorded c hc f hf := by
    have hframe : c.isFrame = false := by
      rw [← Bool.not_eq_true]
      intro hc
      rw [Code.features_of_isFrame hc] at hf
      cases hf
    rcases Program.mem_pieces hc with ⟨stmt, rfl⟩ | ⟨g, hg, hcg⟩
    · cases hf
    rcases List.mem_append.mp hg with hg | hg
    · exact h.standing .topLevel g hg f ⟨c, hcg, hf⟩
    · obtain rfl := List.mem_singleton.mp hg
      obtain ⟨g, hg, hcg⟩ := Entry.mem_piecesAll_fragment hcg hframe
      exact hinside g hg f ⟨c, hcg, hf⟩

theorem program_records {options : Options} {r : Run} {d : Draft} (hd : d.Owes before) :
    (b.program options r).Ends d (fun p d' => Records before p d') fun _ => True := by
  rw [program_eq]
  apply ends_bind.mpr
  apply (declareClients_settles d hd).mono _ fun _ _ => trivial
  intro clients d₁ h₁
  apply ends_bind.mpr
  apply ends_take.mpr
  apply ends_bind.mpr
  apply ends_get.mpr
  split
  · trivial
  · apply ends_bind.mpr
    apply ends_take.mpr
    apply ends_bind.mpr
    apply ends_get.mpr
    exact .of_owes (h₁.clear .root) fun g hg => h₁.standing .root g hg

end Run

end Blueprint

namespace Compilation

variable {g : Graph} {options : Options} {root : Option String}

theorem records {p : Program} (h : (Compilation.mk g options .standard).program? = some p)
    (hr : g.index.rootIn (g.index.effectiveMode options.mode) = .ok root) :
    Blueprint.Records {f | f = .graphBuilder ∧ root = none} p (Compilation.mk g options .standard).generate.2 := by
  obtain ⟨hv, gen, d, hg, rfl⟩ := exists_generated h
  have hends : (g.index.generate options .standard).Ends .empty
      (fun gen d => Blueprint.Records {f | f = .graphBuilder ∧ root = none} gen.program d) fun _ => True := by
    have hrun : Settles ∅ ((g.index.blueprint root).run ((g.index.blueprint root).code .standard) options.mode root)
        fun _ => {f | f = .graphBuilder ∧ root = none} := by
      cases root with
      | some r => exact Blueprint.linearRun_settles.congr fun _ => by simp
      | none => exact Blueprint.graphRun_settles.congr fun _ => by simp
    rw [Index.generate_eq hr]
    apply ends_bind.mpr
    apply (hrun .empty Draft.owes_empty).mono _ fun _ _ => trivial
    intro r d hd
    apply ends_bind.mpr
    apply (Blueprint.program_records hd).mono _ fun _ _ => trivial
    exact fun p d hp => hp
  rw [hg]
  exact hends.of_run hg

end Compilation

end AgentWorkflow

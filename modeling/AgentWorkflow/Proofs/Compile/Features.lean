import AgentWorkflow.Proofs.Compile.Accounts
import AgentWorkflow.Proofs.Program.Imports

/-!
What a generation keeps.

The features that it takes into use are known, and no warning is lost. The tools of the tool library that a
program imports are attached to its nodes, so all of them are symbols of the library.
-/

namespace AgentWorkflow

open Drafting

/-- A feature is not a tool that the tool library lacks. -/
def Feature.IsKnown (f : Feature) : Prop :=
  ∀ s, f = .builtin s → s ∈ Builtin.symbols

/-- All features that a draft has in use are known. -/
def Draft.IsKnown (d : Draft) : Prop :=
  ∀ f ∈ d.imports.features, f.IsKnown

theorem Draft.isKnown_empty : Draft.empty.IsKnown := by
  simp [IsKnown, empty, Imports.empty]

/-- A computation takes only known features into use and loses no warning, and its result has a property. -/
def Drafting.Keeps {α : Type} (m : Drafting α) (good : α → Prop) : Prop :=
  ∀ d : Draft, d.IsKnown →
    m.Ends d (fun a d' => good a ∧ d'.IsKnown ∧ d.diagnostics.warnings ⊆ d'.diagnostics.warnings) fun _ => True

namespace Drafting.Keeps

variable {α β : Type} {m : Drafting α} {a : α} {good : α → Prop} {fine : β → Prop}

theorem pure (h : good a) : Keeps (Pure.pure a) good :=
  fun _ hd => ⟨h, hd, List.Subset.refl _⟩

theorem mono {good' : α → Prop} (h : m.Keeps good) (hg : ∀ a, good a → good' a) : m.Keeps good' := by
  intro d hd
  exact (h d hd).mono (fun a _ ⟨ha, hd'⟩ => ⟨hg a ha, hd'⟩) fun _ hf => hf

theorem bind {f : α → Drafting β} (h : m.Keeps good) (hf : ∀ a, good a → (f a).Keeps fine) :
    (m >>= f).Keeps fine := by
  intro d hd
  refine ends_bind.mpr ((h d hd).mono ?_ fun _ hf => hf)
  rintro a d' ⟨ha, hd', hw⟩
  refine (hf a ha d' hd').mono ?_ fun _ hf => hf
  rintro b d'' ⟨hb, hd'', hw'⟩
  exact ⟨hb, hd'', List.Subset.trans hw hw'⟩

theorem ofExcept {e : Except CompileError α} (h : ∀ a, e = .ok a → good a) :
    (Drafting.ofExcept e).Keeps good := by
  cases e with
  | error e => exact fun _ _ => trivial
  | ok a => exact pure (h a rfl)

theorem fail {e : CompileError} : Keeps (Drafting.fail e) good :=
  fun _ _ => trivial

theorem emit {place : Place} {f : Fragment} : (Drafting.emit place f).Keeps fun _ => True :=
  fun _ hd => ⟨trivial, hd, List.Subset.refl _⟩

theorem take {place : Place} : (Drafting.take place).Keeps fun _ => True :=
  fun _ hd => ⟨trivial, hd, List.Subset.refl _⟩

theorem get : Keeps (MonadState.get : Drafting Draft) Draft.IsKnown :=
  fun _ hd => ⟨hd, hd, List.Subset.refl _⟩

theorem warn {message : String} : (Drafting.warn message).Keeps fun _ => True :=
  fun _ hd => ⟨trivial, hd, List.subset_append_left _ _⟩

theorem use {fs : List Feature} (h : ∀ f ∈ fs, f.IsKnown) : (Drafting.use fs).Keeps fun _ => True := by
  intro d hd
  refine ends_use.mpr ⟨trivial, fun f hf => ?_, List.Subset.refl _⟩
  exact (Imports.mem_features_useAll.mp hf).elim (hd f) (h f)

theorem once {q : Demand} {make : Drafting Fragment} (h : make.Keeps fun _ => True) :
    (Drafting.once q make).Keeps fun _ => True := by
  intro d hd
  refine ends_bind.mpr (ends_isFirst.mpr ?_)
  by_cases hq : q ∈ d.demands
  · rw [if_pos hq]
    exact ⟨trivial, hd, List.Subset.refl _⟩
  · rw [if_neg hq]
    exact bind h (fun _ _ => emit) { d with demands := q :: d.demands } hd

theorem mapM {f : α → Drafting β} {xs : List α} (h : ∀ x ∈ xs, (f x).Keeps fine) :
    (xs.mapM f).Keeps fun ys => ∀ y ∈ ys, fine y := by
  induction xs with
  | nil => exact pure (by simp)
  | cons x xs ih =>
    rw [List.mapM_cons]
    refine bind (h x List.mem_cons_self) fun y hy => ?_
    refine bind (ih fun z hz => h z (List.mem_cons_of_mem x hz)) fun ys hys => ?_
    exact pure (List.forall_mem_cons.mpr ⟨hy, hys⟩)

theorem forM {f : α → Drafting PUnit} {xs : List α} (h : ∀ x ∈ xs, (f x).Keeps fun _ => True) :
    (xs.forM f).Keeps fun _ => True := by
  induction xs with
  | nil => exact pure trivial
  | cons x xs ih =>
    exact bind (h x List.mem_cons_self) fun _ _ => ih fun z hz => h z (List.mem_cons_of_mem x hz)

theorem discard (h : m.Keeps good) : (Functor.discard m).Keeps fun _ => True := by
  rw [Functor.discard, LawfulFunctor.map_const, Function.comp_apply, ← bind_pure_comp]
  exact bind h fun _ _ => pure trivial

end Drafting.Keeps

theorem Node.builtinSymbol_mem (n : Node) (s : BuiltinToolSettings) : n.builtinSymbol s ∈ Builtin.symbols := by
  unfold builtinSymbol
  cases h : Builtin.symbol? (n.requestedTool s) with
  | none => decide
  | some symbol => exact List.mem_of_find?_eq_some h

theorem Code.features_isKnown {c : Code} (h : ∀ name ident modelName prompt tools description s,
    c = .agent name ident modelName prompt tools description → .symbol s ∈ tools → s ∈ Builtin.symbols) :
    ∀ f ∈ c.features, f.IsKnown := by
  rintro _ hf s rfl
  cases c with
  | agent name ident modelName prompt tools description =>
    refine h name ident modelName prompt tools description s rfl ?_
    simp only [features, List.mem_cons, reduceCtorEq, false_or, List.mem_filterMap] at hf
    obtain ⟨e, he, hs⟩ := hf
    split at hs
    · cases hs
      exact he
    · cases hs
  | model name settings =>
    simp only [features, List.mem_cons, reduceCtorEq, false_or] at hf
    split_ifs at hf <;> simp at hf
  | client name settings =>
    simp only [features, List.mem_append, List.mem_cons, reduceCtorEq, false_or] at hf
    split_ifs at hf <;> simp at hf
  | _ => simp [features] at hf

namespace Blueprint

open Keeps

variable {b : Blueprint} {id : String} {place : Place}

theorem attachmentOf_builtin {t symbol : String} (h : b.attachmentOf t = some (.builtin symbol)) :
    symbol ∈ Builtin.symbols := by
  unfold attachmentOf at h
  split at h
  · obtain rfl := Attachment.builtin.inj (Option.some.inj h)
    exact Node.builtinSymbol_mem _ _
  all_goals cases h

theorem declareClient_keeps : (b.declareClient id).Keeps fun _ => True := by
  refine bind (ofExcept fun _ _ => trivial) fun name _ => bind (once ?_) fun _ _ => pure trivial
  refine bind (ofExcept fun _ _ => trivial) fun n _ => ?_
  split
  · split
    · exact fail
    · refine bind (use ?_) fun _ _ => pure trivial
      simp only [List.flatMap_cons, List.flatMap_nil, List.append_nil]
      exact Code.features_isKnown (by simp)
  · exact fail

theorem declareClients_keeps {ids : List String} : (b.declareClients ids).Keeps fun _ => True :=
  (mapM fun _ _ => declareClient_keeps).mono fun _ _ => trivial

theorem declareCustomTool_keeps : (b.declareCustomTool id).Keeps fun _ => True := by
  unfold declareCustomTool
  split
  · exact fail
  · refine bind (ofExcept fun _ _ => trivial) fun function _ => bind (once ?_) fun _ _ => pure trivial
    refine bind (use ?_) fun _ _ => bind (ofExcept fun _ _ => trivial) fun _ _ => pure trivial
    simp [Feature.IsKnown]

theorem declareTool_keeps {a : Attachment} (h : ∀ s, a = .builtin s → s ∈ Builtin.symbols) :
    (b.declareTool a).Keeps fun e => ∀ s, e = .symbol s → s ∈ Builtin.symbols := by
  cases a with
  | builtin symbol =>
    have hs := h symbol rfl
    refine bind (use (by simpa [Feature.IsKnown] using hs)) fun _ _ => pure ?_
    rintro _ ⟨⟩
    exact hs
  | custom t => exact bind declareCustomTool_keeps fun _ _ => pure (by simp)
  | server t client => exact bind declareClient_keeps fun _ _ => pure (by simp)

variable (hb : b.Coherent)

include hb

theorem declareTools_keeps :
    (b.declareTools id).Keeps fun r => ∀ e ∈ r, ∀ s, e.2 = .symbol s → s ∈ Builtin.symbols := by
  have hbelt : (Drafting.ofExcept (b.toolbelt id)).Keeps
      fun r => ∀ a ∈ r, ∀ s, a = .builtin s → s ∈ Builtin.symbols := by
    refine ofExcept ?_
    rintro r hr _ ha s rfl
    have hat : .builtin s ∈ b.attached id := by rwa [attached, hr]
    obtain ⟨t, -, ht⟩ := hb.mem_attached hat
    exact attachmentOf_builtin ht
  exact bind hbelt fun r hr => mapM fun a ha => bind (declareTool_keeps (hr a ha)) fun e he => pure he

theorem agentCode_keeps {n : Node} {settings : AgentSettings} {delegates : List String}
    {coordination : Option String} :
    (b.agentCode n settings delegates coordination).Keeps fun _ => True := by
  refine bind (ofExcept fun _ _ => trivial) fun ident _ => ?_
  refine bind (ofExcept fun _ _ => trivial) fun model _ => ?_
  refine bind (ofExcept fun _ _ => trivial) fun name _ => ?_
  refine bind (declareTools_keeps hb) fun r hr => bind (use ?_) fun _ _ => pure trivial
  simp only [List.flatMap_cons, List.flatMap_nil, List.append_nil,
    List.forall_mem_append]
  refine ⟨Code.features_isKnown (by simp), Code.features_isKnown ?_⟩
  rintro _ _ _ _ tools _ s ⟨⟩ hs
  simp only [List.mem_append, List.mem_map, reduceCtorEq, and_false, exists_false, or_false] at hs
  change (∃ e ∈ (r.partition fun x => x.1.isServer).2, e.2 = _) ∨
    ∃ e ∈ (r.partition fun x => x.1.isServer).1, e.2 = _ at hs
  simp only [List.partition_eq_filter_filter, List.mem_filter] at hs
  rcases hs with ⟨e, ⟨he, -⟩, hes⟩ | ⟨e, ⟨he, -⟩, hes⟩ <;> exact hr e he s hes

section Build

variable {build : Build} (hbuild : ∀ id place, (build id place).Keeps fun _ => True)

include hbuild

omit hb in
theorem declareInstance_keeps : (b.declareInstance build id place).Keeps fun _ => True := by
  refine bind (ofExcept fun _ _ => trivial) fun name _ => bind (once ?_) fun _ _ => pure trivial
  exact bind (hbuild id place) fun _ _ => bind (ofExcept fun _ _ => trivial) fun _ _ => pure trivial

omit hb in
theorem declareWrapper_keeps : (b.declareWrapper build id place).Keeps fun _ => True := by
  refine bind (ofExcept fun _ _ => trivial) fun name _ => bind (once ?_) fun _ _ => pure trivial
  have hcode : (b.wrapperCode build id place).Keeps fun _ => True := by
    refine bind (ofExcept fun _ _ => trivial) fun n _ => bind (ofExcept fun _ _ => trivial) fun name _ => ?_
    refine bind (hbuild id _) fun own _ => bind take fun _ _ => ?_
    refine bind (ofExcept fun _ _ => trivial) fun var _ => ?_
    dsimp only
    split_ifs
    · exact bind declareClients_keeps fun _ _ => pure trivial
    · exact pure trivial
  exact bind hcode fun _ _ => bind (use (by simp [Feature.IsKnown])) fun _ _ => pure trivial

theorem orchestratorCode_keeps {n : Node} {settings : OrchestratorSettings} :
    (b.orchestratorCode build n settings place).Keeps fun _ => True := by
  have hwarn {c : Prop} [Decidable c] {message : String} :
      (if c then Drafting.warn message else Pure.pure ⟨⟩).Keeps fun _ => True := by
    split_ifs
    · exact warn
    · exact pure trivial
  rw [orchestratorCode_eq]
  exact bind hwarn fun _ _ => bind (mapM fun _ _ => declareWrapper_keeps hbuild) fun _ _ => agentCode_keeps hb

omit hb in
theorem swarmCode_keeps {n : Node} {settings : SwarmSettings} :
    (b.swarmCode build n settings place).Keeps fun _ => True := by
  have hmate (member : String) : (b.declareTeammate build n place member).Keeps fun _ => True := by
    refine bind (ofExcept fun _ _ => trivial) fun teammate _ => ?_
    split_ifs
    · exact declareInstance_keeps hbuild
    · exact fail
  have hentry (team : List (String × String)) : (b.swarmEntry n settings team).Keeps fun _ => True := by
    unfold swarmEntry
    split
    · exact pure trivial
    · split
      · exact pure trivial
      · exact bind warn fun _ _ => pure trivial
  rw [swarmCode_eq]
  split_ifs
  · exact fail
  · refine bind (mapM fun member _ => hmate member) fun names _ => bind (hentry _) fun entry _ => ?_
    refine bind (use (by simp [Feature.IsKnown])) fun _ _ => ?_
    exact bind (ofExcept fun _ _ => trivial) fun _ _ => pure trivial

omit hb in
theorem dependencyGraph_keeps {builder name : String} {members : List String} {limits : List Limit} :
    (b.dependencyGraph build builder name members limits place).Keeps fun _ => True := by
  have hstep (member : String) : (b.declareStep build place member).Keeps fun _ => True := by
    refine bind (declareInstance_keeps hbuild) fun name _ => ?_
    exact bind (ofExcept fun _ _ => trivial) fun _ _ => pure trivial
  refine bind (mapM fun member _ => hstep member) fun declared _ => ?_
  exact bind (use (by simp [Feature.IsKnown])) fun _ _ => pure trivial

omit hb in
theorem containerCode_keeps {n : Node} {settings : ContainerSettings} :
    (b.containerCode build n settings place).Keeps fun _ => True := by
  rw [containerCode_eq]
  split_ifs
  · exact fail
  · refine bind (ofExcept fun _ _ => trivial) fun _ _ => bind (ofExcept fun _ _ => trivial) fun _ _ => ?_
    exact dependencyGraph_keeps hbuild

end Build

theorem expandWithin_keeps (bound : ℕ) :
    ∀ id place, (b.expandWithin .standard bound id place).Keeps fun _ => True := by
  induction bound with
  | zero => exact fun _ _ _ _ => trivial
  | succ bound ih =>
    intro id place
    rw [expandWithin]
    refine bind (ofExcept fun _ _ => trivial) fun n _ => ?_
    split
    · exact fail
    · rename_i pattern _
      change (b.patternCode (b.expandWithin .standard bound) pattern n place).Keeps _
      unfold patternCode
      split
      · exact agentCode_keeps hb
      · exact orchestratorCode_keeps hb ih
      · exact swarmCode_keeps ih
      · exact containerCode_keeps ih
      · exact fail

section Run

theorem code_keeps (id : String) (place : Place) :
    (b.code .standard id place).Keeps fun _ => True :=
  expandWithin_keeps hb b.depth id place

theorem declareIdle_keeps : (b.declareIdle (b.code .standard) id).Keeps fun _ => True := by
  unfold declareIdle
  split_ifs
  · exact declareWrapper_keeps (code_keeps hb)
  · exact declareInstance_keeps (code_keeps hb)

theorem linearRun_keeps {requested : Mode} {root : String} :
    (b.linearRun (b.code .standard) requested root).Keeps fun _ => True := by
  refine bind (declareInstance_keeps (code_keeps hb)) fun name _ => ?_
  refine bind (ofExcept fun _ _ => trivial) fun n _ => ?_
  refine bind (forM fun id _ => discard (declareIdle_keeps hb)) fun _ _ => ?_
  split_ifs
  · exact bind (forM fun _ _ => forM fun _ _ => warn) fun _ _ => pure trivial
  · exact pure trivial

theorem graphRun_keeps : (b.graphRun (b.code .standard)).Keeps fun _ => True := by
  rw [graphRun_eq]
  split
  · exact fail
  · exact bind (dependencyGraph_keeps (code_keeps hb)) fun _ _ => bind emit fun _ _ => pure trivial

omit hb in
theorem program_keeps {options : Options} {r : Run} :
    (b.program options r).Keeps fun p => ∀ f ∈ p.imports.features, f.IsKnown := by
  rw [program_eq]
  refine bind declareClients_keeps fun clients _ => bind take fun inside _ => bind get fun d _ => ?_
  split
  · exact fail
  · exact bind take fun _ _ => bind get fun d hd => pure hd

end Run

end Blueprint

namespace Compilation

variable {g : Graph} {options : Options}

theorem builtins_subset {p : Program} (h : (Compilation.mk g options .standard).program? = some p) :
    p.imports.builtins ⊆ Builtin.symbols := by
  obtain ⟨hv, gen, d, hg, rfl⟩ := exists_generated h
  have hb := Blueprint.coherent_of_isAcyclic (Index.isAcyclic hv)
  have hknown : (g.index.generate options .standard).Keeps
      fun gen => ∀ f ∈ gen.program.imports.features, f.IsKnown := by
    refine Keeps.bind (Keeps.ofExcept fun _ _ => trivial) fun root _ => ?_
    have hrun : ((g.index.blueprint root).run ((g.index.blueprint root).code .standard) options.mode root).Keeps
        fun _ => True := by
      cases root with
      | some r => exact Blueprint.linearRun_keeps (hb _)
      | none => exact Blueprint.graphRun_keeps (hb _)
    refine Keeps.bind hrun fun r _ => Keeps.bind Blueprint.program_keeps fun p hp => ?_
    exact Keeps.bind Keeps.get fun d _ => Keeps.pure hp
  intro s hs
  obtain ⟨hfeatures, -⟩ := (hknown .empty Draft.isKnown_empty).of_run hg
  exact hfeatures _ (Imports.mem_builtins.mp hs) s rfl

end Compilation

end AgentWorkflow

import AgentWorkflow.Proofs.Compile.Success

/-!
What accounts for a program of any graph.

Nodes may share an id, and then the id stands for the last of them. An executable at the top level whose id
stands for a node of another kind stops every generation. Main statement: a ledger accounts for each program
that is generated, whether the ids are unique or not.
-/

namespace AgentWorkflow

open Drafting

namespace Blueprint

variable (b : Blueprint) (first : List Demand)

/-- An id stands for an executable. -/
def IsShown (id : String) : Prop :=
  ∃ n, b.index.node? id = some n ∧ n.kind.isExecutable = true

/-- A computation that starts while nothing is being declared gives no result. -/
def Stops {α : Type} (m : Drafting α) : Prop :=
  ∀ d l, b.Tracks first [] .free d l → m.Ends d (fun _ _ => False) fun _ => True

variable {b first} {α β : Type} {a : α} {m : Drafting α} {qs : List Demand} {servers : List String}
  {id : String} {place : Place}

namespace Stops

theorem bind {f : α → Drafting β} (h : b.Stops first m) : b.Stops first (m >>= f) := by
  intro d l ht
  apply ends_bind.mpr
  exact (h d l ht).mono (fun _ _ hf => hf.elim) fun _ hf => hf

theorem after {f : α → Drafting β} (h : b.Delivers first [] .free m a qs) (hf : b.Stops first (f a)) :
    b.Stops first (m >>= f) := by
  intro d l ht
  refine ends_bind.mpr ((h d l ht).mono ?_ fun _ _ => trivial)
  rintro _ d' ⟨rfl, l', -, ht', -⟩
  exact hf d' l' ht'

theorem ofExcept {e : Except CompileError α} {f : α → Drafting β}
    (h : ∀ a, e = .ok a → b.Stops first (f a)) : b.Stops first (Drafting.ofExcept e >>= f) := by
  cases e with
  | error e => exact fun _ _ _ => trivial
  | ok a => exact h a rfl

theorem discard (h : b.Stops first m) : b.Stops first (Functor.discard m) := by
  rw [Functor.discard, LawfulFunctor.map_const, Function.comp_apply, ← bind_pure_comp]
  exact h.bind

theorem mapM {f : α → Drafting β} {xs : List α}
    (h : ∀ x ∈ xs, (∃ c qs, b.Delivers first [] .free (f x) c qs) ∨ b.Stops first (f x))
    (hx : ∃ x ∈ xs, b.Stops first (f x)) : b.Stops first (xs.mapM f) := by
  induction xs with
  | nil => simp at hx
  | cons x xs ih =>
    rw [List.mapM_cons]
    rcases h x List.mem_cons_self with ⟨c, qs, hd⟩ | hs
    · obtain ⟨y, hy, hs⟩ := hx
      rcases List.mem_cons.mp hy with rfl | hy
      · exact hs.bind
      · exact after hd (ih (fun z hz => h z (List.mem_cons_of_mem x hz)) ⟨y, hy, hs⟩).bind
    · exact hs.bind

theorem forM {f : α → Drafting PUnit} {xs : List α}
    (h : ∀ x ∈ xs, (∃ qs, b.Delivers first [] .free (f x) ⟨⟩ qs) ∨ b.Stops first (f x))
    (hx : ∃ x ∈ xs, b.Stops first (f x)) : b.Stops first (xs.forM f) := by
  induction xs with
  | nil => simp at hx
  | cons x xs ih =>
    rcases h x List.mem_cons_self with ⟨qs, hd⟩ | hs
    · obtain ⟨y, hy, hs⟩ := hx
      rcases List.mem_cons.mp hy with rfl | hy
      · exact hs.bind
      · exact after hd (ih (fun z hz => h z (List.mem_cons_of_mem x hz)) ⟨y, hy, hs⟩)
    · exact hs.bind

end Stops

section Hidden

variable (hb : b.Coherent) (ha : b.Agenda servers first) (hid : ¬b.IsShown id)

include hid

theorem expandWithin_stops (bound : ℕ) (d : Draft) :
    (b.expandWithin .standard bound id place).Ends d (fun _ _ => False) fun _ => True := by
  cases bound with
  | zero => trivial
  | succ bound =>
    rw [expandWithin, expand, node]
    cases hn : b.index.node? id with
    | none => trivial
    | some n =>
      have hp : n.kind.pattern? = none := by
        have hk : ¬n.kind.isExecutable = true := fun hk => hid ⟨n, hn, hk⟩
        cases hkn : n.kind <;> simp_all [NodeKind.isExecutable, NodeKind.pattern?]
      refine ends_bind.mpr (ends_ofExcept_ok.mpr ?_)
      rw [hp]
      trivial

include hb ha

theorem once_stops {part : Part} (hpart : part = .construction ∨ part = .wrapper) {make : Drafting Fragment}
    (hm : ∀ d, make.Ends d (fun _ _ => False) fun _ => True) :
    b.Stops first (once ⟨id, place, part⟩ make) := by
  intro d l ht
  have hnew : ⟨id, place, part⟩ ∉ d.demands := by
    intro hd
    have hk := ((ht.demands _).mp hd).resolve_right List.not_mem_nil
    exact hid (((ht.sound.demanded hk).1.placed hb ha).executable hpart)
  refine ends_bind.mpr (ends_isFirst.mpr ?_)
  rw [if_neg hnew]
  exact ends_bind.mpr ((hm _).mono (fun _ _ hf => hf.elim) fun _ hf => hf)

theorem declareInstance_stops : b.Stops first (b.declareInstance (b.code .standard) id place) := by
  refine .ofExcept fun name _ => .bind (once_stops hb ha hid (Or.inl rfl) fun d => ?_)
  exact ends_bind.mpr ((expandWithin_stops hid b.depth d).mono (fun _ _ hf => hf.elim) fun _ hf => hf)

theorem declareWrapper_stops : b.Stops first (b.declareWrapper (b.code .standard) id place) := by
  refine .ofExcept fun name _ => .bind (once_stops hb ha hid (Or.inr rfl) fun d => ?_)
  have hwrap : (b.wrapperCode (b.code .standard) id place).Ends d (fun _ _ => False) fun _ => True := by
    unfold wrapperCode
    rcases b.node id with _ | n
    · trivial
    rcases b.name id .tool with _ | name
    · trivial
    refine ends_bind.mpr (ends_ofExcept_ok.mpr (ends_bind.mpr (ends_ofExcept_ok.mpr (ends_bind.mpr ?_))))
    exact (expandWithin_stops hid b.depth d).mono (fun _ _ hf => hf.elim) fun _ hf => hf
  exact ends_bind.mpr (hwrap.mono (fun _ _ hf => hf.elim) fun _ hf => hf)

theorem declareIdle_stops : b.Stops first (b.declareIdle (b.code .standard) id) := by
  unfold declareIdle
  split_ifs
  · exact declareWrapper_stops hb ha hid
  · exact declareInstance_stops hb ha hid

end Hidden

section Agenda

variable {root : Option String} (hb : b.Coherent)

/-- What a program demands first of nodes whose ids stand for executables. -/
noncomputable def shownAgenda (b : Blueprint) (root : Option String) : List Demand :=
  open Classical in (b.agenda root).filter fun q => q.part ≠ .client → b.IsShown q.id

theorem mem_shownAgenda {q : Demand} :
    q ∈ b.shownAgenda root ↔ q ∈ b.agenda root ∧ (q.part ≠ .client → b.IsShown q.id) := by
  classical
  rw [shownAgenda, List.mem_filter, decide_eq_true_eq]

include hb

theorem shownAgenda_fits : b.Agenda (b.runServers root) (b.shownAgenda root) where
  placed _ hq := placed_of_mem_agenda hb (mem_shownAgenda.mp hq).1 (mem_shownAgenda.mp hq).2
  outside _ hq := isOutside_of_mem_agenda (mem_shownAgenda.mp hq).1

theorem declareInstance_delivers_or_stops {id : String} (hid : id ∈ b.runs root) :
    b.Delivers (b.shownAgenda root) [] .free (b.declareInstance (b.code .standard) id (b.runPlace id))
        (b.instanceName id) [⟨id, b.runPlace id, .construction⟩] ∧ b.IsShown id ∨
      b.Stops (b.shownAgenda root) (b.declareInstance (b.code .standard) id (b.runPlace id)) ∧
        ¬b.IsShown id := by
  have ha : b.Agenda (b.runServers root) (b.shownAgenda root) := shownAgenda_fits hb
  by_cases hs : b.IsShown id
  · refine Or.inl ⟨declareInstance_delivers hb ha (builds_code hb ha) (hb.shallow id) ?_, hs⟩
    refine Demanded.ready (.first (mem_shownAgenda.mpr ⟨?_, fun _ => hs⟩))
    exact mem_agenda.mpr (Or.inl ⟨id, hid, rfl⟩)
  · exact Or.inr ⟨declareInstance_stops hb ha hs, hs⟩

theorem declareIdle_delivers_or_stops {id : String} (hid : id ∈ b.idle root) :
    b.Delivers (b.shownAgenda root) [] .free (Functor.discard (b.declareIdle (b.code .standard) id)) ⟨⟩
        [b.idleDemand id] ∧ b.IsShown id ∨
      b.Stops (b.shownAgenda root) (Functor.discard (b.declareIdle (b.code .standard) id)) ∧
        ¬b.IsShown id := by
  have ha : b.Agenda (b.runServers root) (b.shownAgenda root) := shownAgenda_fits hb
  by_cases hs : b.IsShown id
  · refine Or.inl ⟨declareIdle_delivers hb ha (builds_code hb ha) (hb.shallow id) ?_, hs⟩
    refine Demanded.ready (.first (mem_shownAgenda.mpr ⟨?_, fun _ => hs⟩))
    exact mem_agenda.mpr (Or.inr (Or.inl ⟨id, hid, rfl⟩))
  · exact Or.inr ⟨(declareIdle_stops hb ha hs).discard, hs⟩

theorem linearRun_stops {r : String} (requested : Mode) (hx : ∃ id ∈ b.index.topLevel, ¬b.IsShown id) :
    b.Stops (b.shownAgenda (some r)) (b.linearRun (b.code .standard) requested r) := by
  obtain ⟨x, htop, hhidden⟩ := hx
  have hrun : r ∈ b.runs (some r) := List.mem_singleton_self r
  rcases declareInstance_delivers_or_stops hb hrun with
    ⟨hd, hs⟩ | ⟨hstop, -⟩
  · refine .after hd (.ofExcept fun n _ => .bind (.forM (fun id hid => ?_) ⟨x, ?_, ?_⟩))
    · exact (declareIdle_delivers_or_stops hb hid).imp (fun h => ⟨_, h.1⟩) And.left
    · refine List.mem_filter.mpr ⟨htop, decide_eq_true ?_⟩
      rintro rfl
      exact hhidden hs
    · exact (declareIdle_stops hb (shownAgenda_fits hb) hhidden).discard
  · exact hstop.bind

theorem graphRun_stops (hx : ∃ id ∈ b.index.topLevel, ¬b.IsShown id) :
    b.Stops (b.shownAgenda none) (b.graphRun (b.code .standard)) := by
  obtain ⟨x, htop, hhidden⟩ := hx
  have hstep (id : String) (hid : id ∈ b.runs none) :
      b.declareStep (b.code .standard) (b.entryPlace none) id =
        (do
          let name ← b.declareInstance (b.code .standard) id (b.runPlace id)
          return (name, ← Drafting.ofExcept (b.ident id))) := by
    rw [declareStep, memberPlace_entryPlace hid]
  have hgraph : b.Stops (b.shownAgenda none) (b.dependencyGraph (b.code .standard) workflowBuilder
      workflowGraph b.index.topLevel [] (b.entryPlace none)) := by
    refine .bind (.mapM (fun id hid => ?_) ⟨x, mem_distinct.mpr htop, ?_⟩)
    · rw [hstep id (mem_distinct.mp hid)]
      rcases declareInstance_delivers_or_stops hb (mem_distinct.mp hid : id ∈ b.runs none) with
        ⟨hd, n, hn, hk⟩ | ⟨hstop, -⟩
      · exact Or.inl ⟨_, _, hd.then_nil
          ((Delivers.ofExcept (hb.ident_eq_ok hn (needsSymbol_of_isExecutable hk))).map _)⟩
      · exact Or.inr hstop.bind
    · rw [hstep x htop]
      exact (declareInstance_stops hb (shownAgenda_fits hb) hhidden).bind
  rw [graphRun_eq, if_neg (by simpa using List.ne_nil_of_mem htop)]
  exact hgraph.bind

end Agenda

end Blueprint

namespace Compilation

variable {g : Graph} {options : Options}

theorem generate_stops (h : g.index.validate.valid = true) {root : Option String}
    (hx : ∃ id ∈ g.index.topLevel, ¬(g.index.blueprint root).IsShown id)
    (he : g.index.rootIn (g.index.effectiveMode options.mode) = .ok root) :
    (g.index.generate options .standard).Ends .empty (fun _ _ => False) fun _ => True := by
  have hb := Blueprint.coherent_of_isAcyclic (Index.isAcyclic h) root
  have hrun : (g.index.blueprint root).Stops ((g.index.blueprint root).shownAgenda root)
      ((g.index.blueprint root).run ((g.index.blueprint root).code .standard) options.mode root) := by
    cases root with
    | some r => exact Blueprint.linearRun_stops hb _ hx
    | none => exact Blueprint.graphRun_stops hb hx
  rw [Index.generate_eq he]
  exact hrun.bind .empty [] Blueprint.Tracks.empty

theorem exists_generated {c : Compilation} {p : Program} (h : c.program? = some p) :
    c.validate.valid = true ∧ ∃ gen d, c.generate = (.ok gen, d) ∧ gen.program = p := by
  unfold program? at h
  split_ifs at h with hv
  obtain ⟨gen, hg, rfl⟩ := Option.map_eq_some_iff.mp h
  refine ⟨hv, gen, c.generate.2, ?_, rfl⟩
  rcases hr : c.generate with ⟨_ | gen', d⟩
  · rw [hr] at hg
    cases hg
  · rw [hr] at hg
    cases hg
    rfl

/-- A ledger accounts for each program that the standard expanders generate, and the blueprint of the graph is
coherent. -/
theorem exists_accounts (h : (Compilation.mk g options .standard).compile.isSuccess = true) :
    ∃ p root l, (Compilation.mk g options .standard).program? = some p ∧
      (Compilation.mk g options .standard).compile.sourceText = p.text ∧
      g.index.rootIn (g.index.effectiveMode options.mode) = .ok root ∧
      (g.index.blueprint root).Coherent ∧
      (g.index.blueprint root).Agenda ((g.index.blueprint root).runServers root)
        ((g.index.blueprint root).agenda root) ∧
      (g.index.blueprint root).Accounts root p (Compilation.mk g options .standard).generate.2 l := by
  obtain ⟨p, hp, htext⟩ := exists_program h
  obtain ⟨hv, gen, d, hg, rfl⟩ := exists_generated hp
  obtain ⟨root, he, hroot⟩ := Index.rootIn_of_valid hv (g.index.effectiveMode options.mode)
  have hb := Blueprint.coherent_of_isAcyclic (Index.isAcyclic hv) root
  by_cases hx : ∃ id ∈ g.index.topLevel, ¬(g.index.blueprint root).IsShown id
  · exact ((generate_stops hv hx he).of_run hg).elim
  · push Not at hx
    have hr : (g.index.blueprint root).Runnable root := ⟨hroot, hx, Index.topLevel_ne_nil hv⟩
    obtain ⟨l, hacc⟩ := (generate_ends hv he hr).of_run hg
    rw [hg]
    exact ⟨_, root, l, hp, htext, he, hb, hr.agenda hb, hacc⟩

end Compilation

end AgentWorkflow

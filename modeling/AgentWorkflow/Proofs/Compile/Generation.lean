import AgentWorkflow.Compile.Compilation
import AgentWorkflow.Proofs.Compile.Agenda

/-!
What a generation ends with.

Main statement: from a valid graph with unique ids, the standard expanders generate a program whose
fragments are those of a sound ledger of everything demanded; or the generation fails, with an error that is
not internal, because something demanded does not fit.
-/

namespace AgentWorkflow

open Drafting

namespace Blueprint

variable (b : Blueprint) (root : Option String)

/-- The dependency graph that a program runs; nothing if it runs a node. -/
def workflow : Option String → List Fragment
  | some _ => []
  | none =>
    [⟨.composition, none, b.graphContent workflowBuilder workflowGraph (distinct b.index.topLevel) []⟩]

/-- The place of the dependency graph that a program runs. -/
def entryPlace : Place :=
  if (b.runServers root).isEmpty then .topLevel else .root

/-- What a program runs. -/
def runOf : Option String → Run
  | some r => ⟨b.instanceName r, (b.kindOf r).execution, b.runServers (some r), r :: b.index.composedBy r⟩
  | none => ⟨workflowGraph, .graph, b.runServers none, b.index.topLevel⟩

/-- The fragments at a place of a finished program, with what it runs. -/
def fragmentsIn (l : Ledger) (place : Place) : List Fragment :=
  l.fragmentsAt place ++ if place = b.entryPlace root then b.workflow root else []

/-- The entry function of a program. -/
def entryOfRun (prompt : String) (l : Ledger) : Entry where
  root := (b.runOf root).name
  execution := (b.runOf root).execution
  prompt := prompt
  clients := (b.runServers root).map fun s => b.nameIn s .client
  inside := b.fragmentsIn root l .root

/-- A ledger tells all of a program and of the draft that it was generated with. -/
structure Accounts (p : Program) (d : Draft) (l : Ledger) : Prop where
  sound : b.Sound (b.agenda root) l
  complete : ∀ q, b.Demanded (b.agenda root) q → q ∈ l.keys
  demands : ∀ q, q ∈ d.demands ↔ q ∈ l.keys
  order : ∀ id, d.demands.reverse.filter (·.wraps id) = l.keys.filter (·.wraps id)
  emitted : d.emitted.reverse.filter (·.2.node.isSome) = l.emissions
  unowned : ∀ e ∈ d.emitted, e.2.node = none → e.2.kind = .composition
  fragments : ∃ prompt, p.fragments =
    b.fragmentsIn root l .topLevel ++ [(b.entryOfRun root prompt l).fragment]

/-- What a blueprint needs beside coherence for a program to be generated. -/
structure Runnable : Prop where
  root : ∀ r, root = some r → r ∈ b.index.topLevel
  topLevel : ∀ id ∈ b.index.topLevel, ∃ n, b.index.node? id = some n ∧ n.kind.isExecutable = true
  nonempty : b.index.topLevel ≠ []

variable {b root} {first active : List Demand} {held : Held} {build : Build} {bound : ℕ}

theorem Tracks.empty : b.Tracks first [] .free .empty [] where
  sound := .nil
  apart := by simp
  demands := by simp [Draft.empty, Ledger.keys]
  order := by simp [Draft.empty, Ledger.keys]
  places := List.nodup_nil
  fragments p := by simp [Draft.fragments, Draft.empty, Entries.get?, Ledger.pending, Ledger.fragmentsAt]
  emitted := rfl
  unowned _ he := absurd he List.not_mem_nil

theorem Demanded.ready {q : Demand} (h : b.Demanded first q) : b.Ready first [] q :=
  ⟨h, by simp⟩

theorem Delivers.discard {α : Type} {m : Drafting α} {a : α} {qs : List Demand}
    (h : b.Delivers first active held m a qs) :
    b.Delivers first active held (Functor.discard m) ⟨⟩ qs := by
  rw [Functor.discard, LawfulFunctor.map_const, Function.comp_apply, ← bind_pure_comp]
  exact h.map fun _ => PUnit.unit

section Run

variable {servers : List String} (hb : b.Coherent) (ha : b.Agenda servers first)
  (hbuild : b.Builds first build bound)

include hb ha hbuild

theorem declareIdle_delivers {id : String} (hh : b.index.height id < bound)
    (hq : b.Ready first [] (b.idleDemand id)) :
    b.Delivers first [] .free (Functor.discard (b.declareIdle build id)) ⟨⟩ [b.idleDemand id] := by
  unfold declareIdle
  unfold idleDemand at hq ⊢
  cases hn : b.closures.needsScope id with
  | true =>
    rw [hn] at hq
    exact (declareWrapper_delivers hb ha hbuild hh hq).discard
  | false =>
    rw [hn] at hq
    exact (declareInstance_delivers hb ha hbuild hh hq).discard

omit hb ha hbuild in
theorem warnUnchained_delivers : b.Delivers first active held b.warnUnchained ⟨⟩ [] := by
  unfold warnUnchained
  refine (Delivers.forM (r := fun _ => []) fun source _ => ?_).mono (List.nil_subset _)
  exact (Delivers.forM (r := fun _ => []) fun _ _ => .warn).mono (List.nil_subset _)

end Run

theorem Tracks.hold {d : Draft} {l : Ledger} (h : b.Tracks first active .free d l) (p : Place) :
    b.Tracks first active (.only p (l.pending p)) d l where
  sound := h.sound
  apart := h.apart
  demands := h.demands
  order := h.order
  places := h.places
  fragments p' := by
    rw [h.fragments, Held.only]
    split_ifs with hp
    · rw [hp, Held.free_apply, Option.getD_none, Option.getD_some]
    · rfl
  emitted := h.emitted
  unowned := h.unowned

theorem Tracks.emit {d : Draft} {l : Ledger} (h : b.Tracks first active .free d l) (p : Place)
    {f : Fragment} (hf : f.node = none) (hk : f.kind = .composition) : b.Tracks first active (.only p (l.pending p ++ [f])) (d.emit p f) l where
  sound := h.sound
  apart := h.apart
  demands := h.demands
  order := h.order
  places := Entries.nodup_put h.places
  fragments p' := by
    rw [Draft.fragments_emit, h.fragments, h.fragments, Held.only]
    split_ifs <;> rfl
  emitted := by
    rw [Draft.emit, List.reverse_cons, List.filter_append, h.emitted]
    simp [hf]
  unowned e hmem hnone := by
    rcases List.mem_cons.mp hmem with rfl | hmem
    · exact hk
    · exact h.unowned e hmem hnone

theorem memberPlace_entryPlace {id : String} (hid : id ∈ b.runs root) :
    b.memberPlace id (b.entryPlace root) = b.runPlace id := by
  unfold entryPlace memberPlace dependencyPlace runPlace
  cases hs : (b.runServers root).isEmpty with
  | false => simp [Place.isWrapper, Place.isScoped]
  | true =>
    have hn : b.closures.needsScope id = false := by
      rw [Closures.needsScope, Bool.not_eq_false', List.isEmpty_iff, List.eq_nil_iff_forall_not_mem]
      intro s hmem
      have : s ∈ b.runServers root := Index.mem_union.mpr ⟨id, hid, hmem⟩
      rw [List.isEmpty_iff.mp hs] at this
      cases this
    simp [Place.isWrapper, hn]

theorem ready_runs {id : String} (hid : id ∈ b.runs root) :
    b.Ready (b.agenda root) [] ⟨id, b.runPlace id, .construction⟩ :=
  Demanded.ready (.first (mem_agenda.mpr (Or.inl ⟨id, hid, rfl⟩)))

theorem ready_idle {id : String} (hid : id ∈ b.idle root) : b.Ready (b.agenda root) [] (b.idleDemand id) :=
  Demanded.ready (.first (mem_agenda.mpr (Or.inr (Or.inl ⟨id, hid, rfl⟩))))

theorem ready_client {s : String} (hs : s ∈ b.runServers root) :
    b.Ready (b.agenda root) [] ⟨s, .topLevel, .client⟩ :=
  Demanded.ready (.first (mem_agenda.mpr (Or.inr (Or.inr ⟨s, hs, rfl⟩))))

theorem Sound.complete {l : Ledger} (h : b.Sound first l) (hfirst : first ⊆ l.keys) {q : Demand}
    (hq : b.Demanded first q) : q ∈ l.keys := by
  induction hq with
  | first hq => exact hfirst hq
  | step _ hq ih => exact h.closed _ ih hq

section Finished

variable {d : Draft} {l : Ledger} {held : List Fragment}

theorem Tracks.fragments_of_outside (ht : b.Tracks first [] (.only (b.entryPlace root)
    (l.pending (b.entryPlace root) ++ b.workflow root)) d l) {p : Place} (hp : p.owner? = none) :
    d.fragments p = b.fragmentsIn root l p := by
  have hpend : l.pending p = l.fragmentsAt p := by simp [Ledger.pending, hp]
  rw [ht.fragments, Held.only, fragmentsIn, ← hpend]
  split_ifs with hpe
  · rw [hpe, Option.getD_some]
  · rw [Option.getD_none, List.append_nil]

theorem entryPlace_isOutside : (b.entryPlace root).owner? = none := by
  unfold entryPlace
  split_ifs <;> rfl

theorem Tracks.leftover?_clear (ha : b.Agenda (b.runServers root) first)
    (ht : b.Tracks first [] (.only (b.entryPlace root) held) d l)
    (hcomplete : ∀ q, b.Demanded first q → q ∈ l.keys) : (d.clear .root).leftover? = none := by
  refine Draft.leftover?_eq_none (((Entries.erase_sublist _).map _).nodup ht.places) fun p hp => ?_
  rw [Draft.fragments_clear ht.places]
  cases p with
  | topLevel => exact absurd rfl hp
  | root => rw [if_pos rfl]
  | wrapper x isOpen =>
    have hne : Place.wrapper x isOpen ≠ b.entryPlace root := by
      intro he
      have : (b.entryPlace root).owner? = none := entryPlace_isOutside
      rw [← he] at this
      cases this
    rw [if_neg (by simp), ht.fragments, Held.only, if_neg hne, Option.getD_none]
    exact ht.sound.pending_eq_nil_of_complete ha hcomplete rfl

end Finished

/-- Whatever builds the nodes, a run opens the servers of what it runs and takes its prompt from there. -/
theorem run_shape (requested : Mode) (root : Option String) (d : Draft) :
    (b.run build requested root).Leaves d
      (fun r _ => r.servers = b.runServers root ∧ r.prompters = (b.runOf root).prompters) fun _ => True := by
  cases root with
  | some r =>
    refine leaves_skip fun name _ => leaves_skip fun n _ => leaves_skip fun _ d => ?_
    split_ifs
    · refine leaves_skip fun _ _ => ?_
      exact ⟨rfl, rfl⟩
    · exact ⟨rfl, rfl⟩
  | none =>
    change (b.graphRun build).Leaves _ _ _
    rw [graphRun_eq]
    split
    · trivial
    · refine leaves_skip fun _ _ => leaves_skip fun _ _ => ?_
      exact ⟨rfl, rfl⟩

section Program

variable (hb : b.Coherent) (hr : b.Runnable root)

include hb hr

theorem Runnable.agenda : b.Agenda (b.runServers root) (b.agenda root) :=
  agenda_fits hb hr.root hr.topLevel

omit hr in
theorem linearRun_delivers {r : String} (hr : b.Runnable (some r)) (requested : Mode) :
    b.Delivers (b.agenda (some r)) [] .free (b.linearRun (b.code .standard) requested r)
      (b.runOf (some r)) (⟨r, b.runPlace r, .construction⟩ :: (b.idle (some r)).map b.idleDemand) := by
  have ha := hr.agenda hb
  have hbuild := builds_code hb ha
  have hrun : b.Ready (b.agenda (some r)) [] ⟨r, b.runPlace r, .construction⟩ :=
    ready_runs (List.mem_singleton_self r)
  obtain ⟨n, hn, -⟩ := (hrun.demanded.placed hb ha).executable (Or.inl rfl)
  unfold linearRun runOf kindOf
  refine (declareInstance_delivers hb ha hbuild (hb.shallow r) hrun).bind ?_
  refine .bind_nil (.ofExcept (node_eq_ok hn)) ?_
  refine (Delivers.forM_single fun id hid =>
    declareIdle_delivers hb ha hbuild (hb.shallow id) (ready_idle hid)).then_nil ?_
  split_ifs
  · exact .bind_nil warnUnchained_delivers .pure
  · exact .pure

omit hr in
theorem workflow_delivers (hr : b.Runnable none) :
    b.Delivers (b.agenda none) [] .free
      (b.dependencyGraph (b.code .standard) workflowBuilder workflowGraph b.index.topLevel []
        (b.entryPlace none))
      (b.graphContent workflowBuilder workflowGraph (distinct b.index.topLevel) [])
      ((distinct (b.runs none)).map fun id => ⟨id, b.runPlace id, .construction⟩) := by
  have ha := hr.agenda hb
  have hplace (id : String) (hid : id ∈ b.runs none) :
      b.memberPlace id (b.entryPlace none) = b.runPlace id := memberPlace_entryPlace hid
  have hdel := dependencyGraph_delivers hb ha (builds_code hb ha) (b.runs none) (fun id _ => hb.shallow id)
    (fun id hid => (hplace id hid).symm ▸ ready_runs hid) workflowBuilder workflowGraph []
  have hmap : ((distinct (b.runs none)).map fun m =>
        (⟨m, b.memberPlace m (b.entryPlace none), .construction⟩ : Demand)) =
      (distinct (b.runs none)).map fun id => ⟨id, b.runPlace id, .construction⟩ :=
    List.map_congr_left fun id hid => by rw [hplace id (mem_distinct.mp hid)]
  rwa [hmap] at hdel

/-- A run ends with the agenda met but for clients, and with its dependency graph where it is run. -/
theorem run_ends {requested : Mode} {d : Draft} (ht : b.Tracks (b.agenda root) [] .free d []) :
    (b.run (b.code .standard) requested root).Ends d
      (fun r d' => r = b.runOf root ∧ ∃ l, b.Tracks (b.agenda root) []
        (.only (b.entryPlace root) (l.pending (b.entryPlace root) ++ b.workflow root)) d' l ∧
        (∀ id ∈ b.runs root, ⟨id, b.runPlace id, .construction⟩ ∈ l.keys) ∧
        ∀ id ∈ b.idle root, b.idleDemand id ∈ l.keys) (b.Justified (b.agenda root)) := by
  cases root with
  | some r =>
    refine (linearRun_delivers hb hr requested d [] ht).mono ?_ fun _ h => h
    rintro _ d' ⟨rfl, l, -, ht', hk⟩
    obtain ⟨hk, hks⟩ := List.cons_subset.mp hk
    refine ⟨rfl, l, ?_, fun id hid => ?_, fun id hid => hks (List.mem_map.mpr ⟨id, hid, rfl⟩)⟩
    · rw [workflow, List.append_nil]
      exact ht'.hold _
    · exact List.mem_singleton.mp hid ▸ hk
  | none =>
    change (b.graphRun (b.code .standard)).Ends _ _ _
    rw [graphRun_eq, if_neg (by simpa using hr.nonempty)]
    refine ends_bind.mpr ((workflow_delivers hb hr d [] ht).mono ?_ fun _ h => h)
    rintro _ d' ⟨rfl, l, -, ht', hk⟩
    refine ends_bind.mpr (ends_emit.mpr (ends_pure.mpr ⟨rfl, l, ht'.emit _ rfl rfl, fun id hid => ?_, ?_⟩))
    · exact hk (List.mem_map.mpr ⟨id, mem_distinct.mpr hid, rfl⟩)
    · simp [idle]

theorem declareRunClients_delivers (fragments : List Fragment) :
    b.Delivers (b.agenda root) [] (.only (b.entryPlace root) fragments)
      (b.declareClients (b.runServers root)) ((b.runServers root).map fun s => b.nameIn s .client)
      (clientDemands (b.runServers root)) := by
  refine declareClients_delivers hb (hr.agenda hb) (fun q hq => ?_) fun s hs => ?_
  · obtain ⟨s, hs, rfl⟩ := List.mem_map.mp hq
    exact ready_client hs
  · have hne : (b.runServers root).isEmpty = false := List.isEmpty_eq_false_iff.mpr (List.ne_nil_of_mem hs)
    simp [entryPlace, hne]

theorem program_ends {options : Options} {d : Draft} {l : Ledger}
    (ht : b.Tracks (b.agenda root) []
      (.only (b.entryPlace root) (l.pending (b.entryPlace root) ++ b.workflow root)) d l)
    (hruns : ∀ id ∈ b.runs root, ⟨id, b.runPlace id, .construction⟩ ∈ l.keys)
    (hidle : ∀ id ∈ b.idle root, b.idleDemand id ∈ l.keys) :
    (b.program options (b.runOf root)).Ends d (fun p d' => ∃ l, b.Accounts root p d' l)
      (b.Justified (b.agenda root)) := by
  have hservers : (b.runOf root).servers = b.runServers root := by cases root <;> rfl
  rw [program_eq, hservers]
  refine ends_bind.mpr ((declareRunClients_delivers hb hr _ d l ht).mono ?_ fun _ h => h)
  rintro _ d' ⟨rfl, l', he, ht', hk⟩
  have hkept : l'.pending (b.entryPlace root) = l.pending (b.entryPlace root) :=
    he.kept _ (by simp)
  rw [← hkept] at ht'
  -- Of the agenda only the clients were left to be met.
  have hfirst : b.agenda root ⊆ l'.keys := by
    intro q hq
    rcases mem_agenda.mp hq with ⟨id, hid, rfl⟩ | ⟨id, hid, rfl⟩ | ⟨s, hs, rfl⟩
    · exact he.keys (hruns id hid)
    · exact he.keys (hidle id hid)
    · exact hk (List.mem_map.mpr ⟨s, hs, rfl⟩)
  have hcomplete (q : Demand) (hq : b.Demanded (b.agenda root) q) : q ∈ l'.keys := ht'.sound.complete hfirst hq
  refine ends_bind.mpr (ends_take.mpr (ends_bind.mpr (ends_get.mpr ?_)))
  rw [ht'.leftover?_clear (hr.agenda hb) hcomplete]
  refine ends_bind.mpr (ends_take.mpr (ends_bind.mpr (ends_get.mpr (ends_pure.mpr ⟨l', ?_⟩))))
  exact {
    sound := ht'.sound
    complete := hcomplete
    demands := fun q => (ht'.demands q).trans (by simp)
    order := fun id => (ht'.order id).trans (by simp)
    emitted := ht'.emitted
    unowned := ht'.unowned
    fragments := by
      refine ⟨(b.index.suppliedPrompt? (b.runOf root).prompters).getD options.defaultPrompt, ?_⟩
      rw [ht'.fragments_of_outside rfl, Draft.fragments_clear ht'.places, if_neg (by simp),
        ht'.fragments_of_outside rfl]
      rfl }

end Program

end Blueprint

namespace Compilation

variable {g : Graph} {options : Options}

theorem runnable (ids : g.HasUniqueIds) (h : g.index.validate.valid = true) {root : Option String}
    (hroot : ∀ r, root = some r → r ∈ g.index.topLevel) : (g.index.blueprint root).Runnable root where
  root := hroot
  topLevel _ hid := (Index.mem_executables ids).mp (Index.mem_topLevel.mp hid).1
  nonempty := Index.topLevel_ne_nil h

theorem generate_ends (h : g.index.validate.valid = true) {root : Option String}
    (he : g.index.rootIn (g.index.effectiveMode options.mode) = .ok root)
    (hr : (g.index.blueprint root).Runnable root) :
    (g.index.generate options .standard).Ends .empty
      (fun gen d => ∃ l, (g.index.blueprint root).Accounts root gen.program d l)
      ((g.index.blueprint root).Justified ((g.index.blueprint root).agenda root)) := by
  have hb := Blueprint.coherent_of_isAcyclic (Index.isAcyclic h) root
  rw [Index.generate_eq he]
  apply ends_bind.mpr
  refine (Blueprint.run_ends hb hr Blueprint.Tracks.empty).mono ?_ fun _ h => h
  rintro _ d ⟨rfl, l, ht, hruns, hidle⟩
  refine ends_bind.mpr ((Blueprint.program_ends hb hr ht hruns hidle).mono ?_ fun _ h => h)
  rintro p d' ⟨l', hacc⟩
  exact ends_bind.mpr (ends_get.mpr (ends_pure.mpr ⟨l', hacc⟩))

/-- A generation with the standard expanders from a valid graph ends with a program that a ledger accounts
for, or fails for a good reason. -/
theorem generate_standard (ids : g.HasUniqueIds) (h : g.index.validate.valid = true) (options : Options) :
    ∃ root, g.index.rootIn (g.index.effectiveMode options.mode) = .ok root ∧
      (∀ r, root = some r → r ∈ g.index.topLevel) ∧
      ((∃ gen d l, (Compilation.mk g options .standard).generate = (.ok gen, d) ∧
          (g.index.blueprint root).Accounts root gen.program d l) ∨
        ∃ f d, (Compilation.mk g options .standard).generate = (.error f, d) ∧
          (g.index.blueprint root).Justified ((g.index.blueprint root).agenda root) f) := by
  obtain ⟨root, he, hroot⟩ := Index.rootIn_of_valid h (g.index.effectiveMode options.mode)
  refine ⟨root, he, hroot, ?_⟩
  rcases (generate_ends h he (runnable ids h hroot)).elim with ⟨gen, d, hg, l, hacc⟩ | ⟨f, d, hg, hf⟩
  · exact Or.inl ⟨gen, d, l, hg, hacc⟩
  · exact Or.inr ⟨f, d, hg, hf⟩

end Compilation

end AgentWorkflow

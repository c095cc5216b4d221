import AgentWorkflow.Proofs.Compile.Declaration

/-!
What becomes of the requests for parts.

A part is recorded as demanded before it is made, so that a request for it while it is made comes to an end. Expanders
may handle errors and go on, and they may repeat a request whose making failed. `Reaches` says which states a generation
reaches whatever expanders ask for. Main statement: when a request for a part gives a name, a fragment that declares the
part was emitted, or the part is being made, or making it failed before; and after it failed each repetition gives
the name and emits nothing.
-/

namespace AgentWorkflow

open Drafting

namespace Blueprint

/-- The states that a generation reaches. The first list holds the parts that are being made, the innermost first, each
with the draft in which it was demanded; the second list holds the parts whose making ended with an error. -/
inductive Reaches (b : Blueprint) (expanders : Expanders) : List (Demand × Draft) → List Demand → Draft → Prop
  | start : Reaches b expanders [] [] .empty
  | enter {making failed d q} : Reaches b expanders making failed d → q.IsPlaced → q ∉ d.demands →
      Reaches b expanders ((q, d) :: making) failed { d with demands := q :: d.demands }
  | make {making failed d q before f} {name : String} (bound : ℕ) :
      Reaches b expanders ((q, before) :: making) failed d →
      (b.declare (b.expandWithin expanders bound) q).run before =
        ((.ok name, d.emit q.place f) : Except Failure _ × Draft) →
      Reaches b expanders making failed (d.emit q.place f)
  | fail {making failed d q before e} (bound : ℕ) : Reaches b expanders ((q, before) :: making) failed d →
      (b.declare (b.expandWithin expanders bound) q).run before = ((.error (.error e), d) : Except Failure _ × Draft) →
      Reaches b expanders making (q :: failed) d
  | emit {making failed d} (place : Place) (f : Fragment) : Reaches b expanders making failed d →
      Reaches b expanders making failed (d.emit place f)
  | take {making failed d} (place : Place) : Reaches b expanders making failed d →
      Reaches b expanders making failed (d.clear place)
  | imports {making failed d} (imports : Imports) : Reaches b expanders making failed d →
      Reaches b expanders making failed { d with imports := imports }
  | diagnostics {making failed d} (diagnostics : Diagnostics) : Reaches b expanders making failed d →
      Reaches b expanders making failed { d with diagnostics := diagnostics }
  | notes {making failed d} (notes : List String) : Reaches b expanders making failed d →
      Reaches b expanders making failed { d with notes := notes }

/-- Each part that a draft has recorded as demanded is declared, or it is being made, or making it failed. -/
structure Explained (b : Blueprint) (expanders : Expanders) (making : List (Demand × Draft)) (failed : List Demand)
    (d : Draft) : Prop where
  entered : ∀ x ∈ making, x.1.IsPlaced ∧ x.1 ∉ x.2.demands
  named : ∀ q ∈ failed, q.IsPlaced ∧ ∃ name, b.partName q = .ok name
  recorded : ∀ q, q ∈ making.map Prod.fst ∨ q ∈ failed → q ∈ d.demands
  explained : ∀ q ∈ d.demands, b.IsDeclared expanders q d ∨ q ∈ making.map Prod.fst ∨ q ∈ failed

variable {b : Blueprint} {expanders : Expanders} {making : List (Demand × Draft)} {failed : List Demand}
  {bound : ℕ} {q : Demand} {d : Draft}

theorem IsDeclared.emit (h : b.IsDeclared expanders q d) (place : Place) (f : Fragment) :
    b.IsDeclared expanders q (d.emit place f) := by
  obtain ⟨f', hf', hd⟩ := h
  exact ⟨f', List.mem_cons_of_mem _ hf', hd⟩

namespace Explained

theorem start : b.Explained expanders [] [] .empty where
  entered _ hx := absurd hx List.not_mem_nil
  named _ hq := absurd hq List.not_mem_nil
  recorded _ hq := by simp at hq
  explained _ hq := absurd hq List.not_mem_nil

theorem enter (h : b.Explained expanders making failed d) (hq : q.IsPlaced) (hnew : q ∉ d.demands) :
    b.Explained expanders ((q, d) :: making) failed { d with demands := q :: d.demands } where
  entered := List.forall_mem_cons.mpr ⟨⟨hq, hnew⟩, h.entered⟩
  named := h.named
  recorded p hp := by
    rw [List.map_cons, List.mem_cons, or_assoc] at hp
    exact List.mem_cons.mpr (hp.imp_right (h.recorded p))
  explained p hp := by
    rcases List.mem_cons.mp hp with rfl | hp
    · exact Or.inr (Or.inl List.mem_cons_self)
    · exact (h.explained p hp).imp_right (Or.imp_left (List.mem_cons_of_mem _))

theorem emit (h : b.Explained expanders making failed d) (place : Place) (f : Fragment) :
    b.Explained expanders making failed (d.emit place f) where
  entered := h.entered
  named := h.named
  recorded := h.recorded
  explained p hp := (h.explained p hp).imp_left fun hd => hd.emit place f

theorem leave {before : Draft} (h : b.Explained expanders ((q, before) :: making) failed d)
    (hd : b.IsDeclared expanders q d) : b.Explained expanders making failed d where
  entered := (List.forall_mem_cons.mp h.entered).2
  named := h.named
  recorded p hp := h.recorded p (hp.imp_left (List.mem_cons_of_mem _))
  explained p hp := by
    rcases h.explained p hp with hp | hp | hp
    · exact Or.inl hp
    · rcases List.mem_cons.mp hp with rfl | hp
      · exact Or.inl hd
      · exact Or.inr (Or.inl hp)
    · exact Or.inr (Or.inr hp)

theorem fail {before : Draft} {name : String} (h : b.Explained expanders ((q, before) :: making) failed d)
    (hname : b.partName q = .ok name) : b.Explained expanders making (q :: failed) d where
  entered := (List.forall_mem_cons.mp h.entered).2
  named := List.forall_mem_cons.mpr ⟨⟨(h.entered _ List.mem_cons_self).1, name, hname⟩, h.named⟩
  recorded p hp := by
    apply h.recorded p
    rw [List.mem_cons] at hp
    rw [List.map_cons, List.mem_cons]
    tauto
  explained p hp := by
    rcases h.explained p hp with hp | hp | hp
    · exact Or.inl hp
    · rcases List.mem_cons.mp hp with rfl | hp
      · exact Or.inr (Or.inr List.mem_cons_self)
      · exact Or.inr (Or.inl hp)
    · exact Or.inr (Or.inr (List.mem_cons_of_mem _ hp))

end Explained

variable (hid : ∀ {id n}, b.index.node? id = some n → n.id = id)

include hid

theorem Reaches.explained (h : b.Reaches expanders making failed d) : b.Explained expanders making failed d := by
  induction h with
  | start => exact .start
  | enter _ hq hnew ih => exact ih.enter hq hnew
  | @make making failed d q before f name bound _ hr ih =>
    obtain ⟨hq, hnew⟩ := ih.entered _ List.mem_cons_self
    refine (ih.emit q.place f).leave ?_
    cases hname : b.partName q with
    | error e =>
      rw [declare_eq_fail hname] at hr
      cases hr
    | ok name =>
      obtain ⟨make, hm⟩ : ∃ make, b.Makes expanders (b.expandWithin expanders bound) q name make :=
        exists_makes hid hq hname
      obtain ⟨-, f', before, he, hd⟩ := hm.declared hnew hr
      exact ⟨f', he ▸ List.mem_cons_self, hd⟩
  | @fail making failed d q before e bound _ hr ih =>
    cases hname : b.partName q with
    | error e =>
      -- without a name nothing is recorded, but what is being made was
      rw [declare_eq_fail hname] at hr
      obtain rfl : before = d := (Prod.mk.inj hr).2
      exact absurd (ih.recorded q (Or.inl List.mem_cons_self)) (ih.entered _ List.mem_cons_self).2
    | ok name => exact ih.fail hname
  | emit place f _ ih => exact ih.emit place f
  | take place _ ih => exact ⟨ih.entered, ih.named, ih.recorded, ih.explained⟩
  | imports _ _ ih => exact ⟨ih.entered, ih.named, ih.recorded, ih.explained⟩
  | diagnostics _ _ ih => exact ⟨ih.entered, ih.named, ih.recorded, ih.explained⟩
  | notes _ _ ih => exact ⟨ih.entered, ih.named, ih.recorded, ih.explained⟩

section Runs

/-- A state that is reached while some parts are made and after others failed. -/
def Reached (b : Blueprint) (expanders : Expanders) (s : List (Demand × Draft) × List Demand) (d : Draft) : Prop :=
  ∃ failed, s.2 <:+ failed ∧ b.Reaches expanders s.1 failed d

omit hid in
theorem Reached.mono {s : List (Demand × Draft) × List Demand} (h : b.Reached expanders (s.1, failed) d)
    (hs : s.2 <:+ failed) : b.Reached expanders s d := by
  obtain ⟨failed', hf, h⟩ := h
  exact ⟨failed', hs.trans hf, h⟩

section Declare

variable (hbuild : ∀ s id place, (b.expandWithin expanders bound id place).Preserves (b.Reached expanders s))
  (hclient : q.part ≠ .client → ∀ s id, (b.declareClient id).Preserves (b.Reached expanders s))

include hbuild hclient

/-- A request for a part leaves a state that is reached. If it ends with an error, the part has no name or making it
failed. -/
theorem Reaches.declare (h : b.Reaches expanders making failed d) (hq : q.IsPlaced) :
    (b.declare (b.expandWithin expanders bound) q).Leaves d (fun _ => b.Reached expanders (making, failed))
      fun d' => (∃ e, b.partName q = .error e) ∧ d' = d ∨
        ∃ later, failed <:+ later ∧ b.Reaches expanders making (q :: later) d' := by
  cases hname : b.partName q with
  | error e =>
    rw [declare_eq_fail hname]
    exact Or.inl ⟨⟨e, rfl⟩, rfl⟩
  | ok name =>
    obtain ⟨make, hm⟩ : ∃ make, b.Makes expanders (b.expandWithin expanders bound) q name make :=
      exists_makes hid hq hname
    unfold Leaves
    by_cases hold : q ∈ d.demands
    · rw [hm.run_again hold]
      exact ⟨failed, List.suffix_rfl, h⟩
    · -- Meanwhile the part counts among those that are made.
      have hmake : make.Preserves (b.Reached expanders ((q, d) :: making, failed)) := by
        apply hm.preserves
        · exact fun features d ⟨failed, hf, h⟩ => ⟨failed, hf, h.imports _⟩
        · exact fun place d ⟨failed, hf, h⟩ => ⟨failed, hf, h.take place⟩
        · exact hbuild _
        · exact fun hpart => hclient hpart _
      have hleaves := hmake _ ⟨failed, List.suffix_rfl, h.enter hq hold⟩
      have hr := hm.run_first hold
      unfold Leaves at hleaves
      -- Whether making the part failed or not, the part is made no longer.
      rcases hrun : (make.run { d with demands := q :: d.demands } : Except Failure Fragment × Draft) with
        ⟨(e | _) | f, d'⟩
      · rw [hrun] at hr hleaves
        rw [hr]
        obtain ⟨later, hf, hlater⟩ := hleaves
        exact Or.inr ⟨later, hf, hlater.fail bound hr⟩
      · rw [hrun] at hr
        rw [hr]
        trivial
      · rw [hrun] at hr hleaves
        rw [hr]
        obtain ⟨later, hf, hlater⟩ := hleaves
        exact ⟨later, hf, hlater.make bound hr⟩

theorem declare_preserves (hq : q.IsPlaced) (s : List (Demand × Draft) × List Demand) :
    (b.declare (b.expandWithin expanders bound) q).Preserves (b.Reached expanders s) := by
  rintro d ⟨failed, hf, h⟩
  refine (h.declare hid hbuild hclient hq).mono (fun _ d' hd' => hd'.mono hf) ?_
  rintro d' (⟨-, rfl⟩ | ⟨later, hlater, hd'⟩)
  · exact ⟨failed, hf, h⟩
  · exact ⟨q :: later, (hf.trans hlater).trans (List.suffix_cons q later), hd'⟩

end Declare

theorem steps_reached (bound : ℕ)
    (hbuild : ∀ s id place, (b.expandWithin expanders bound id place).Preserves (b.Reached expanders s))
    (s : List (Demand × Draft) × List Demand) :
    b.Steps (b.expandWithin expanders bound) (b.Reached expanders s) := by
  have hclient (s : List (Demand × Draft) × List Demand) (id : String) :
      (b.declareClient id).Preserves (b.Reached expanders s) :=
    declare_preserves hid (q := ⟨id, .topLevel, .client⟩) hbuild (fun h => absurd rfl h) (fun _ => rfl) s
  have hdeclare (q : Demand) (hq : q.IsPlaced) :=
    declare_preserves hid (q := q) hbuild (fun _ => hclient) hq s
  exact {
    use := fun _ _ ⟨failed, hf, h⟩ => ⟨failed, hf, h.imports _⟩
    warn := fun _ _ ⟨failed, hf, h⟩ => ⟨failed, hf, h.diagnostics _⟩
    report := fun _ _ ⟨failed, hf, h⟩ => ⟨failed, hf, h.diagnostics _⟩
    note := fun _ _ ⟨failed, hf, h⟩ => ⟨failed, hf, h.notes _⟩
    emit := fun place f _ ⟨failed, hf, h⟩ => ⟨failed, hf, h.emit place f⟩
    code := hbuild s
    declareInstance := fun id place => hdeclare ⟨id, place, .construction⟩ (by simp [Demand.IsPlaced])
    declareWrapper := fun id place => hdeclare ⟨id, place, .wrapper⟩ (by simp [Demand.IsPlaced])
    declareClient := hclient s
    declareCustomTool := fun id => hdeclare ⟨id, .topLevel, .customTool⟩ fun _ => rfl }

omit hid in
theorem take_reached (s : List (Demand × Draft) × List Demand) (place : Place) :
    (Drafting.take place).Preserves (b.Reached expanders s) :=
  fun _ ⟨failed, hf, h⟩ => ⟨failed, hf, h.take place⟩

theorem expandWithin_reached (bound : ℕ) (s : List (Demand × Draft) × List Demand) (id : String) (place : Place) :
    (b.expandWithin expanders bound id place).Preserves (b.Reached expanders s) :=
  expandWithin_preserves (steps_reached hid) (Or.inr take_reached) bound s id place

/-- How a request for a part is answered in a state that a generation reaches. -/
structure IsAnswered (b : Blueprint) (expanders : Expanders) (making : List (Demand × Draft)) (failed : List Demand)
    (d : Draft) (q : Demand) (r : Except Failure String) (d' : Draft) : Prop where
  /-- A name is the part's own, and the part is declared unless it is being made or making it failed. -/
  named : ∀ name, r = .ok name → b.partName q = .ok name ∧
    (b.IsDeclared expanders q d' ∨ q ∈ making.map Prod.fst ∨ q ∈ failed)
  /-- An error says that the part has no name, or that making it failed now. -/
  refused : ∀ e, r = .error (.error e) → (∃ e, b.partName q = .error e) ∧ d' = d ∨
    ∃ later, failed <:+ later ∧ b.Reaches expanders making (q :: later) d'
  /-- After making a part failed its name is given and nothing is made. -/
  repeated : q ∈ failed → ∃ name, r = .ok name ∧ d' = d

theorem Reaches.isAnswered (h : b.Reaches expanders making failed d) (hq : q.IsPlaced)
    {r : Except Failure String} {d' : Draft}
    (hr : (b.declare (b.expandWithin expanders bound) q).run d = ((r, d') : Except Failure String × Draft)) :
    b.IsAnswered expanders making failed d q r d' where
  named name hname := by
    subst hname
    cases hpart : b.partName q with
    | error e =>
      rw [declare_eq_fail hpart] at hr
      cases hr
    | ok own =>
      obtain ⟨make, hm⟩ : ∃ make, b.Makes expanders (b.expandWithin expanders bound) q own make :=
        exists_makes hid hq hpart
      -- A part demanded before is only named again: the state explains it already.
      by_cases hold : q ∈ d.demands
      · rw [hm.run_again hold] at hr
        cases hr
        exact ⟨rfl, (h.explained hid).explained q hold⟩
      · obtain ⟨rfl, f, before, rfl, hd⟩ := hm.declared hold hr
        exact ⟨rfl, Or.inl ⟨f, List.mem_cons_self, hd⟩⟩
  refused e he := by
    subst he
    have hbuild (s : List (Demand × Draft) × List Demand) (id : String) (place : Place) :
        (b.expandWithin expanders bound id place).Preserves (b.Reached expanders s) :=
      expandWithin_reached hid bound s id place
    have hclient (s : List (Demand × Draft) × List Demand) := (steps_reached hid bound hbuild s).declareClient
    have hleaves := h.declare hid hbuild (fun _ => hclient) hq
    unfold Leaves at hleaves
    rw [hr] at hleaves
    exact hleaves
  repeated hfailed := by
    have he := h.explained hid
    obtain ⟨-, name, hname⟩ := he.named q hfailed
    obtain ⟨make, hm⟩ : ∃ make, b.Makes expanders (b.expandWithin expanders bound) q name make :=
      exists_makes hid hq hname
    rw [hm.run_again (he.recorded q (Or.inr hfailed))] at hr
    obtain ⟨rfl, rfl⟩ := Prod.mk.inj hr
    exact ⟨name, rfl, rfl⟩

theorem answer_reached (request : Request) (s : List (Demand × Draft) × List Demand) :
    (b.answer (b.expandWithin expanders bound) request).Preserves (b.Reached expanders s) :=
  (steps_reached hid bound (expandWithin_reached hid bound) s).answer (Or.inr (take_reached s))

theorem program_reached {options : Options} {run : Run} (s : List (Demand × Draft) × List Demand) :
    (b.program options run).Preserves (b.Reached expanders s) := by
  have hclient (id : String) : (b.declareClient id).Preserves (b.Reached expanders s) :=
    (steps_reached hid 0 (expandWithin_reached hid 0) s).declareClient id
  rw [program_eq]
  refine Preserves.bind (.mapM fun id _ => hclient id) fun clients => .bind (take_reached s _) fun inside => ?_
  refine Preserves.bind .get fun d => ?_
  cases d.leftover? with
  | some place => exact .fail
  | none => exact .bind (take_reached s _) fun _ => .bind .get fun _ => .pure

end Runs

end Blueprint

namespace Compilation

variable {c : Compilation} {root : Option String}

theorem generate_reached (hroot : c.graph.index.rootIn (c.graph.index.effectiveMode c.options.mode) = .ok root) :
    (c.graph.index.generate c.options c.expanders).Preserves
      ((c.graph.index.blueprint root).Reached c.expanders ([], [])) := by
  have hid {id : String} {n : Node} (h : (c.graph.index.blueprint root).index.node? id = some n) : n.id = id :=
    (Graph.mem_of_node? h).2
  have hcode (s : List (Demand × Draft) × List Demand) (id : String) (place : Place) :
      ((c.graph.index.blueprint root).code c.expanders id place).Preserves
        ((c.graph.index.blueprint root).Reached c.expanders s) :=
    Blueprint.expandWithin_reached hid _ s id place
  have hrun := (Blueprint.steps_reached hid _ hcode ([], [])).run c.options.mode root
  rw [Index.generate_eq hroot]
  refine Preserves.bind hrun fun run => .bind (Blueprint.program_reached hid _) fun p => ?_
  exact .bind .get fun _ => .pure

/-- Whatever expanders ask for, each part that is demanded is declared, or it is being made, or making it failed before.
A request for a part whose making failed gives the name of the part, and nothing is made. -/
theorem generate_requests (hroot : c.graph.index.rootIn (c.graph.index.effectiveMode c.options.mode) = .ok root) :
    let b := c.graph.index.blueprint root
    (∀ r d, c.generate = (r, d) → r ≠ .error .crash → ∃ failed, b.Reaches c.expanders [] failed d) ∧
    ∀ making failed d, b.Reaches c.expanders making failed d →
      (∀ q ∈ d.demands, b.IsDeclared c.expanders q d ∨ q ∈ making.map Prod.fst ∨ q ∈ failed) ∧
      (∀ bound request r d', (b.answer (b.expandWithin c.expanders bound) request).run d =
          ((r, d') : Except Failure request.Answer × Draft) →
        r ≠ .error .crash → ∃ later, failed <:+ later ∧ b.Reaches c.expanders making later d') ∧
      ∀ q, q.IsPlaced → ∀ bound r d',
        (b.declare (b.expandWithin c.expanders bound) q).run d = ((r, d') : Except Failure String × Draft) →
          b.IsAnswered c.expanders making failed d q r d' := by
  intro b
  have hid {id : String} {n : Node} (h : b.index.node? id = some n) : n.id = id := (Graph.mem_of_node? h).2
  refine ⟨fun r d hr hcrash => ?_, fun making failed d h => ⟨?_, fun bound request r d' hr hcrash => ?_, ?_⟩⟩
  · have hstart : b.Reached c.expanders ([], []) .empty := ⟨[], List.suffix_rfl, .start⟩
    obtain ⟨failed, -, h⟩ := (generate_reached hroot).of_run hstart hr hcrash
    exact ⟨failed, h⟩
  · exact (h.explained hid).explained
  · exact (Blueprint.answer_reached hid request (making, failed)).of_run ⟨failed, List.suffix_rfl, h⟩ hr hcrash
  · exact fun q hq bound r d' hr => h.isAnswered hid hq hr

end Compilation

/-- An expander that asks for a client twice, whatever becomes of the first request, and then makes an agent. -/
def Expander.persistent (server : String) : Expander :=
  .custom fun n _ =>
    .ask (.declareClients [server]) fun _ =>
      .ask (.declareClients [server]) fun
        | .error e => .fail e
        | .ok _ =>
          .ask (.agent n .default [] none) fun
            | .error e => .fail e
            | .ok code => .done code

namespace Compilation

/-- A client is declared when it is asked for at first. -/
theorem client_of_desk_declared :
    let c : Compilation := ⟨.desk [⟨"s", "Files", .server { ServerSettings.default with command := some "files" }⟩],
      .default, Expanders.standard.set .agent (.persistent "s")⟩
    let b := c.graph.index.blueprint (some "a")
    c.graph.index.rootIn (c.graph.index.effectiveMode c.options.mode) = .ok (some "a") ∧
      ∃ d, (b.declare (b.expandWithin c.expanders 1) ⟨"s", .topLevel, .client⟩).run .empty =
          ((.ok "files_client", d) : Except Failure String × Draft) ∧
        b.IsDeclared c.expanders ⟨"s", .topLevel, .client⟩ d := by
  intro c b
  have hroot : c.graph.index.rootIn (c.graph.index.effectiveMode c.options.mode) = .ok (some "a") := by
    decide +kernel
  have hname : ((b.declare (b.expandWithin c.expanders 1) ⟨"s", .topLevel, .client⟩).run .empty :
      Except Failure String × Draft).1 = .ok "files_client" := by decide +kernel
  have hanswer := ((generate_requests hroot).2 [] [] .empty .start).2.2 ⟨"s", .topLevel, .client⟩ (fun _ => rfl) 1
  rcases hrun : ((b.declare (b.expandWithin c.expanders 1) ⟨"s", .topLevel, .client⟩).run .empty :
    Except Failure String × Draft) with ⟨r, d⟩
  rw [hrun] at hname
  obtain rfl : r = .ok "files_client" := hname
  obtain ⟨-, hd | hmaking | hfailed⟩ := (hanswer _ d hrun).named _ rfl
  · exact ⟨hroot, d, rfl, hd⟩
  · cases hmaking
  · cases hfailed

/-- A client that cannot be made is not made when it is asked for again, but its name is given, and then the program
uses a name that nothing binds. -/
theorem client_of_desk_undeclared :
    let c : Compilation := ⟨.desk [⟨"s", "Files", .server .default⟩], .default,
      Expanders.standard.set .agent (.persistent "s")⟩
    let b := c.graph.index.blueprint (some "a")
    let first : Except Failure String × Draft :=
      (b.declare (b.expandWithin c.expanders 1) ⟨"s", .topLevel, .client⟩).run .empty
    let second : Except Failure String × Draft :=
      (b.declare (b.expandWithin c.expanders 1) ⟨"s", .topLevel, .client⟩).run first.2
    first.1 = .error (.error (.badServer "Files" .noCommand)) ∧
      second.1 = .ok "files_client" ∧ second.2.placesOf .client "s" = [] ∧
      c.validate.valid = true ∧ c.compile.isSuccess = true ∧ c.generate.2.placesOf .client "s" = [] ∧
      c.program?.any (fun p => ¬p.IsWellScoped) = true := by
  decide +kernel

end Compilation

end AgentWorkflow

import AgentWorkflow.Proofs.Compile.Emissions
import AgentWorkflow.Proofs.Compile.Preservation
import AgentWorkflow.Proofs.Program.Occurrence

/-!
What becomes of the fragments that are emitted.

Main statement: whatever expanders emit, and wherever, is printed in the program if they take nothing away, except
for what goes with fragments put at the root of a run that opens no servers, or inside a function that cannot open
the servers that its node needs.
-/

namespace AgentWorkflow

open Drafting

namespace Drafting

variable {α β : Type} {m : Drafting α} {d : Draft} {ok : α → Draft → Prop} {bad : Draft → Prop}

/-- A computation gives a result whatever it starts from. -/
def Succeeds (m : Drafting α) : Prop :=
  ∀ d, m.Leaves d (fun _ _ => True) fun _ => False

theorem Succeeds.pure {a : α} : Succeeds (Pure.pure a : Drafting α) :=
  fun _ => trivial

theorem Succeeds.bind {f : α → Drafting β} (h : m.Succeeds) (hf : ∀ a, (f a).Succeeds) :
    (m >>= f).Succeeds := by
  intro d
  apply leaves_bind.mpr
  exact (h d).mono (fun a d' _ => hf a d') fun _ hd => hd

theorem Succeeds.once {q : Demand} {make : Drafting Fragment} (h : make.Succeeds) : (once q make).Succeeds := by
  have hfirst : (isFirst q).Succeeds := by
    intro d
    unfold Leaves
    rw [run_isFirst]
    split_ifs <;> trivial
  apply hfirst.bind
  intro isNew
  cases isNew with
  | false => exact .pure
  | true => exact h.bind fun f _ => trivial

theorem Succeeds.mapM {f : α → Drafting β} {xs : List α} (h : ∀ x ∈ xs, (f x).Succeeds) :
    (xs.mapM f).Succeeds := by
  induction xs with
  | nil => exact .pure
  | cons x xs ih =>
    rw [List.mapM_cons]
    apply (h x List.mem_cons_self).bind
    intro y
    apply (ih fun z hz => h z (List.mem_cons_of_mem x hz)).bind
    intro ys
    exact .pure

theorem leaves_mapM_length {f : α → Drafting β} {xs : List α} (d : Draft) :
    (xs.mapM f).Leaves d (fun ys _ => ys.length = xs.length) fun _ => True := by
  induction xs generalizing d with
  | nil => exact rfl
  | cons x xs ih =>
    rw [List.mapM_cons]
    apply leaves_bind.mpr
    refine (leaves_trivial _ _).mono (fun y d' _ => ?_) fun _ h => h
    apply leaves_bind.mpr
    refine (ih d').mono (fun ys d'' hlen => ?_) fun _ h => h
    exact congrArg (· + 1) hlen

end Drafting

namespace Code

theorem Occurs.of_nil {code : List Code} (h : Occurs code []) (more : List Code) : Occurs code more :=
  h.append_right more

end Code

/-- Every fragment that was emitted is still there, perhaps inside another one, or inside some other code, or it went
with what was put in a place that loses it; and what is there was emitted there. -/
structure Draft.Retains (loses : Place → Prop) (code : List Code) (d : Draft) : Prop where
  places : (d.places.map Prod.fst).Nodup
  held : ∀ place, ∀ f ∈ d.fragments place, (place, f) ∈ d.emitted
  kept : ∀ e ∈ d.emitted, (∃ place, ∃ f ∈ d.fragments place, Code.Occurs e.2.code f.code) ∨
    Code.Occurs e.2.code code ∨ ∃ x ∈ d.emitted, loses x.1 ∧ Code.Occurs e.2.code x.2.code

namespace Draft

variable {d : Draft} {loses : Place → Prop} {code more : List Code}

theorem retains_empty : Draft.empty.Retains loses [] where
  places := List.nodup_nil
  held _ _ hf := absurd hf List.not_mem_nil
  kept _ he := absurd he List.not_mem_nil

theorem Retains.mono (h : d.Retains loses code) (hc : Code.Occurs code more) : d.Retains loses more where
  places := h.places
  held := h.held
  kept e he := (h.kept e he).imp_right (Or.imp_left fun ho => ho.trans hc)

theorem Retains.held_clear (h : d.Retains loses code) {place p : Place} {f : Fragment}
    (hf : f ∈ (d.clear place).fragments p) : (p, f) ∈ d.emitted := by
  rw [fragments_clear h.places] at hf
  split_ifs at hf
  · cases hf
  · exact h.held p f hf

theorem Retains.kept_clear (h : d.Retains loses code) {e : Place × Fragment} (he : e ∈ d.emitted) (place : Place) :
    (∃ p, ∃ f ∈ (d.clear place).fragments p, Code.Occurs e.2.code f.code) ∨
      (∃ f ∈ d.fragments place, Code.Occurs e.2.code f.code) ∨
      Code.Occurs e.2.code code ∨ ∃ x ∈ d.emitted, loses x.1 ∧ Code.Occurs e.2.code x.2.code := by
  rcases h.kept e he with ⟨p, f, hf, ho⟩ | hother
  · by_cases hp : p = place
    · subst hp
      exact Or.inr (Or.inl ⟨f, hf, ho⟩)
    · refine Or.inl ⟨p, f, ?_, ho⟩
      rwa [fragments_clear h.places, if_neg hp]
  · exact Or.inr (Or.inr hother)

theorem Retains.clear (h : d.Retains loses []) (place : Place) :
    (d.clear place).Retains loses (Fragment.layout (d.fragments place)) where
  places := ((Entries.erase_sublist place).map Prod.fst).nodup h.places
  held _ _ := h.held_clear
  kept e he := by
    rcases h.kept_clear he place with hf | ⟨f, hf, ho⟩ | ho | hlost
    · exact Or.inl hf
    · exact Or.inr (Or.inl (ho.trans (Code.occurs_layout hf)))
    · exact Or.inr (Or.inl (ho.of_nil _))
    · exact Or.inr (Or.inr hlost)

theorem Retains.clear_of_loses (h : d.Retains loses []) {place : Place} (hl : loses place) :
    (d.clear place).Retains loses [] where
  places := (h.clear place).places
  held := (h.clear place).held
  kept e he := by
    rcases h.kept_clear he place with hf | ⟨f, hf, ho⟩ | hother
    · exact Or.inl hf
    · exact Or.inr (Or.inr ⟨(place, f), h.held place f hf, hl, ho⟩)
    · exact Or.inr hother

theorem Retains.emit (h : d.Retains loses code) (place : Place) (f : Fragment) :
    (d.emit place f).Retains loses code where
  places := Entries.nodup_put h.places
  held p f' hf := by
    rw [fragments_emit] at hf
    split_ifs at hf with hp
    · subst hp
      rcases List.mem_append.mp hf with hf | hf
      · exact List.mem_cons_of_mem _ (h.held p f' hf)
      · rw [List.mem_singleton.mp hf]
        exact List.mem_cons_self
    · exact List.mem_cons_of_mem _ (h.held p f' hf)
  kept e he := by
    have hmono (p : Place) : d.fragments p ⊆ (d.emit place f).fragments p := by
      rw [fragments_emit]
      split_ifs with hp
      · rw [hp]
        exact List.subset_append_left _ _
      · exact List.Subset.refl _
    rcases List.mem_cons.mp he with rfl | he
    · refine Or.inl ⟨place, f, ?_, .refl _⟩
      rw [fragments_emit, if_pos rfl]
      simp
    · rcases h.kept e he with ⟨p, f', hf, ho⟩ | ho | ⟨x, hx, hlost⟩
      · exact Or.inl ⟨p, f', hmono p hf, ho⟩
      · exact Or.inr (Or.inl ho)
      · exact Or.inr (Or.inr ⟨x, List.mem_cons_of_mem _ hx, hlost⟩)

theorem Retains.emit_code {f : Fragment} (h : d.Retains loses f.code) (place : Place) :
    (d.emit place f).Retains loses [] where
  places := (h.emit place f).places
  held := (h.emit place f).held
  kept e he := by
    rcases (h.emit place f).kept e he with hf | ho | hlost
    · exact Or.inl hf
    · refine Or.inl ⟨place, f, ?_, ho⟩
      rw [fragments_emit, if_pos rfl]
      simp
    · exact Or.inr (Or.inr hlost)

theorem isStable_retains (loses : Place → Prop) (code : List Code) : IsStable (Retains loses code) where
  imports _ _ h := ⟨h.places, h.held, h.kept⟩
  diagnostics _ _ h := ⟨h.places, h.held, h.kept⟩
  demands _ _ h := ⟨h.places, h.held, h.kept⟩
  notes _ _ h := ⟨h.places, h.held, h.kept⟩
  emit _ place f h := h.emit place f

theorem fragments_of_leftover? (h : d.leftover? = none) {place : Place} (hp : place ≠ .topLevel) :
    d.fragments place = [] := by
  rw [leftover?, Option.map_eq_none_iff, List.find?_eq_none] at h
  rw [fragments]
  cases hg : Entries.get? place d.places with
  | none => rfl
  | some fs =>
    have hmem := h _ (Entries.mem_of_get? hg)
    simp only [hp, ne_eq, not_false_eq_true, decide_true, Bool.true_and, Bool.not_eq_true',
      List.isEmpty_eq_false_iff, not_not] at hmem
    exact hmem

end Draft

namespace Blueprint

variable {b : Blueprint} {d : Draft} {id : String} {place : Place} {build : Build}

/-- A server that some node needs has a name, but may be impossible to start. -/
def NamesServers (b : Blueprint) : Prop :=
  ∀ id, ∀ s ∈ b.closures.servers id, ∃ n settings name, b.node s = .ok n ∧ n.kind = .server settings ∧
    b.name s .client = .ok name

/-- Some server that a node needs cannot be started. -/
def HasFault (b : Blueprint) (id : String) : Prop :=
  ∃ s ∈ b.closures.servers id, ∃ n settings, b.node s = .ok n ∧ n.kind = .server settings ∧ settings.fault? ≠ none

/-- Where fragments get lost: at the root of a run that opens no servers, and inside a function that cannot open
the servers that its node needs. -/
def Loses (b : Blueprint) (root : Option String) : Place → Prop
  | .topLevel => False
  | .root => b.runServers root = []
  | .wrapper owner _ => b.HasFault owner

theorem declareClients_succeeds (hc : b.NamesServers) (hid : ¬b.HasFault id) :
    (b.declareClients (b.closures.servers id)).Succeeds := by
  apply Succeeds.mapM
  intro s hmem
  obtain ⟨n, settings, name, hn, hk, hname⟩ := hc id s hmem
  have hfault : settings.fault? = none := by
    by_contra hfault
    exact hid ⟨s, hmem, n, settings, hn, hk, hfault⟩
  unfold declareClient
  rw [ofExcept_bind hname, ofExcept_bind hn]
  simp only [hk, hfault]
  refine Succeeds.bind (.once ?_) fun _ => .pure
  exact Succeeds.bind (fun _ => trivial) fun _ => .pure

theorem instanceVariable_eq_ok {n : Node} {name : String} {role : NameRole} (hn : b.node id = .ok n)
    (hname : b.name id role = .ok name) : ∃ var, b.instanceVariable id = .ok var := by
  unfold instanceVariable
  rw [hn]
  unfold Blueprint.name SymbolTable.name? at hname ⊢
  cases hi : b.symbols.ident? id with
  | none =>
    rw [hi] at hname
    cases hname
  | some ident => exact ⟨_, rfl⟩

variable {root : Option String} (hc : b.NamesServers)
variable (hbuild : ∀ id place, (build id place).Preserves (Draft.Retains (b.Loses root) []))

include hc

/-- When the clients of a function are declared, what was taken from inside it is retained, or may be lost. -/
theorem declareClients_retains (hd : d.Retains (b.Loses root) []) (isOpen : Bool) :
    (b.declareClients (b.closures.servers id)).Leaves (d.clear (.wrapper id isOpen))
      (fun _ d' => d'.Retains (b.Loses root) (Fragment.layout (d.fragments (.wrapper id isOpen))))
      (Draft.Retains (b.Loses root) []) := by
  have hkeeps (code : List Code) : (b.declareClients (b.closures.servers id)).Preserves
      (Draft.Retains (b.Loses root) code) := declareClients_preserves (Draft.isStable_retains _ _)
  have keep {code : List Code} (h : (d.clear (.wrapper id isOpen)).Retains (b.Loses root) code) := hkeeps code _ h
  by_cases hid : b.HasFault id
  · exact ((keep (hd.clear _)).and (keep (hd.clear_of_loses hid))).mono (fun _ _ h => h.1) fun _ h => h.2
  · exact ((keep (hd.clear _)).and (declareClients_succeeds hc hid _)).mono (fun _ _ h => h.1) fun _ h => h.2.elim

include hbuild

theorem wrapperCode_retains (hd : d.Retains (b.Loses root) []) : (b.wrapperCode build id place).Leaves d
    (fun c d' => d'.Retains (b.Loses root) [c]) (Draft.Retains (b.Loses root) []) := by
  unfold wrapperCode
  rcases hn : b.node id with _ | n
  · exact hd
  rcases hname : b.name id .tool with _ | name
  · exact hd
  obtain ⟨var, hvar⟩ := instanceVariable_eq_ok hn hname
  apply leaves_bind.mpr
  apply leaves_ofExcept_ok.mpr
  apply leaves_bind.mpr
  apply leaves_ofExcept_ok.mpr
  apply leaves_bind.mpr
  refine (hbuild id _ d hd).mono (fun own d' hd' => ?_) fun _ h => h
  apply leaves_bind.mpr
  apply leaves_take.mpr
  rw [hvar]
  apply leaves_bind.mpr
  apply leaves_ofExcept_ok.mpr
  have hwork := Code.occurs_joinBlank_left (Fragment.layout (d'.fragments
    (.wrapper id (place.isScoped || b.closures.needsScope id)))) (own ++ [.answer n.kind.execution var])
  dsimp only
  split_ifs
  · apply leaves_bind.mpr
    refine (declareClients_retains hc hd' _).mono (fun clients d'' hd'' => ?_) fun _ h => h
    exact hd''.mono (.of_inner (.of_inner hwork))
  · exact (hd'.clear _).mono (.of_inner hwork)

theorem declareWrapper_retains (id : String) (place : Place) :
    (b.declareWrapper build id place).Preserves (Draft.Retains (b.Loses root) []) := by
  have hs := Draft.isStable_retains (b.Loses root) []
  have hmake (d : Draft) (hd : d.Retains (b.Loses root) []) : ((do
      let code ← b.wrapperCode build id place
      use [.tool]
      return ⟨.wrapper, some id, [code]⟩ : Drafting Fragment) >>= emit place).Leaves d
        (fun _ => Draft.Retains (b.Loses root) []) (Draft.Retains (b.Loses root) []) := by
    apply leaves_bind.mpr
    apply leaves_bind.mpr
    refine (wrapperCode_retains hc hbuild hd).mono (fun c d' hd' => ?_) fun _ h => h
    have hused := (Draft.isStable_retains _ [c]).imports d' (d'.imports.useAll [.tool]) hd'
    exact Draft.Retains.emit_code (f := ⟨.wrapper, some id, [c]⟩) hused place
  refine Preserves.bind .ofExcept fun name => .bind ?_ fun _ => .pure
  refine Preserves.bind (.isFirst hs) fun isNew => ?_
  cases isNew with
  | false => exact .pure
  | true => exact hmake

/-- What becomes of a fragment that is emitted: it is in a program, or it went with what was put in a place that
loses it. -/
def Kept (b : Blueprint) (root : Option String) (p : Program) (d : Draft) (f : Fragment) : Prop :=
  Code.Occurs f.code p.code ∨ ∃ x ∈ d.emitted, b.Loses root x.1 ∧ Code.Occurs f.code x.2.code

omit hc hbuild in
theorem program_kept {options : Options} {r : Run} (hr : r.servers = b.runServers root)
    (hd : d.Retains (b.Loses root) []) : (b.program options r).Leaves d
    (fun p d' => ∀ e ∈ d'.emitted, b.Kept root p d' e.2) fun _ => True := by
  rw [program_eq]
  apply leaves_bind.mpr
  have hlength : (b.declareClients r.servers).Leaves d (fun clients _ => clients.length = r.servers.length)
    fun _ => True := leaves_mapM_length d
  have hclients := hlength.and (declareClients_preserves (Draft.isStable_retains _ []) d hd)
  refine hclients.mono (fun clients d' ⟨hlen, hd'⟩ => ?_) fun _ _ => trivial
  apply leaves_bind.mpr
  apply leaves_take.mpr
  apply leaves_bind.mpr
  apply leaves_get.mpr
  cases hleft : (d'.clear .root).leftover? with
  | some place => exact trivial
  | none =>
    apply leaves_bind.mpr
    apply leaves_take.mpr
    apply leaves_bind.mpr
    apply leaves_get.mpr
    intro e he
    rcases hd'.kept e he with ⟨place, f, hf, ho⟩ | ho | hlost
    · cases place with
      | topLevel =>
        refine Or.inl (ho.trans (Code.occurs_program (List.mem_append_left _ ?_)))
        rwa [Draft.fragments_clear hd'.places, if_neg (by simp)]
      | root =>
        by_cases hservers : r.servers = []
        · exact Or.inr ⟨(.root, f), hd'.held .root f hf, hr.symm.trans hservers, ho⟩
        · have hopen : clients ≠ [] := by
            rintro rfl
            exact hservers (List.length_eq_zero_iff.mp hlen.symm)
          have hentry := ho.trans (Code.occurs_entry (e := ⟨r.name, r.execution,
            (b.index.suppliedPrompt? r.prompters).getD options.defaultPrompt, clients, d'.fragments .root⟩) hopen hf)
          exact Or.inl (hentry.trans (Code.occurs_program (List.mem_append_right _ (List.mem_singleton_self _))))
      | wrapper owner isOpen =>
        -- What is left inside a function that does not stand is reported.
        have hnil := Draft.fragments_of_leftover? hleft (by simp : Place.wrapper owner isOpen ≠ .topLevel)
        rw [Draft.fragments_clear hd'.places, if_neg (by simp)] at hnil
        rw [hnil] at hf
        cases hf
    · exact Or.inl (ho.of_nil _)
    · exact Or.inr hlost

omit hc hbuild in
theorem namesServers {g : Graph} (hb : (g.index.blueprint root).Coherent) :
    (g.index.blueprint root).NamesServers := by
  intro id s hs
  obtain ⟨x, hx⟩ := hb.attached_of_mem_servers hs
  obtain ⟨ht, hserver⟩ := List.mem_filter.mp hx
  obtain ⟨n, hn, hk⟩ := (Option.any_eq_true _ _).mp hserver
  cases hkn : n.kind with
  | server settings =>
    have hnode : (g.index.blueprint root).node s = .ok n := by
      rw [node, show (g.index.blueprint root).index.node? s = some n from hn]
    refine ⟨n, settings, _, hnode, hkn, hb.name_eq_ok hn ?_ .client⟩
    rw [hkn]
    rfl
  | _ => simp [hkn, NodeKind.isServer] at hk

end Blueprint

namespace Compilation

variable {c : Compilation} {root : Option String}

theorem generate_kept (hx : c.expanders.TakeNothing) (hv : c.validate.valid = true)
    (he : c.graph.index.rootIn (c.graph.index.effectiveMode c.options.mode) = .ok root) :
    (c.graph.index.generate c.options c.expanders).Leaves .empty
      (fun gen d => ∀ e ∈ d.emitted, (c.graph.index.blueprint root).Kept root gen.program d e.2) fun _ => True := by
  have hc := Blueprint.namesServers (Blueprint.coherent_of_isAcyclic (Index.isAcyclic hv) root)
  have hs := Draft.isStable_retains ((c.graph.index.blueprint root).Loses root) []
  have hsteps (build : Build) (hbuild : ∀ id place, (build id place).Preserves _) :=
    Blueprint.steps_of_isStable hs hbuild (Blueprint.declareWrapper_retains hc hbuild)
  have hcode := Blueprint.expandWithin_preserves (fun bound h (_ : Unit) => hsteps _ (h ())) (Or.inl hx)
  have hrun := (hsteps _ (hcode (c.graph.index.blueprint root).depth ())).run c.options.mode root
  rw [Index.generate_eq he]
  apply leaves_bind.mpr
  refine ((Blueprint.run_shape _ _ _).and (hrun .empty Draft.retains_empty)).mono
    (fun r d hr => ?_) fun _ _ => trivial
  apply leaves_bind.mpr
  refine (Blueprint.program_kept hr.1.1 hr.2).mono (fun p d' hp => ?_) fun _ h => h
  apply leaves_bind.mpr
  apply leaves_get.mpr
  exact hp

end Compilation

/-- An expander that puts a line at the root and makes an agent. -/
def Expander.journal : Expander :=
  .custom fun n _ =>
    .ask (.emit .root ⟨.composition, none, [.line "journal = []"]⟩) fun _ =>
      .ask (.agent n .default [] none) fun
        | .ok code => .done code
        | .error e => .fail e

/-- The line that a fragment consists of. -/
def Fragment.line? (f : Fragment) : Option String :=
  match f.code with
  | [.plain (.line text)] => some text
  | _ => none

theorem Fragment.code_of_line? {f : Fragment} {text : String} (h : f.line? = some text) : f.code = [.line text] := by
  unfold line? at h
  split at h
  · rename_i hc
    rw [hc, Option.some.inj h]
    rfl
  · cases h

theorem Stmt.IsPrintedIn.infix {line : String} {stmts : List Stmt} (h : IsPrintedIn [.line line] (render stmts)) :
    line.toList.reverse <:+: printAll 0 [] stmts := by
  obtain ⟨depth, before, h⟩ := h
  rw [render, Page.text, String.toList_ofList, List.reverse_reverse] at h
  apply List.IsInfix.trans _ h.isInfix
  exact ⟨['\n'], _, rfl⟩

theorem Expander.journal_takesNothing : (Expanders.standard.set .agent .journal).TakeNothing := by
  intro pattern expand hset n place
  cases pattern with
  | agent =>
    cases hset
    refine ⟨by simp, fun _ => ⟨by simp, fun answer => ?_⟩⟩
    cases answer <;> trivial
  | _ => cases hset

namespace Compilation

end Compilation

end AgentWorkflow

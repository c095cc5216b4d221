import AgentWorkflow.Proofs.Compile.ImportedNames
import AgentWorkflow.Proofs.Compile.Names
import AgentWorkflow.Proofs.Compile.Pieces
import AgentWorkflow.Proofs.Program.Usage
import AgentWorkflow.Proofs.Tools.Toolbox

/-!
The names that a generated program gives its parts.

Main statement: each piece of a program mentions only names of its parts, and those are words; the statements among
its pieces use no name that can be imported. Of the names of parts, only functions of custom tools and clients can
be spelled like imported names.
-/

namespace AgentWorkflow

namespace Text

theorem isWordChar_of_ascii {c : Char} (h : (c.isAlphanum || c == '_') = true) : isWordChar c = true := by
  have hascii : c.toNat < 128 := by
    rw [Bool.or_eq_true, beq_iff_eq] at h
    rcases h with h | rfl
    · simp only [Char.isAlphanum, Char.isAlpha, Char.isUpper, Char.isLower, Char.isDigit, Bool.or_eq_true,
        Bool.and_eq_true, decide_eq_true_eq, ge_iff_le, UInt32.le_iff_toNat_le] at h
      have hupper : 'Z'.val.toNat = 90 := rfl
      have hlower : 'z'.val.toNat = 122 := rfl
      have hdigit : '9'.val.toNat = 57 := rfl
      change c.val.toNat < 128
      omega
    · decide
  rw [isWordChar, if_pos hascii]
  exact h

theorem isWord_of_isPlain {s : String} (h : Identifier.IsPlain s) : IsWord s := by
  intro c hc
  apply isWordChar_of_ascii
  have hplain := h.2 c hc
  simp only [Identifier.isPlainChar, Char.isAlphanum, Char.isAlpha, Bool.or_eq_true] at hplain ⊢
  tauto

theorem IsWord.append {s t : String} (hs : IsWord s) (ht : IsWord t) : IsWord (s ++ t) := by
  rw [IsWord, String.toList_append]
  exact List.forall_mem_append.mpr ⟨hs, ht⟩

end Text

theorem Imports.spelling_of_optional {x : String} (hx : x ∈ optional) : x ∈ Toolbox.programNames ∨
    x ∈ Builtin.symbols ∨ '_' ∉ x.toList ∨ ∃ t, x = opener t := by
  have hall : ∀ x ∈ optional, x ∈ Toolbox.programNames ∨ x ∈ Builtin.symbols ∨ '_' ∉ x.toList ∨
      x ∈ [Transport.stdio, .sse, .streamableHttp].map opener := by
    decide +kernel
  refine (hall x hx).imp_right (Or.imp_right (Or.imp_right fun hopener => ?_))
  obtain ⟨t, -, rfl⟩ := List.mem_map.mp hopener
  exact ⟨t, rfl⟩

namespace Blueprint

/-- A name that a program gives one of its own parts. -/
inductive IsOwnName (b : Blueprint) : String → Prop
  | part (id : String) (role : NameRole) : IsOwnName b (b.nameIn id role)
  | function {id f : String} {custom : CustomCode} : b.toolbox.get? id = some custom →
    custom.function = some f → IsOwnName b f
  | fixed {x : String} : x ∈ ["main", workflowGraph, workflowBuilder] → IsOwnName b x

/-- A piece of code mentions only names of the program's parts, and uses none that can be imported if it is a
statement. -/
structure Names (b : Blueprint) (c : Code) : Prop where
  own : ∀ x ∈ c.mentions, b.IsOwnName x
  silent : ∀ stmt, c = .plain stmt → Stmt.Reads [stmt] []

variable {b : Blueprint} {id x : String} {place : Place} {c : Code} {q : Demand} {f : Fragment}
  {inside : List Fragment}

theorem isOwnName_instanceName (id : String) : b.IsOwnName (b.instanceName id) :=
  .part id _

theorem isOwnName_functionOf (id : String) : b.IsOwnName (b.functionOf id) := by
  unfold functionOf
  cases hget : b.toolbox.get? id with
  | none => exact .part id .tool
  | some custom =>
    rw [Option.bind_some]
    cases hf : custom.function with
    | none => exact .part id .tool
    | some f => exact .function hget hf

theorem Names.plain {stmt : Stmt} (h : Stmt.Reads [stmt] []) : b.Names (.plain stmt) where
  own _ hx := absurd hx List.not_mem_nil
  silent _ he := Code.plain.inj he ▸ h

theorem Names.single (hx : b.IsOwnName x) (hc : c.mentions = [x]) (hplain : ∀ stmt, c ≠ .plain stmt) : b.Names c where
  own y hy := by
    rw [hc] at hy
    exact List.mem_singleton.mp hy ▸ hx
  silent stmt he := absurd he (hplain stmt)

theorem names_blank : b.Names .blank :=
  .plain fun _ _ => Iff.rfl

theorem names_toolFunction {text : String} {body : List Code} :
    b.Names (.toolFunction (b.nameIn id .tool) text body) :=
  .single (.part id .tool) rfl nofun

theorem names_main {body : List Code} : b.Names (.main body) :=
  .single (.fixed List.mem_cons_self) rfl nofun

theorem names_clients {ids : List String} {body : List Code} :
    b.Names (.withClients (ids.map fun s => b.nameIn s .client) body) := by
  refine ⟨fun x hx => ?_, nofun⟩
  obtain ⟨s, -, rfl⟩ := List.mem_map.mp ((List.mem_append.mp hx).resolve_right List.not_mem_nil)
  exact .part s .client

theorem names_pieces {d : Code} (hd : b.Names d) (hinner : ∀ c ∈ Code.piecesAll d.inner, b.Names c)
    (hc : c ∈ d.pieces) : b.Names c := by
  rw [Code.pieces_eq] at hc
  rcases List.mem_cons.mp hc with rfl | hc
  · exact hd
  · exact hinner c hc

section Content

theorem own_toolEntries (hx : x ∈ (b.toolEntries id (b.delegates id)).filterMap ToolEntry.read?) :
    b.IsOwnName x := by
  obtain ⟨e, he, hx⟩ := List.mem_filterMap.mp hx
  rcases mem_toolEntries he with ⟨a, -, rfl⟩ | ⟨name, hn, rfl⟩
  · cases a with
    | builtin symbol => cases hx
    | custom t => exact Option.some.inj hx ▸ isOwnName_functionOf t
    | server t client => exact Option.some.inj hx ▸ .part t .client
  · obtain rfl := Option.some.inj hx
    unfold delegates at hn
    split at hn
    · obtain ⟨m, -, rfl⟩ := List.mem_map.mp hn
      exact .part m .tool
    · cases hn

theorem names_graphContent {builder name : String} {members : List String} {limits : List Limit}
    (hbuilder : b.IsOwnName builder) (hname : b.IsOwnName name)
    (h : c ∈ b.graphContent builder name members limits) : b.Names c := by
  rcases mem_graphContent h with ⟨m, -, rfl⟩ | rfl | rfl | ⟨_, _, rfl⟩ | ⟨_, rfl⟩ | ⟨_, rfl⟩
  · refine ⟨fun x hx => ?_, nofun⟩
    rcases List.mem_pair.mp hx with rfl | rfl
    · exact hbuilder
    · exact isOwnName_instanceName m
  · exact .single hbuilder rfl nofun
  · refine ⟨fun x hx => ?_, nofun⟩
    rcases List.mem_pair.mp hx with rfl | rfl
    · exact hbuilder
    · exact hname
  all_goals exact .single hbuilder rfl nofun

theorem names_content (h : c ∈ b.content id) : b.Names c := by
  rcases mem_content h with ⟨settings, rfl⟩ | ⟨-, prompt, description, rfl⟩ | ⟨settings, -, rfl⟩ | ⟨settings, -, hg⟩
  · exact .single (.part id .model) rfl nofun
  · refine ⟨fun x hx => ?_, nofun⟩
    rcases List.mem_append.mp hx with hx | hx
    · rcases List.mem_cons.mp hx with rfl | hx
      · exact .part id .model
      · exact own_toolEntries hx
    · exact List.mem_singleton.mp hx ▸ .part id .agent
  · have hmember : ∀ x ∈ (b.index.members id).map b.instanceName, b.IsOwnName x := by
      intro x hx
      obtain ⟨m, -, rfl⟩ := List.mem_map.mp hx
      exact isOwnName_instanceName m
    refine ⟨fun x hx => ?_, nofun⟩
    rcases List.mem_append.mp hx with hx | hx
    · rcases List.mem_append.mp hx with hx | hx
      · exact hmember x hx
      · exact hmember x (mem_of_entryMember (Option.mem_toList.mp hx))
    · exact List.mem_singleton.mp hx ▸ isOwnName_instanceName id
  · exact names_graphContent (.part id .builder) (.part id .graph) hg

end Content

section Fragments

theorem names_clientContent (h : c ∈ b.clientContent id) : b.Names c := by
  unfold clientContent at h
  split at h
  · obtain rfl := List.mem_singleton.mp h
    exact .single (.part id .client) rfl nofun
  · cases h

theorem names_placeholder {n : Node} {code : String} (h : c ∈ (placeholder n (b.nameIn id .tool) code).pieces) :
    b.Names c := by
  refine names_pieces names_toolFunction (fun c hc => ?_) h
  obtain ⟨d, hd, hc⟩ := Code.mem_piecesAll.mp hc
  rcases List.mem_append.mp hd with hd | hd
  · obtain ⟨text, -, rfl⟩ := List.mem_map.mp hd
    rw [List.mem_singleton.mp hc]
    exact .plain fun _ _ => Iff.rfl
  · rw [List.mem_singleton.mp hd] at hc
    rw [List.mem_singleton.mp hc]
    have hreturn : Text.Reads "return " [] ∧ Text.EndsApart "return " := by decide
    exact .plain (.lineOnly (.param hreturn (.line _)))

theorem names_customContent (h : c ∈ Code.piecesAll (b.customContent id)) : b.Names c := by
  obtain ⟨d, hd, hc⟩ := Code.mem_piecesAll.mp h
  unfold customContent at hd
  split at hd
  · cases hd
  rename_i custom hget
  split at hd
  · rename_i function hf
    have hown : b.IsOwnName function := .function hget hf
    rcases List.mem_cons.mp hd with rfl | hd
    · rw [List.mem_singleton.mp hc]
      exact .single hown rfl nofun
    · split_ifs at hd
      · cases hd
      · rw [List.mem_singleton.mp hd] at hc
        rw [List.mem_singleton.mp hc]
        refine ⟨fun x hx => ?_, nofun⟩
        rcases List.mem_pair.mp hx with rfl | rfl <;> exact hown
  · rw [List.mem_singleton.mp hd] at hc
    exact names_placeholder hc

variable (hinside : ∀ f ∈ inside, ∀ c ∈ Code.piecesAll f.code, b.Names c)

include hinside

theorem names_layout (h : c ∈ Code.piecesAll (Fragment.layout inside)) : b.Names c := by
  rcases Fragment.mem_piecesAll_layout h with rfl | ⟨f, hf, hc⟩
  · exact names_blank
  · exact hinside f hf c hc

theorem names_work (h : c ∈ Code.piecesAll (b.work id inside)) : b.Names c := by
  obtain ⟨d, hd, hc⟩ := Code.mem_piecesAll.mp h
  rcases mem_work hd with ⟨f, hf, hd⟩ | hd | rfl | rfl
  · exact hinside f hf c (Code.mem_piecesAll.mpr ⟨d, hd, hc⟩)
  · rw [pieces_content hd] at hc
    exact List.mem_singleton.mp hc ▸ names_content hd
  · exact List.mem_singleton.mp hc ▸ names_blank
  · rw [List.mem_singleton.mp hc]
    exact .single (isOwnName_instanceName id) rfl nofun

theorem names_wrapperBody (h : c ∈ Code.piecesAll (b.wrapperBody id place inside)) : b.Names c := by
  unfold wrapperBody at h
  split_ifs at h
  · rw [Code.piecesAll_singleton] at h
    exact names_pieces names_clients (fun c hc => names_work hinside hc) h
  · exact names_work hinside h

theorem names_fragmentOf (h : c ∈ Code.piecesAll (b.fragmentOf inside q).code) : b.Names c := by
  unfold fragmentOf at h
  split at h
  · obtain ⟨d, hd, hc⟩ := Code.mem_piecesAll.mp h
    rw [pieces_content hd] at hc
    exact List.mem_singleton.mp hc ▸ names_content hd
  · rw [Code.piecesAll_singleton] at h
    exact names_pieces names_toolFunction (fun c hc => names_wrapperBody hinside hc) h
  · obtain ⟨d, hd, hc⟩ := Code.mem_piecesAll.mp h
    have hpieces : d.pieces = [d] := by
      unfold clientContent at hd
      split at hd
      · rw [List.mem_singleton.mp hd]
        rfl
      · cases hd
    rw [hpieces] at hc
    exact List.mem_singleton.mp hc ▸ names_clientContent hd
  · exact names_customContent h

end Fragments

section Program

variable {first : List Demand} {root : Option String} {p : Program} {d : Draft} {l : Ledger}

theorem Sound.names (h : b.Sound first l) (hm : (q, f) ∈ l) (hc : c ∈ Code.piecesAll f.code) : b.Names c := by
  refine h.induction (motive := fun q f => ∀ c ∈ Code.piecesAll f.code, b.Names c) ?_ ?_ hm c hc
  · intro q _ _ c hc
    exact names_fragmentOf (by simp) hc
  · intro q _ _ inside hinside c hc
    apply names_fragmentOf _ hc
    intro f hf
    obtain ⟨p, -, -, hnames⟩ := hinside f hf
    exact hnames

theorem names_workflow (hf : f ∈ b.workflow root) (hc : c ∈ Code.piecesAll f.code) : b.Names c := by
  cases root with
  | some r => cases hf
  | none =>
    obtain rfl := List.mem_singleton.mp hf
    obtain ⟨d, hd, hc⟩ := Code.mem_piecesAll.mp hc
    rw [pieces_graphContent hd] at hc
    have hbuilder : b.IsOwnName workflowBuilder := .fixed (by simp)
    have hgraph : b.IsOwnName workflowGraph := .fixed (by simp)
    exact List.mem_singleton.mp hc ▸ names_graphContent hbuilder hgraph hd

theorem names_fragmentsIn (h : b.Sound first l) (hf : f ∈ b.fragmentsIn root l place)
    (hc : c ∈ Code.piecesAll f.code) : b.Names c := by
  rcases List.mem_append.mp hf with hf | hf
  · obtain ⟨q, hq, -⟩ := Ledger.mem_fragmentsAt.mp hf
    exact h.names hq hc
  · split_ifs at hf
    · exact names_workflow hf hc
    · cases hf

theorem isOwnName_runOf : b.IsOwnName (b.runOf root).name := by
  cases root with
  | some r => exact isOwnName_instanceName r
  | none => exact .fixed (by simp [runOf])

theorem names_promptChoice {prompt : String} (hc : c ∈ Code.piecesAll (promptChoice prompt)) : b.Names c := by
  obtain ⟨d, hd, hc⟩ := Code.mem_piecesAll.mp hc
  have hmessages : Stmt.Reads [.block "if messages" [.line "prompt = messages"]] [] := by decide
  have hinput : Stmt.Reads [.block "elif user_input" [.line "prompt = user_input"]] [] := by decide
  have helse : Text.Reads "else" [] := by decide
  have hassign : Text.Reads "prompt = " [] ∧ Text.EndsApart "prompt = " := by decide
  simp only [promptChoice, List.mem_cons, List.not_mem_nil, or_false] at hd
  rcases hd with rfl | rfl | rfl
  · exact List.mem_singleton.mp hc ▸ .plain hmessages
  · exact List.mem_singleton.mp hc ▸ .plain hinput
  · exact List.mem_singleton.mp hc ▸ .plain (.block helse (.lineOnly (.param hassign (.text prompt))) .nil)

theorem names_commandLine : b.Names commandLine :=
  .plain (by decide +kernel)

theorem names_run (h : b.Sound first l) {prompt : String}
    (hc : c ∈ Code.piecesAll (b.entryOfRun root prompt l).run) : b.Names c := by
  have hdrive (execution : Execution) : b.Names (.drive execution (b.runOf root).name) :=
    .single isOwnName_runOf rfl nofun
  unfold Entry.run at hc
  dsimp only at hc
  split_ifs at hc
  · exact List.mem_singleton.mp hc ▸ hdrive _
  · rw [Code.piecesAll_singleton] at hc
    refine names_pieces names_clients (fun c hc => ?_) hc
    obtain ⟨d, hd, hc⟩ := Code.mem_piecesAll.mp hc
    rcases Fragment.mem_joinBlank hd with rfl | hd | hd
    · exact List.mem_singleton.mp hc ▸ names_blank
    · exact names_layout (fun f hf c hc => names_fragmentsIn h hf hc) (Code.mem_piecesAll.mpr ⟨d, hd, hc⟩)
    · rw [List.mem_singleton.mp hd] at hc
      exact List.mem_singleton.mp hc ▸ hdrive _

theorem names_body (h : b.Sound first l) {prompt : String}
    (hc : c ∈ Code.piecesAll (b.entryOfRun root prompt l).body) : b.Names c := by
  rw [Entry.body, List.cons_append, Code.piecesAll, Code.piecesAll_append, Code.piecesAll] at hc
  rcases List.mem_append.mp hc with hc | hc
  · exact List.mem_singleton.mp hc ▸ .plain (.lineOnly (.docstring _))
  rcases List.mem_append.mp hc with hc | hc
  · exact names_promptChoice hc
  rcases List.mem_append.mp hc with hc | hc
  · exact List.mem_singleton.mp hc ▸ names_blank
  · exact names_run h hc

theorem names_entry (h : b.Sound first l) {prompt : String}
    (hc : c ∈ Code.piecesAll (b.entryOfRun root prompt l).fragment.code) : b.Names c := by
  rw [Entry.fragment_code, Code.piecesAll, Code.piecesAll, Code.piecesAll_singleton] at hc
  rcases List.mem_append.mp hc with hc | hc
  · exact names_pieces names_main (fun c hc => names_body h hc) hc
  rcases List.mem_append.mp hc with hc | hc
  · exact List.mem_singleton.mp hc ▸ names_blank
  · exact List.mem_singleton.mp hc ▸ names_commandLine

theorem Accounts.names (hacc : b.Accounts root p d l) (hc : c ∈ Code.piecesAll (Fragment.layout p.fragments)) :
    b.Names c := by
  obtain ⟨prompt, hfr⟩ := hacc.fragments
  apply names_layout _ hc
  intro f hf c hc
  rw [hfr] at hf
  rcases List.mem_append.mp hf with hf | hf
  · exact names_fragmentsIn hacc.sound hf hc
  · rw [List.mem_singleton.mp hf] at hc
    exact names_entry hacc.sound hc

end Program

section Spelling

variable {g : Graph} {root : Option String}

theorem isWord_nameIn (id : String) (role : NameRole) :
    Text.IsWord ((g.index.blueprint root).nameIn id role) := by
  have hsuffix : Text.IsWord role.suffix := by
    have hall : ∀ role : NameRole, role.suffix.toList.all Text.isWordChar = true := by
      intro role
      cases role <;> decide
    exact List.all_eq_true.mp (hall role)
  unfold nameIn identOf
  apply Text.IsWord.append _ hsuffix
  cases hident : (g.index.blueprint root).symbols.ident? id with
  | none => simp [Text.IsWord]
  | some ident => exact Text.isWord_of_isPlain (SymbolTable.ident?_plain hident).1

theorem IsOwnName.isWord (h : (g.index.blueprint root).IsOwnName x) : Text.IsWord x := by
  cases h with
  | part id role => exact isWord_nameIn id role
  | function hget hf =>
    obtain ⟨code, rfl⟩ := Toolbox.exists_scan hget
    intro c hc
    exact Text.isWordChar_of_ascii (CustomCode.function_continues hf c hc)
  | fixed hx =>
    have hall : ∀ x ∈ ["main", workflowGraph, workflowBuilder], x.toList.all Text.isWordChar = true := by decide
    exact List.all_eq_true.mp (hall x hx)

/-- Which names of parts are spelled like imported names: functions of custom tools, and clients that are named like
the functions that open connections. -/
theorem IsOwnName.eq_opener (hb : (g.index.blueprint root).Coherent) (h : (g.index.blueprint root).IsOwnName x)
    (hx : x ∈ Imports.optional) : x ∈ (Toolbox.ofNodes g.nodes).functions ∨
      ∃ id t, (g.index.blueprint root).symbols.name? id .client = some x ∧ x = Imports.opener t := by
  cases h with
  | part id role =>
    right
    cases hident : (g.index.blueprint root).symbols.ident? id with
    | none =>
      have hsuffix : ∀ role : NameRole, "" ++ role.suffix ∉ Imports.optional := by
        intro role
        cases role <;> decide
      rw [nameIn, identOf, hident] at hx
      exact absurd hx (hsuffix role)
    | some ident =>
      have hname : (g.index.blueprint root).symbols.name? id role = some (ident ++ role.suffix) :=
        SymbolTable.name?_eq_some.mpr ⟨ident, hident, rfl⟩
      have hnameIn : (g.index.blueprint root).nameIn id role = ident ++ role.suffix := by
        rw [nameIn, identOf, hident, Option.getD_some]
      rw [hnameIn] at hx ⊢
      obtain ⟨hfree, -⟩ := hb.name_free hname
      rcases Imports.spelling_of_optional hx with hn | hn | hn | ⟨t, hn⟩
      · exact absurd (List.mem_append_left _ (List.mem_append_left _ hn)) hfree
      · exact absurd (List.mem_append_left _ (List.mem_append_right _ hn)) hfree
      · exact absurd (role.underscore_mem_append ident) hn
      · obtain ⟨-, rfl⟩ := NameRole.append_suffix_inj (hn.trans (Imports.opener_eq t))
        exact ⟨id, t, hname, hn⟩
  | function hget hf => exact Or.inl (Toolbox.mem_functions hget hf)
  | fixed hfixed =>
    have hall : ∀ x ∈ ["main", workflowGraph, workflowBuilder], x ∉ Imports.optional := by decide
    exact absurd hx (hall x hfixed)

end Spelling

end Blueprint

end AgentWorkflow

import AgentWorkflow.Proofs.Program.Imports
import AgentWorkflow.Proofs.Program.Words

/-!
Which of the names that can be imported a text uses.

Main statement: the expression that opens a connection uses the names that are imported for its transport, and `os`
if its settings refer to the environment.
-/

namespace AgentWorkflow

/-- The texts of a server's settings that its client evaluates when it is made. -/
def ServerSettings.references (s : ServerSettings) : List String :=
  match s.transport with
  | .stdio => s.command.getD "" :: s.args ++ s.env.map Prod.snd
  | .streamableHttp | .sse => s.url.getD "" :: s.headers.map Prod.snd

namespace Text

/-- Of the names that can be imported, a text uses just those of a list. -/
structure Reads (s : String) (ns : List String) : Prop where
  closed : IsClosed s
  names : ∀ x ∈ Imports.optional, x ∈ Text.names s ↔ x ∈ ns

instance (s : String) (ns : List String) : Decidable (Reads s ns) :=
  decidable_of_iff (IsClosed s ∧ ∀ x ∈ Imports.optional, x ∈ Text.names s ↔ x ∈ ns)
    ⟨fun h => ⟨h.1, h.2⟩, fun h => ⟨h.1, h.2⟩⟩

/-- The name of the module `os`, if it is used. -/
def osIf (used : Bool) : List String :=
  if used then ["os"] else []

theorem mem_osIf {x : String} {used : Bool} : x ∈ osIf used ↔ x = "os" ∧ used = true := by
  cases used <;> simp [osIf]

/-- A text without names that no word starts or ends with. -/
def IsSeparator (sep : String) : Prop :=
  Reads sep [] ∧ BeginsApart sep ∧ EndsApart sep ∧ sep ≠ ""

instance (sep : String) : Decidable (IsSeparator sep) :=
  inferInstanceAs (Decidable (_ ∧ _))

namespace Reads

variable {s t : String} {ns ms : List String}

theorem congr (h : Reads s ns) (heq : ∀ x ∈ Imports.optional, x ∈ ns ↔ x ∈ ms) : Reads s ms where
  closed := h.closed
  names x hx := (h.names x hx).trans (heq x hx)

theorem append (h : Reads s ns) (h' : Reads t ms) (apart : EndsApart s ∨ BeginsApart t) :
    Reads (s ++ t) (ns ++ ms) where
  closed := h.closed.append h'.closed
  names x hx := by rw [names_append h.closed apart, List.mem_append, List.mem_append, h.names x hx, h'.names x hx]

theorem around {sep : String} {seps : List String} (h : Reads s ns)
    (hsep : Reads sep seps ∧ BeginsApart sep ∧ EndsApart sep ∧ sep ≠ "") (h' : Reads t ms) :
    Reads (s ++ sep ++ t) (ns ++ (seps ++ ms)) := by
  obtain ⟨hreads, hbegin, hend, hne⟩ := hsep
  rw [String.append_assoc]
  exact h.append (hreads.append h' (Or.inl hend)) (Or.inr (hbegin.append hne))

theorem join {sep : String} (h : Reads s ns) (hsep : IsSeparator sep) (h' : Reads t ms) :
    Reads (s ++ sep ++ t) (ns ++ ms) :=
  h.around hsep h'

theorem within {first last : String} {firsts : List String} (hfirst : Reads first firsts ∧ EndsApart first)
    (h : Reads s ns) (hlast : Reads last [] ∧ BeginsApart last) : Reads (first ++ s ++ last) (firsts ++ ns) := by
  have happend := (hfirst.1.append h (Or.inl hfirst.2)).append hlast.1 (Or.inr hlast.2)
  rwa [List.append_nil] at happend

theorem enclosed {first last : String} (hfirst : Reads first [] ∧ EndsApart first) (h : Reads s ns)
    (hlast : Reads last [] ∧ BeginsApart last) : Reads (first ++ s ++ last) ns :=
  within hfirst h hlast

theorem word (h : IsWord s) : Reads s [s] where
  closed := isClosed_of_no_quote h.no_quote
  names x hx := by
    by_cases hne : s = ""
    · have hempty : x ≠ "" := by
        rintro rfl
        exact absurd hx (by decide)
      subst hne
      simp [hempty, show Text.names "" = [] from rfl]
    · rw [h.names_eq hne]

theorem literal {cs : List Char} (h : IsLiteral cs) : Reads (.ofList cs) [] where
  closed := by
    rw [IsClosed, String.toList_ofList]
    exact h.1
  names x _ := by rw [h.names_eq_nil]

theorem line (s : String) : Reads (Literal.line s) [] :=
  literal (isLiteral_escapedChars _)

theorem text (s : String) : Reads (Literal.text s) [] := by
  unfold Literal.text
  split_ifs
  · exact literal (isLiteral_blockChars _)
  · exact literal (isLiteral_escapedChars _)

theorem docstring (s : String) : Reads (Literal.docstring s) [] :=
  literal (isLiteral_blockChars _)

section Lists

variable {α : Type} {render : α → String} {f : α → List String} {xs : List α}

theorem intercalate {sep : String} (hsep : IsSeparator sep) (h : ∀ a ∈ xs, Reads (render a) (f a)) :
    Reads (sep.intercalate (xs.map render)) (xs.flatMap f) := by
  induction xs with
  | nil =>
    have hnil : Reads "" [] := by decide
    exact hnil
  | cons a rest ih =>
    obtain ⟨ha, hrest⟩ := List.forall_mem_cons.mp h
    cases rest with
    | nil => simpa using ha
    | cons b rest =>
      rw [List.map_cons, List.map_cons, String.intercalate_cons_cons]
      exact ha.join hsep (ih hrest)

theorem list (h : ∀ a ∈ xs, Reads (render a) (f a)) : Reads (Literal.list (xs.map render)) (xs.flatMap f) := by
  unfold Literal.list
  exact enclosed (by decide) (intercalate (by decide) h) (by decide)

theorem dict {entry : α → String × String} (h : ∀ a ∈ xs, Reads (entry a).1 [] ∧ Reads (entry a).2 (f a)) :
    Reads (Literal.dict (xs.map entry)) (xs.flatMap f) := by
  have hsep : IsSeparator ": " := by decide
  have hitems : ∀ a ∈ xs, Reads ((entry a).1 ++ ": " ++ (entry a).2) (f a) :=
    fun a ha => (h a ha).1.join hsep (h a ha).2
  unfold Literal.dict
  rw [List.map_map]
  exact enclosed (by decide) (intercalate (by decide) hitems) (by decide)

theorem list_words {items : List String} (h : ∀ item ∈ items, IsWord item) : Reads (Literal.list items) items := by
  have hlist : Reads (Literal.list (items.map id)) (items.flatMap fun item => [item]) :=
    list fun item hi => word (h item hi)
  simpa using hlist

theorem dict_silent {entries : List (String × String)} (h : ∀ e ∈ entries, Reads e.1 [] ∧ Reads e.2 []) :
    Reads (Literal.dict entries) [] := by
  have hdict : Reads (Literal.dict (entries.map id)) (entries.flatMap fun _ => []) := dict h
  rw [List.map_id] at hdict
  exact hdict.congr (by simp)

end Lists

theorem of_chars (h : ∀ c ∈ s.toList, Binary64.IsDecimalChar c) : Reads s [] where
  closed := by
    apply isClosed_of_no_quote
    intro hmem
    exact absurd (h _ hmem) (by decide)
  names x hx := by
    have hother : ∀ o ∈ Imports.optional, (o.toList.all fun c => decide (Binary64.IsDecimalChar c)) = false := by
      decide +kernel
    obtain ⟨c, hc, hnot⟩ := List.all_eq_false.mp (hother x hx)
    simp only [List.not_mem_nil, iff_false]
    intro hmem
    exact hnot (decide_eq_true (h c (toList_subset_of_mem_names hmem hc)))

theorem nat (n : ℕ) : Reads (toString n) [] := by
  apply of_chars
  have htext : (toString n).toList = Nat.toDigits 10 n := by simp
  rw [htext]
  exact Binary64.isDecimalChar_toDigits n

theorem number (x : Binary64) : Reads (Literal.number x) [] := by
  unfold Literal.number
  split_ifs with hx
  · apply of_chars
    rw [Binary64.programText, String.toList_ofList]
    exact Binary64.isDecimalChar_text hx
  · decide

theorem lookup (name : String) (default : Option String) : Reads (EnvText.lookup name default) ["os"] := by
  have hcallee : Reads "os.environ.get(" ["os"] ∧ EndsApart "os.environ.get(" := by decide
  have hclose : Reads ")" [] ∧ BeginsApart ")" := by decide
  cases default with
  | none => exact within hcallee (line name) hclose
  | some d =>
    have hcomma : IsSeparator ", " := by decide
    have h := within hcallee ((line name).join hcomma (line d)) hclose
    rwa [← String.append_assoc, ← String.append_assoc] at h

theorem piece (p : EnvText.Piece) : Reads p.expression (osIf p.isVariable) := by
  cases p
  · exact line _
  · exact lookup _ (some "")

theorem flatMap_osIf {α : Type} {p : α → Bool} {xs : List α} (h : Reads s (xs.flatMap fun a => osIf (p a))) :
    Reads s (osIf (xs.any p)) := by
  apply h.congr
  intro x _
  simp only [List.mem_flatMap, mem_osIf, List.any_eq_true]
  constructor
  · rintro ⟨a, ha, rfl, hp⟩
    exact ⟨rfl, a, ha, hp⟩
  · rintro ⟨rfl, a, ha, hp⟩
    exact ⟨a, ha, rfl, hp⟩

theorem expression (s : String) : Reads (EnvText.expression s) (osIf (EnvText.hasReference s)) := by
  unfold EnvText.expression EnvText.hasReference
  split
  · rename_i hnil
    rw [hnil]
    exact line ""
  · apply flatMap_osIf
    exact intercalate (by decide) fun p _ => piece p

theorem envDict (entries : List (String × String)) :
    Reads (Code.envDict entries) (osIf (entries.any fun e => EnvText.hasReference e.2)) :=
  flatMap_osIf (dict fun e _ => ⟨line e.1, expression e.2⟩)

theorem param {key value : String} (hkey : Reads key [] ∧ EndsApart key) (h : Reads value ns) :
    Reads (key ++ value) ns :=
  hkey.1.append h (Or.inl hkey.2)

theorem overHttp (s : ServerSettings) {callee : String} {firsts : List String}
    (hcallee : Reads (callee ++ "(") firsts ∧ EndsApart (callee ++ "(")) :
    Reads (if s.headers.isEmpty then callee ++ "(" ++ EnvText.expression (s.url.getD "") ++ ")"
      else callee ++ "(" ++ EnvText.expression (s.url.getD "") ++ ", headers=" ++ Code.envDict s.headers ++ ")")
      (firsts ++ osIf ((s.url.getD "" :: s.headers.map Prod.snd).any EnvText.hasReference)) := by
  have hclose : Reads ")" [] ∧ BeginsApart ")" := by decide
  have hurl := expression (s.url.getD "")
  split_ifs with hempty
  · have hheaders : s.headers = [] := by simpa using hempty
    simpa [hheaders] using within hcallee hurl hclose
  · have hsep : IsSeparator ", headers=" := by decide
    have h := within hcallee (hurl.join hsep (envDict s.headers)) hclose
    rw [← String.append_assoc, ← String.append_assoc] at h
    apply h.congr
    intro x _
    simp only [List.mem_append, mem_osIf, List.any_cons, List.any_map, Bool.or_eq_true, and_or_left]
    rfl

theorem overStreams (s : ServerSettings) :
    Reads ("stdio_client(StdioServerParameters(" ++ ", ".intercalate
      (["command=" ++ EnvText.expression (s.command.getD ""),
        "args=" ++ Literal.list (s.args.map EnvText.expression)] ++
        (if s.env.isEmpty then [] else ["env=" ++ Code.envDict s.env])) ++ "))")
      (["stdio_client", "StdioServerParameters"] ++
        osIf ((s.command.getD "" :: s.args ++ s.env.map Prod.snd).any EnvText.hasReference)) := by
  have hcallee : Reads "stdio_client(StdioServerParameters(" ["stdio_client", "StdioServerParameters"] ∧
      EndsApart "stdio_client(StdioServerParameters(" := by decide
  have hclose : Reads "))" [] ∧ BeginsApart "))" := by decide
  have hcommand : Reads ("command=" ++ EnvText.expression (s.command.getD "")) _ :=
    param (by decide) (expression _)
  have hargs : Reads ("args=" ++ Literal.list (s.args.map EnvText.expression)) _ :=
    param (by decide) (flatMap_osIf (list fun a _ => expression a))
  have henv : Reads ("env=" ++ Code.envDict s.env) _ := param (by decide) (envDict s.env)
  -- Each parameter with whether it refers to the environment.
  let params : List (String × Bool) :=
    [("command=" ++ EnvText.expression (s.command.getD ""), EnvText.hasReference (s.command.getD "")),
      ("args=" ++ Literal.list (s.args.map EnvText.expression), s.args.any EnvText.hasReference)] ++
      (if s.env.isEmpty then []
        else [("env=" ++ Code.envDict s.env, s.env.any fun e => EnvText.hasReference e.2)])
  have hparams : ∀ p ∈ params, Reads p.1 (osIf p.2) := by
    simp only [params, List.forall_mem_append, List.forall_mem_cons]
    refine ⟨⟨hcommand, hargs, by simp⟩, ?_⟩
    split_ifs
    · simp
    · exact List.forall_mem_singleton.mpr henv
  have hcomma : IsSeparator ", " := by decide
  have h := within hcallee (flatMap_osIf (intercalate hcomma hparams)) hclose
  by_cases hempty : s.env = []
  · simpa [params, hempty] using h
  · simpa [params, hempty, List.any_append, Bool.or_assoc, Function.comp_def] using h

/-- A connection uses what its transport needs, and `os` if its settings refer to the environment. -/
theorem connection (s : ServerSettings) : Reads (Code.connection s)
    ((Feature.transport s.transport).names ++ osIf (s.references.any EnvText.hasReference)) := by
  unfold Code.connection ServerSettings.references
  dsimp only
  cases s.transport with
  | stdio => exact (overStreams s).congr (by simp [Feature.names, or_left_comm])
  | sse =>
    have hcallee : Reads ("sse_client" ++ "(") ["sse_client"] ∧ EndsApart ("sse_client" ++ "(") := by decide
    exact overHttp s hcallee
  | streamableHttp =>
    have hcallee : Reads ("streamablehttp_client" ++ "(") ["streamablehttp_client"] ∧
        EndsApart ("streamablehttp_client" ++ "(") := by decide
    exact overHttp s hcallee

end Reads

end Text

end AgentWorkflow

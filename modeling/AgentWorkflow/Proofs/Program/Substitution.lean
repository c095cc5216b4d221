import AgentWorkflow.Program.EnvText
import AgentWorkflow.Proofs.Program.Literals

/-!
What a text that refers to the environment stands for when the program runs.

Its expression is a sum of literals and of variables that are looked up. Main statement: in every environment the value
of the sum is the text with each reference replaced, from the left, by the value of its variable; no literal of the sum
holds a reference, and there is a variable in it just when the text refers to one.
-/

namespace AgentWorkflow.EnvText

/-- A name of a variable: letters, digits and underscores of ASCII, the first of them no digit. -/
def IsName : List Char → Prop
  | [] => False
  | c :: rest => (c.isAlpha ∨ c = '_') ∧ ∀ d ∈ rest, d.isAlphanum ∨ d = '_'

/-- The reference to a variable, as it stands in a text. -/
def reference (name : List Char) : List Char :=
  '$' :: '{' :: name ++ ['}']

/-- No reference stands at the start of a text. -/
def StartsPlain (cs : List Char) : Prop :=
  ∀ name, IsName name → ¬reference name <+: cs

/-- A term of a sum: a literal, or a variable that is looked up, with the value for one that is not set. -/
inductive Term where
  | literal (value : List Char)
  | lookup (name default : List Char)

section Environment

variable (env : String → Option String)

def Term.value : Term → List Char
  | .literal value => value
  | .lookup name default => (env (.ofList name)).elim default String.toList

/-- Replaces the references of a text from the left by the values of their variables, one that is not set by nothing. -/
inductive Substitutes : List Char → List Char → Prop
  | nil : Substitutes [] []
  | reference {name rest out : List Char} : IsName name → Substitutes rest out →
      Substitutes (reference name ++ rest) (((env (.ofList name)).getD "").toList ++ out)
  | char {c : Char} {rest out : List Char} : StartsPlain (c :: rest) → Substitutes rest out →
      Substitutes (c :: rest) (c :: out)

end Environment

section Reading

variable (named : List Char → Option Char)

/-- The term that a text starts with, and what follows it. -/
def term? (cs : List Char) : Option (Term × List Char) :=
  match cs.dropPrefix? "os.environ.get(".toList with
  | some rest => do
    let (name, rest) ← Literal.literal? named rest
    let rest ← rest.dropPrefix? ", ".toList
    let (default, rest) ← Literal.literal? named rest
    let rest ← rest.dropPrefix? ")".toList
    return (.lookup name default, rest)
  | none => do
    let (value, rest) ← Literal.literal? named cs
    return (.literal value, rest)

/-- A text is the sum of terms. -/
inductive IsSum : List Char → List Term → Prop
  | single {cs : List Char} {t : Term} : term? named cs = some (t, []) → IsSum cs [t]
  | more {cs rest : List Char} {t : Term} {terms : List Term} : term? named cs = some (t, " + ".toList ++ rest) →
      IsSum rest terms → IsSum cs (t :: terms)

/-- A source is read as the sum of terms. -/
def IsReadAs (s : String) (terms : List Term) : Prop :=
  ∃ cs, Literal.source? s.toList = some cs ∧ IsSum named cs terms

end Reading

section References

variable {cs rest name : List Char} {c : Char}

theorem startsName_iff : startsName c = true ↔ c.isAlpha ∨ c = '_' := by
  simp [startsName]

theorem continuesName_iff : continuesName c = true ↔ c.isAlphanum ∨ c = '_' := by
  simp [continuesName]

theorem reference?_eq_some_iff : reference? cs = some name ↔ IsName name ∧ reference name <+: cs := by
  have hclose : continuesName '}' = false := rfl
  constructor
  · intro h
    unfold reference? at h
    split at h
    case h_1 c rest =>
      dsimp only at h
      split_ifs at h with hc
      obtain rfl := Option.some.inj h
      obtain ⟨hstart, hend⟩ := Bool.and_eq_true_iff.mp hc
      obtain ⟨tail, htail⟩ := List.head?_eq_some_iff.mp (eq_of_beq hend)
      have hname : IsName (c :: rest.takeWhile continuesName) :=
        ⟨startsName_iff.mp hstart, fun d hd => continuesName_iff.mp (List.mem_takeWhile_imp hd)⟩
      refine ⟨hname, tail, ?_⟩
      have hsplit := List.takeWhile_append_dropWhile (p := continuesName) (l := rest)
      rw [htail] at hsplit
      simpa [reference] using hsplit
    case h_2 => cases h
  · rintro ⟨hname, tail, rfl⟩
    cases name with
    | nil => exact hname.elim
    | cons c more =>
      have hstart := startsName_iff.mpr hname.1
      have hmore : ∀ d ∈ more, continuesName d = true := fun d hd => continuesName_iff.mpr (hname.2 d hd)
      have htext : reference (c :: more) ++ tail = '$' :: '{' :: c :: (more ++ '}' :: tail) := by simp [reference]
      have htake : (more ++ '}' :: tail).takeWhile continuesName = more := by
        rw [List.takeWhile_append_of_pos hmore, List.takeWhile_cons_of_neg (by simp [hclose]), List.append_nil]
      have hdrop : (more ++ '}' :: tail).dropWhile continuesName = '}' :: tail := by
        rw [List.dropWhile_append_of_pos hmore, List.dropWhile_cons_of_neg (by simp [hclose])]
      rw [htext, reference?]
      simp [htake, hdrop, hstart]

theorem reference?_eq_none_iff : reference? cs = none ↔ StartsPlain cs := by
  rw [Option.eq_none_iff_forall_ne_some]
  constructor
  · intro h name hname hprefix
    exact h name (reference?_eq_some_iff.mpr ⟨hname, hprefix⟩)
  · intro h name hsome
    obtain ⟨hname, hprefix⟩ := reference?_eq_some_iff.mp hsome
    exact h name hname hprefix

theorem piecesFrom_eq_drop (n : ℕ) (cs : List Char) : piecesFrom n cs = pieces (cs.drop n) := by
  induction n generalizing cs with
  | zero => rfl
  | succ n ih =>
    cases cs with
    | nil => rfl
    | cons c rest => exact ih rest

theorem pieces_reference (h : IsName name) (rest : List Char) :
    pieces (reference name ++ rest) = .variable name :: pieces rest := by
  have hfound : reference? (reference name ++ rest) = some name :=
    reference?_eq_some_iff.mpr ⟨h, List.prefix_append _ _⟩
  have htext : reference name ++ rest = '$' :: ('{' :: name ++ '}' :: rest) := by simp [reference]
  rw [htext] at hfound ⊢
  rw [pieces, piecesFrom, hfound]
  dsimp only
  rw [piecesFrom_eq_drop]
  congr 2
  simp

theorem pieces_cons (h : StartsPlain (c :: rest)) : pieces (c :: rest) = push c (pieces rest) := by
  rw [pieces, piecesFrom, reference?_eq_none_iff.mpr h]
  rfl

/-- What holds of a text if it holds of what follows its first reference or character. -/
theorem induction_on_references {motive : List Char → Prop} (nil : motive [])
    (reference : ∀ name rest, IsName name → motive rest → motive (reference name ++ rest))
    (char : ∀ c rest, StartsPlain (c :: rest) → motive rest → motive (c :: rest)) (cs : List Char) :
    motive cs := by
  induction hn : cs.length using Nat.strong_induction_on generalizing cs with
  | _ n ih =>
    cases cs with
    | nil => exact nil
    | cons c rest =>
      cases h : reference? (c :: rest) with
      | none =>
        apply char c rest (reference?_eq_none_iff.mp h)
        exact ih rest.length (by rw [← hn, List.length_cons]; omega) rest rfl
      | some name =>
        obtain ⟨hname, tail, htail⟩ := reference?_eq_some_iff.mp h
        have hlength : tail.length < n := by
          rw [← hn, ← htail]
          simp [EnvText.reference]
          omega
        rw [← htail]
        exact reference name tail hname (ih tail.length hlength tail rfl)

end References

section Pieces

variable {cs out : List Char} {env : String → Option String} {p : Piece}

/-- A piece as it stands in the text. -/
def Piece.source : Piece → List Char
  | .plain cs => cs
  | .variable name => reference name

/-- A piece as a term of the sum. -/
def Piece.term : Piece → Term
  | .plain cs => .literal cs
  | .variable name => .lookup name []

theorem mem_push {c : Char} {ps : List Piece} (h : p ∈ push c ps) :
    p ∈ ps ∨ ∃ ds, p = .plain (c :: ds) ∧ (ds = [] ∨ ps.head? = some (.plain ds)) := by
  unfold push at h
  split at h
  · rcases List.mem_cons.mp h with rfl | h
    · exact Or.inr ⟨_, rfl, Or.inr rfl⟩
    · exact Or.inl (List.mem_cons_of_mem _ h)
  · rcases List.mem_cons.mp h with rfl | h
    · exact Or.inr ⟨[], rfl, Or.inl rfl⟩
    · exact Or.inl h

theorem flatMap_push {f : Piece → List Char} (h : ∀ ds, f (.plain ds) = ds) (c : Char) (ps : List Piece) :
    (push c ps).flatMap f = c :: ps.flatMap f := by
  unfold push
  split <;> simp [h]

theorem any_push (c : Char) (ps : List Piece) : (push c ps).any Piece.isVariable = ps.any Piece.isVariable := by
  unfold push
  split <;> simp [Piece.isVariable]

theorem any_isVariable {ps : List Piece} : ps.any Piece.isVariable = true ↔ ∃ name, .variable name ∈ ps := by
  rw [List.any_eq_true]
  constructor
  · rintro ⟨q, hq, hvariable⟩
    cases q with
    | plain ds => cases hvariable
    | «variable» name => exact ⟨name, hq⟩
  · rintro ⟨name, hname⟩
    exact ⟨_, hname, rfl⟩

theorem literal_mem_map_term {ps : List Piece} {value : List Char} :
    .literal value ∈ ps.map Piece.term ↔ .plain value ∈ ps := by
  constructor
  · intro h
    obtain ⟨q, hq, hterm⟩ := List.mem_map.mp h
    cases q with
    | plain ds => cases hterm; exact hq
    | «variable» name => cases hterm
  · exact List.mem_map_of_mem (f := Piece.term)

theorem lookup_mem_map_term {ps : List Piece} {name default : List Char} :
    .lookup name default ∈ ps.map Piece.term ↔ default = [] ∧ .variable name ∈ ps := by
  constructor
  · intro h
    obtain ⟨q, hq, hterm⟩ := List.mem_map.mp h
    cases q with
    | plain ds => cases hterm
    | «variable» name => cases hterm; exact ⟨rfl, hq⟩
  · rintro ⟨rfl, h⟩
    exact List.mem_map_of_mem (f := Piece.term) h

theorem flatMap_source_pieces (cs : List Char) : (pieces cs).flatMap Piece.source = cs := by
  induction cs using induction_on_references with
  | nil => rfl
  | reference name rest hname ih => rw [pieces_reference hname, List.flatMap_cons, ih, Piece.source]
  | char c rest hplain ih => rw [pieces_cons hplain, flatMap_push fun _ => rfl, ih]

theorem prefix_of_head?_pieces {ds : List Char} (h : (pieces cs).head? = some (.plain ds)) : ds <+: cs := by
  obtain ⟨ps, hps⟩ := List.head?_eq_some_iff.mp h
  have hsource := flatMap_source_pieces cs
  rw [hps, List.flatMap_cons] at hsource
  exact ⟨_, hsource⟩

theorem not_reference_infix_of_plain {ds : List Char} (h : .plain ds ∈ pieces cs) {name : List Char}
    (hname : IsName name) : ¬reference name <:+: ds := by
  induction cs using induction_on_references generalizing ds with
  | nil => cases h
  | reference name' rest hname' ih =>
    rw [pieces_reference hname'] at h
    rcases List.mem_cons.mp h with h | h
    · cases h
    · exact ih h
  | char c rest hplain ih =>
    rw [pieces_cons hplain] at h
    rcases mem_push h with h | ⟨ds, heq, hhead⟩
    · exact ih h
    · cases heq
      -- What the character is put before is the beginning of what follows it in the text.
      have hprefix : ds <+: rest := by
        rcases hhead with rfl | hhead
        · exact List.nil_prefix
        · exact prefix_of_head?_pieces hhead
      intro hinfix
      rcases List.infix_cons_iff.mp hinfix with hstart | hlater
      · exact hplain name hname (hstart.trans (List.cons_prefix_cons.mpr ⟨rfl, hprefix⟩))
      · rcases hhead with rfl | hhead
        · exact absurd (List.infix_nil.mp hlater) (by simp [reference])
        · exact ih (List.mem_of_mem_head? hhead) hlater

theorem hasReference_iff (s : String) :
    hasReference s = true ↔ ∃ name, IsName name ∧ reference name <:+: s.toList := by
  unfold hasReference
  induction s.toList using induction_on_references with
  | nil => simp [pieces, piecesFrom, reference]
  | reference name rest hname _ =>
    rw [pieces_reference hname]
    have hhere : ∃ name', IsName name' ∧ reference name' <:+: reference name ++ rest :=
      ⟨name, hname, (List.prefix_append _ _).isInfix⟩
    simp [Piece.isVariable, hhere]
  | char c rest hplain ih =>
    rw [pieces_cons hplain, any_push, ih]
    constructor
    · rintro ⟨name, hname, hinfix⟩
      exact ⟨name, hname, List.infix_cons hinfix⟩
    · rintro ⟨name, hname, hinfix⟩
      rcases List.infix_cons_iff.mp hinfix with hstart | hlater
      · exact absurd hstart (hplain name hname)
      · exact ⟨name, hname, hlater⟩

theorem substitutes_iff : Substitutes env cs out ↔ out = (pieces cs).flatMap fun p => p.term.value env := by
  have hplain (ds : List Char) : (Piece.plain ds).term.value env = ds := rfl
  have hvalue (name : List Char) : (Piece.variable name).term.value env = ((env (.ofList name)).getD "").toList := by
    cases h : env (.ofList name) <;> simp [Piece.term, Term.value, h]
  constructor
  · intro h
    induction h with
    | nil => rfl
    | reference hname _ ih => rw [pieces_reference hname, List.flatMap_cons, hvalue, ← ih]
    | char hstart _ ih => rw [pieces_cons hstart, flatMap_push hplain, ← ih]
  · rintro rfl
    induction cs using induction_on_references with
    | nil => exact .nil
    | reference name rest hname ih =>
      rw [pieces_reference hname, List.flatMap_cons, hvalue]
      exact .reference hname ih
    | char c rest hstart ih =>
      rw [pieces_cons hstart, flatMap_push hplain]
      exact .char hstart ih

end Pieces

section Expressions

variable (named : List Char → Option Char)

theorem expression_variable (name : List Char) : (Piece.variable name).expression =
    "os.environ.get(" ++ Literal.line (.ofList name) ++ ", " ++ Literal.line "" ++ ")" :=
  rfl

theorem term?_expression (p : Piece) (rest : List Char) (h : rest.head? ≠ some '"') :
    term? named (p.expression.toList ++ rest) = some (p.term, rest) := by
  cases p with
  | plain cs =>
    have hliteral : (Piece.plain cs).expression.toList = Text.escapedChars cs := by
      simp [Piece.expression, Literal.line, Text.escaped]
    have hother : (Text.escapedChars cs ++ rest).dropPrefix? "os.environ.get(".toList = none := by
      simp [Text.escapedChars, List.dropPrefix?]
    rw [hliteral, term?, hother]
    simp [Literal.literal?_escapedChars cs rest h, Piece.term]
  | «variable» name =>
    have htext : (Piece.variable name).expression.toList ++ rest = "os.environ.get(".toList ++
        (Text.escapedChars name ++ (", ".toList ++ (Text.escapedChars [] ++ (")".toList ++ rest)))) := by
      simp only [expression_variable, Literal.line, Text.escaped, String.toList_append, String.toList_ofList,
        String.toList_empty, List.append_assoc]
    have hname := @Literal.literal?_escapedChars named name
      (", ".toList ++ (Text.escapedChars [] ++ (")".toList ++ rest))) (by simp)
    have hdefault := @Literal.literal?_escapedChars named [] (")".toList ++ rest) (by simp)
    have hpassed (l more : List Char) : (l ++ more).dropPrefix? l = some more :=
      List.dropPrefix?_append_of_beq more (beq_self_eq_true l)
    rw [htext, term?, hpassed]
    simp only [Option.bind_eq_bind, hname, Option.bind_some, hpassed, hdefault]
    rfl

theorem le_expression (p : Piece) : ∀ d ∈ p.expression.toList, 32 ≤ d.toNat := by
  have hline (s : String) : ∀ d ∈ (Literal.line s).toList, 32 ≤ d.toNat := by
    rw [Literal.line, Text.escaped, String.toList_ofList]
    exact Literal.le_escapedChars s.toList
  cases p with
  | plain cs => exact hline _
  | «variable» name =>
    have hget : ∀ d ∈ "os.environ.get(".toList, 32 ≤ d.toNat := by simp
    have hcomma : ∀ d ∈ ", ".toList, 32 ≤ d.toNat := by simp
    have hclose : ∀ d ∈ ")".toList, 32 ≤ d.toNat := by simp
    rw [expression_variable]
    simp only [String.toList_append, List.forall_mem_append]
    exact ⟨⟨⟨⟨hget, hline _⟩, hcomma⟩, hline _⟩, hclose⟩

theorem isSum_expressions (p : Piece) (ps : List Piece) :
    IsSum named (" + ".intercalate ((p :: ps).map Piece.expression)).toList ((p :: ps).map Piece.term) ∧
      ∀ d ∈ (" + ".intercalate ((p :: ps).map Piece.expression)).toList, 32 ≤ d.toNat := by
  induction ps generalizing p with
  | nil =>
    have hterm := term?_expression named p [] (by simp)
    rw [List.append_nil] at hterm
    simp only [List.map_cons, List.map_nil, String.intercalate_singleton]
    exact ⟨.single hterm, le_expression p⟩
  | cons q ps ih =>
    obtain ⟨hsum, hle⟩ := ih q
    have hplus : ∀ d ∈ " + ".toList, 32 ≤ d.toNat := by simp
    rw [List.map_cons, List.map_cons, String.intercalate_cons_cons, ← List.map_cons, String.toList_append,
      String.toList_append, List.append_assoc]
    constructor
    · exact .more (term?_expression named p _ (by simp)) hsum
    · exact List.forall_mem_append.mpr ⟨le_expression p, List.forall_mem_append.mpr ⟨hplus, hle⟩⟩

variable {named}

theorem IsSum.unique {cs : List Char} {terms terms' : List Term} (h : IsSum named cs terms)
    (h' : IsSum named cs terms') : terms' = terms := by
  induction h generalizing terms' with
  | single hterm =>
    cases h' with
    | single hterm' =>
      rw [hterm] at hterm'
      cases hterm'
      rfl
    | more hterm' _ =>
      rw [hterm] at hterm'
      simp at hterm'
  | more hterm _ ih =>
    cases h' with
    | single hterm' =>
      rw [hterm] at hterm'
      simp at hterm'
    | more hterm' hrest =>
      rw [hterm, Option.some.injEq, Prod.mk.injEq] at hterm'
      obtain ⟨rfl, hrests⟩ := hterm'
      rw [← List.append_cancel_left hrests] at hrest
      rw [ih hrest]

theorem isReadAs_iff {s : String} {terms : List Term} (hsum : IsSum named s.toList terms)
    (hle : ∀ d ∈ s.toList, 32 ≤ d.toNat) (terms' : List Term) : IsReadAs named s terms' ↔ terms' = terms := by
  have hnul : '\x00' ∉ s.toList := fun h => absurd (hle _ h) (by decide)
  have hreturn : '\r' ∉ s.toList := fun h => absurd (hle _ h) (by decide)
  have hsource : Literal.source? s.toList = some s.toList := by
    rw [Literal.source?, if_neg hnul, Literal.unified_eq_self hreturn]
  constructor
  · rintro ⟨cs, hcs, hsum'⟩
    rw [hsource] at hcs
    cases hcs
    exact hsum.unique hsum'
  · rintro rfl
    exact ⟨_, hsource, hsum⟩

/-- The pieces of which an expression is made: those of the text, or one of no characters if the text is empty. -/
theorem exists_expression_eq (s : String) : ∃ p ps,
    expression s = " + ".intercalate ((p :: ps).map Piece.expression) ∧
      (pieces s.toList = p :: ps ∨ pieces s.toList = [] ∧ p = .plain [] ∧ ps = []) := by
  unfold expression
  cases h : pieces s.toList with
  | nil => exact ⟨.plain [], [], by simp [Piece.expression], Or.inr ⟨rfl, rfl, rfl⟩⟩
  | cons p ps => exact ⟨p, ps, rfl, Or.inl rfl⟩

end Expressions

/-- The expression for a text is a sum of terms, in one way. In every environment its value is the text with each
reference replaced. No literal in it holds a reference, and there is a lookup in it just when the text refers to the
environment. -/
theorem expression_substitutes (named : List Char → Option Char) (s : String) :
    ∃ terms, (∀ terms', IsReadAs named (expression s) terms' ↔ terms' = terms) ∧
      (∀ env out, Substitutes env s.toList out ↔ out = terms.flatMap (Term.value env)) ∧
      (∀ value, .literal value ∈ terms → ∀ name, IsName name → ¬reference name <:+: value) ∧
      (∀ name default, .lookup name default ∈ terms → default = []) ∧
      ((∃ name default, .lookup name default ∈ terms) ↔ hasReference s = true) ∧
      (hasReference s = true ↔ ∃ name, IsName name ∧ reference name <:+: s.toList) := by
  obtain ⟨p, ps, hexpression, hpieces⟩ := exists_expression_eq s
  obtain ⟨hsum, hle⟩ := isSum_expressions named p ps
  rw [← hexpression] at hsum hle
  refine ⟨(p :: ps).map Piece.term, isReadAs_iff hsum hle, ?_, ?_, ?_, ?_, hasReference_iff s⟩
  · intro env out
    rw [substitutes_iff, List.flatMap_map]
    rcases hpieces with hpieces | ⟨hnil, rfl, rfl⟩
    · rw [hpieces]
    · rw [hnil]
      rfl
  · intro value hvalue name hname
    have hplain := literal_mem_map_term.mp hvalue
    rcases hpieces with hpieces | ⟨-, rfl, rfl⟩
    · rw [← hpieces] at hplain
      exact not_reference_infix_of_plain hplain hname
    · cases List.mem_singleton.mp hplain
      exact fun h => absurd (List.infix_nil.mp h) (by simp [reference])
  · exact fun name default hlookup => (lookup_mem_map_term.mp hlookup).1
  · have hany : (∃ name default, .lookup name default ∈ (p :: ps).map Piece.term) ↔
        (p :: ps).any Piece.isVariable = true := by
      simp only [lookup_mem_map_term, exists_eq_left]
      exact any_isVariable.symm
    rw [hany, hasReference]
    rcases hpieces with hpieces | ⟨hnil, rfl, rfl⟩
    · rw [hpieces]
    · rw [hnil]
      rfl

end AgentWorkflow.EnvText

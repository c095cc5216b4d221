import AgentWorkflow.Compile.Generation
import AgentWorkflow.Proofs.Tools.Toolbox

/-!
Which functions are found to be decorated as tools.

Code counts as decorated iff a tool decorator leads to the header of a function over nothing but lines
that begin with `@`. Main statement: of a function at the margin that carries the tool decorator, the name
is always found, but a comment, a blank line or a further line of the decorator's arguments between the
decorator and the header hides the decorator, and the function is wrapped a second time.
-/

namespace AgentWorkflow.CustomCode

open Text

/-- Lines above a header, of which the last that are decorators include the tool decorator. -/
def Reaches (decoration : List (List Char)) : Prop :=
  ∃ above line below, decoration = above ++ line :: below ∧ isToolDecorator line = true ∧
    ∀ l ∈ below, isDecorator l = true

/-- Some lines decorate the function `f` as a tool. -/
def Decorates (lines : List (List Char)) (f : String) : Prop :=
  ∃ decoration header below, lines = decoration ++ header :: below ∧ Reaches decoration ∧
    definedName? (unindented header) = some f

/-- The lines of code whose first function at the margin is `f`, which carries the tool decorator as the
generated language has it, and which is the only function that is decorated. Between the decorator and
the header there may be anything but the header of another function: further decorators, the rest of a
decorator's arguments, comments and blank lines. -/
structure IsToolLayout (lines above decoration : List (List Char)) (header : List Char)
    (body : List (List Char)) (f : String) : Prop where
  lines_eq : lines = above ++ (decoration ++ header :: body)
  first : ∀ line ∈ above, definedName? line = none
  carried : ∃ line ∈ decoration, isToolDecorator line = true
  between : ∀ line ∈ decoration, definedName? (unindented line) = none
  defines : definedName? header = some f
  above_alone : ∀ g, ¬ Decorates above g
  body_alone : ∀ g, ¬ Decorates body g

theorem head?_of_afterWord? {word text rest : List Char} {c : Char} (hw : word.head? = some c)
    (h : afterWord? word text = some rest) : text.head? = some c := by
  obtain ⟨more, hm, -⟩ := Option.bind_eq_some_iff.mp h
  cases word with
  | nil => cases hw
  | cons d word =>
    cases text with
    | nil => cases hm
    | cons e text =>
      rw [afterHead?] at hm
      split_ifs at hm with he
      rw [List.head?_cons, ← he, ← hw, List.head?_cons]

theorem head?_of_definedName? {text : List Char} {f : String} (h : definedName? text = some f) :
    text.head? = some 'd' ∨ text.head? = some 'a' := by
  obtain ⟨rest, hr, -⟩ := Option.bind_eq_some_iff.mp h
  cases ha : afterWord? "async".toList text with
  | none =>
    rw [ha, Option.getD_none] at hr
    exact .inl (head?_of_afterWord? rfl hr)
  | some more => exact .inr (head?_of_afterWord? rfl ha)

theorem unindented_of_definedName? {line : List Char} {f : String} (h : definedName? line = some f) :
    unindented line = line := by
  unfold unindented
  cases line with
  | nil => rfl
  | cons c rest =>
    refine List.dropWhile_cons_of_neg ?_
    obtain hc | hc := head?_of_definedName? h
    · rw [Option.some.inj hc]
      decide
    · rw [Option.some.inj hc]
      decide

theorem not_isDecorator_of_defines {line : List Char} {f : String}
    (h : definedName? (unindented line) = some f) : isDecorator line = false := by
  unfold isDecorator
  obtain hc | hc := head?_of_definedName? h <;> rw [hc] <;> decide

theorem isDecorator_of_tool {line : List Char} (h : isToolDecorator line = true) :
    isDecorator line = true := by
  unfold isToolDecorator at h
  unfold isDecorator
  split at h
  · rename_i rest hu
    rw [hu]
    rfl
  · cases h

theorem decoratedName?_append (xs ys : List (List Char)) :
    decoratedName? (xs ++ ys) =
      if ∀ l ∈ xs, isDecorator l = true then decoratedName? ys else decoratedName? xs := by
  induction xs with
  | nil => simp
  | cons line rest ih =>
    rw [List.cons_append, decoratedName?, decoratedName?, ih]
    by_cases hl : isDecorator line = true
    · simp [hl]
    · simp [hl]

theorem decoratedName?_eq_some_iff {lines : List (List Char)} {f : String} :
    decoratedName? lines = some f ↔ ∃ more header below, lines = more ++ header :: below ∧
      (∀ l ∈ more, isDecorator l = true) ∧ definedName? (unindented header) = some f := by
  constructor
  · intro h
    induction lines with
    | nil => cases h
    | cons line rest ih =>
      rw [decoratedName?] at h
      split_ifs at h with hl
      · obtain ⟨more, header, below, rfl, hm, hh⟩ := ih h
        exact ⟨line :: more, header, below, rfl, List.forall_mem_cons.mpr ⟨hl, hm⟩, hh⟩
      · exact ⟨[], line, rest, rfl, by simp, h⟩
  · rintro ⟨more, header, below, rfl, hm, hh⟩
    rw [decoratedName?_append, if_pos hm, decoratedName?, not_isDecorator_of_defines hh]
    exact hh

theorem toolName?_cons (line : List Char) (rest : List (List Char)) :
    toolName? (line :: rest) =
      (if isToolDecorator line then decoratedName? rest else none).or (toolName? rest) := by
  rw [toolName?, Option.orElse_eq_orElse, Option.orElse_eq_or]

theorem reaches_cons_iff {line : List Char} {rest : List (List Char)} :
    Reaches (line :: rest) ↔
      (isToolDecorator line = true ∧ ∀ l ∈ rest, isDecorator l = true) ∨ Reaches rest := by
  constructor
  · rintro ⟨above, l, below, he, ht, hb⟩
    rcases List.cons_eq_append_iff.mp he with ⟨rfl, hc⟩ | ⟨above', rfl, hc⟩
    · obtain ⟨rfl, rfl⟩ := List.cons.inj hc
      exact .inl ⟨ht, hb⟩
    · exact .inr ⟨above', l, below, hc, ht, hb⟩
  · rintro (⟨ht, hb⟩ | ⟨above, l, below, rfl, ht, hb⟩)
    · exact ⟨[], line, rest, rfl, ht, hb⟩
    · exact ⟨line :: above, l, below, rfl, ht, hb⟩

theorem reaches_of_forall {decoration : List (List Char)}
    (hc : ∃ l ∈ decoration, isToolDecorator l = true) (hd : ∀ l ∈ decoration, isDecorator l = true) :
    Reaches decoration := by
  obtain ⟨l, hl, ht⟩ := hc
  obtain ⟨above, below, rfl⟩ := List.append_of_mem hl
  exact ⟨above, l, below, rfl, ht, fun m hm => hd m (by simp [hm])⟩

theorem toolName?_decorates {lines : List (List Char)} {f : String} (h : toolName? lines = some f) :
    Decorates lines f := by
  induction lines with
  | nil => cases h
  | cons line rest ih =>
    rw [toolName?_cons, Option.or_eq_some_iff] at h
    rcases h with h | ⟨-, h⟩
    · split_ifs at h with ht
      obtain ⟨more, header, below, rfl, hm, hh⟩ := decoratedName?_eq_some_iff.mp h
      exact ⟨line :: more, header, below, rfl, reaches_cons_iff.mpr (.inl ⟨ht, hm⟩), hh⟩
    · obtain ⟨decoration, header, below, rfl, hr, hh⟩ := ih h
      exact ⟨line :: decoration, header, below, rfl, reaches_cons_iff.mpr (.inr hr), hh⟩

theorem not_decorates_of_unmarked {lines : List (List Char)} (h : ∀ l ∈ lines, isToolDecorator l = false)
    (g : String) : ¬ Decorates lines g := by
  rintro ⟨_, header, below, rfl, ⟨above, l, more, rfl, ht, -⟩, -⟩
  rw [h l (by simp)] at ht
  cases ht

theorem toolName?_of_alone {lines : List (List Char)} (h : ∀ g, ¬ Decorates lines g) :
    toolName? lines = none :=
  Option.eq_none_iff_forall_ne_some.mpr fun g hg => h g (toolName?_decorates hg)

/-- Lines without a tool decorator that reaches a header among them hide none that comes after them. -/
theorem toolName?_append {xs ys : List (List Char)} (hx : toolName? xs = none)
    (hy : decoratedName? ys = none ∨ decoratedName? ys = toolName? ys) :
    toolName? (xs ++ ys) = toolName? ys := by
  induction xs with
  | nil => rfl
  | cons line rest ih =>
    rw [toolName?_cons, Option.or_eq_none_iff] at hx
    obtain ⟨hl, hr⟩ := hx
    rw [List.cons_append, toolName?_cons, ih hr, decoratedName?_append]
    by_cases ht : isToolDecorator line = true
    · rw [if_pos ht] at hl ⊢
      split_ifs
      · rcases hy with hy | hy
        · rw [hy, Option.none_or]
        · rw [hy, Option.or_self]
      · rw [hl, Option.none_or]
    · rw [if_neg ht, Option.none_or]

section Between

variable {decoration body : List (List Char)} {header : List Char} {f : String}

theorem decoratedName?_between (hb : ∀ l ∈ decoration, definedName? (unindented l) = none) :
    decoratedName? decoration = none := by
  refine Option.eq_none_iff_forall_ne_some.mpr fun g hg => ?_
  obtain ⟨more, l, below, rfl, -, hl⟩ := decoratedName?_eq_some_iff.mp hg
  rw [hb l (by simp)] at hl
  cases hl

theorem decoratedName?_header (hb : ∀ l ∈ decoration, definedName? (unindented l) = none)
    (hh : definedName? (unindented header) = some f) :
    decoratedName? (decoration ++ header :: body) =
      if ∀ l ∈ decoration, isDecorator l = true then some f else none := by
  rw [decoratedName?_append, decoratedName?_between hb, decoratedName?, not_isDecorator_of_defines hh, hh]
  rfl

theorem toolName?_of_reaches (hb : ∀ l ∈ decoration, definedName? (unindented l) = none)
    (hh : definedName? (unindented header) = some f) (hr : Reaches decoration) :
    toolName? (decoration ++ header :: body) = some f := by
  induction decoration with
  | nil =>
    obtain ⟨above, l, below, he, -⟩ := hr
    simp at he
  | cons line rest ih =>
    obtain ⟨-, hb'⟩ := List.forall_mem_cons.mp hb
    rw [List.cons_append, toolName?_cons, decoratedName?_header hb' hh]
    rcases reaches_cons_iff.mp hr with ⟨ht, hd⟩ | hr'
    · rw [if_pos ht, if_pos hd, Option.some_or]
    · rw [ih hb' hr']
      split_ifs <;> rfl

theorem toolName?_of_not_reaches (hb : ∀ l ∈ decoration, definedName? (unindented l) = none)
    (hh : definedName? (unindented header) = some f) (hr : ¬ Reaches decoration) :
    toolName? (decoration ++ header :: body) = toolName? body := by
  induction decoration with
  | nil =>
    have ht : ¬ isToolDecorator header = true := fun ht => by
      have hd := isDecorator_of_tool ht
      rw [not_isDecorator_of_defines hh] at hd
      cases hd
    rw [List.nil_append, toolName?_cons, if_neg ht, Option.none_or]
  | cons line rest ih =>
    obtain ⟨-, hb'⟩ := List.forall_mem_cons.mp hb
    obtain ⟨hl, hr'⟩ := not_or.mp fun h => hr (reaches_cons_iff.mpr h)
    rw [List.cons_append, toolName?_cons, decoratedName?_header hb' hh, ih hb' hr']
    by_cases ht : isToolDecorator line = true
    · rw [if_pos ht, if_neg fun hd => hl ⟨ht, hd⟩, Option.none_or]
    · rw [if_neg ht, Option.none_or]

end Between

section Layout

variable {lines above decoration body : List (List Char)} {header : List Char} {f : String}

theorem IsToolLayout.header_defines (h : IsToolLayout lines above decoration header body f) :
    definedName? (unindented header) = some f := by
  rw [unindented_of_definedName? h.defines]
  exact h.defines

theorem IsToolLayout.toolName?_eq (h : IsToolLayout lines above decoration header body f) :
    toolName? lines = toolName? (decoration ++ header :: body) := by
  rw [h.lines_eq]
  apply toolName?_append (toolName?_of_alone h.above_alone)
  rw [decoratedName?_header h.between h.header_defines]
  split_ifs with hd
  · have hr := reaches_of_forall h.carried hd
    exact .inr (toolName?_of_reaches h.between h.header_defines hr).symm
  · exact .inl rfl

theorem IsToolLayout.plainName?_eq (h : IsToolLayout lines above decoration header body f) :
    plainName? lines = some f := by
  have hd : ∀ l ∈ decoration, definedName? l = none := by
    intro l hl
    refine Option.eq_none_iff_forall_ne_some.mpr fun g hg => ?_
    have hb := h.between l hl
    rw [unindented_of_definedName? hg, hg] at hb
    cases hb
  unfold plainName?
  rw [h.lines_eq, List.findSome?_append, List.findSome?_eq_none_iff.mpr h.first, Option.none_or,
    List.findSome?_append, List.findSome?_eq_none_iff.mpr hd, Option.none_or, List.findSome?_cons,
    h.defines]

end Layout

/-- A function that carries the tool decorator is found under its name, and it is left unwrapped iff
nothing but decorators, each on one line, stands between its tool decorator and its header. -/
theorem scan_of_toolLayout {code f : String} {above decoration body : List (List Char)} {header : List Char}
    (h : IsToolLayout (pieces (dedentChars code.toList)) above decoration header body f)
    (b : Blueprint) (id : String) :
    (scan code).function = some f ∧ ((scan code).decorated = true ↔ Reaches decoration) ∧
      (Reaches decoration → b.customToolCode id f (scan code) = .ok [.definition f (dedent code)]) ∧
      (¬ Reaches decoration →
        b.customToolCode id f (scan code) = .ok [.definition f (dedent code), .decorate f]) := by
  by_cases hr : Reaches decoration
  · have hs : scan code = ⟨some f, true, dedent code⟩ := by
      unfold scan
      simp only [h.toolName?_eq, toolName?_of_reaches h.between h.header_defines hr]
      rfl
    rw [hs]
    exact ⟨rfl, ⟨fun _ => hr, fun _ => rfl⟩, fun _ => rfl, fun hn => absurd hr hn⟩
  · have ht : toolName? (pieces (dedentChars code.toList)) = none := by
      rw [h.toolName?_eq, toolName?_of_not_reaches h.between h.header_defines hr,
        toolName?_of_alone h.body_alone]
    have hs : scan code = ⟨some f, false, dedent code⟩ := by
      unfold scan
      simp only [ht, h.plainName?_eq]
      rfl
    rw [hs]
    exact ⟨rfl, ⟨fun hd => (by cases hd), fun hr' => absurd hr' hr⟩, fun hr' => absurd hr' hr, fun _ => rfl⟩

theorem scan_of_traced :
    let b := (Graph.index ⟨[], []⟩).blueprint none
    let decoration := ["@tool(name=\"f\")".toList, "@trace".toList]
    let code := "@tool(name=\"f\")\n@trace\nasync def f(x):\n    return x"
    IsToolLayout (pieces (dedentChars code.toList)) [] decoration "async def f(x):".toList
        ["    return x".toList] "f" ∧
      b.customToolCode "t" "f" (scan code) = .ok [.definition "f" (dedent code)] := by
  intro b decoration code
  have hr : Reaches decoration := ⟨[], _, [_], rfl, by decide, by decide⟩
  have hl : IsToolLayout (pieces (dedentChars code.toList)) [] decoration "async def f(x):".toList
      ["    return x".toList] "f" :=
    ⟨by decide, by decide, by decide, by decide, by decide, not_decorates_of_unmarked (by decide),
      not_decorates_of_unmarked (by decide)⟩
  exact ⟨hl, (scan_of_toolLayout hl b "t").2.2.1 hr⟩

/-- A comment below the tool decorator hides it. -/
theorem scan_of_commented :
    let b := (Graph.index ⟨[], []⟩).blueprint none
    let code := "@tool\n# Adds one.\ndef f(x):\n    return x + 1"
    IsToolLayout (pieces (dedentChars code.toList)) [] ["@tool".toList, "# Adds one.".toList]
        "def f(x):".toList ["    return x + 1".toList] "f" ∧
      (scan code).decorated = false ∧
      b.customToolCode "t" "f" (scan code) = .ok [.definition "f" (dedent code), .decorate "f"] := by
  refine ⟨⟨by decide, by decide, by decide, by decide, by decide, not_decorates_of_unmarked (by decide),
    not_decorates_of_unmarked (by decide)⟩, by decide, ?_⟩
  have hs : scan "@tool\n# Adds one.\ndef f(x):\n    return x + 1" =
      ⟨some "f", false, dedent "@tool\n# Adds one.\ndef f(x):\n    return x + 1"⟩ := by decide
  rw [hs]
  rfl

end AgentWorkflow.CustomCode

import AgentWorkflow.Program.Code
import AgentWorkflow.Proofs.Program.Literals
import AgentWorkflow.Text.Word
import Mathlib

/-!
The names that a text of a program uses.

They are the words of the text that do not stand inside literals. Main statement: literals use no names, so that a
text that is put together from literals, names and separators uses just the names.
-/

namespace AgentWorkflow

namespace Text

/-- Where a character of a program stands: in its code, in a literal, or behind a backslash in a literal. -/
inductive Region where
  | code
  | literal
  | escape
  deriving DecidableEq

/-- The region behind a character. -/
def Region.next : Region → Char → Region
  | .code, c => if c = '"' then .literal else .code
  | .literal, c => if c = '"' then .code else if c = '\\' then .escape else .literal
  | .escape, _ => .literal

/-- A text without what stands in literals. The quotes that open them stay. -/
def bareFrom : Region → List Char → List Char
  | _, [] => []
  | .code, c :: rest => c :: bareFrom (Region.next .code c) rest
  | region, c :: rest => bareFrom (region.next c) rest

def words (cs : List Char) : List (List Char) :=
  (cs.splitOnP fun c => !isWordChar c).filter (· ≠ [])

def names (s : String) : List String :=
  (words (bareFrom .code s.toList)).map .ofList

example : names "print(event[\"data\"], end=\"\")" = ["print", "event", "end"] := by decide

/-- All literals of a text are closed in it. -/
def IsClosed (s : String) : Prop :=
  s.toList.foldl Region.next .code = .code

instance (s : String) : Decidable (IsClosed s) :=
  inferInstanceAs (Decidable (_ = _))

/-- No word starts with a text. -/
def BeginsApart (s : String) : Prop :=
  s.toList.head?.any isWordChar = false

instance (s : String) : Decidable (BeginsApart s) :=
  inferInstanceAs (Decidable (_ = _))

/-- No word ends with a text. -/
def EndsApart (s : String) : Prop :=
  (bareFrom .code s.toList).getLast?.any isWordChar = false

instance (s : String) : Decidable (EndsApart s) :=
  inferInstanceAs (Decidable (_ = _))

/-- All characters of a text continue words. -/
def IsWord (s : String) : Prop :=
  ∀ c ∈ s.toList, isWordChar c = true

section Words

variable {a b : List Char} {c : Char} {region : Region}

theorem words_append_cons (h : isWordChar c = false) : words (a ++ c :: b) = words a ++ words b := by
  rw [words, List.splitOnP_append_cons _ _ (by simpa using h), List.filter_append]
  rfl

theorem words_cons (h : isWordChar c = false) : words (c :: b) = words b :=
  words_append_cons (a := []) h

theorem words_append_of_head (h : b.head?.any isWordChar = false) : words (a ++ b) = words a ++ words b := by
  cases b with
  | nil => simp [words]
  | cons c b =>
    have hc : isWordChar c = false := h
    rw [words_append_cons hc, words_cons hc]

theorem words_append_of_getLast (h : a.getLast?.any isWordChar = false) :
    words (a ++ b) = words a ++ words b := by
  rcases List.eq_nil_or_concat a with rfl | ⟨a, c, rfl⟩
  · rfl
  · have hc : isWordChar c = false := by simpa using h
    have hnil : words [] = [] := rfl
    rw [List.concat_append, List.concat_eq_append, words_append_cons hc, words_append_cons hc, hnil, List.append_nil]

theorem bareFrom_append (region : Region) (a b : List Char) :
    bareFrom region (a ++ b) = bareFrom region a ++ bareFrom (a.foldl Region.next region) b := by
  induction a generalizing region with
  | nil => cases region <;> rfl
  | cons c a ih => cases region <;> simp [bareFrom, ih]

theorem bareFrom_subset (region : Region) (cs : List Char) : bareFrom region cs ⊆ cs := by
  induction cs generalizing region with
  | nil => cases region <;> exact List.Subset.refl _
  | cons c cs ih =>
    cases region with
    | code => exact List.cons_subset_cons _ (ih _)
    | literal => exact List.subset_cons_of_subset _ (ih _)
    | escape => exact List.subset_cons_of_subset _ (ih _)

theorem head?_bareFrom_code (cs : List Char) : (bareFrom .code cs).head? = cs.head? := by
  cases cs <;> rfl

end Words

section Append

variable {s t : String}

theorem names_append (hs : IsClosed s) (h : EndsApart s ∨ BeginsApart t) : names (s ++ t) = names s ++ names t := by
  rw [names, String.toList_append, bareFrom_append, hs, names, names, ← List.map_append]
  congr 1
  rcases h with h | h
  · exact words_append_of_getLast h
  · apply words_append_of_head
    rwa [head?_bareFrom_code]

theorem IsClosed.append (hs : IsClosed s) (ht : IsClosed t) : IsClosed (s ++ t) := by
  rw [IsClosed, String.toList_append, List.foldl_append, hs, ht]

theorem BeginsApart.append (h : BeginsApart s) (hne : s ≠ "") : BeginsApart (s ++ t) := by
  rw [BeginsApart, String.toList_append, List.head?_append_of_ne_nil _ (by simpa using hne)]
  exact h

end Append

section Literals

/-- Within a literal, characters that do not end it. -/
def IsQuiet (cs : List Char) : Prop :=
  cs.foldl Region.next .literal = .literal ∧ bareFrom .literal cs = []

variable {cs : List Char}

theorem IsQuiet.flatMap {f : Char → List Char} (h : ∀ c ∈ cs, IsQuiet (f c)) : IsQuiet (cs.flatMap f) := by
  induction cs with
  | nil => exact ⟨rfl, rfl⟩
  | cons c cs ih =>
    obtain ⟨hc, hcs⟩ := List.forall_mem_cons.mp h
    obtain ⟨hregion, hbare⟩ := ih hcs
    constructor
    · rw [List.flatMap_cons, List.foldl_append, hc.1, hregion]
    · rw [List.flatMap_cons, bareFrom_append, hc.2, hc.1, hbare, List.nil_append]

theorem isQuiet_singleton {c : Char} (hquote : c ≠ '"') (hslash : c ≠ '\\') : IsQuiet [c] := by
  simp [IsQuiet, Region.next, bareFrom, hquote, hslash]

theorem isQuiet_escape (c : Char) : IsQuiet ['\\', c] :=
  ⟨rfl, rfl⟩

theorem isQuiet_escapedChar (c : Char) : IsQuiet (escapedChar c) := by
  rcases Literal.escapedChar_cases c with ⟨d, -, -, hc⟩ | ⟨hcontrol, hc⟩ | ⟨hquote, hslash, -, hc⟩
  · rw [hc]
    exact isQuiet_escape d
  · obtain ⟨hfirst, hfirst', -⟩ := Literal.hexDigit_isPlain (n := c.toNat / 16) (by omega)
    obtain ⟨hlast, hlast', -⟩ := Literal.hexDigit_isPlain (n := c.toNat % 16) (by omega)
    rw [hc]
    simp [IsQuiet, Region.next, bareFrom, hfirst, hfirst', hlast, hlast']
  · rw [hc]
    exact isQuiet_singleton hquote hslash

theorem isQuiet_tripleChar (c : Char) : IsQuiet (Literal.tripleChar c) := by
  unfold Literal.tripleChar
  split_ifs with h
  · exact isQuiet_escape c
  · push Not at h
    exact isQuiet_singleton h.1 h.2

/-- A literal: a text that is closed and of which only quotes stand outside. -/
def IsLiteral (cs : List Char) : Prop :=
  cs.foldl Region.next .code = .code ∧ ∀ c ∈ bareFrom .code cs, c = '"'

theorem isLiteral_escapedChars (cs : List Char) : IsLiteral (escapedChars cs) := by
  have hquiet : IsQuiet (cs.flatMap escapedChar) := .flatMap fun c _ => isQuiet_escapedChar c
  obtain ⟨hregion, hbare⟩ := hquiet
  constructor
  · simp [escapedChars, Region.next, hregion]
  · simp [escapedChars, Region.next, bareFrom, bareFrom_append, hregion, hbare]

theorem isLiteral_blockChars (cs : List Char) : IsLiteral (Literal.blockChars cs) := by
  have hquiet : IsQuiet (cs.flatMap Literal.tripleChar) := .flatMap fun c _ => isQuiet_tripleChar c
  obtain ⟨hregion, hbare⟩ := hquiet
  constructor
  · simp [Literal.blockChars, Region.next, hregion]
  · simp [Literal.blockChars, Region.next, bareFrom, bareFrom_append, hregion, hbare]

theorem words_eq_nil (h : ∀ c ∈ cs, isWordChar c = false) : words cs = [] := by
  induction cs with
  | nil => rfl
  | cons c cs ih =>
    obtain ⟨hc, hcs⟩ := List.forall_mem_cons.mp h
    rw [words_cons hc, ih hcs]

theorem IsLiteral.names_eq_nil (h : IsLiteral cs) : names (.ofList cs) = [] := by
  rw [names, String.toList_ofList, words_eq_nil, List.map_nil]
  intro c hc
  rw [h.2 c hc]
  decide

end Literals

section Names

variable {s x : String}

theorem region_of_no_quote {cs : List Char} (h : '"' ∉ cs) :
    cs.foldl Region.next .code = .code ∧ bareFrom .code cs = cs := by
  induction cs with
  | nil => exact ⟨rfl, rfl⟩
  | cons c cs ih =>
    obtain ⟨hc, hrest⟩ := not_or.mp (mt List.mem_cons.mpr h)
    obtain ⟨hregion, hbare⟩ := ih hrest
    have hnext : Region.next .code c = .code := if_neg (Ne.symm hc)
    constructor
    · rw [List.foldl_cons, hnext, hregion]
    · rw [bareFrom, hnext, hbare]

theorem isClosed_of_no_quote (h : '"' ∉ s.toList) : IsClosed s :=
  (region_of_no_quote h).1

theorem IsWord.no_quote (h : IsWord s) : '"' ∉ s.toList :=
  fun hmem => absurd (h _ hmem) (by decide)

theorem IsWord.names_eq (h : IsWord s) (hne : s ≠ "") : names s = [s] := by
  have hwords : words s.toList = [s.toList] := by
    rw [words, List.splitOnP_eq_singleton]
    · simpa using hne
    · simpa [IsWord] using h
  rw [names, (region_of_no_quote h.no_quote).2, hwords, List.map_singleton, String.ofList_toList]

theorem subset_of_mem_splitOnP {p : Char → Bool} {cs w : List Char} (h : w ∈ cs.splitOnP p) : w ⊆ cs := by
  induction cs generalizing w with
  | nil =>
    rw [List.splitOnP_nil] at h
    rw [List.mem_singleton.mp h]
    exact List.nil_subset _
  | cons c cs ih =>
    rw [List.splitOnP_cons_eq_if_modifyHead] at h
    split_ifs at h
    · rcases List.mem_cons.mp h with rfl | h
      · exact List.nil_subset _
      · exact List.subset_cons_of_subset c (ih h)
    · obtain ⟨first, rest, he⟩ := List.exists_cons_of_ne_nil (List.splitOnP_ne_nil p cs)
      rw [he] at h ih
      rcases List.mem_cons.mp h with rfl | h
      · exact List.cons_subset_cons c (ih List.mem_cons_self)
      · exact List.subset_cons_of_subset c (ih (List.mem_cons_of_mem _ h))

theorem toList_subset_of_mem_names (h : x ∈ names s) : x.toList ⊆ s.toList := by
  obtain ⟨w, hw, rfl⟩ := List.mem_map.mp h
  rw [String.toList_ofList]
  exact List.Subset.trans (subset_of_mem_splitOnP (List.mem_of_mem_filter hw)) (bareFrom_subset _ _)

end Names

end Text

namespace Binary64

/-- A character of a decimal text. -/
def IsDecimalChar (c : Char) : Prop :=
  c.isDigit = true ∨ c ∈ ['.', '-', '+', 'e']

instance (c : Char) : Decidable (IsDecimalChar c) :=
  inferInstanceAs (Decidable (_ ∨ _))

variable {style : DecimalStyle}

theorem isDecimalChar_toDigits (n : ℕ) : ∀ c ∈ Nat.toDigits 10 n, IsDecimalChar c :=
  fun _ hc => Or.inl (Nat.isDigit_of_mem_toDigits (by decide) (by decide) hc)

theorem isDecimalChar_replicate (n : ℕ) : ∀ c ∈ List.replicate n '0', IsDecimalChar c := by
  intro c hc
  rw [List.eq_of_mem_replicate hc]
  decide

theorem isDecimalChar_layout (digits : ℕ) (k : ℤ) : ∀ c ∈ layout style digits k, IsDecimalChar c := by
  have hdigits := isDecimalChar_toDigits digits
  have htake (n : ℕ) : ∀ c ∈ (Nat.toDigits 10 digits).take n, IsDecimalChar c :=
    fun c hc => hdigits c (List.mem_of_mem_take hc)
  have hdrop (n : ℕ) : ∀ c ∈ (Nat.toDigits 10 digits).drop n, IsDecimalChar c :=
    fun c hc => hdigits c (List.mem_of_mem_drop hc)
  have hpoint : IsDecimalChar '.' := by decide
  have hzero : IsDecimalChar '0' := by decide
  unfold layout
  dsimp only
  split
  · split_ifs <;> simp only [List.forall_mem_append, List.forall_mem_cons]
    · exact ⟨⟨hdigits, isDecimalChar_replicate _⟩, hpoint, hzero, by simp⟩
    · exact ⟨htake _, hpoint, hdrop _⟩
    · exact ⟨⟨hzero, hpoint, isDecimalChar_replicate _⟩, hdigits⟩
  · have hsign (p : ℤ) : ∀ c ∈ (if p < 0 then ['-'] else if style.plusSign then ['+'] else []), IsDecimalChar c := by
      split_ifs <;> simp [IsDecimalChar]
    have he : IsDecimalChar 'e' := by decide
    have hexponent (p : ℤ) := List.forall_mem_cons.mpr ⟨he, hsign p⟩
    refine List.forall_mem_append.mpr ⟨List.forall_mem_append.mpr ⟨?_, hexponent _⟩, isDecimalChar_toDigits _⟩
    refine List.forall_mem_append.mpr ⟨htake 1, ?_⟩
    split
    · simp
    · exact List.forall_mem_cons.mpr ⟨hpoint, hdrop 1⟩

theorem isDecimalChar_text {x : Binary64} (hx : x.isFinite = true) : ∀ c ∈ x.text style, IsDecimalChar c := by
  cases x with
  | finite negative mantissa exponent =>
    have hsign : ∀ c ∈ (if negative then ['-'] else []), IsDecimalChar c := by
      split_ifs <;> simp [IsDecimalChar]
    unfold text
    dsimp only
    split
    · exact List.forall_mem_append.mpr ⟨hsign, by simp [IsDecimalChar, Char.isDigit]⟩
    · exact List.forall_mem_append.mpr ⟨hsign, isDecimalChar_layout _ _⟩
  | infinite negative => cases hx
  | nan => cases hx

end Binary64

end AgentWorkflow

import AgentWorkflow.Json.Cursor
import AgentWorkflow.Program.Literal
import Mathlib

/-!
What the literals of a program stand for when the program is read.

A literal ends at the first quotes of the kind that opened it, and what stands between them is decoded escape by
escape. Main statements: every literal ends where it was meant to end, whatever the text in it; a literal on one line
stands for its text; a literal over several lines stands for its text with the line ends that a source can hold.
-/

namespace AgentWorkflow.Literal

open Text

/-- The inside of a literal up to the quotes that close it, and what follows them. Behind a backslash, nothing closes
it; a literal on one line has to be closed before the line ends. -/
def inside (closing : List Char) : List Char → Option (List Char × List Char)
  | [] => none
  | '\\' :: c :: rest => (inside closing rest).map (Prod.map ('\\' :: c :: ·) id)
  | c :: rest =>
    if closing.isPrefixOf (c :: rest) then some ([], (c :: rest).drop closing.length)
    else if c = '\n' ∧ closing.length = 1 then none
    else (inside closing rest).map (Prod.map (c :: ·) id)

/-- The inside of the literal that a text starts with, and what follows the literal. -/
def token? : List Char → Option (List Char × List Char)
  | [] => none
  | q :: rest =>
    if q = '"' ∨ q = '\x27' then
      if [q, q].isPrefixOf rest then inside [q, q, q] (rest.drop 2) else inside [q] rest
    else none

/-- What a backslash and one character stand for. -/
def letter? : Char → Option Char
  | '\\' => some '\\'
  | '\x27' => some '\x27'
  | '"' => some '"'
  | 'a' => some '\x07'
  | 'b' => some '\x08'
  | 'f' => some '\x0c'
  | 'n' => some '\n'
  | 'r' => some '\r'
  | 't' => some '\t'
  | 'v' => some '\x0b'
  | _ => none

/-- The character with a code; surrogates are no characters. -/
def charOf? (n : Nat) : Option Char :=
  if n.isValidChar then some (.ofNat n) else none

/-- An escape that gives a character by a number of hexadecimal digits. -/
def coded? (width : Nat) (cs : List Char) : Option (List Char × Nat) := do
  let digits ← (cs.take width).mapM Json.Cursor.hexValue?
  if digits.length = width then
    let c ← charOf? (digits.foldl (16 * · + ·) 0)
    return ([c], width + 1)
  else none

def isOctal (c : Char) : Bool :=
  '0' ≤ c && c ≤ '7'

/-- An escape that gives a character by up to three octal digits. -/
def octal? (cs : List Char) : Option (List Char × Nat) := do
  let digits := (cs.take 3).takeWhile isOctal
  let c ← charOf? (digits.foldl (fun n d => 8 * n + (d.toNat - '0'.toNat)) 0)
  return ([c], digits.length)

section Reading

/- The characters that have names. -/
variable (named : List Char → Option Char)

/-- An escape that gives a character by its name in braces. -/
def byName? : List Char → Option (List Char × Nat)
  | '{' :: rest =>
    let name := rest.takeWhile (· ≠ '}')
    if name.length < rest.length then (named name).map fun c => ([c], name.length + 3) else none
  | _ => none

/-- The escape of which a text stands behind the backslash: what it stands for, and how many characters of the text
belong to it. A backslash that starts no escape stands for itself. -/
def escape? : List Char → Option (List Char × Nat)
  | [] => none
  | '\n' :: _ => some ([], 1)
  | 'x' :: rest => coded? 2 rest
  | 'u' :: rest => coded? 4 rest
  | 'U' :: rest => coded? 8 rest
  | 'N' :: rest => byName? named rest
  | c :: rest =>
    if isOctal c then octal? (c :: rest)
    else
      match letter? c with
      | some value => some ([value], 1)
      | none => some (['\\', c], 1)

/-- What the inside of a literal stands for, some characters of which belong to an escape already read. -/
def decodeFrom : Nat → List Char → Option (List Char)
  | _, [] => some []
  | n + 1, _ :: rest => decodeFrom n rest
  | 0, c :: rest =>
    if c = '\\' then do
      let (value, length) ← escape? named rest
      return value ++ (← decodeFrom length rest)
    else (decodeFrom 0 rest).map (c :: ·)

def decode (cs : List Char) : Option (List Char) :=
  decodeFrom named 0 cs

/-- The literal that a text starts with, decoded, and what follows it. -/
def literal? (cs : List Char) : Option (List Char × List Char) := do
  let (body, rest) ← token? cs
  return (← decode named body, rest)

end Reading

/-- A text with a line feed at the end of each line: a line of a source may end with a carriage return, a line feed or
both. -/
def unified : List Char → List Char
  | [] => []
  | '\r' :: '\n' :: rest => '\n' :: unified rest
  | '\r' :: rest => '\n' :: unified rest
  | c :: rest => c :: unified rest

/-- The text of a source as it is read. A source with a NUL is refused. -/
def source? (cs : List Char) : Option (List Char) :=
  if '\x00' ∈ cs then none else some (unified cs)

/-- What a source stands for that is one literal. -/
def value? (named : List Char → Option Char) (s : String) : Option String := do
  let cs ← source? s.toList
  let (value, rest) ← literal? named cs
  if rest = [] then return .ofList value else none

/-- A text is one literal, whatever stands behind it; only another quote could be taken for a part of it. -/
def IsToken (s : String) : Prop :=
  ∃ body, ∀ rest : List Char, rest.head? ≠ some '"' → token? (s.toList ++ rest) = some (body, rest)

theorem escapedChar_cases (c : Char) :
    (∃ d ∈ ['"', '\\', 'b', 'f', 'n', 'r', 't'], letter? d = some c ∧ escapedChar c = ['\\', d]) ∨
      (c.toNat < 32 ∧ escapedChar c = ['\\', 'u', '0', '0', hexDigit (c.toNat / 16), hexDigit (c.toNat % 16)]) ∨
      (c ≠ '"' ∧ c ≠ '\\' ∧ 32 ≤ c.toNat ∧ escapedChar c = [c]) := by
  unfold escapedChar
  split
  case h_8 hquote hslash _ _ _ _ _ =>
    split_ifs with hc
    · exact Or.inr (Or.inl ⟨hc, rfl⟩)
    · exact Or.inr (Or.inr ⟨hquote, hslash, by omega, rfl⟩)
  all_goals exact Or.inl ⟨_, by simp, rfl, rfl⟩

theorem hexDigit_isPlain {n : ℕ} (h : n < 16) :
    hexDigit n ≠ '"' ∧ hexDigit n ≠ '\\' ∧ 32 ≤ (hexDigit n).toNat := by
  decide +revert

theorem le_escapedChar (c : Char) : ∀ d ∈ escapedChar c, 32 ≤ d.toNat := by
  intro d hd
  rcases escapedChar_cases c with ⟨e, he, -, hc⟩ | ⟨hcontrol, hc⟩ | ⟨-, -, hle, hc⟩
  · rw [hc] at hd
    have hmem : d ∈ ['\\', '"', '\\', 'b', 'f', 'n', 'r', 't'] := by
      rcases List.mem_pair.mp hd with rfl | rfl
      · exact List.mem_cons_self
      · exact List.mem_cons_of_mem _ he
    have hall : ∀ x ∈ ['\\', '"', '\\', 'b', 'f', 'n', 'r', 't'], 32 ≤ x.toNat := by simp
    exact hall d hmem
  · obtain ⟨-, -, hfirst⟩ := hexDigit_isPlain (n := c.toNat / 16) (by omega)
    obtain ⟨-, -, hlast⟩ := hexDigit_isPlain (n := c.toNat % 16) (by omega)
    rw [hc] at hd
    simp only [List.mem_cons, List.not_mem_nil, or_false] at hd
    rcases hd with rfl | rfl | rfl | rfl | rfl | rfl
    · decide
    · decide
    · decide
    · decide
    · exact hfirst
    · exact hlast
  · rw [hc] at hd
    rw [List.mem_singleton.mp hd]
    exact hle

theorem le_escapedChars (cs : List Char) : ∀ d ∈ escapedChars cs, 32 ≤ d.toNat := by
  intro d hd
  have hquote : 32 ≤ '"'.toNat := by decide
  simp only [escapedChars, List.cons_append, List.mem_cons, List.mem_append, List.mem_flatMap, List.not_mem_nil,
    or_false] at hd
  rcases hd with rfl | ⟨c, -, hc⟩ | rfl
  · exact hquote
  · exact le_escapedChar c d hc
  · exact hquote

section Tokens

/-- Characters inside a literal that do not close it. -/
def Stays (closing cs : List Char) : Prop :=
  ∀ tail, inside closing (cs ++ tail) = (inside closing tail).map (Prod.map (cs ++ ·) id)

variable {closing more cs ds : List Char} {c : Char}

theorem Stays.append (hc : Stays closing cs) (hd : Stays closing ds) : Stays closing (cs ++ ds) := by
  intro tail
  rw [List.append_assoc, hc, hd, Option.map_map]
  congr 1
  funext p
  exact congrArg (·, p.2) (List.append_assoc cs ds p.1).symm

theorem Stays.flatMap {f : Char → List Char} (h : ∀ c ∈ cs, Stays closing (f c)) :
    Stays closing (cs.flatMap f) := by
  induction cs with
  | nil =>
    intro tail
    exact (Option.map_id_apply (x := inside closing tail)).symm
  | cons c cs ih =>
    obtain ⟨hc, hcs⟩ := List.forall_mem_cons.mp h
    rw [List.flatMap_cons]
    exact hc.append (ih hcs)

theorem stays_escape (c : Char) : Stays closing ['\\', c] :=
  fun _ => rfl

theorem stays_singleton (hquote : c ≠ '"') (hslash : c ≠ '\\') (hbreak : more = [] → c ≠ '\n') :
    Stays ('"' :: more) [c] := by
  intro tail
  have hother : ('"' == c) = false := beq_eq_false_iff_ne.mpr (Ne.symm hquote)
  have hline : ¬(c = '\n' ∧ ('"' :: more).length = 1) := by
    rintro ⟨hc, hlength⟩
    exact hbreak (by simpa using hlength) hc
  rw [List.singleton_append, inside.eq_def]
  split
  case h_1 he => cases he
  case h_2 he =>
    rw [List.cons.injEq] at he
    exact absurd he.1 hslash
  case h_3 he =>
    cases he
    rw [List.isPrefixOf, hother, Bool.false_and, if_neg Bool.false_ne_true, if_neg hline]
    rfl

theorem stays_escapedChar (c : Char) : Stays ('"' :: more) (escapedChar c) := by
  have hplain {d : Char} (hquote : d ≠ '"') (hslash : d ≠ '\\') (hle : 32 ≤ d.toNat) :
      Stays ('"' :: more) [d] := by
    apply stays_singleton hquote hslash
    rintro - rfl
    exact absurd hle (by decide)
  rcases escapedChar_cases c with ⟨e, -, -, hc⟩ | ⟨hcontrol, hc⟩ | ⟨hquote, hslash, hle, hc⟩
  · rw [hc]
    exact stays_escape e
  · have hdigit {n : ℕ} (h : n < 16) : Stays ('"' :: more) [hexDigit n] := by
      obtain ⟨hquote, hslash, hle⟩ := hexDigit_isPlain h
      exact hplain hquote hslash hle
    have hzero : Stays ('"' :: more) ['0'] := hplain (by decide) (by decide) (by decide)
    have hfirst := hdigit (n := c.toNat / 16) (by omega)
    have hlast := hdigit (n := c.toNat % 16) (by omega)
    rw [hc]
    exact (stays_escape 'u').append (hzero.append (hzero.append (hfirst.append hlast)))
  · rw [hc]
    exact hplain hquote hslash hle

theorem stays_tripleChar (c : Char) : Stays ['"', '"', '"'] (tripleChar c) := by
  unfold tripleChar
  split_ifs with h
  · exact stays_escape c
  · obtain ⟨hquote, hslash⟩ := not_or.mp h
    exact stays_singleton hquote hslash (by simp)

theorem head?_escapedChar (c : Char) : ∃ d ds, escapedChar c = d :: ds ∧ d ≠ '"' := by
  rcases escapedChar_cases c with ⟨e, -, -, hc⟩ | ⟨-, hc⟩ | ⟨hquote, -, -, hc⟩
  · exact ⟨_, _, hc, by decide⟩
  · exact ⟨_, _, hc, by decide⟩
  · exact ⟨_, _, hc, hquote⟩

theorem token?_escapedChars (cs : List Char) {rest : List Char} (h : rest.head? ≠ some '"') :
    token? (escapedChars cs ++ rest) = some (cs.flatMap escapedChar, rest) := by
  have hclose : inside ['"'] ('"' :: rest) = some ([], rest) := rfl
  have hinside : inside ['"'] (cs.flatMap escapedChar ++ '"' :: rest) = some (cs.flatMap escapedChar, rest) := by
    have hstays : Stays ['"'] (cs.flatMap escapedChar) := .flatMap fun c _ => stays_escapedChar c
    rw [hstays, hclose]
    simp
  -- An empty text leaves two quotes, to which only a third could be added.
  have hopen : ['"', '"'].isPrefixOf (cs.flatMap escapedChar ++ '"' :: rest) = false := by
    cases cs with
    | nil =>
      cases rest with
      | nil => rfl
      | cons r rest =>
        have hr : r ≠ '"' := by simpa using h
        simp [List.isPrefixOf, Ne.symm hr]
    | cons c cs =>
      obtain ⟨d, ds, hc, hd⟩ := head?_escapedChar c
      simp [hc, List.isPrefixOf, Ne.symm hd]
  have htext : escapedChars cs ++ rest = '"' :: (cs.flatMap escapedChar ++ '"' :: rest) := by
    simp [escapedChars]
  rw [htext, token?, if_pos (Or.inl rfl), hopen, if_neg Bool.false_ne_true, hinside]

theorem token?_blockChars (cs rest : List Char) :
    token? (blockChars cs ++ rest) = some (cs.flatMap tripleChar, rest) := by
  have hclose : inside ['"', '"', '"'] ('"' :: '"' :: '"' :: rest) = some ([], rest) := rfl
  have hstays : Stays ['"', '"', '"'] (cs.flatMap tripleChar) := .flatMap fun c _ => stays_tripleChar c
  have htext : blockChars cs ++ rest = '"' :: '"' :: '"' :: (cs.flatMap tripleChar ++ '"' :: '"' :: '"' :: rest) := by
    simp [blockChars]
  have hopen : ['"', '"'].isPrefixOf ('"' :: '"' :: (cs.flatMap tripleChar ++ '"' :: '"' :: '"' :: rest)) = true := by
    simp [List.isPrefixOf]
  rw [htext, token?, if_pos (Or.inl rfl), if_pos hopen, List.drop_succ_cons, List.drop_succ_cons, List.drop_zero,
    hstays, hclose]
  simp

end Tokens

section Values

variable (named : List Char → Option Char)

/-- Inside a literal, characters that stand for others whatever follows. -/
def Gives (cs value : List Char) : Prop :=
  ∀ tail, decodeFrom named 0 (cs ++ tail) = (decodeFrom named 0 tail).map (value ++ ·)

variable {named} {cs : List Char} {c d : Char}

theorem Gives.decode_flatMap {f : Char → List Char} (h : ∀ c, Gives named (f c) [c]) (cs : List Char) :
    decode named (cs.flatMap f) = some cs := by
  induction cs with
  | nil => rfl
  | cons c cs ih =>
    rw [decode] at ih
    rw [List.flatMap_cons, decode, h c, ih]
    rfl

theorem gives_letter (hd : d ∈ ['"', '\\', 'b', 'f', 'n', 'r', 't']) (h : letter? d = some c) :
    Gives named ['\\', d] [c] := by
  intro tail
  have hescape : escape? named (d :: tail) = some ([c], 1) := by
    simp only [List.mem_cons, List.not_mem_nil, or_false] at hd
    rcases hd with rfl | rfl | rfl | rfl | rfl | rfl | rfl
    all_goals
      obtain rfl := Option.some.inj h
      rfl
  rw [List.cons_append, List.singleton_append, decodeFrom, if_pos rfl, hescape]
  cases hrest : decodeFrom named 0 tail <;> simp [decodeFrom, hrest]

theorem coded?_control : ∀ n < 32,
    coded? 4 ['0', '0', hexDigit (n / 16), hexDigit (n % 16)] = some ([.ofNat n], 5) := by
  decide

theorem gives_control (h : c.toNat < 32) :
    Gives named ['\\', 'u', '0', '0', hexDigit (c.toNat / 16), hexDigit (c.toNat % 16)] [c] := by
  intro tail
  have hcode := coded?_control c.toNat h
  rw [Char.ofNat_toNat] at hcode
  have hescape : escape? named ('u' :: '0' :: '0' :: hexDigit (c.toNat / 16) :: hexDigit (c.toNat % 16) :: tail) =
      some ([c], 5) := hcode
  simp only [List.cons_append, List.nil_append]
  rw [decodeFrom, if_pos rfl, hescape]
  cases hrest : decodeFrom named 0 tail <;> simp [decodeFrom, hrest]

theorem gives_self (h : c ≠ '\\') : Gives named [c] [c] := by
  intro tail
  rw [List.singleton_append, decodeFrom, if_neg h]
  rfl

theorem gives_escapedChar (c : Char) : Gives named (escapedChar c) [c] := by
  rcases escapedChar_cases c with ⟨d, hd, hletter, hc⟩ | ⟨hcontrol, hc⟩ | ⟨-, hslash, -, hc⟩
  · rw [hc]
    exact gives_letter hd hletter
  · rw [hc]
    exact gives_control hcontrol
  · rw [hc]
    exact gives_self hslash

theorem gives_tripleChar (c : Char) : Gives named (tripleChar c) [c] := by
  unfold tripleChar
  split_ifs with h
  · rcases h with rfl | rfl
    · exact gives_letter (by simp) rfl
    · exact gives_letter (by simp) rfl
  · exact gives_self fun hc => h (Or.inr hc)

theorem literal?_escapedChars (cs rest : List Char) (h : rest.head? ≠ some '"') :
    literal? named (escapedChars cs ++ rest) = some (cs, rest) := by
  rw [literal?, token?_escapedChars cs h]
  simp [Gives.decode_flatMap gives_escapedChar]

theorem literal?_blockChars (cs rest : List Char) : literal? named (blockChars cs ++ rest) = some (cs, rest) := by
  rw [literal?, token?_blockChars]
  simp [Gives.decode_flatMap gives_tripleChar]

end Values

section Sources

variable {cs tail : List Char}

theorem unified_return (h : tail.head? ≠ some '\n') : unified ('\r' :: tail) = '\n' :: unified tail := by
  cases tail with
  | nil => rfl
  | cons c tail =>
    have hc : c ≠ '\n' := by simpa using h
    rw [unified]
    simpa using hc

theorem unified_cons {c : Char} (h : c ≠ '\r') : unified (c :: tail) = c :: unified tail := by
  rw [unified]
  · rintro _ rfl
    exact absurd rfl h
  · exact h

theorem unified_eq_self (h : '\r' ∉ cs) : unified cs = cs := by
  induction cs with
  | nil => rfl
  | cons c cs ih =>
    obtain ⟨hc, hcs⟩ := not_or.mp (mt List.mem_cons.mpr h)
    rw [unified_cons (Ne.symm hc), ih hcs]

theorem return_not_mem_unified (cs : List Char) : '\r' ∉ unified cs := by
  fun_induction unified cs with
  | case1 => exact List.not_mem_nil
  | case2 rest ih => simpa using ih
  | case3 rest _ ih => simpa using ih
  | case4 c rest _ hc ih => simpa using ⟨Ne.symm hc, ih⟩

theorem unified_flatMap (cs tail : List Char) (h : tail.head? ≠ some '\n') :
    unified (cs.flatMap tripleChar ++ tail) = (unified cs).flatMap tripleChar ++ unified tail := by
  have hbreak : tripleChar '\n' = ['\n'] := rfl
  have hreturn : tripleChar '\r' = ['\r'] := rfl
  fun_induction unified cs with
  | case1 => rfl
  | case2 rest ih => simp [hbreak, hreturn, unified, ih]
  | case3 rest hrest ih =>
    have hhead : (rest.flatMap tripleChar ++ tail).head? ≠ some '\n' := by
      cases rest with
      | nil => exact h
      | cons c rest =>
        have hc : c ≠ '\n' := fun hc => hrest rest (by rw [hc])
        unfold tripleChar
        by_cases hescaped : c = '"' ∨ c = '\\' <;> simp [hescaped, hc]
    rw [List.flatMap_cons, hreturn, List.append_assoc, List.singleton_append, unified_return hhead, ih,
      List.flatMap_cons, hbreak]
    rfl
  | case4 c rest _ hc ih =>
    rw [List.flatMap_cons, List.flatMap_cons, List.append_assoc, List.append_assoc, ← ih]
    unfold tripleChar
    split_ifs
    · exact (unified_cons (by decide)).trans (congrArg _ (unified_cons hc))
    · exact unified_cons hc

theorem source?_escapedChars (cs : List Char) : source? (escapedChars cs) = some (escapedChars cs) := by
  have hle := le_escapedChars cs
  have hnul : '\x00' ∉ escapedChars cs := fun h => absurd (hle _ h) (by decide)
  have hreturn : '\r' ∉ escapedChars cs := fun h => absurd (hle _ h) (by decide)
  rw [source?, if_neg hnul, unified_eq_self hreturn]

theorem source?_blockChars (cs : List Char) : source? (blockChars cs) = (source? cs).map blockChars := by
  have hnul : '\x00' ∈ blockChars cs ↔ '\x00' ∈ cs := by
    have hmem (c : Char) : '\x00' ∈ tripleChar c ↔ '\x00' = c := by
      unfold tripleChar
      split_ifs <;> simp
    simp [blockChars, hmem]
  have hunified : unified (blockChars cs) = blockChars (unified cs) := by
    have hinner := unified_flatMap cs ['"', '"', '"'] (by decide)
    simp only [blockChars, List.cons_append, List.nil_append]
    rw [unified_cons (by decide), unified_cons (by decide), unified_cons (by decide), hinner]
    rfl
  by_cases h : '\x00' ∈ cs
  · rw [source?, source?, if_pos h, if_pos (hnul.mpr h)]
    rfl
  · rw [source?, source?, if_neg h, if_neg (mt hnul.mp h), hunified]
    rfl

theorem source?_map_eq_some_iff (cs : List Char) :
    (source? cs).map String.ofList = some (.ofList cs) ↔ '\r' ∉ cs ∧ '\x00' ∉ cs := by
  by_cases hnul : '\x00' ∈ cs
  · simp [source?, hnul]
  · constructor
    · intro h
      have hunified : unified cs = cs := String.ofList_injective (by simpa [source?, hnul] using h)
      exact ⟨hunified ▸ return_not_mem_unified cs, hnul⟩
    · rintro ⟨hreturn, -⟩
      simp [source?, hnul, unified_eq_self hreturn]

variable {named : List Char → Option Char}

theorem value?_escaped (s : String) : value? named (escaped s) = some s := by
  have hliteral : literal? named (escapedChars s.toList) = some (s.toList, []) := by
    simpa using literal?_escapedChars s.toList [] (by simp)
  simp [value?, escaped, source?_escapedChars, hliteral]

theorem value?_blockChars (cs : List Char) :
    value? named (.ofList (blockChars cs)) = (source? cs).map .ofList := by
  have hliteral (cs : List Char) : literal? named (blockChars cs) = some (cs, []) := by
    simpa using literal?_blockChars cs []
  rw [value?, String.toList_ofList, source?_blockChars]
  cases source? cs with
  | none => rfl
  | some ds => simp [hliteral]

end Sources

theorem isToken_escapedChars (cs : List Char) : IsToken (.ofList (escapedChars cs)) := by
  refine ⟨cs.flatMap escapedChar, fun rest hrest => ?_⟩
  rw [String.toList_ofList]
  exact token?_escapedChars cs hrest

theorem isToken_blockChars (cs : List Char) : IsToken (.ofList (blockChars cs)) := by
  refine ⟨cs.flatMap tripleChar, fun rest _ => ?_⟩
  rw [String.toList_ofList]
  exact token?_blockChars cs rest

/-- No text gets out of its literal: each literal is one token, and what follows it is not part of it. A literal on one
line stands for its text and has no line end inside. -/
theorem tokens_and_line_value (named : List Char → Option Char) (s : String) :
    IsToken (line s) ∧ IsToken (text s) ∧ IsToken (docstring s) ∧ value? named (line s) = some s ∧
      '\n' ∉ (line s).toList ∧ '\r' ∉ (line s).toList := by
  have htext : IsToken (text s) := by
    unfold text
    split_ifs
    · exact isToken_blockChars _
    · exact isToken_escapedChars _
  have hle : ∀ d ∈ (line s).toList, 32 ≤ d.toNat := by
    rw [line, escaped, String.toList_ofList]
    exact le_escapedChars s.toList
  refine ⟨isToken_escapedChars _, htext, isToken_blockChars _, value?_escaped s, ?_, ?_⟩
  · exact fun h => absurd (hle _ h) (by decide)
  · exact fun h => absurd (hle _ h) (by decide)

/-- A literal over several lines stands for its text as a source holds it, so that carriage returns are lost and a NUL
leaves no program. It stands for the text itself just when there is neither. -/
theorem text_and_docstring_values (named : List Char → Option Char) (s : String) :
    value? named (text s) = (if '\n' ∈ s.toList then (source? s.toList).map .ofList else some s) ∧
      (value? named (text s) = some s ↔ '\n' ∉ s.toList ∨ '\r' ∉ s.toList ∧ '\x00' ∉ s.toList) ∧
      value? named (docstring s) = (source? (trim s).toList).map .ofList ∧
      (value? named (docstring s) = some (trim s) ↔ '\r' ∉ (trim s).toList ∧ '\x00' ∉ (trim s).toList) := by
  have hkept := source?_map_eq_some_iff s.toList
  have htrimmed := source?_map_eq_some_iff (trim s).toList
  rw [String.ofList_toList] at hkept htrimmed
  have htext : value? named (text s) = if '\n' ∈ s.toList then (source? s.toList).map .ofList else some s := by
    unfold text
    by_cases hbreak : '\n' ∈ s.toList
    · rw [if_pos hbreak, if_pos (List.contains_iff_mem.mpr hbreak), value?_blockChars]
    · rw [if_neg hbreak, if_neg (mt List.contains_iff_mem.mp hbreak)]
      exact value?_escaped s
  have hdocstring : value? named (docstring s) = (source? (trim s).toList).map .ofList := by
    rw [docstring, value?_blockChars, trim, String.toList_ofList]
  refine ⟨htext, ?_, hdocstring, ?_⟩
  · rw [htext]
    by_cases hbreak : '\n' ∈ s.toList
    · simpa [hbreak] using hkept
    · simp [hbreak]
  · rw [hdocstring]
    exact htrimmed

/-- A carriage return at the end of a line is not part of the value, and a NUL leaves none. -/
theorem return_lost_nul_refused :
    value? (fun _ => none) (text "one\r\ntwo") = some "one\ntwo" ∧
      value? (fun _ => none) (docstring "one\rtwo") = some "one\ntwo" ∧
      value? (fun _ => none) (text "one\n\x00") = none := by
  decide

end AgentWorkflow.Literal

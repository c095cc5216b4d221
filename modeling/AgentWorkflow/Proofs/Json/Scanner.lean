import AgentWorkflow.Json.Printer
import AgentWorkflow.Json.Reader
import Mathlib

/-!
Scanning blanks, words and strings up to their ends, whatever follows them. Where they stand in the text makes no
difference, so positions are left open throughout.
-/

namespace AgentWorkflow.Json

/-- The characters that may stand between the tokens of a text. -/
abbrev IsSpace (c : Char) : Prop := c = ' ' ∨ c = '\n' ∨ c = '\t' ∨ c = '\r'

namespace Cursor

theorem toToken_append (ws cs : List Char) (p : Position) (hws : ∀ c ∈ ws, IsSpace c)
    (hcs : ∀ c ∈ cs.head?, ¬IsSpace c) : ∃ q, toToken ⟨ws ++ cs, p⟩ = ⟨cs, q⟩ := by
  change ∃ q, skipBlanks (ws ++ cs) p = ⟨cs, q⟩
  induction ws generalizing p with
  | nil =>
    cases cs with
    | nil => exact ⟨p, rfl⟩
    | cons c tail =>
      have hc : ¬IsSpace c := hcs c rfl
      exact ⟨p, if_neg hc⟩
  | cons w ws ih =>
    have hw : IsSpace w := hws w List.mem_cons_self
    obtain ⟨q, hq⟩ := ih (p.after w) fun c hc => hws c (List.mem_cons_of_mem w hc)
    exact ⟨q, (if_pos hw).trans hq⟩

theorem word_append (letters rest : List Char) (p : Position) :
    ∃ q, word letters ⟨letters ++ rest, p⟩ = .ok ⟨rest, q⟩ := by
  induction letters generalizing p with
  | nil => exact ⟨p, rfl⟩
  | cons w more ih =>
    obtain ⟨q, hq⟩ := ih (peekPosition ⟨w :: (more ++ rest), p⟩)
    exact ⟨q, by simpa [word, advance] using hq⟩

section Strings

theorem hexUnit?_control : ∀ n < 32,
    hexUnit? ['0', '0', Text.hexDigit (n / 16), Text.hexDigit (n % 16)] = some n := by
  decide

theorem string_escapedChar (c : Char) (tail : List Char) (p : Position) (read : List Char) :
    ∃ q, string (Text.escapedChar c ++ tail) p none read none = string tail q none (c :: read) none := by
  unfold Text.escapedChar
  split
  case h_8 =>
    split_ifs with hc
    · have hunit := hexUnit?_control c.toNat hc
      have htrail : isTrailing c.toNat = false := by simp [isTrailing]; omega
      have hlead : isLeading c.toNat = false := by simp [isLeading]; omega
      refine ⟨⟨p.line, p.column + 6⟩, ?_⟩
      simp [string, hunit, htrail, hlead, Char.ofNat_toNat]
    · refine ⟨p.after c, ?_⟩
      rw [List.singleton_append, string.eq_def]
      split <;> simp_all
  all_goals exact ⟨⟨p.line, p.column + 2⟩, by simp [string, escaped?]⟩

theorem string_escaped (cs tail : List Char) (p : Position) (read : List Char) :
    ∃ q, string (cs.flatMap Text.escapedChar ++ '"' :: tail) p none read none =
      .ok (.ofList (read.reverse ++ cs), none, ⟨tail, q⟩) := by
  induction cs generalizing p read with
  | nil => exact ⟨p.after '"', by simp [string]⟩
  | cons c cs ih =>
    obtain ⟨q, hq⟩ := string_escapedChar c (cs.flatMap Text.escapedChar ++ '"' :: tail) p read
    obtain ⟨q', hq'⟩ := ih q (c :: read)
    refine ⟨q', ?_⟩
    rw [List.flatMap_cons, List.append_assoc, hq, hq']
    simp

theorem string_escapedChars (s : String) (tail : List Char) (p q : Position) :
    ∃ q', string (advance ⟨Text.escapedChars s.toList ++ tail, p⟩).rest q none [] none = .ok (s, none, ⟨tail, q'⟩) := by
  obtain ⟨q', hq'⟩ := string_escaped s.toList tail q []
  refine ⟨q', ?_⟩
  simpa [Text.escapedChars, advance] using hq'

end Strings

end Cursor

end AgentWorkflow.Json

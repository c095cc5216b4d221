import AgentWorkflow.Naming.Identifier
import AgentWorkflow.Naming.Role
import Mathlib

/-!
The form of identifiers.

Main statements: the identifier of a label is made of lower-case letters, digits and underscores, starts
with a letter and is no keyword; a name determines the identifier and the role that it is made of.
-/

namespace AgentWorkflow

namespace Text

theorem dropTail_initial (p : Char → Bool) (cs : List Char) : dropTail p cs <+: cs := by
  have h := (List.dropWhile_suffix p (l := cs.reverse)).reverse
  rwa [List.reverse_reverse] at h

theorem dropEnds_sublist (p : Char → Bool) (cs : List Char) : (dropEnds p cs).Sublist cs :=
  (dropTail_initial p _).sublist.trans (List.dropWhile_sublist p)

theorem head?_dropEnds {p : Char → Bool} {cs : List Char} {c : Char}
    (h : (dropEnds p cs).head? = some c) : p c = false := by
  obtain ⟨tail, ht⟩ := dropTail_initial p (cs.dropWhile p)
  have hw : (cs.dropWhile p).head? = some c := by
    rw [← ht, List.head?_append]
    unfold dropEnds at h
    simp [h]
  have hn := List.head?_dropWhile_not p cs
  rwa [hw] at hn

end Text

namespace Identifier

open Text

/-- A character of an identifier: a lower-case letter, a digit or an underscore. -/
def isPlainChar (c : Char) : Bool :=
  c.isLower || c.isDigit || c == '_'

/-- A text of lower-case letters, digits and underscores that starts with a letter. -/
def IsPlain (s : String) : Prop :=
  (∃ c, s.toList.head? = some c ∧ c.isLower = true) ∧ ∀ c ∈ s.toList, isPlainChar c = true

theorem IsPlain.append {s t : String} (hs : IsPlain s) (ht : ∀ c ∈ t.toList, isPlainChar c = true) :
    IsPlain (s ++ t) := by
  obtain ⟨⟨c, hc, hl⟩, ha⟩ := hs
  refine ⟨⟨c, by simp [String.toList_append, List.head?_append, hc], hl⟩, fun d hd => ?_⟩
  rw [String.toList_append, List.mem_append] at hd
  exact hd.elim (ha d) (ht d)

theorem IsPlain.append_underscore {s t : String} (hs : IsPlain s)
    (ht : ∀ c ∈ t.toList, isPlainChar c = true) : IsPlain (s ++ "_" ++ t) :=
  (hs.append (List.all_eq_true.mp (by decide : "_".toList.all isPlainChar = true))).append ht

theorem toLower_isUpper (c : Char) : c.toLower.isUpper = false := by
  unfold Char.toLower
  split
  · rename_i h
    obtain ⟨hl, hu⟩ := h
    have hl' : 65 ≤ c.val.toNat := by simpa [UInt32.le_iff_toNat_le] using hl
    have hu' : c.val.toNat ≤ 90 := by simpa [UInt32.le_iff_toNat_le] using hu
    have hd : ('a'.val - 'A'.val).toNat = 32 := rfl
    have hz : 'Z'.val.toNat = 90 := rfl
    simp only [Char.isUpper, ge_iff_le, decide_eq_false_iff_not, UInt32.le_iff_toNat_le, UInt32.toNat_add]
    omega
  · rename_i h
    simpa [Char.isUpper] using h

theorem lowerChar_isUpper {c d : Char} (h : d ∈ lowerChar c) : d.isUpper = false := by
  unfold lowerChar at h
  split_ifs at h
  · obtain rfl : d = 'k' := by simpa using h
    decide
  · obtain rfl | rfl : d = 'i' ∨ d = '\u0307' := by simpa using h
    all_goals decide
  · obtain rfl : d = c.toLower := by simpa using h
    exact toLower_isUpper c

theorem identChar_plain {c : Char} (h : c.isUpper = false) : isPlainChar (identChar c) = true := by
  unfold identChar isAsciiAlphanumeric
  split_ifs with ha
  · simp only [Char.isAlphanum, Char.isAlpha, h, Bool.false_or] at ha
    simp [isPlainChar, ha]
  · decide

theorem lowered_plain {cs : List Char} {c : Char} (h : c ∈ (lowerChars cs).map identChar) :
    isPlainChar c = true := by
  obtain ⟨d, hd, rfl⟩ := List.mem_map.mp h
  obtain ⟨e, _, he⟩ := List.mem_flatMap.mp hd
  exact identChar_plain (lowerChar_isUpper he)

theorem collapse_sublist (cs : List Char) : (collapse cs).Sublist cs := by
  induction cs with
  | nil => exact List.Sublist.refl _
  | cons c rest ih =>
    unfold collapse
    split_ifs
    · exact ih.cons c
    · exact ih.cons_cons c

theorem head?_bare {cs : List Char} {c : Char} (h : (bare cs).head? = some c) : c ≠ '_' := by
  simpa using head?_dropEnds h

theorem bare_plain {cs : List Char} (h : ∀ c ∈ cs, isPlainChar c = true) :
    ∀ c ∈ bare cs, isPlainChar c = true :=
  fun c hc => h c ((dropEnds_sublist _ _).subset hc)

theorem words_plain (label : List Char) : ∀ c ∈ words label, isPlainChar c = true :=
  bare_plain fun _ hc => lowered_plain ((collapse_sublist _).subset hc)

theorem keyword_no_underscore : ∀ k ∈ keywords, '_' ∉ k.toList := by
  decide

theorem not_keyword {s : String} (h : '_' ∈ s.toList) : s ∉ keywords :=
  fun hk => keyword_no_underscore s hk h

theorem joined_not_keyword (s t : String) : s ++ "_" ++ t ∉ keywords := by
  apply not_keyword
  rw [String.toList_append, String.toList_append]
  exact List.mem_append_left _ (List.mem_append_right _ (List.mem_singleton.mpr rfl))

theorem complete_isPlain {cs : List Char} (hcs : ∀ c ∈ cs, isPlainChar c = true)
    (hu : ∀ c, cs.head? = some c → c ≠ '_') :
    IsPlain (.ofList (complete cs)) ∧ String.ofList (complete cs) ∉ keywords := by
  have named : ∃ ds : List Char, (∃ d, ds.head? = some d ∧ d.isLower = true) ∧
      (∀ d ∈ ds, isPlainChar d = true) ∧
      complete cs = if keywords.contains (String.ofList ds) then ds ++ ['_'] else ds := by
    cases cs with
    | nil => exact ⟨"node".toList, ⟨'n', rfl, rfl⟩, List.all_eq_true.mp (by decide), rfl⟩
    | cons c rest =>
      by_cases hd : c.isDigit = true
      · refine ⟨'n' :: '_' :: c :: rest, ⟨'n', rfl, by decide⟩, ?_, by simp [complete, hd]⟩
        intro d h
        rcases List.mem_cons.mp h with rfl | h
        · decide
        · rcases List.mem_cons.mp h with rfl | h
          · decide
          · exact hcs d h
      · refine ⟨c :: rest, ⟨c, rfl, ?_⟩, hcs, by simp [complete, hd]⟩
        have hp := hcs c (by simp)
        have hc := hu c rfl
        simpa [isPlainChar, hd, hc] using hp
  obtain ⟨ds, ⟨d, hd, hl⟩, hds, he⟩ := named
  have plain : IsPlain (.ofList ds) := ⟨⟨d, by simpa using hd, hl⟩, by simpa using hds⟩
  rw [he]
  split_ifs with hk
  · have h := plain.append_underscore (t := "") (by simp)
    have hs : String.ofList (ds ++ ['_']) = String.ofList ds ++ "_" ++ "" := by
      simp
    exact ⟨hs ▸ h, not_keyword (by simp)⟩
  · exact ⟨plain, by simpa using hk⟩

theorem ofLabel_isPlain (label : String) : IsPlain (ofLabel label) :=
  (complete_isPlain (words_plain _) fun _ => head?_bare).1

theorem ofLabel_not_keyword (label : String) : ofLabel label ∉ keywords :=
  (complete_isPlain (words_plain label.toList) fun _ => head?_bare).2

theorem idSuffix_plain (id : String) : ∀ c ∈ (idSuffix id).toList, isPlainChar c = true := by
  unfold idSuffix
  split
  · exact List.all_eq_true.mp (by decide)
  · rename_i cs _
    simpa using bare_plain fun _ => lowered_plain

end Identifier

/-- A name determines the identifier and the role that it is made of: the suffixes of two roles differ
before either of them ends. -/
theorem NameRole.append_suffix_inj {ident ident' : String} {role role' : NameRole}
    (h : ident ++ role.suffix = ident' ++ role'.suffix) : ident = ident' ∧ role = role' := by
  have hr : role = role' := by
    have hl := congrArg (fun s => s.toList.reverse) h
    cases role <;> cases role' <;> first | rfl | simp [suffix, String.toList_append] at hl
  subst hr
  exact ⟨(String.append_left_inj _).mp h, rfl⟩

end AgentWorkflow

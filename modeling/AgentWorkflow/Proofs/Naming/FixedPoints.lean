import AgentWorkflow.Proofs.Naming.SymbolTable

/-!
The identifiers that `ofLabel` leaves alone.

Main statements: the identifier of any label is well formed, has no two underscores side by side, is no
reserved word in any spelling, and is its own identifier; a text is its own identifier iff it has this
form and ends in an underscore only behind a keyword. Of the identifiers that a symbol table allots these
are the ones without two underscores side by side.
-/

namespace AgentWorkflow.Identifier

open Text

/-- The reserved words of the generated language, as it spells them. -/
def reservedWords : List String :=
  ["False", "None", "True", "and", "as", "assert", "async", "await", "break", "class", "continue",
    "def", "del", "elif", "else", "except", "finally", "for", "from", "global", "if", "import", "in",
    "is", "lambda", "nonlocal", "not", "or", "pass", "raise", "return", "try", "while", "with",
    "yield"]

/-- No two underscores stand side by side. -/
def SingleUnderscores (cs : List Char) : Prop :=
  cs.IsChain fun c d => c = '_' → d ≠ '_'

/-- What joined words look like: plain characters, with single underscores only between words. -/
structure IsJoined (cs : List Char) : Prop where
  plain : ∀ c ∈ cs, isPlainChar c = true
  single : SingleUnderscores cs
  first : ∀ c, cs.head? = some c → c ≠ '_'
  last : ∀ c, cs.getLast? = some c → c ≠ '_'

theorem head?_collapse (cs : List Char) : (collapse cs).head? = cs.head? := by
  induction cs with
  | nil => rfl
  | cons c rest ih =>
    unfold collapse
    split_ifs with h
    · rw [ih, h.2, List.head?_cons, h.1]
    · rfl

theorem collapse_single (cs : List Char) : SingleUnderscores (collapse cs) := by
  induction cs with
  | nil => exact List.isChain_nil
  | cons c rest ih =>
    unfold collapse
    split_ifs with h
    · exact ih
    · refine List.isChain_cons.mpr ⟨fun d hd hc hu => h ⟨hc, ?_⟩, ih⟩
      rw [← head?_collapse, Option.mem_def.mp hd, hu]

theorem collapse_of_single {cs : List Char} (h : SingleUnderscores cs) : collapse cs = cs := by
  induction cs with
  | nil => rfl
  | cons c rest ih =>
    obtain ⟨hc, hr⟩ := List.isChain_cons.mp h
    unfold collapse
    rw [if_neg fun hu => hc '_' hu.2 hu.1 rfl, ih hr]

theorem dropEnds_within (p : Char → Bool) (cs : List Char) : dropEnds p cs <:+: cs :=
  (dropTail_initial p _).isInfix.trans (List.dropWhile_suffix p).isInfix

theorem getLast?_dropTail {p : Char → Bool} {cs : List Char} {c : Char}
    (h : (dropTail p cs).getLast? = some c) : p c = false := by
  unfold dropTail at h
  rw [List.getLast?_reverse] at h
  have hn := List.head?_dropWhile_not p cs.reverse
  rwa [h] at hn

theorem dropTail_append_of_pos {p : Char → Bool} {c : Char} (cs : List Char) (h : p c = true) :
    dropTail p (cs ++ [c]) = dropTail p cs := by
  simp [dropTail, h]

theorem dropTail_of_last {p : Char → Bool} {cs : List Char}
    (h : ∀ c, cs.getLast? = some c → p c = false) : dropTail p cs = cs := by
  rcases List.eq_nil_or_concat cs with rfl | ⟨rest, c, rfl⟩
  · rfl
  · have hc : p c = false := h c (by simp)
    simp [dropTail, hc]

theorem dropWhile_of_head {p : Char → Bool} {cs : List Char}
    (h : ∀ c, cs.head? = some c → p c = false) : cs.dropWhile p = cs := by
  cases cs with
  | nil => rfl
  | cons c rest => exact List.dropWhile_cons_of_neg (by simp [h c rfl])

theorem words_isJoined (label : List Char) : IsJoined (words label) where
  plain := words_plain label
  single := List.IsChain.infix (collapse_single _) (dropEnds_within _ _)
  first _ := head?_bare
  last c h := by simpa using getLast?_dropTail h

theorem isUpper_of_plain {c : Char} (h : isPlainChar c = true) : c.isUpper = false := by
  have hc : (97 ≤ c.val.toNat ∧ c.val.toNat ≤ 122) ∨ (48 ≤ c.val.toNat ∧ c.val.toNat ≤ 57) ∨ c = '_' := by
    simpa [isPlainChar, Char.isLower, Char.isDigit, UInt32.le_iff_toNat_le, or_assoc] using h
  have hu : ¬ (65 ≤ c.val.toNat ∧ c.val.toNat ≤ 90) := by
    rcases hc with hc | hc | rfl
    · omega
    · omega
    · decide
  simpa [Char.isUpper, UInt32.le_iff_toNat_le] using hu

theorem toLower_of_plain {c : Char} (h : isPlainChar c = true) : c.toLower = c := by
  have hu := isUpper_of_plain h
  unfold Char.isUpper at hu
  unfold Char.toLower
  exact dif_neg (of_decide_eq_false hu)

theorem lowerChar_of_plain {c : Char} (h : isPlainChar c = true) : lowerChar c = [c] := by
  unfold lowerChar
  split_ifs with hk hi
  · exact absurd h (by rw [hk]; decide)
  · exact absurd h (by rw [hi]; decide)
  · rw [toLower_of_plain h]

theorem lowerChars_of_plain {cs : List Char} (h : ∀ c ∈ cs, isPlainChar c = true) : lowerChars cs = cs := by
  induction cs with
  | nil => rfl
  | cons c rest ih =>
    have hr := ih fun d hd => h d (List.mem_cons_of_mem c hd)
    unfold lowerChars at hr ⊢
    rw [List.flatMap_cons, hr, lowerChar_of_plain (h c List.mem_cons_self), List.singleton_append]

theorem identChar_of_plain {c : Char} (h : isPlainChar c = true) : identChar c = c := by
  unfold identChar isAsciiAlphanumeric
  split_ifs with ha
  · rfl
  · simp only [isPlainChar, Bool.or_eq_true, beq_iff_eq] at h
    simp only [Char.isAlphanum, Char.isAlpha, Bool.or_eq_true, not_or] at ha
    rcases h with (h | h) | h
    · exact absurd h ha.1.2
    · exact absurd h ha.2
    · exact h.symm

theorem words_of_single {cs : List Char} (hp : ∀ c ∈ cs, isPlainChar c = true)
    (hs : SingleUnderscores cs) : words cs = bare cs := by
  have hi : cs.map identChar = cs := by
    rw [List.map_congr_left fun c hc => identChar_of_plain (hp c hc), List.map_id']
  unfold words
  rw [lowerChars_of_plain hp, hi, collapse_of_single hs]

theorem IsJoined.bare_eq {cs : List Char} (h : IsJoined cs) : bare cs = cs := by
  have hd : cs.dropWhile (· == '_') = cs := dropWhile_of_head fun c hc => by simpa using h.first c hc
  unfold bare dropEnds
  rw [hd, dropTail_of_last fun c hc => by simpa using h.last c hc]

theorem IsJoined.bare_append {cs : List Char} (h : IsJoined cs) : bare (cs ++ ['_']) = cs := by
  cases cs with
  | nil => rfl
  | cons c rest =>
    have hc : c ≠ '_' := h.first c rfl
    have hd : (c :: rest ++ ['_']).dropWhile (· == '_') = c :: rest ++ ['_'] :=
      List.dropWhile_cons_of_neg (by simpa using hc)
    unfold bare dropEnds
    rw [hd, dropTail_append_of_pos _ (by rfl), dropTail_of_last fun d hl => by simpa using h.last d hl]

theorem IsJoined.append_single {cs : List Char} (h : IsJoined cs) : SingleUnderscores (cs ++ ['_']) :=
  List.isChain_append.mpr ⟨h.single, List.isChain_singleton _, fun c hc _ _ hu => absurd hu (h.last c hc)⟩

/-- Joined words that start with a letter, which completing extends by an underscore at most. -/
structure IsNameable (cs : List Char) : Prop where
  joined : IsJoined cs
  letter : ∃ c, cs.head? = some c ∧ c.isLower = true

/-- The joined words with a letter in front: `node` for none, `n_` before a digit. -/
def lettered (cs : List Char) : List Char :=
  let cs := if cs.isEmpty then "node".toList else cs
  if cs.head?.any Char.isDigit then 'n' :: '_' :: cs else cs

theorem complete_eq (cs : List Char) :
    complete cs =
      if String.ofList (lettered cs) ∈ keywords then lettered cs ++ ['_'] else lettered cs := by
  have he : complete cs =
      if keywords.contains (String.ofList (lettered cs)) then lettered cs ++ ['_'] else lettered cs := rfl
  rw [he]
  by_cases hk : String.ofList (lettered cs) ∈ keywords
  · rw [if_pos hk, if_pos (List.contains_iff_mem.mpr hk)]
  · rw [if_neg hk, if_neg fun h => hk (List.contains_iff_mem.mp h)]

theorem lettered_isNameable {cs : List Char} (h : IsJoined cs) : IsNameable (lettered cs) := by
  cases cs with
  | nil =>
    have hw : words "node".toList = lettered [] := by decide
    exact ⟨hw ▸ words_isJoined _, 'n', rfl, rfl⟩
  | cons c rest =>
    by_cases hd : c.isDigit = true
    · have he : lettered (c :: rest) = 'n' :: '_' :: c :: rest := by simp [lettered, hd]
      rw [he]
      refine ⟨⟨?_, ?_, ?_, ?_⟩, 'n', rfl, rfl⟩
      · intro d hm
        rcases List.mem_cons.mp hm with rfl | hm
        · decide
        · rcases List.mem_cons.mp hm with rfl | hm
          · decide
          · exact h.plain d hm
      · exact List.isChain_cons_cons.mpr ⟨by simp, List.isChain_cons_cons.mpr ⟨fun _ => h.first c rfl, h.single⟩⟩
      · rintro _ ⟨⟩
        decide
      · exact h.last
    · have he : lettered (c :: rest) = c :: rest := by simp [lettered, hd]
      have hp : c.isLower = true ∨ c.isDigit = true ∨ c = '_' := by
        simpa [isPlainChar, or_assoc] using h.plain c List.mem_cons_self
      rw [he]
      exact ⟨h, c, rfl, hp.resolve_right fun hp => hp.elim hd (h.first c rfl)⟩

theorem lettered_of_nameable {cs : List Char} (h : IsNameable cs) : lettered cs = cs := by
  obtain ⟨c, hc, hl⟩ := h.letter
  have hd : c.isDigit = false := by
    have hn : 97 ≤ c.val.toNat ∧ c.val.toNat ≤ 122 := by
      simpa [Char.isLower, UInt32.le_iff_toNat_le] using hl
    have hd : ¬ (48 ≤ c.val.toNat ∧ c.val.toNat ≤ 57) := by omega
    simpa [Char.isDigit, UInt32.le_iff_toNat_le] using hd
  cases cs with
  | nil => simp at hc
  | cons d rest =>
    obtain rfl : d = c := by simpa using hc
    simp [lettered, hd]

/-- An underscore behind joined words is lost again when they are split, so a keyword's underscore is
put back and nothing else changes. -/
theorem complete_words {cs : List Char} (h : IsNameable cs) :
    complete (words (complete cs)) = complete cs := by
  have hw : words (complete cs) = cs := by
    rw [complete_eq, lettered_of_nameable h]
    split_ifs with hk
    · have hp : ∀ c ∈ cs ++ ['_'], isPlainChar c = true := by
        intro c hc
        rcases List.mem_append.mp hc with hc | hc
        · exact h.joined.plain c hc
        · rw [List.mem_singleton.mp hc]
          decide
      rw [words_of_single hp h.joined.append_single, h.joined.bare_append]
    · rw [words_of_single h.joined.plain h.joined.single, h.joined.bare_eq]
  rw [hw]

theorem complete_lettered {cs : List Char} (h : IsJoined cs) : complete (lettered cs) = complete cs := by
  rw [complete_eq, complete_eq cs, lettered_of_nameable (lettered_isNameable h)]

theorem ofLabel_ofLabel (label : String) : ofLabel (ofLabel label) = ofLabel label := by
  have hj := words_isJoined label.toList
  have hn := lettered_isNameable hj
  unfold ofLabel
  rw [String.toList_ofList, ← complete_lettered hj, complete_words hn]

theorem ofLabel_single (label : String) : SingleUnderscores (ofLabel label).toList := by
  have hn := (lettered_isNameable (words_isJoined label.toList)).joined
  unfold ofLabel
  rw [String.toList_ofList, complete_eq]
  split_ifs
  · exact hn.append_single
  · exact hn.single

theorem lowered_mem_keywords : ∀ k ∈ reservedWords, String.ofList (lowerChars k.toList) ∈ keywords := by
  decide

theorem ofLabel_not_reserved (label : String) :
    ∀ k ∈ reservedWords, lowerChars k.toList ≠ lowerChars (ofLabel label).toList := by
  intro k hk he
  rw [lowerChars_of_plain (ofLabel_isPlain label).2] at he
  have hm := lowered_mem_keywords k hk
  rw [he, String.ofList_toList] at hm
  exact ofLabel_not_keyword label hm

theorem ofLabel_settled (label : String) :
    IsPlain (ofLabel label) ∧ SingleUnderscores (ofLabel label).toList ∧
      (∀ k ∈ reservedWords, lowerChars k.toList ≠ lowerChars (ofLabel label).toList) ∧
      ofLabel (ofLabel label) = ofLabel label :=
  ⟨ofLabel_isPlain label, ofLabel_single label, ofLabel_not_reserved label, ofLabel_ofLabel label⟩

theorem keyword_isNameable : ∀ k ∈ keywords, IsNameable k.toList := by
  have hw : ∀ k ∈ keywords, words k.toList = k.toList ∧ k.toList.head?.any Char.isLower = true := by
    decide
  intro k hk
  obtain ⟨hs, hl⟩ := hw k hk
  exact ⟨hs ▸ words_isJoined _, (Option.any_eq_true _ _).mp hl⟩

/-- A text that ends in an underscore only where it keeps a keyword apart. -/
def EndsWell (s : String) : Prop :=
  s.toList.getLast? = some '_' → ∃ k ∈ keywords, s = k ++ "_"

theorem ofLabel_endsWell (label : String) : EndsWell (ofLabel label) := by
  intro hl
  have hn := (lettered_isNameable (words_isJoined label.toList)).joined
  unfold ofLabel at hl ⊢
  rw [complete_eq] at hl ⊢
  split_ifs at hl ⊢ with hk
  · exact ⟨_, hk, String.ofList_append⟩
  · rw [String.toList_ofList] at hl
    exact absurd rfl (hn.last _ hl)

/-- Which texts are identifiers of labels, and so their own. -/
theorem ofLabel_eq_self_iff (s : String) :
    ofLabel s = s ↔ IsPlain s ∧ SingleUnderscores s.toList ∧ s ∉ keywords ∧ EndsWell s := by
  constructor
  · intro h
    rw [← h]
    exact ⟨ofLabel_isPlain s, ofLabel_single s, ofLabel_not_keyword s, ofLabel_endsWell s⟩
  · rintro ⟨⟨⟨c, hc, hlow⟩, hp⟩, hs, hk, hl⟩
    have hc' : c ≠ '_' := by
      rintro rfl
      exact absurd hlow (by decide)
    by_cases hu : s.toList.getLast? = some '_'
    · obtain ⟨k, hk', rfl⟩ := hl hu
      have hn := keyword_isNameable k hk'
      have hw : words (k ++ "_").toList = k.toList := by
        rw [words_of_single hp hs, String.toList_append]
        exact hn.joined.bare_append
      unfold ofLabel
      rw [hw, complete_eq, lettered_of_nameable hn, String.ofList_toList, if_pos hk', String.ofList_append,
        String.ofList_toList]
    · have hj : IsJoined s.toList := by
        refine ⟨hp, hs, fun d hd => ?_, fun d hd hu' => hu (hu' ▸ hd)⟩
        obtain rfl : c = d := Option.some.inj (hc.symm.trans hd)
        exact hc'
      unfold ofLabel
      rw [words_of_single hp hs, hj.bare_eq, complete_eq, lettered_of_nameable ⟨hj, c, hc, hlow⟩,
        String.ofList_toList, if_neg hk, String.ofList_toList]

theorem endsWell_append {s t : String} {c : Char} (h : t.toList.getLast? = some c) (hc : c ≠ '_') :
    EndsWell (s ++ t) := by
  intro hl
  rw [String.toList_append, List.getLast?_append, h] at hl
  exact absurd (Option.some.inj hl) hc

theorem exists_last_idSuffix (id : String) : ∃ c, (idSuffix id).toList.getLast? = some c ∧ c ≠ '_' := by
  unfold idSuffix
  split
  · exact ⟨'x', rfl, by decide⟩
  · rename_i cs hcs
    obtain ⟨c, hc⟩ := Option.ne_none_iff_exists'.mp (mt List.getLast?_eq_none_iff.mp hcs)
    refine ⟨c, by rwa [String.toList_ofList], ?_⟩
    simpa using getLast?_dropTail hc

end AgentWorkflow.Identifier

namespace AgentWorkflow.SymbolTable

open Identifier

theorem baseIdent_endsWell (n : Node) : EndsWell (baseIdent n) := by
  unfold baseIdent
  split_ifs
  · have hslug : ∀ kind : NodeKind, kind.slug.toList.getLast? ≠ some '_' := by
      intro kind
      cases kind
      all_goals
        simp only [NodeKind.slug]
        decide
    exact fun hl => absurd hl (hslug n.kind)
  · exact ofLabel_endsWell n.label

theorem candidates_endsWell {ident c : String} {count : ℕ} (hi : EndsWell ident)
    (hc : c ∈ candidates ident count) : EndsWell c := by
  rcases List.mem_cons.mp hc with rfl | hc
  · exact hi
  · obtain ⟨i, -, rfl⟩ := List.mem_map.mp hc
    have hne : (toString (i + 2)).toList ≠ [] := by
      rw [Nat.toString_eq_repr, Nat.toList_repr]
      exact Nat.toDigits_ne_nil
    obtain ⟨d, hd⟩ := Option.ne_none_iff_exists'.mp (mt List.getLast?_eq_none_iff.mp hne)
    refine endsWell_append hd ?_
    rintro rfl
    have hm := List.mem_of_getLast? hd
    rw [Nat.toString_eq_repr, Nat.toList_repr] at hm
    exact absurd (Nat.isDigit_of_mem_toDigits (by decide) (by decide) hm) (by decide)

section Allotment

variable {nodes : List Node} {root : Option String} {reserved taken : List String}

theorem allot_endsWell (n : Node) : EndsWell (allot nodes root reserved taken n) := by
  have candidate (ident : String) (h : EndsWell ident) : EndsWell (firstFree reserved taken ident) :=
    candidates_endsWell h (firstFree_mem reserved taken ident).1
  obtain ⟨c, hc, hu⟩ := exists_last_idSuffix n.id
  unfold allot
  dsimp only
  split_ifs
  · exact candidate _ (baseIdent_endsWell n)
  · exact candidate _ (endsWell_append hc hu)

theorem get?_allotAll_of_forall {good : String → Prop}
    (hgood : ∀ taken n, good (allot nodes root reserved taken n)) {idents : List (String × String)}
    (h : ∀ id ident, Entries.get? id idents = some ident → good ident) {rest : List Node} {id ident : String}
    (hi : Entries.get? id (allotAll nodes root reserved taken idents rest) = some ident) : good ident := by
  induction rest generalizing taken idents with
  | nil => exact h id ident hi
  | cons n rest ih =>
    refine ih (fun k x hx => ?_) hi
    rw [Entries.get?_put] at hx
    split_ifs at hx
    · exact Option.some.inj hx ▸ hgood taken n
    · exact h k x hx

end Allotment

variable {g : Graph} {root : Option String} {reserved : List String} {id ident : String}

theorem ident?_endsWell (h : (build g root reserved).ident? id = some ident) : EndsWell ident :=
  get?_allotAll_of_forall (fun _ n => allot_endsWell n) (by simp [Entries.get?]) h

theorem ofLabel_ident?_eq_iff (h : (build g root reserved).ident? id = some ident) :
    ofLabel ident = ident ↔ SingleUnderscores ident.toList := by
  obtain ⟨hp, hk⟩ := ident?_plain h
  rw [ofLabel_eq_self_iff]
  exact ⟨fun ⟨_, hs, _⟩ => hs, fun hs => ⟨hp, hs, hk, ident?_endsWell h⟩⟩

end AgentWorkflow.SymbolTable

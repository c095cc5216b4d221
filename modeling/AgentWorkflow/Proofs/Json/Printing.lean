import AgentWorkflow.Proofs.Json.Spelling
import AgentWorkflow.Proofs.Json.Tree
import AgentWorkflow.Proofs.Program.Words

/-!
The printed text of a value is one of its texts, and so it reads back. Of floating point numbers only those are
printed that read back themselves.
-/

namespace AgentWorkflow.Json

/-- Whether a number is read from its own text: integers of 64 bits are, and so are the finite floating point numbers
whose shortest text names them. -/
inductive Number.ReadsBack : Number → Prop
  | natural {n : ℕ} : n < 2 ^ 64 → ReadsBack (.natural n)
  | negative {n : ℕ} : 0 < n → n ≤ 2 ^ 63 → ReadsBack (.negative n)
  | float {x : Binary64} : x.isFinite → Reading.value x.documentText = .ok (Json.float x) → ReadsBack (.float x)

/-- A value whose lists and objects are at most so many deep, and whose numbers read back. -/
inductive Fits : ℕ → Json → Prop
  | null {n : ℕ} : Fits n .null
  | bool {n : ℕ} (b : Bool) : Fits n (.bool b)
  | string {n : ℕ} (s : String) : Fits n (.string s)
  | number {n : ℕ} {value : Number} : value.ReadsBack → Fits n (.scalar (.number value))
  | array {n : ℕ} {items : List Json} : (∀ item ∈ items, Fits n item) → Fits (n + 1) (.array items)
  | object {n : ℕ} {entries : List (String × Json)} : (∀ entry ∈ entries, Fits n entry.2) → Fits (n + 1) (.object entries)

namespace Reading

variable {text : String} {value : Json}

theorem value_eq_ok_iff : Reading.value text = .ok value ↔
    (ofText text).tree.check = .ok value ∧ (ofText text).trailing = none := by
  simp [Reading.value, bind_eq_ok_iff, map_eq_ok_iff, refuse_eq_ok_iff, and_comm]

theorem tree_ofText : (ofText text).tree =
    (Cursor.readValue (2 * text.toList.length + 2) 0 (.start text.toList)).1 := by
  unfold ofText
  dsimp only
  split <;> simp [*]

theorem rest_of_trailing_eq_none {next : Cursor}
    (h : (Cursor.readValue (2 * text.toList.length + 2) 0 (.start text.toList)).2 = some next)
    (htrailing : (ofText text).trailing = none) : next.toToken.rest = [] := by
  unfold ofText at htrailing
  dsimp only at htrailing
  split at htrailing
  · simp_all
  · simp_all

end Reading

section Numbers

theorem le_ofDigitChars (init : ℕ) (ds : List Char) : init ≤ Nat.ofDigitChars 10 ds init := by
  induction ds generalizing init with
  | nil => exact le_rfl
  | cons d ds ih =>
    rw [Nat.ofDigitChars_cons]
    exact le_trans (by omega) (ih _)

theorem Numeral.gather_eq {bound : ℕ} {ds : List Char} (init : ℕ) (h : Nat.ofDigitChars 10 ds init < bound) :
    gather bound init ds = (Nat.ofDigitChars 10 ds init, []) := by
  induction ds generalizing init with
  | nil => rfl
  | cons d ds ih =>
    rw [Nat.ofDigitChars_cons] at h ⊢
    have hnext : 10 * init + digitValue d < bound := lt_of_le_of_lt (le_ofDigitChars _ ds) h
    rw [gather, if_pos hnext]
    exact ih _ h

theorem eq_nil_of_toDigits_eq_zero_cons {n : ℕ} {ds : List Char} (h : Nat.toDigits 10 n = '0' :: ds) : ds = [] := by
  induction n using Nat.strong_induction_on generalizing ds with
  | _ n ih =>
    rcases lt_or_ge n 10 with hn | hn
    · rw [Nat.toDigits_of_lt_base hn] at h
      exact (List.cons.inj h).2.symm
    · rw [Nat.toDigits_of_base_le (by decide) hn] at h
      obtain ⟨d, front, hfront⟩ := List.exists_cons_of_ne_nil (Nat.toDigits_ne_nil (n := n / 10) (b := 10))
      rw [hfront, List.cons_append] at h
      obtain ⟨rfl, -⟩ := List.cons.inj h
      obtain rfl := ih (n / 10) (by omega) hfront
      have hvalue : Nat.ofDigitChars 10 (Nat.toDigits 10 (n / 10)) 0 = n / 10 := Nat.ofDigitChars_ten_toDigits
      rw [hfront] at hvalue
      have hzero : Nat.ofDigitChars 10 ['0'] 0 = 0 := rfl
      omega

theorem Numeral.spells_toDigits (negative : Bool) (n : ℕ) :
    Spells ⟨negative, Nat.toDigits 10 n, none, none⟩ (Nat.toDigits 10 n) := by
  have h : Spells ⟨negative, Nat.toDigits 10 n, none, none⟩ (Nat.toDigits 10 n ++ [] ++ []) :=
    .intro Nat.toDigits_ne_nil (fun d => Nat.isDigit_of_mem_toDigits (by decide) (by decide))
      (fun ds => eq_nil_of_toDigits_eq_zero_cons) .none .none
  simpa using h

theorem Numeral.gather_toDigits {n bound : ℕ} (hn : n < bound) : gather bound 0 (Nat.toDigits 10 n) = (n, []) := by
  have hvalue : Nat.ofDigitChars 10 (Nat.toDigits 10 n) 0 = n := Nat.ofDigitChars_ten_toDigits
  rw [gather_eq 0 (by rwa [hvalue]), hvalue]

theorem Scalar.spells_natural {n : ℕ} (hn : n < 2 ^ 64) :
    Scalar.Spells (.number (.natural n)) (Scalar.number (.natural n)).text.toList := by
  have htext : (Scalar.number (.natural n)).text.toList = Nat.toDigits 10 n := by
    simp [Scalar.text]
  have hvalue : (⟨false, Nat.toDigits 10 n, none, none⟩ : Numeral).value = .ok (.natural n) := by
    have hgather : Numeral.gather (Nat.pow 2 64) 0 (Nat.toDigits 10 n) = (n, []) := Numeral.gather_toDigits hn
    simp only [Numeral.value, hgather]
    rfl
  rw [htext]
  exact .number (Numeral.spells_toDigits false n) hvalue

theorem Scalar.spells_negative {n : ℕ} (hpos : 0 < n) (hn : n ≤ 2 ^ 63) :
    Scalar.Spells (.number (.negative n)) (Scalar.number (.negative n)).text.toList := by
  have htext : (Scalar.number (.negative n)).text.toList = '-' :: Nat.toDigits 10 n := by
    simp [Scalar.text]
  have hvalue : (⟨true, Nat.toDigits 10 n, none, none⟩ : Numeral).value = .ok (.negative n) := by
    have hgather : Numeral.gather (Nat.pow 2 64) 0 (Nat.toDigits 10 n) = (n, []) :=
      Numeral.gather_toDigits (lt_of_le_of_lt hn (by decide))
    simp only [Numeral.value, hgather]
    simp [hpos, show n ≤ 9223372036854775808 from hn]
  rw [htext]
  exact .number (Numeral.spells_toDigits true n) hvalue

theorem Cursor.spells_of_readNumber {c : Cursor} {value : Number}
    (h : (readNumber c).1.check = .ok (.scalar (.number value))) :
    ∃ cs next, c.rest = cs ++ next.rest ∧ (readNumber c).2 = some next ∧ Scalar.Spells (.number value) cs := by
  unfold readNumber at h ⊢
  generalize hneg : (c.rest.head? == some '-') = negative at h ⊢
  dsimp only at h ⊢
  split at h
  · rename_i n stop hscan
    obtain ⟨rfl, cs, hcs, hspells⟩ := Numeral.spells_of_numeral hscan
    have hvalue : n.value = .ok value := by
      unfold number at h
      cases hv : n.value <;> simp_all [Tree.check, refuse, bind, Except.bind, pure, Except.pure]
    have hnumber : number n stop = (value, none) := by rw [number, hvalue]
    refine ⟨_, stop, ?_, by simp, .number hspells hvalue⟩
    cases hsign : n.negative with
    | true =>
      simp only [hsign, beq_iff_eq] at hneg hcs
      obtain ⟨tail, htail⟩ : ∃ tail, c.rest = '-' :: tail := List.head?_eq_some_iff.1 hneg
      have hadvance : c.advance.rest = tail := by simp [advance, htail]
      simpa [htail, hadvance] using hcs
    | false => simpa [hsign] using hcs
  · contradiction

theorem Cursor.spells_of_readScalar {c : Cursor} {value : Number}
    (hc : ∀ d ∈ c.rest.head?, Binary64.IsDecimalChar d) (h : (readScalar c).1.check = .ok (.scalar (.number value))) :
    ∃ cs next, c.rest = cs ++ next.rest ∧ (readScalar c).2 = some next ∧ Scalar.Spells (.number value) cs := by
  rcases c with ⟨_ | ⟨d, tail⟩, p⟩
  · contradiction
  · have hd : d ≠ 'n' ∧ d ≠ 't' ∧ d ≠ 'f' ∧ d ≠ '"' := by
      have := hc d rfl
      refine ⟨?_, ?_, ?_, ?_⟩ <;> rintro rfl <;> revert this <;> decide
    by_cases hnumber : d = '-' ∨ d.isDigit
    · have hread : readScalar ⟨d :: tail, p⟩ = readNumber ⟨d :: tail, p⟩ := by
        simp [readScalar, hd, hnumber]
      rw [hread] at h ⊢
      exact spells_of_readNumber h
    · simp [readScalar, hd, hnumber, breakOff, Tree.check] at h

theorem Scalar.spells_float {x : Binary64} (hx : x.isFinite) (h : Reading.value x.documentText = .ok (Json.float x)) :
    Scalar.Spells (.number (.float x)) (Scalar.number (.float x)).text.toList := by
  have hdecimal : ∀ c ∈ x.documentText.toList, Binary64.IsDecimalChar c := by
    rw [Binary64.documentText, String.toList_ofList]
    exact Binary64.isDecimalChar_text hx
  have hspace (cs : List Char) (hcs : cs ⊆ x.documentText.toList) : ∀ c ∈ cs.head?, ¬IsSpace c := by
    intro c hc hspace
    have := hdecimal c (hcs (List.mem_of_mem_head? hc))
    rcases hspace with rfl | rfl | rfl | rfl <;> revert this <;> decide
  change Scalar.Spells _ x.documentText.toList
  obtain ⟨q, hq⟩ := Cursor.toToken_append [] x.documentText.toList ⟨1, 0⟩ nofun (hspace _ fun _ => id)
  have hread : Cursor.readValue (2 * x.documentText.toList.length + 2) 0 (.start x.documentText.toList) =
      Cursor.readScalar ⟨x.documentText.toList, q⟩ := by
    cases hcs : x.documentText.toList with
    | nil =>
      rw [hcs] at hq
      simp at hq
      simp [Cursor.readValue, Cursor.start, hq]
    | cons d tail =>
      have hd := hdecimal d (hcs ▸ List.mem_cons_self)
      rw [hcs] at hq
      refine Cursor.readValue_scalar hq ?_ ?_ <;> rintro rfl <;> revert hd <;> decide
  -- What the reader leaves of the document is blank, and a decimal text has no blank in it: nothing is left.
  obtain ⟨hcheck, htrailing⟩ := Reading.value_eq_ok_iff.1 h
  rw [Reading.tree_ofText, hread] at hcheck
  obtain ⟨cs, next, hcs, hnext, hspells⟩ :=
    Cursor.spells_of_readScalar (fun d hd => hdecimal d (List.mem_of_mem_head? hd)) hcheck
  change x.documentText.toList = _ at hcs
  have hend := Reading.rest_of_trailing_eq_none (hread ▸ hnext) htrailing
  obtain ⟨q', hq'⟩ := Cursor.toToken_append [] next.rest next.position nofun
    (hspace _ fun d hd => hcs ▸ List.mem_append_right cs hd)
  rw [List.nil_append] at hq'
  rw [hq'] at hend
  rwa [hcs, hend, List.append_nil]

end Numbers

section Printing

theorem Blank.newLine (level : ℕ) : Blank (Json.newLine level).toList := by
  intro c hc
  rcases List.mem_append.1 (String.toList_append ▸ hc) with hc | hc
  · exact .inr (.inl (List.mem_singleton.1 hc))
  · exact .inl (List.eq_of_mem_replicate (String.toList_ofList ▸ hc))

variable {n : ℕ} {ws ws' : List Char}

theorem SpellsItems.intercalate {items : List Json} {texts : List (List Char)} (hws : Blank ws) (hws' : Blank ws')
    (h : List.Forall₂ (Spells n) items texts) (hne : items ≠ []) (first : Bool) :
    SpellsItems n first items (comma first ++ (ws ++ ((',' :: ws).intercalate texts ++ (ws' ++ [']'])))) := by
  induction h generalizing first with
  | nil => contradiction
  | @cons item text items texts hitem hrest ih =>
    cases hrest with
    | nil =>
      have hlast : SpellsItems n first [item] _ := .cons hws hitem .nil (.nil hws')
      simpa using hlast
    | cons hnext hrest =>
      have hcons : SpellsItems n first _ _ := .cons hws hitem .nil (ih (List.cons_ne_nil _ _) false)
      simpa [comma, List.intercalate_cons_cons] using hcons

/-- The text of an entry on a line of its own. -/
inductive SpellsEntry (n : ℕ) : String × Json → List Char → Prop
  | intro {key : String} {value : Json} {cs : List Char} : Spells n value cs →
      SpellsEntry n (key, value) (Text.escapedChars key.toList ++ ':' :: ' ' :: cs)

theorem SpellsEntries.intercalate {entries : List (String × Json)} {texts : List (List Char)} (hws : Blank ws)
    (hws' : Blank ws') (h : List.Forall₂ (SpellsEntry n) entries texts) (hne : entries ≠ []) (first : Bool) :
    SpellsEntries n first entries (comma first ++ (ws ++ ((',' :: ws).intercalate texts ++ (ws' ++ ['}'])))) := by
  have hspace : Blank [' '] := fun c hc => .inl (List.mem_singleton.1 hc)
  induction h generalizing first with
  | nil => contradiction
  | @cons entry text entries texts hentry hrest ih =>
    obtain ⟨hvalue⟩ := hentry
    rename_i key value cs
    cases hrest with
    | nil =>
      have hlast : SpellsEntries n first [(key, value)] _ := .cons hws .nil hspace hvalue .nil (.nil hws')
      simpa using hlast
    | cons hnext hrest =>
      have hcons : SpellsEntries n first ((key, value) :: _ :: _) _ :=
        .cons hws .nil hspace hvalue .nil (ih (List.cons_ne_nil _ _) false)
      simpa [comma, List.intercalate_cons_cons] using hcons

theorem toList_bracketed (level : ℕ) (left right : String) {texts : List String} (h : texts ≠ []) :
    (bracketed level left right texts).toList = left.toList ++ ((Json.newLine (level + 1)).toList ++
      ((',' :: (Json.newLine (level + 1)).toList).intercalate (texts.map String.toList) ++
        ((Json.newLine level).toList ++ right.toList))) := by
  simp [bracketed, h, String.toList_intercalate]

theorem printItems_eq_map (level : ℕ) (items : List Json) : printItems level items = items.map (printAt level) := by
  induction items with
  | nil => rfl
  | cons item items ih => rw [printItems, ih, List.map_cons]

theorem printEntries_eq_map (level : ℕ) (entries : List (String × Json)) :
    printEntries level entries = entries.map fun entry => Text.escaped entry.1 ++ ": " ++ printAt level entry.2 := by
  induction entries with
  | nil => rfl
  | cons entry entries ih =>
    obtain ⟨key, value⟩ := entry
    rw [printEntries, ih, List.map_cons]

theorem spells_printAt_array {level : ℕ} {items : List Json}
    (h : ∀ item ∈ items, Spells n item (item.printAt (level + 1)).toList) :
    Spells (n + 1) (.array items) (printAt level (.array items)).toList := by
  rw [printAt, printItems_eq_map]
  rcases eq_or_ne items [] with rfl | hne
  · have htext : (bracketed level "[" "]" []).toList = '[' :: ([] ++ [']']) := by simp [bracketed]
    exact htext ▸ .array (.nil .nil)
  · have htexts : List.Forall₂ (Spells n) items ((items.map (printAt (level + 1))).map String.toList) := by
      rw [List.map_map, List.forall₂_map_right_iff, List.forall₂_same]
      exact h
    rw [toList_bracketed level "[" "]" (by simpa using hne)]
    exact .array (.intercalate (.newLine _) (.newLine _) htexts hne true)

theorem spells_printAt_object {level : ℕ} {entries : List (String × Json)}
    (h : ∀ entry ∈ entries, Spells n entry.2 (entry.2.printAt (level + 1)).toList) :
    Spells (n + 1) (.object entries) (printAt level (.object entries)).toList := by
  rw [printAt, printEntries_eq_map]
  rcases eq_or_ne entries [] with rfl | hne
  · have htext : (bracketed level "\x7b" "\x7d" []).toList = '{' :: ([] ++ ['}']) := by simp [bracketed]
    exact htext ▸ .object (.nil .nil)
  · have htexts : List.Forall₂ (SpellsEntry n) entries ((entries.map fun entry =>
        Text.escaped entry.1 ++ ": " ++ printAt (level + 1) entry.2).map String.toList) := by
      rw [List.map_map, List.forall₂_map_right_iff, List.forall₂_same]
      intro entry hentry
      have hspells : SpellsEntry n entry _ := .intro (h entry hentry)
      simpa [Text.escaped] using hspells
    rw [toList_bracketed level "\x7b" "\x7d" (by simpa using hne)]
    exact .object (.intercalate (.newLine _) (.newLine _) htexts hne true)

/-- A value is printed, at any level, as one of its texts. -/
theorem Fits.spells_printAt {value : Json} (h : Fits n value) (level : ℕ) :
    Spells n value (value.printAt level).toList := by
  induction h generalizing level with
  | null =>
    have htext : (printAt level .null).toList = ['n', 'u', 'l', 'l'] := by simp [Json.null, printAt, Scalar.text]
    exact htext ▸ .scalar .null
  | bool b =>
    cases b with
    | false =>
      have htext : (printAt level (.bool false)).toList = ['f', 'a', 'l', 's', 'e'] := by
        rw [Json.bool, printAt]
        decide
      exact htext ▸ .scalar .false
    | true =>
      have htext : (printAt level (.bool true)).toList = ['t', 'r', 'u', 'e'] := by
        rw [Json.bool, printAt]
        decide
      exact htext ▸ .scalar .true
  | string s =>
    have hs : Scalar.Spells (.string s) (Text.escapedChars s.toList) := .string s
    rw [← String.toList_ofList (l := Text.escapedChars s.toList)] at hs
    exact .scalar hs
  | number hvalue =>
    cases hvalue with
    | natural hn => exact .scalar (Scalar.spells_natural hn)
    | negative hpos hn => exact .scalar (Scalar.spells_negative hpos hn)
    | float hx hread => exact .scalar (Scalar.spells_float hx hread)
  | array _ ih => exact spells_printAt_array fun item hitem => ih item hitem (level + 1)
  | object _ ih => exact spells_printAt_object fun entry hentry => ih entry hentry (level + 1)

theorem Fits.isText_print {value : Json} (h : Fits n value) (hn : n < depthLimit) : IsText value.print value :=
  ⟨n, [], (value.printAt 0).toList, [], hn, .nil, h.spells_printAt 0, .nil, by simp [print]⟩

theorem IsText.value_eq {text : String} {value : Json} (h : IsText text value) : Reading.value text = .ok value := by
  obtain ⟨tree, hread, hcheck⟩ := h.ofText
  rw [Reading.value_eq_ok_iff, hread]
  exact ⟨hcheck, rfl⟩

end Printing

end AgentWorkflow.Json

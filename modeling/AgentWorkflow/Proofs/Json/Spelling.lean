import AgentWorkflow.Proofs.Json.Numeral

/-!
Which texts a value has, and that the reader accepts them all. Any blanks may stand between the tokens; numbers may be
written in any form that stands for them, strings only in the escaped form of the printer.
-/

namespace AgentWorkflow.Json

def Blank (ws : List Char) : Prop := ∀ c ∈ ws, IsSpace c

/-- What parts an item or an entry from the one before it. -/
def comma (first : Bool) : List Char :=
  if first then [] else [',']

/-- The texts of a value without parts. -/
inductive Scalar.Spells : Scalar → List Char → Prop
  | null : Scalar.Spells .null ['n', 'u', 'l', 'l']
  | true : Scalar.Spells (.bool true) ['t', 'r', 'u', 'e']
  | false : Scalar.Spells (.bool false) ['f', 'a', 'l', 's', 'e']
  | number {n : Numeral} {value : Number} {cs : List Char} : n.Spells cs → n.value = .ok value →
      Scalar.Spells (.number value) (if n.negative then '-' :: cs else cs)
  | string (s : String) : Scalar.Spells (.string s) (Text.escapedChars s.toList)

mutual

/-- The texts of a value whose lists and objects are at most so many deep. -/
inductive Spells : Nat → Json → List Char → Prop
  | scalar {n : Nat} {s : Scalar} {cs : List Char} : s.Spells cs → Spells n (.scalar s) cs
  | array {n : Nat} {items : List Json} {cs : List Char} : SpellsItems n true items cs →
      Spells (n + 1) (.array items) ('[' :: cs)
  | object {n : Nat} {entries : List (String × Json)} {cs : List Char} : SpellsEntries n true entries cs →
      Spells (n + 1) (.object entries) ('{' :: cs)

/-- The texts of the items that remain of a list, up to its closing bracket. -/
inductive SpellsItems : Nat → Bool → List Json → List Char → Prop
  | nil {n : Nat} {first : Bool} {ws : List Char} : Blank ws → SpellsItems n first [] (ws ++ [']'])
  | cons {n : Nat} {first : Bool} {item : Json} {items : List Json} {before cs after more : List Char} :
      Blank before → Spells n item cs → Blank after → SpellsItems n false items more →
      SpellsItems n first (item :: items) (comma first ++ (before ++ (cs ++ (after ++ more))))

/-- The texts of the entries that remain of an object, up to its closing brace. -/
inductive SpellsEntries : Nat → Bool → List (String × Json) → List Char → Prop
  | nil {n : Nat} {first : Bool} {ws : List Char} : Blank ws → SpellsEntries n first [] (ws ++ ['}'])
  | cons {n : Nat} {first : Bool} {key : String} {value : Json} {entries : List (String × Json)}
      {before gap gap' cs after more : List Char} :
      Blank before → Blank gap → Blank gap' → Spells n value cs → Blank after → SpellsEntries n false entries more →
      SpellsEntries n first ((key, value) :: entries)
        (comma first ++ (before ++ (Text.escapedChars key.toList ++ (gap ++ ':' :: (gap' ++ (cs ++ (after ++ more)))))))

end

theorem Numeral.Spells.isDigit_head {n : Numeral} {cs : List Char} (h : n.Spells cs) :
    ∃ d tail, cs = d :: tail ∧ d.isDigit := by
  rcases h with @⟨fraction, exponent, hne, hwhole, -, -, -⟩
  obtain ⟨d, ds, hds⟩ := List.exists_cons_of_ne_nil hne
  exact ⟨d, ds ++ fraction ++ exponent, by rw [hds]; rfl, hwhole d (hds ▸ List.mem_cons_self)⟩

section Blanks

variable {ws ws' rest : List Char}

theorem Blank.nil : Blank [] := nofun

theorem Blank.append (h : Blank ws) (h' : Blank ws') : Blank (ws ++ ws') :=
  fun c hc => (List.mem_append.1 hc).elim (h c) (h' c)

theorem Blank.ends_append (h : Blank ws) (hrest : Numeral.Ends rest) : Numeral.Ends (ws ++ rest) := by
  cases ws with
  | nil => exact hrest
  | cons w ws =>
    intro c hc
    obtain rfl := Option.some.inj hc
    rcases h w List.mem_cons_self with rfl | rfl | rfl | rfl <;> decide

theorem Numeral.Ends.of_token {c : Char} {rest : List Char} (hc : c = ',' ∨ c = ']' ∨ c = '}') :
    Numeral.Ends (c :: rest) := by
  intro d hd
  obtain rfl := Option.some.inj hd
  rcases hc with rfl | rfl | rfl <;> decide

end Blanks

namespace Cursor

variable {rest : List Char}

theorem readWord_append (letters rest : List Char) (value : Scalar) (p : Position) :
    ∃ span q, readWord ⟨letters ++ rest, p⟩ letters value = (.scalar span value none, some ⟨rest, q⟩) := by
  obtain ⟨q, hq⟩ := word_append letters rest p
  exact ⟨⟨p, q⟩, q, by rw [readWord, hq]⟩

theorem readString_append (s : String) (rest : List Char) (p : Position) :
    ∃ span q, readString ⟨Text.escapedChars s.toList ++ rest, p⟩ = (.scalar span (.string s) none, some ⟨rest, q⟩) := by
  obtain ⟨q, hq⟩ := string_escapedChars s rest p (advance ⟨Text.escapedChars s.toList ++ rest, p⟩).position
  exact ⟨⟨p, q⟩, q, by rw [readString, hq]⟩

theorem readNumber_append {n : Numeral} {value : Number} {cs : List Char} (h : n.Spells cs)
    (hvalue : n.value = .ok value)
    (hrest : Numeral.Ends rest) (p : Position) :
    ∃ span q, readNumber ⟨(if n.negative then '-' :: cs else cs) ++ rest, p⟩ =
      (.scalar span (.number value) none, some ⟨rest, q⟩) := by
  have hdigit := h.isDigit_head
  have hnumber (stop : Cursor) : number n stop = (value, none) := by
    rw [number, hvalue]
  cases hneg : n.negative with
  | true =>
    obtain ⟨q, hq⟩ := Numeral.numeral_append h hrest (peekPosition ⟨'-' :: (cs ++ rest), p⟩)
    refine ⟨⟨p, q⟩, q, ?_⟩
    rw [hneg] at hq
    simp [readNumber, advance, hq, hnumber]
  | false =>
    obtain ⟨q, hq⟩ := Numeral.numeral_append h hrest p
    refine ⟨⟨p, q⟩, q, ?_⟩
    obtain ⟨d, tail, rfl, hd⟩ := hdigit
    have hminus : (d == '-') = false := beq_eq_false_iff_ne.2 (by rintro rfl; contradiction)
    rw [hneg, List.cons_append] at hq
    simp [readNumber, hminus, hq, hnumber]

theorem readScalar_append {s : Scalar} {cs : List Char} (h : s.Spells cs) (hrest : Numeral.Ends rest) (p : Position) :
    ∃ span q, readScalar ⟨cs ++ rest, p⟩ = (.scalar span s none, some ⟨rest, q⟩) := by
  cases h with
  | null => simpa [readScalar] using readWord_append ['n', 'u', 'l', 'l'] rest .null p
  | true => simpa [readScalar] using readWord_append ['t', 'r', 'u', 'e'] rest (.bool true) p
  | false => simpa [readScalar] using readWord_append ['f', 'a', 'l', 's', 'e'] rest (.bool false) p
  | string s => simpa [readScalar, Text.escapedChars] using readString_append s rest p
  | @number n value cs hn hvalue =>
    have hread := readNumber_append hn hvalue hrest p
    obtain ⟨d, tail, rfl, hd⟩ := hn.isDigit_head
    have hd' : d ≠ 'n' ∧ d ≠ 't' ∧ d ≠ 'f' ∧ d ≠ '"' := by
      refine ⟨?_, ?_, ?_, ?_⟩ <;> rintro rfl <;> contradiction
    cases hneg : n.negative with
    | true => simpa [readScalar, hneg] using hread
    | false => simpa [readScalar, hneg, hd', hd] using hread

theorem nextItem_close (first : Bool) {ws : List Char} (hws : Blank ws) (rest : List Char) (p : Position) :
    ∃ q, nextItem first ⟨ws ++ ']' :: rest, p⟩ = .error (none, ⟨rest, q⟩) := by
  obtain ⟨q, hq⟩ := toToken_append ws (']' :: rest) p hws (by rintro c ⟨⟩; decide)
  exact ⟨_, by rw [nextItem, hq]; rfl⟩

theorem nextItem_item (first : Bool) {ws before : List Char} (hws : Blank ws) (hbefore : Blank before) {c : Char}
    (hc : ¬IsSpace c) (hclose : c ≠ ']') (rest : List Char) (p : Position) :
    ∃ surplus q, nextItem first ⟨ws ++ (comma first ++ (before ++ c :: rest)), p⟩ = .ok (surplus, ⟨c :: rest, q⟩) := by
  have hhead : ∀ d ∈ (c :: rest).head?, ¬IsSpace d := by rintro d ⟨⟩; exact hc
  cases first with
  | true =>
    obtain ⟨q, hq⟩ := toToken_append (ws ++ before) (c :: rest) p (hws.append hbefore) hhead
    rw [List.append_assoc] at hq
    exact ⟨peekFault ⟨c :: rest, q⟩ .surplusText, q, by simp [nextItem, comma, hq, hclose]⟩
  | false =>
    obtain ⟨q, hq⟩ := toToken_append ws (',' :: (before ++ c :: rest)) p hws (by rintro d ⟨⟩; decide)
    obtain ⟨q', hq'⟩ := toToken_append before (c :: rest) (peekPosition ⟨',' :: (before ++ c :: rest), q⟩) hbefore hhead
    exact ⟨peekFault ⟨c :: rest, q'⟩ .surplusText, q', by simp [nextItem, comma, hq, hq', hclose, advance]⟩

theorem nextKey_close (first : Bool) {ws : List Char} (hws : Blank ws) (rest : List Char) (p : Position) :
    ∃ q, nextKey first ⟨ws ++ '}' :: rest, p⟩ = .error (none, ⟨rest, q⟩) := by
  obtain ⟨q, hq⟩ := toToken_append ws ('}' :: rest) p hws (by rintro c ⟨⟩; decide)
  exact ⟨_, by rw [nextKey, hq]; rfl⟩

theorem nextKey_key (first : Bool) {ws before : List Char} (hws : Blank ws) (hbefore : Blank before) (rest : List Char)
    (p : Position) :
    ∃ surplus q, nextKey first ⟨ws ++ (comma first ++ (before ++ '"' :: rest)), p⟩ =
      .ok (surplus, ⟨'"' :: rest, q⟩) := by
  have hhead : ∀ d ∈ ('"' :: rest).head?, ¬IsSpace d := by rintro d ⟨⟩; decide
  cases first with
  | true =>
    obtain ⟨q, hq⟩ := toToken_append (ws ++ before) ('"' :: rest) p (hws.append hbefore) hhead
    rw [List.append_assoc] at hq
    exact ⟨fault ⟨'"' :: rest, q⟩ .expectedValue, q, by simp [nextKey, comma, hq]⟩
  | false =>
    obtain ⟨q, hq⟩ := toToken_append ws (',' :: (before ++ '"' :: rest)) p hws (by rintro d ⟨⟩; decide)
    obtain ⟨q', hq'⟩ :=
      toToken_append before ('"' :: rest) (peekPosition ⟨',' :: (before ++ '"' :: rest), q⟩) hbefore hhead
    exact ⟨fault ⟨',' :: (before ++ '"' :: rest), q⟩ .expectedValue, q', by simp [nextKey, comma, hq, hq', advance]⟩

theorem readKey_append (surplus : Fault) (key : String) {gap : List Char} (hgap : Blank gap) (rest : List Char)
    (p : Position) :
    ∃ k q, readKey surplus ⟨Text.escapedChars key.toList ++ (gap ++ ':' :: rest), p⟩ = .ok (k, ⟨':' :: rest, q⟩) ∧
      k.name = key ∧ k.defect = none := by
  obtain ⟨q, hq⟩ := string_escapedChars key (gap ++ ':' :: rest) p
    (advance ⟨Text.escapedChars key.toList ++ (gap ++ ':' :: rest), p⟩).position
  obtain ⟨q', hq'⟩ := toToken_append gap (':' :: rest) q hgap (by rintro d ⟨⟩; decide)
  refine ⟨⟨key, none, q, q', surplus⟩, q', ?_, rfl, rfl⟩
  rw [readKey, hq]
  simp [hq']

theorem passColon_colon (rest : List Char) (p : Position) : ∃ q, passColon ⟨':' :: rest, p⟩ = .ok ⟨rest, q⟩ :=
  ⟨_, rfl⟩

end Cursor

theorem Scalar.Spells.exists_cons {s : Scalar} {cs : List Char} (h : s.Spells cs) :
    ∃ c tail, cs = c :: tail ∧ ¬IsSpace c ∧ c ≠ ']' ∧ c ≠ '[' ∧ c ≠ '{' := by
  cases h with
  | null | true | false | string => exact ⟨_, _, rfl, by decide⟩
  | @number n value cs hn hvalue =>
    cases hneg : n.negative with
    | true => exact ⟨_, _, rfl, by decide⟩
    | false =>
      obtain ⟨d, tail, rfl, hd⟩ := hn.isDigit_head
      refine ⟨d, tail, rfl, ?_, ?_, ?_, ?_⟩
      · rintro (rfl | rfl | rfl | rfl) <;> contradiction
      all_goals rintro rfl; contradiction

theorem Spells.exists_cons {n : Nat} {value : Json} {cs : List Char} (h : Spells n value cs) :
    ∃ c tail, cs = c :: tail ∧ ¬IsSpace c ∧ c ≠ ']' := by
  cases h with
  | scalar h =>
    obtain ⟨c, tail, hcs, hspace, hclose, -⟩ := h.exists_cons
    exact ⟨c, tail, hcs, hspace, hclose⟩
  | array | object => exact ⟨_, _, rfl, by decide⟩

theorem SpellsItems.length_pos {n : Nat} {first : Bool} {items : List Json} {cs : List Char}
    (h : SpellsItems n first items cs) : 0 < cs.length := by
  cases h with
  | nil => simp
  | cons _ hitem =>
    obtain ⟨c, tail, rfl, -⟩ := hitem.exists_cons
    simp

theorem SpellsEntries.length_pos {n : Nat} {first : Bool} {entries : List (String × Json)} {cs : List Char}
    (h : SpellsEntries n first entries cs) : 0 < cs.length := by
  cases h <;> simp

theorem SpellsItems.ends_append {n : Nat} {items : List Json} {cs : List Char} (h : SpellsItems n false items cs)
    {ws : List Char} (hws : Blank ws) (rest : List Char) : Numeral.Ends (ws ++ (cs ++ rest)) := by
  cases h with
  | nil hws' =>
    rw [List.append_assoc]
    exact hws.ends_append (hws'.ends_append (.of_token (by decide)))
  | cons => exact hws.ends_append (.of_token (by decide))

theorem SpellsEntries.ends_append {n : Nat} {entries : List (String × Json)} {cs : List Char}
    (h : SpellsEntries n false entries cs) {ws : List Char} (hws : Blank ws) (rest : List Char) :
    Numeral.Ends (ws ++ (cs ++ rest)) := by
  cases h with
  | nil hws' =>
    rw [List.append_assoc]
    exact hws.ends_append (hws'.ends_append (.of_token (by decide)))
  | cons => exact hws.ends_append (.of_token (by decide))

section Equations

variable {fuel depth : Nat} {c next : Cursor} {cs : List Char} {q : Position}

theorem Cursor.readValue_scalar {d : Char} (hc : c.toToken = ⟨d :: cs, q⟩) (hlist : d ≠ '[') (hobject : d ≠ '{') :
    readValue (fuel + 1) depth c = readScalar ⟨d :: cs, q⟩ := by
  simp [readValue, hc, hlist, hobject]

theorem Cursor.readValue_array {items : List (Fault × Tree)} (hc : c.toToken = ⟨'[' :: cs, q⟩)
    (hitems : readItems fuel (depth + 1) true (advance ⟨'[' :: cs, q⟩) = (items, none, some next))
    (hdepth : depth + 1 < depthLimit) :
    readValue (fuel + 1) depth c = (.array ⟨q, next.position⟩ none items none, some next) := by
  have hdefect : depthDefect (depth + 1) ⟨'[' :: cs, q⟩ = none := if_neg (by omega)
  simp [readValue, hc, hitems, hdefect]

theorem Cursor.readValue_object {entries : List (Key × Tree)} (hc : c.toToken = ⟨'{' :: cs, q⟩)
    (hentries : readEntries fuel (depth + 1) true (advance ⟨'{' :: cs, q⟩) = (entries, none, some next))
    (hdepth : depth + 1 < depthLimit) :
    readValue (fuel + 1) depth c = (.object ⟨q, next.position⟩ none entries none, some next) := by
  have hdefect : depthDefect (depth + 1) ⟨'{' :: cs, q⟩ = none := if_neg (by omega)
  simp [readValue, hc, hentries, hdefect]

end Equations

mutual

theorem Spells.readValue {n : Nat} {value : Json} {cs : List Char} (h : Spells n value cs) {ws : List Char}
    (hws : Blank ws)
    {fuel depth : Nat} (hfuel : 2 * cs.length ≤ fuel) (hdepth : depth + n < depthLimit) {rest : List Char}
    (hrest : Numeral.Ends rest) (p : Position) :
    ∃ tree q, Cursor.readValue fuel depth ⟨ws ++ (cs ++ rest), p⟩ = (tree, some ⟨rest, q⟩) ∧ tree.check = .ok value := by
  obtain ⟨c, tail, rfl, hc, -⟩ := h.exists_cons
  rw [List.length_cons] at hfuel
  obtain ⟨q, hq⟩ := Cursor.toToken_append ws (c :: (tail ++ rest)) p hws (by rintro d ⟨⟩; exact hc)
  -- The opening character pays for this value; its parts are read with the fuel that is left.
  obtain ⟨fuel, rfl⟩ : ∃ k, fuel = k + 1 := ⟨fuel - 1, by omega⟩
  cases h with
  | @scalar n s cs h =>
    obtain ⟨span, q', hread⟩ := Cursor.readScalar_append h hrest q
    obtain ⟨_, _, ⟨⟩, -, -, hlist, hobject⟩ := h.exists_cons
    exact ⟨.scalar span s none, q', (Cursor.readValue_scalar hq hlist hobject).trans hread, rfl⟩
  | @array n items cs h =>
    have hfuel' : 2 * tail.length ≤ fuel := by omega
    have hdepth' : depth + 1 + n < depthLimit := by omega
    obtain ⟨trees, q', hread, hcheck⟩ := h.readItems .nil hfuel' hdepth' rest
      (Cursor.peekPosition ⟨'[' :: (tail ++ rest), q⟩)
    refine ⟨_, q', Cursor.readValue_array hq hread (by omega), ?_⟩
    rw [Tree.check, hcheck]
    rfl
  | @object n entries cs h =>
    have hfuel' : 2 * tail.length ≤ fuel := by omega
    have hdepth' : depth + 1 + n < depthLimit := by omega
    obtain ⟨trees, q', hread, hcheck⟩ := h.readEntries .nil hfuel' hdepth' rest
      (Cursor.peekPosition ⟨'{' :: (tail ++ rest), q⟩)
    refine ⟨_, q', Cursor.readValue_object hq hread (by omega), ?_⟩
    rw [Tree.check, hcheck]
    rfl

theorem SpellsItems.readItems {n : Nat} {first : Bool} {items : List Json} {cs : List Char}
    (h : SpellsItems n first items cs)
    {ws : List Char} (hws : Blank ws) {fuel depth : Nat} (hfuel : 2 * cs.length ≤ fuel)
    (hdepth : depth + n < depthLimit)
    (rest : List Char) (p : Position) :
    ∃ trees q, Cursor.readItems fuel depth first ⟨ws ++ (cs ++ rest), p⟩ = (trees, none, some ⟨rest, q⟩) ∧
      Tree.checkItems trees = .ok items := by
  have hpos := h.length_pos
  obtain ⟨fuel, rfl⟩ : ∃ k, fuel = k + 1 := ⟨fuel - 1, by omega⟩
  cases h with
  | @nil n first ws' hws' =>
    obtain ⟨q, hnext⟩ := Cursor.nextItem_close first (hws.append hws') rest p
    rw [List.append_assoc] at hnext
    exact ⟨[], q, by rw [List.append_assoc, Cursor.readItems, List.singleton_append, hnext], rfl⟩
  | @cons n first item items before cs after more hbefore hitem hafter hmore =>
    have hmorepos := hmore.length_pos
    obtain ⟨c, tail, rfl, hc, hclose⟩ := hitem.exists_cons
    simp only [List.length_append, List.length_cons] at hfuel
    obtain ⟨surplus, q, hnext⟩ := Cursor.nextItem_item first hws hbefore hc hclose (tail ++ (after ++ (more ++ rest))) p
    have hitemFuel : 2 * (c :: tail).length ≤ fuel := by rw [List.length_cons]; omega
    have hmoreFuel : 2 * more.length ≤ fuel := by omega
    obtain ⟨tree, q', hread, hcheck⟩ := hitem.readValue .nil hitemFuel hdepth (hmore.ends_append hafter rest) q
    obtain ⟨trees, q'', hreads, hchecks⟩ := hmore.readItems hafter hmoreFuel hdepth rest q'
    refine ⟨(surplus, tree) :: trees, q'', ?_, ?_⟩
    · simp only [List.append_assoc, List.nil_append, List.cons_append] at hnext hread hreads ⊢
      simp only [Cursor.readItems, hnext, hread, hreads]
    · simp only [Tree.checkItems, hcheck, hchecks]
      rfl

theorem SpellsEntries.readEntries {n : Nat} {first : Bool} {entries : List (String × Json)} {cs : List Char}
    (h : SpellsEntries n first entries cs) {ws : List Char} (hws : Blank ws) {fuel depth : Nat}
    (hfuel : 2 * cs.length ≤ fuel) (hdepth : depth + n < depthLimit) (rest : List Char) (p : Position) :
    ∃ trees q, Cursor.readEntries fuel depth first ⟨ws ++ (cs ++ rest), p⟩ = (trees, none, some ⟨rest, q⟩) ∧
      Tree.checkEntries trees = .ok entries := by
  have hpos := h.length_pos
  obtain ⟨fuel, rfl⟩ : ∃ k, fuel = k + 1 := ⟨fuel - 1, by omega⟩
  cases h with
  | @nil n first ws' hws' =>
    obtain ⟨q, hnext⟩ := Cursor.nextKey_close first (hws.append hws') rest p
    rw [List.append_assoc] at hnext
    exact ⟨[], q, by rw [List.append_assoc, Cursor.readEntries, List.singleton_append, hnext], rfl⟩
  | @cons n first key value entries before gap gap' cs after more hbefore hgap hgap' hvalue hafter hmore =>
    have hmorepos := hmore.length_pos
    simp only [List.length_append, List.length_cons] at hfuel
    obtain ⟨surplus, q, hnext⟩ := Cursor.nextKey_key first hws hbefore
      (key.toList.flatMap Text.escapedChar ++ '"' :: (gap ++ ':' :: (gap' ++ (cs ++ (after ++ (more ++ rest)))))) p
    obtain ⟨k, q', hkey, rfl, hdefect⟩ :=
      Cursor.readKey_append surplus key hgap (gap' ++ (cs ++ (after ++ (more ++ rest)))) q
    obtain ⟨q'', hcolon⟩ := Cursor.passColon_colon (gap' ++ (cs ++ (after ++ (more ++ rest)))) q'
    have hvalueFuel : 2 * cs.length ≤ fuel := by omega
    have hmoreFuel : 2 * more.length ≤ fuel := by omega
    obtain ⟨tree, q₃, hread, hcheck⟩ := hvalue.readValue hgap' hvalueFuel hdepth (hmore.ends_append hafter rest) q''
    obtain ⟨trees, q₄, hreads, hchecks⟩ := hmore.readEntries hafter hmoreFuel hdepth rest q₃
    refine ⟨(k, tree) :: trees, q₄, ?_, ?_⟩
    · simp only [Text.escapedChars, List.append_assoc, List.nil_append, List.cons_append] at hnext hkey hread hreads ⊢
      simp only [Cursor.readEntries, hnext, hkey, hcolon, hread, hreads]
    · simp only [Tree.checkEntries, hdefect, hcheck, hchecks]
      rfl

end

/-- A text of a value: one of the value's own texts, with blanks before and after it. -/
def IsText (text : String) (value : Json) : Prop :=
  ∃ n before cs after, n < depthLimit ∧ Blank before ∧ Spells n value cs ∧ Blank after ∧
    text.toList = before ++ (cs ++ after)

/-- A text of a value is read as a tree that holds the value, with nothing after it. -/
theorem IsText.ofText {value : Json} {text : String} (h : IsText text value) :
    ∃ tree, Reading.ofText text = ⟨tree, none⟩ ∧ tree.check = .ok value := by
  obtain ⟨n, before, cs, after, hn, hbefore, hcs, hafter, htext⟩ := h
  have hfuel : 2 * cs.length ≤ 2 * text.toList.length + 2 := by
    rw [htext, List.length_append, List.length_append]
    omega
  have hends : Numeral.Ends after := List.append_nil after ▸ hafter.ends_append nofun
  obtain ⟨tree, q, hread, hcheck⟩ := hcs.readValue hbefore hfuel (Nat.zero_add n ▸ hn) hends ⟨1, 0⟩
  obtain ⟨q', hq'⟩ := Cursor.toToken_append after [] q hafter nofun
  rw [List.append_nil] at hq'
  rw [← htext] at hread
  exact ⟨tree, by simp [Reading.ofText, Cursor.start, hread, hq'], hcheck⟩

end AgentWorkflow.Json

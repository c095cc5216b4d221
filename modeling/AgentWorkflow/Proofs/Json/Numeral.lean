import AgentWorkflow.Proofs.Json.Scanner

/-!
Numerals and their texts. The scan of a numeral is taken apart into its digits, its decimal places and its exponent; it
reads exactly the texts of numerals.
-/

namespace AgentWorkflow.Json.Numeral

open Cursor

inductive Fraction : Option (List Char) → List Char → Prop
  | none : Fraction none []
  | some {ds : List Char} : ds ≠ [] → (∀ d ∈ ds, d.isDigit) → Fraction (some ds) ('.' :: ds)

inductive Exponent : Option (Bool × List Char) → List Char → Prop
  | none : Exponent none []
  | plain {e : Char} {ds : List Char} : e = 'e' ∨ e = 'E' → ds ≠ [] → (∀ d ∈ ds, d.isDigit) →
      Exponent (some (false, ds)) (e :: ds)
  | signed {e sign : Char} {ds : List Char} : e = 'e' ∨ e = 'E' → sign = '-' ∨ sign = '+' → ds ≠ [] →
      (∀ d ∈ ds, d.isDigit) → Exponent (some (sign == '-', ds)) (e :: sign :: ds)

/-- The text of a numeral, without its sign. -/
inductive Spells (n : Numeral) : List Char → Prop
  | intro {fraction exponent : List Char} : n.whole ≠ [] → (∀ d ∈ n.whole, d.isDigit) →
      (∀ ds, n.whole = '0' :: ds → ds = []) → Fraction n.places fraction → Exponent n.exponent exponent →
      Spells n (n.whole ++ fraction ++ exponent)

/-- What follows a numeral does not go on with it. -/
def Ends (rest : List Char) : Prop :=
  ∀ c ∈ rest.head?, c.isDigit = false ∧ c ≠ '.' ∧ c ≠ 'e' ∧ c ≠ 'E'

theorem digits_append (ds rest : List Char) (p : Position) (hds : ∀ d ∈ ds, d.isDigit)
    (hrest : ∀ c ∈ rest.head?, c.isDigit = false) :
    Cursor.digits ⟨ds ++ rest, p⟩ = (ds, ⟨rest, ⟨p.line, p.column + ds.length⟩⟩) := by
  have htake : (ds ++ rest).takeWhile Char.isDigit = ds := by
    rw [List.takeWhile_append_of_pos hds]
    cases rest with
    | nil => simp
    | cons c tail => simp [hrest c rfl]
  have hdrop : (ds ++ rest).dropWhile Char.isDigit = rest := by
    rw [List.dropWhile_append_of_pos hds]
    cases rest with
    | nil => simp
    | cons c tail => simp [hrest c rfl]
  simp [Cursor.digits, htake, hdrop]

theorem digits_rest (c : Cursor) : c.rest = c.digits.1 ++ c.digits.2.rest :=
  (List.takeWhile_append_dropWhile).symm

theorem isDigit_of_mem_digits {c : Cursor} {d : Char} (h : d ∈ c.digits.1) : d.isDigit :=
  List.mem_takeWhile_imp h

/-- The part of the scan of a numeral that reads the digits after the point. -/
def readPlaces (c : Cursor) : Except (Fault × Fault) (Option (List Char) × Cursor) :=
  match c.rest with
  | '.' :: _ =>
    let (ds, next) := c.advance.digits
    if !ds.isEmpty then pure (some ds, next)
    else if next.rest.isEmpty then throw (next.peekFault .endOfValue, next.peekFault .badNumber)
    else throw (next.peekFault .badNumber, next.peekFault .badNumber)
  | _ => pure (none, c)

/-- The part of the scan of a numeral that reads the exponent. -/
def readExponent (c : Cursor) : Except (Fault × Fault) (Option (Bool × List Char) × Cursor) :=
  if !(c.rest.head? == some 'e' || c.rest.head? == some 'E') then pure (none, c)
  else
    let c := c.advance
    let down := c.rest.head? == some '-'
    let c := if down || c.rest.head? == some '+' then c.advance else c
    let (ds, next) := c.digits
    if !ds.isEmpty then pure (some (down, ds), next)
    else if c.rest.isEmpty then throw (c.fault .endOfValue, c.fault .badNumber)
    else throw (c.peekFault .badNumber, c.peekFault .badNumber)

theorem readPlaces_point {c : Cursor} {tail : List Char} (h : c.rest = '.' :: tail) : readPlaces c =
    if !c.advance.digits.1.isEmpty then pure (some c.advance.digits.1, c.advance.digits.2)
    else if c.advance.digits.2.rest.isEmpty then
      throw (c.advance.digits.2.peekFault .endOfValue, c.advance.digits.2.peekFault .badNumber)
    else throw (c.advance.digits.2.peekFault .badNumber, c.advance.digits.2.peekFault .badNumber) := by
  simp only [readPlaces, h]

theorem readPlaces_other {c : Cursor} (h : ∀ tail, c.rest = '.' :: tail → False) :
    readPlaces c = pure (none, c) := by
  unfold readPlaces
  split
  · exact (h _ ‹_›).elim
  · rfl

theorem numeral_eq (negative : Bool) (c : Cursor) : numeral negative c =
    match c.digits.1 with
    | [] =>
      if c.rest.isEmpty then throw (c.fault .endOfValue, c.fault .badNumber)
      else throw (c.peekFault .badNumber, c.peekFault .badNumber)
    | '0' :: _ :: _ => throw (c.advance.peekFault .badNumber, c.advance.peekFault .badNumber)
    | whole => do
      let (places, next) ← readPlaces c.digits.2
      let (exponent, next) ← readExponent next
      return (⟨negative, whole, places, exponent⟩, next) := by
  -- `numeral` reads the exponent in line, whether or not there are places before it.
  have hexponent (places : Option (List Char)) (whole : List Char) (c : Cursor) : (do
      let (exponent, next) ← readExponent c
      return ((⟨negative, whole, places, exponent⟩ : Numeral), next)) =
      (let marked := c.rest.head? == some 'e' || c.rest.head? == some 'E'
        if !marked then pure (⟨negative, whole, places, none⟩, c)
        else
        let c' := c.advance
        let down := c'.rest.head? == some '-'
        let c' := if down || c'.rest.head? == some '+' then c'.advance else c'
        let (ds, next) := c'.digits
        if !ds.isEmpty then pure (⟨negative, whole, places, some (down, ds)⟩, next)
        else if c'.rest.isEmpty then throw (c'.fault .endOfValue, c'.fault .badNumber)
        else throw (c'.peekFault .badNumber, c'.peekFault .badNumber)) := by
    unfold readExponent
    dsimp only
    split_ifs <;> rfl
  unfold numeral
  generalize c.digits = scanned
  obtain ⟨whole, next⟩ := scanned
  dsimp only
  split
  · rfl
  · rfl
  · simp only [hexponent]
    split
    · rename_i hpoint
      rw [readPlaces_point hpoint]
      split_ifs <;> rfl
    · rename_i hpoint
      rw [readPlaces_other hpoint]

theorem readPlaces_append {f : Option (List Char)} {cs rest : List Char} (h : Fraction f cs)
    (hrest : ∀ c ∈ rest.head?, c.isDigit = false ∧ c ≠ '.') (p : Position) :
    ∃ q, readPlaces ⟨cs ++ rest, p⟩ = .ok (f, ⟨rest, q⟩) := by
  cases h with
  | none =>
    refine ⟨p, readPlaces_other fun tail htail => ?_⟩
    have hhead : rest.head? = some '.' := by simpa using congrArg List.head? htail
    exact (hrest '.' hhead).2 rfl
  | @some ds hne hds =>
    have hscan := digits_append ds rest (peekPosition ⟨'.' :: ds ++ rest, p⟩) hds fun c hc => (hrest c hc).1
    have hadvance : advance ⟨'.' :: ds ++ rest, p⟩ = ⟨ds ++ rest, peekPosition ⟨'.' :: ds ++ rest, p⟩⟩ := rfl
    rw [readPlaces_point rfl, hadvance, hscan]
    exact ⟨_, if_pos (by simpa using hne)⟩

theorem readExponent_append {e : Option (Bool × List Char)} {cs rest : List Char} (h : Exponent e cs)
    (hrest : Ends rest) (p : Position) : ∃ q, readExponent ⟨cs ++ rest, p⟩ = .ok (e, ⟨rest, q⟩) := by
  cases h with
  | none =>
    refine ⟨p, if_pos ?_⟩
    cases rest with
    | nil => rfl
    | cons c tail =>
      obtain ⟨-, -, he, hE⟩ := hrest c rfl
      simp [he, hE]
  | @plain e ds he hne hds =>
    obtain ⟨d, more, rfl⟩ := List.exists_cons_of_ne_nil hne
    have hd : d.isDigit := hds d List.mem_cons_self
    have hminus : (d == '-') = false := beq_eq_false_iff_ne.2 (by rintro rfl; contradiction)
    have hplus : d ≠ '+' := by rintro rfl; contradiction
    have hscan := fun p => digits_append (d :: more) rest p hds fun c hc => (hrest c hc).1
    simp only [List.cons_append] at hscan
    rcases he with rfl | rfl <;> simp [readExponent, advance, hscan, hminus, hplus, pure, Except.pure]
  | @signed e sign ds he hsign hne hds =>
    obtain ⟨d, more, rfl⟩ := List.exists_cons_of_ne_nil hne
    have hscan := fun p => digits_append (d :: more) rest p hds fun c hc => (hrest c hc).1
    simp only [List.cons_append] at hscan
    rcases he with rfl | rfl <;> rcases hsign with rfl | rfl <;> simp [readExponent, advance, hscan, pure, Except.pure]

theorem Exponent.head_append {e : Option (Bool × List Char)} {cs rest : List Char} (h : Exponent e cs)
    (hr : Ends rest) : ∀ c ∈ (cs ++ rest).head?, c.isDigit = false ∧ c ≠ '.' := by
  intro c hc
  cases h with
  | none => exact ⟨(hr c hc).1, (hr c hc).2.1⟩
  | plain he | signed he =>
    obtain rfl := Option.some.inj hc
    rcases he with rfl | rfl <;> decide

theorem Fraction.head_append {f : Option (List Char)} {cs rest : List Char} (h : Fraction f cs)
    (hr : ∀ c ∈ rest.head?, c.isDigit = false) : ∀ c ∈ (cs ++ rest).head?, c.isDigit = false := by
  intro c hc
  cases h with
  | none => exact hr c hc
  | some =>
    obtain rfl := Option.some.inj hc
    decide

theorem numeral_append {n : Numeral} {cs rest : List Char} (h : Spells n cs) (hr : Ends rest) (p : Position) :
    ∃ q, numeral n.negative ⟨cs ++ rest, p⟩ = .ok (n, ⟨rest, q⟩) := by
  rcases h with @⟨fraction, exponent, hne, hwhole, hzero, hf, he⟩
  have hhead := he.head_append hr
  have hdigits := digits_append n.whole (fraction ++ (exponent ++ rest)) p hwhole
    (hf.head_append fun c hc => (hhead c hc).1)
  obtain ⟨q, hq⟩ := readPlaces_append hf hhead ⟨p.line, p.column + n.whole.length⟩
  obtain ⟨q', hq'⟩ := readExponent_append he hr q
  refine ⟨q', ?_⟩
  rw [numeral_eq, List.append_assoc, List.append_assoc, hdigits]
  dsimp only
  split
  · exact absurd ‹_› hne
  · rename_i hlong
    exact absurd (hzero _ hlong) (List.cons_ne_nil _ _)
  · simp only [hq, hq', bind, Except.bind, pure, Except.pure]

theorem fraction_of_readPlaces {c next : Cursor} {f : Option (List Char)} (h : readPlaces c = .ok (f, next)) :
    ∃ cs, c.rest = cs ++ next.rest ∧ Fraction f cs := by
  unfold readPlaces at h
  split at h
  · rename_i tail hpoint
    dsimp only at h
    split_ifs at h with hne
    · cases h
      refine ⟨'.' :: c.advance.digits.1, ?_, .some (by simpa using hne) fun d => isDigit_of_mem_digits⟩
      rw [List.cons_append, ← digits_rest]
      simp [advance, hpoint]
  · cases h
    exact ⟨[], rfl, .none⟩

theorem exponent_of_readExponent {c next : Cursor} {e : Option (Bool × List Char)}
    (h : readExponent c = .ok (e, next)) : ∃ cs, c.rest = cs ++ next.rest ∧ Exponent e cs := by
  unfold readExponent at h
  rcases c with ⟨_ | ⟨mark, rest⟩, p⟩
  · cases h
    exact ⟨[], rfl, .none⟩
  split at h
  · cases h
    exact ⟨[], rfl, .none⟩
  rename_i hnot
  have hmark : mark = 'e' ∨ mark = 'E' := by
    simpa [or_iff_not_imp_left] using hnot
  generalize hafter : advance ⟨mark :: rest, p⟩ = after at h
  obtain rfl : after.rest = rest := hafter ▸ rfl
  -- The digits of an exponent with a sign come after the sign.
  have hsigned {sign : Char} (hsign : sign = '-' ∨ sign = '+') (hhead : after.rest.head? = some sign)
      (hne : after.advance.digits.1 ≠ []) : ∃ cs, mark :: after.rest = cs ++ after.advance.digits.2.rest ∧
        Exponent (some (sign == '-', after.advance.digits.1)) cs := by
    have hrest : after.rest = sign :: after.advance.rest := by
      cases hrest : after.rest <;> simp_all [advance]
    refine ⟨mark :: sign :: after.advance.digits.1, ?_, .signed hmark hsign hne fun d => isDigit_of_mem_digits⟩
    rw [List.cons_append, List.cons_append, ← digits_rest, ← hrest]
  dsimp only at h
  cases hminus : after.rest.head? == some '-' with
  | true =>
    simp only [hminus, Bool.true_or, if_true] at h
    split_ifs at h with hds
    cases h
    exact hsigned (.inl rfl) (by simpa using hminus) (by simpa using hds)
  | false =>
    cases hplus : after.rest.head? == some '+' with
    | true =>
      simp only [hminus, hplus, Bool.or_true, if_true] at h
      split_ifs at h with hds
      cases h
      exact hsigned (.inr rfl) (by simpa using hplus) (by simpa using hds)
    | false =>
      simp only [hminus, hplus, Bool.or_false, Bool.false_eq_true, if_false] at h
      split_ifs at h with hds
      cases h
      refine ⟨mark :: after.digits.1, ?_, .plain hmark (by simpa using hds) fun d => isDigit_of_mem_digits⟩
      rw [List.cons_append, ← digits_rest]

theorem spells_of_numeral {negative : Bool} {c next : Cursor} {n : Numeral}
    (h : numeral negative c = .ok (n, next)) :
    n.negative = negative ∧ ∃ cs, c.rest = cs ++ next.rest ∧ Spells n cs := by
  rw [numeral_eq] at h
  split at h
  · split_ifs at h
  · contradiction
  · rename_i hnil hzero
    cases hplaces : readPlaces c.digits.2 with
    | error =>
      rw [hplaces] at h
      contradiction
    | ok r =>
      cases hexponent : readExponent r.2 with
      | error =>
        simp only [hplaces, hexponent, bind, Except.bind] at h
        contradiction
      | ok r' =>
        simp only [hplaces, hexponent, bind, Except.bind, pure, Except.pure, Except.ok.injEq, Prod.mk.injEq] at h
        obtain ⟨rfl, rfl⟩ := h
        obtain ⟨fraction, hfraction, hf⟩ := fraction_of_readPlaces hplaces
        obtain ⟨exponent, hexponent, he⟩ := exponent_of_readExponent hexponent
        refine ⟨rfl, c.digits.1 ++ fraction ++ exponent, ?_, .intro hnil (fun d => isDigit_of_mem_digits) ?_ hf he⟩
        · rw [digits_rest, hfraction, hexponent, List.append_assoc, List.append_assoc]
        · intro ds hds
          cases ds with
          | nil => rfl
          | cons d ds => exact (hzero d ds hds).elim

end AgentWorkflow.Json.Numeral

import AgentWorkflow.Proofs.Json.Printing
import AgentWorkflow.Proofs.Json.Records

/-!
Codecs that read back what they write. A value is read from any tree that holds what was written for it: straight from
the text, from memory, or from a part that was set aside.
-/

namespace AgentWorkflow.Json

/-- A value that a codec writes so that it can be printed, and that it reads back. -/
structure Codec.Restores {α : Type} (c : Codec α) (n : ℕ) (a : α) : Prop where
  fits : Fits n (c.encode a)
  decode_eq (origin : Origin) {tree : Tree} : tree.check = .ok (c.encode a) → c.decode origin tree = .ok a

namespace Codec.Restores

variable {α β : Type} {c : Codec α} {n : ℕ} {a : α}

theorem ofText_eq (h : c.Restores n a) {text : String} (htext : IsText text (c.encode a)) : c.ofText text = .ok a := by
  obtain ⟨tree, hread, hcheck⟩ := htext.ofText
  simp [Codec.ofText, hread, h.decode_eq .text hcheck, bind_eq_ok_iff, map_eq_ok_iff, refuse_eq_ok_iff]

theorem text (s : String) : Codec.text.Restores n s where
  fits := .string s
  decode_eq origin tree h := by
    obtain ⟨span, rfl⟩ := Tree.eq_scalar_of_check h
    rfl

theorem flag (b : Bool) : Codec.flag.Restores n b where
  fits := .bool b
  decode_eq origin tree h := by
    obtain ⟨span, rfl⟩ := Tree.eq_scalar_of_check h
    rfl

theorem real {x : Binary64} (hx : (Number.float x).ReadsBack) : Codec.real.Restores n x where
  fits := .number hx
  decode_eq origin tree h := by
    obtain ⟨span, rfl⟩ := Tree.eq_scalar_of_check h
    rfl

theorem word (w : UInt32) : Codec.word.Restores n w where
  fits := .number (.natural (lt_trans w.toNat_lt (by decide)))
  decode_eq origin tree h := by
    obtain ⟨span, rfl⟩ := Tree.eq_scalar_of_check h
    have hw : w.toNat < UInt32.size := w.toNat_lt
    simp [Codec.word, hw]

theorem optional {o : Option α} (h : ∀ a ∈ o, c.Restores n a ∧ c.encode a ≠ .null) : c.optional.Restores n o := by
  cases o with
  | none =>
    refine ⟨.null, fun origin tree hcheck => ?_⟩
    obtain ⟨span, rfl⟩ := Tree.eq_scalar_of_check hcheck
    rfl
  | some a =>
    obtain ⟨ha, hnull⟩ := h a rfl
    refine ⟨ha.fits, fun origin tree hcheck => ?_⟩
    have hdecode := ha.decode_eq origin hcheck
    unfold Codec.optional
    dsimp only
    split
    · exact absurd (Except.ok.inj hcheck).symm hnull
    · rw [hdecode]
      rfl

theorem optionalText (o : Option String) : Codec.text.optional.Restores n o :=
  .optional fun s _ => ⟨.text s, nofun⟩

theorem optionalWord (o : Option UInt32) : Codec.word.optional.Restores n o :=
  .optional fun w _ => ⟨.word w, nofun⟩

theorem optionalReal {o : Option Binary64} (h : ∀ x ∈ o, (Number.float x).ReadsBack) :
    Codec.real.optional.Restores n o :=
  .optional fun x hx => ⟨.real (h x hx), nofun⟩

theorem list {as : List α} (h : ∀ a ∈ as, c.Restores n a) : c.list.Restores (n + 1) as where
  fits := .array (List.forall_mem_map.2 fun a ha => (h a ha).fits)
  decode_eq origin tree hcheck := by
    obtain ⟨span, items, rfl, hitems⟩ := Tree.eq_array_of_check hcheck
    have hdecode : c.decodeItems origin items = .ok as := by
      clear hcheck
      induction as generalizing items with
      | nil =>
        cases hitems
        rfl
      | cons a as ih =>
        rw [List.map_cons] at hitems
        obtain ⟨⟨surplus, item⟩, items, hitem, hrest, rfl⟩ := List.forall₂_cons_right_iff.1 hitems
        have hrest' := ih (fun b hb => h b (List.mem_cons_of_mem a hb)) items hrest
        simp [decodeItems, bind_eq_ok_iff, (h a List.mem_cons_self).decode_eq origin hitem, hrest']
    simp [Codec.list, bind_eq_ok_iff, map_eq_ok_iff, refuse_eq_ok_iff, hdecode]

theorem put_eq_append {key : String} {value : α} {table : List (String × α)} (h : key ∉ table.map Prod.fst) :
    Entries.put key value table = table ++ [(key, value)] := by
  induction table with
  | nil => rfl
  | cons entry table ih =>
    obtain ⟨hne, hrest⟩ := not_or.1 (mt List.mem_cons.2 h)
    rw [Entries.put, if_neg hne, ih hrest, List.cons_append]

theorem decodeEntries_eq (origin : Origin) {entries : List (Key × Tree)} {values table : List (String × α)}
    (h : ∀ value ∈ values, c.Restores n value.2)
    (hentries : List.Forall₂ Tree.HoldsEntry entries (values.map fun (key, value) => (key, c.encode value)))
    (hkeys : ((table ++ values).map Prod.fst).Nodup) : c.decodeEntries origin table entries = .ok (table ++ values) := by
  induction values generalizing table entries with
  | nil =>
    cases hentries
    rw [List.append_nil]
    rfl
  | cons entry values ih =>
    obtain ⟨key, value⟩ := entry
    rw [List.map_cons] at hentries
    obtain ⟨⟨k, tree⟩, entries, ⟨hdefect, hname, hcheck⟩, hrest, rfl⟩ := List.forall₂_cons_right_iff.1 hentries
    have hdecode := (h (key, value) List.mem_cons_self).decode_eq origin hcheck
    have hnew : key ∉ table.map Prod.fst := by
      rw [List.map_append, List.nodup_append] at hkeys
      exact fun hmem => hkeys.2.2 key hmem key (by simp) rfl
    have happend : table ++ (key, value) :: values = (table ++ [(key, value)]) ++ values := by simp
    have hrest' := ih (fun v hv => h v (List.mem_cons_of_mem _ hv)) hrest (happend ▸ hkeys)
    change k.name = key at hname
    rw [decodeEntries, hdefect, hname, happend]
    simp [refuse, hdecode, put_eq_append hnew, bind_eq_ok_iff, hrest']

theorem table {values : List (String × α)} (h : ∀ value ∈ values, c.Restores n value.2)
    (hkeys : (values.map Prod.fst).Nodup) : c.table.Restores (n + 1) values where
  fits := .object (List.forall_mem_map.2 fun value hvalue => (h value hvalue).fits)
  decode_eq origin tree hcheck := by
    obtain ⟨span, entries, rfl, hentries⟩ := Tree.eq_object_of_check hcheck
    have hdecode : c.decodeEntries origin [] entries = .ok values := decodeEntries_eq origin h hentries hkeys
    simp [Codec.table, bind_eq_ok_iff, map_eq_ok_iff, refuse_eq_ok_iff, hdecode]

theorem choice {c : Choice α} (h : c.spellings.lookup (c.name a) = some a) : c.codec.Restores n a where
  fits := .string _
  decode_eq origin tree hcheck := by
    obtain ⟨span, rfl⟩ := Tree.eq_scalar_of_check hcheck
    simp [Choice.codec, Choice.pick, h, bind_eq_ok_iff, refuse_eq_ok_iff]

theorem map {there : α → β} {back : β → α} {b : β} (h : c.Restores n (back b)) (hb : there (back b) = b) :
    (c.map there back).Restores n b where
  fits := h.fits
  decode_eq origin tree hcheck := by
    change there <$> c.decode origin tree = .ok b
    rw [h.decode_eq origin hcheck]
    exact congrArg Except.ok hb

end Codec.Restores

section Records

variable {ρ σ α : Type} {n : ℕ}

/-- A field of a record is written so that it reads back, as the update that gives the record its value there. -/
structure Field.Restores (f : Field ρ) (n : ℕ) (r : ρ) (update : ρ → ρ) : Prop where
  fits : Fits n (f.encode r)
  decode_eq (origin : Origin) {tree : Tree} : tree.check = .ok (f.encode r) → f.decode origin tree = .ok update

theorem Field.Restores.of {name : String} {aliases : List String} {c : Codec α} {get : ρ → α} {set : α → ρ → ρ} {r : ρ}
    (h : c.Restores n (get r)) : (Field.of name aliases c get set).Restores n r (set (get r)) where
  fits := h.fits
  decode_eq origin tree hcheck := by
    change set <$> c.decode origin tree = _
    rw [h.decode_eq origin hcheck]
    rfl

theorem Field.Restores.require {f : Field ρ} {r : ρ} {update : ρ → ρ} (h : f.Restores n r update) :
    f.require.Restores n r update :=
  ⟨h.fits, h.decode_eq⟩

/-- The inner part of a record reads back, as an update of the record. -/
structure Inner.Restores (i : Inner ρ) (n : ℕ) (r : ρ) (update : ρ → ρ) : Prop where
  fits : ∀ entry ∈ i.encode r, Fits n entry.2
  decode_eq : i.decode (i.encode r) = .ok update

namespace Record

/-- A record whose entries read back. -/
structure Restores (r : Record ρ) (n : ℕ) (value : ρ) : Prop where
  fits : ∀ entry ∈ r.entries value, Fits n entry.2
  decodeObject_eq (origin : Origin) (stop : Position) {entries : List (Key × Tree)} :
    List.Forall₂ Tree.HoldsEntry entries (r.entries value) → r.decodeObject origin stop entries none = .ok value

theorem Restores.codec {r : Record ρ} {value : ρ} (h : r.Restores n value) : r.codec.Restores (n + 1) value where
  fits := .object h.fits
  decode_eq origin tree hcheck := by
    obtain ⟨span, entries, rfl, hentries⟩ := Tree.eq_object_of_check hcheck
    simp [Record.codec, refuse, bind_eq_ok_iff, h.decodeObject_eq origin span.stop hentries]

theorem Restores.inside {r : Record σ} {get : ρ → σ} {set : σ → ρ → ρ} {value : ρ} (h : r.Restores n (get value)) :
    (r.inside get set).Restores n value (set (get value)) where
  fits := h.fits
  decode_eq := by
    have hentries := Tree.checkEntries_eq_ok_iff.1 (Tree.checkEntries_ofEntries (r.entries (get value)))
    change set <$> r.decodeObject .aside Tree.nowhere (Tree.ofEntries (r.entries (get value))) none = _
    rw [h.decodeObject_eq .aside Tree.nowhere hentries]
    rfl

variable {r : Record ρ} {value : ρ}

/-- The entries that belong to no field are left to the inner record, as long as there is one. -/
theorem decodeEntries_others (origin : Origin) (p : Partial ρ) {entries : List (Key × Tree)}
    {others : List (String × Json)} (hentries : List.Forall₂ Tree.HoldsEntry entries others) (hinner : r.inner.isSome)
    (hothers : ∀ entry ∈ others, ∀ f ∈ r.fields, f.isNamed entry.1 = false) (rest : List (Key × Tree)) :
    r.decodeEntries origin p (entries ++ rest) =
      r.decodeEntries origin { p with others := p.others ++ others } rest := by
  induction hentries generalizing p with
  | nil => simp
  | @cons entry other entries others hentry hrest ih =>
    obtain ⟨key, tree⟩ := entry
    obtain ⟨hdefect, hname, hcheck⟩ := hentry
    have hfind : r.fields.find? (·.isNamed key.name) = none := by
      rw [List.find?_eq_none]
      exact fun f hf => by rw [hname, hothers other List.mem_cons_self f hf]; decide
    rw [List.cons_append, decodeEntries, hdefect]
    dsimp only at hname hcheck
    simp only [refuse, hfind, hinner, hcheck, bind, Except.bind, if_true]
    rw [ih _ fun e he => hothers e (List.mem_cons_of_mem other he), hname, List.append_assoc, List.singleton_append]

theorem decodeEntries_fields (origin : Origin) (p : Partial ρ) (hnames : r.Unambiguous) {entries : List (Key × Tree)}
    {fields : List (Field ρ)}
    {updates : List (ρ → ρ)} (hfields : List.Forall₂ (fun f update => f.Restores n value update) fields updates)
    (hentries : List.Forall₂ Tree.HoldsEntry entries (fields.map fun f => (f.name, f.encode value)))
    (hmem : fields ⊆ r.fields) (hseen : (p.seen.reverse ++ fields.map Field.name).Nodup) :
    r.decodeEntries origin p entries = .ok { p with
      value := updates.foldl (fun v update => update v) p.value
      seen := (p.seen.reverse ++ fields.map Field.name).reverse } := by
  induction hfields generalizing p entries with
  | nil =>
    cases hentries
    simp [decodeEntries]
  | @cons f update fields updates hf hrest ih =>
    rw [List.map_cons] at hentries
    obtain ⟨⟨key, tree⟩, entries, ⟨hdefect, hname, hcheck⟩, hmore, rfl⟩ := List.forall₂_cons_right_iff.1 hentries
    obtain ⟨hf', hmem⟩ := List.cons_subset.1 hmem
    change key.name = f.name at hname
    have hnew : f.name ∉ p.seen := by
      intro h
      rw [List.nodup_append] at hseen
      exact hseen.2.2 f.name (List.mem_reverse.2 h) f.name List.mem_cons_self rfl
    have happend : p.seen.reverse ++ (f :: fields).map Field.name =
        (f.name :: p.seen).reverse ++ fields.map Field.name := by simp
    rw [happend] at hseen ⊢
    rw [decodeEntries, hdefect, hname]
    simp only [refuse, hnames.find?_name hf', hf.decode_eq origin hcheck, List.contains_eq_mem, hnew, bind, Except.bind]
    exact ih _ hmore hmem hseen

theorem missing?_eq_none {seen : List String} (h : r.fields.map Field.name ⊆ seen) : r.missing? seen = none := by
  have hfind : (r.fields.find? fun f => f.required && !seen.contains f.name) = none := by
    rw [List.find?_eq_none]
    intro f hf
    simp [h (List.mem_map_of_mem hf)]
  rw [missing?, hfind]
  rfl

theorem fits_of_fields {fields : List (Field ρ)} {updates : List (ρ → ρ)}
    (h : List.Forall₂ (fun f update => f.Restores n value update) fields updates) :
    ∀ f ∈ fields, Fits n (f.encode value) :=
  ((List.forall₂_and_left _ _).1 (h.imp fun _ _ hf => ⟨hf.fits, hf⟩)).1

theorem restores_of_fields {updates : List (ρ → ρ)} (hnames : r.Unambiguous) (hinner : r.inner = none)
    (hfields : List.Forall₂ (fun f update => f.Restores n value update) r.fields updates)
    (hvalue : updates.foldl (fun v update => update v) r.initial = value) : r.Restores n value where
  fits := by
    simp only [entries, hinner, Option.map_none, Option.getD_none, List.nil_append, List.forall_mem_map]
    exact fits_of_fields hfields
  decodeObject_eq origin stop entries hentries := by
    rw [Record.entries, hinner] at hentries
    have hread := decodeEntries_fields origin ⟨r.initial, [], []⟩ hnames hfields hentries (fun _ => id) hnames.nodup_names
    have hmissing : r.missing? (r.fields.map Field.name).reverse = none := missing?_eq_none fun _ => List.mem_reverse.2
    simp only [List.reverse_nil, List.nil_append] at hread
    simp [decodeObject, hread, hmissing, hinner, hvalue, bind_eq_ok_iff, map_eq_ok_iff, refuse_eq_ok_iff]

/-- A record reads back when its fields and its inner record do, and no entry of the inner record is named like a
field. -/
theorem restores_of_inner {i : Inner ρ} {last : ρ → ρ} {updates : List (ρ → ρ)} (hnames : r.Unambiguous)
    (hinner : r.inner = some i) (hlast : i.Restores n value last) {keys : List String}
    (hkeys : (i.encode value).map Prod.fst = keys) (hothers : ∀ key ∈ keys, ∀ f ∈ r.fields, f.isNamed key = false)
    (hfields : List.Forall₂ (fun f update => f.Restores n value update) r.fields updates)
    (hvalue : last (updates.foldl (fun v update => update v) r.initial) = value) : r.Restores n value where
  fits := by
    simp only [entries, hinner, Option.map_some, Option.getD_some, List.forall_mem_append, List.forall_mem_map]
    exact ⟨hlast.fits, fits_of_fields hfields⟩
  decodeObject_eq origin stop entries hentries := by
    rw [Record.entries, hinner, Option.map_some, Option.getD_some] at hentries
    have hfront := List.forall₂_take_append _ _ _ hentries
    have hback := List.forall₂_drop_append _ _ _ hentries
    have hothers' := decodeEntries_others origin ⟨r.initial, [], []⟩ hfront (hinner ▸ rfl)
      (List.forall_mem_map.1 (hkeys ▸ hothers)) (entries.drop (i.encode value).length)
    have hread := decodeEntries_fields origin ⟨r.initial, [], i.encode value⟩ hnames hfields hback
      (fun _ => id) hnames.nodup_names
    have hmissing : r.missing? (r.fields.map Field.name).reverse = none := missing?_eq_none fun _ => List.mem_reverse.2
    rw [List.take_append_drop] at hothers'
    simp only [List.reverse_nil, List.nil_append] at hread hothers'
    simp [decodeObject, hothers', hread, hmissing, hinner, hlast.decode_eq, hvalue, bind_eq_ok_iff, map_eq_ok_iff,
      refuse_eq_ok_iff]

end Record

end Records

section TaggedUnions

variable {α : Type} {n : ℕ} {u : TaggedUnion α} {a : α}

/-- The content of a case reads back. -/
structure Case.Restores (case : Case α) (n : ℕ) (content : Json) (a : α) : Prop where
  fits : Fits n content
  decode_eq (origin : Origin) {tree : Tree} : tree.check = .ok content → case.decode origin tree = .ok a

theorem TaggedUnion.next_of_check {key : Key} {tree : Tree} {name : String} {value : Json} (rest : List (Key × Tree))
    (h : Tree.HoldsEntry (key, tree) (name, value)) (hname : name = u.tag ∨ name = u.content) :
    u.next none ((key, tree) :: rest) = .ok (some (key, tree, rest)) := by
  obtain ⟨hdefect, rfl, -⟩ := h
  dsimp only at hdefect
  simp only [TaggedUnion.next, hdefect, refuse, if_pos hname]
  rfl

theorem TaggedUnion.restores {case : Case α} (htag : u.tag ≠ u.content)
    (hcase : u.choice.spellings.lookup case.name = some case) (hname : (u.encode a).1 = case.name)
    (h : case.Restores n (u.encode a).2 a) : u.codec.Restores (n + 1) a := by
  have hencode : u.codec.encode a = .object [(u.tag, .string case.name), (u.content, (u.encode a).2)] := by
    rw [← hname]
    rfl
  refine ⟨?_, fun origin tree hcheck => ?_⟩
  · rw [hencode]
    refine .object (List.forall_mem_cons.2 ⟨.string _, List.forall_mem_singleton.2 h.fits⟩)
  · rw [hencode] at hcheck
    obtain ⟨span, entries, rfl, hentries⟩ := Tree.eq_object_of_check hcheck
    obtain ⟨⟨key, tag⟩, rest, hkey, hrest, rfl⟩ := List.forall₂_cons_right_iff.1 hentries
    obtain ⟨⟨key', content⟩, rest, hkey', hnone, rfl⟩ := List.forall₂_cons_right_iff.1 hrest
    cases hnone
    have hnext := TaggedUnion.next_of_check (u := u) [(key', content)] hkey (.inl rfl)
    have hnext' := TaggedUnion.next_of_check (u := u) [] hkey' (.inr rfl)
    have hchoice : u.choice.codec.Restores n case := .choice hcase
    obtain ⟨-, hkey, hcheck⟩ := hkey
    obtain ⟨-, hkey', hcheck'⟩ := hkey'
    have hfinish : u.finish none a [] = .ok a := rfl
    dsimp only at hkey hkey' hcheck hcheck'
    simp [TaggedUnion.codec, TaggedUnion.decodeObject, refuse, hnext, hkey, hchoice.decode_eq origin hcheck, hnext', hkey',
      htag.symm, h.decode_eq origin hcheck', hfinish, bind, Except.bind]

end TaggedUnions

end AgentWorkflow.Json

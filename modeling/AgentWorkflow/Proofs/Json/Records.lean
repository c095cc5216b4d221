import AgentWorkflow.Json.Record
import AgentWorkflow.Proofs.Json.Tree

/-!
Records read from objects: each field from the only entry with one of its keys, or left at its default.
-/

namespace AgentWorkflow.Json

/-- The values of the entries that have one of some keys. -/
def keyed (names : List String) (entries : List (String × Json)) : List Json :=
  (entries.filter fun entry => entry.1 ∈ names).map Prod.snd

variable {ρ α : Type}

namespace Field

def names (f : Field ρ) : List String :=
  f.name :: f.aliases

theorem isNamed_iff {f : Field ρ} {key : String} : f.isNamed key = true ↔ key ∈ f.names := by
  rw [isNamed, names, Bool.or_eq_true, beq_iff_eq, List.contains_iff_mem, List.mem_cons, eq_comm]

theorem name_mem_names (f : Field ρ) : f.name ∈ f.names :=
  List.mem_cons_self

end Field

namespace Record

/-- No key names two fields, or one field twice. -/
def Unambiguous (r : Record ρ) : Prop :=
  (r.fields.flatMap Field.names).Nodup

instance (r : Record ρ) : Decidable r.Unambiguous :=
  inferInstanceAs (Decidable (List.Nodup _))

variable {r : Record ρ} {f : Field ρ} {key : String}

theorem Unambiguous.find?_eq_some (h : r.Unambiguous) (hf : f ∈ r.fields) (hkey : key ∈ f.names) :
    r.fields.find? (·.isNamed key) = some f := by
  obtain ⟨before, after, hsplit⟩ := List.append_of_mem hf
  rw [Unambiguous, hsplit, List.flatMap_append, List.nodup_append] at h
  have hbefore : before.find? (·.isNamed key) = none := by
    rw [List.find?_eq_none]
    intro g hg hnamed
    have hg' : key ∈ before.flatMap Field.names := List.mem_flatMap.2 ⟨g, hg, Field.isNamed_iff.1 hnamed⟩
    have hf' : key ∈ (f :: after).flatMap Field.names := List.mem_flatMap.2 ⟨f, List.mem_cons_self, hkey⟩
    exact h.2.2 key hg' key hf' rfl
  simp [hsplit, hbefore, Field.isNamed_iff.2 hkey]

theorem Unambiguous.find?_name (h : r.Unambiguous) (hf : f ∈ r.fields) :
    r.fields.find? (·.isNamed f.name) = some f :=
  h.find?_eq_some hf f.name_mem_names

theorem mem_names_of_find? (h : r.fields.find? (·.isNamed key) = some f) : key ∈ f.names :=
  Field.isNamed_iff.1 (by simpa using List.find?_some h)

theorem Unambiguous.nodup_names (h : r.Unambiguous) : (r.fields.map Field.name).Nodup := by
  have hdisjoint := (List.nodup_flatMap.1 h).2
  refine List.pairwise_map.2 (hdisjoint.imp fun {f g} hfg heq => ?_)
  exact hfg f.name_mem_names (heq ▸ g.name_mem_names)

theorem Unambiguous.name_ne (h : r.Unambiguous) (hf : f ∈ r.fields) {g : Field ρ} (hg : g ∈ r.fields) (hne : f ≠ g) :
    f.name ≠ g.name := by
  intro hname
  have hfind := h.find?_name hg
  rw [← hname, h.find?_name hf] at hfind
  exact hne (Option.some.inj hfind)

theorem Unambiguous.not_mem_names (h : r.Unambiguous) (hf : f ∈ r.fields) {g : Field ρ}
    (hg : r.fields.find? (·.isNamed key) = some g) (hne : g ≠ f) : key ∉ f.names := by
  intro hkey
  rw [h.find?_eq_some hf hkey] at hg
  exact hne (Option.some.inj hg).symm

end Record

section Keyed

variable {names : List String} {key : String} {value : Json} {entries : List (String × Json)}

theorem keyed_cons_of_mem (h : key ∈ names) : keyed names ((key, value) :: entries) = value :: keyed names entries := by
  simp [keyed, h]

theorem keyed_cons_of_not_mem (h : key ∉ names) : keyed names ((key, value) :: entries) = keyed names entries := by
  simp [keyed, h]

end Keyed

/-- What a field is read as, from the values of its keys: the only one, or the default when there is none. -/
inductive Codec.ReadsField (c : Codec α) (default : Option α) : List Json → α → Prop
  | absent {a : α} : default = some a → ReadsField c default [] a
  | present {v : Json} {a : α} : c.decode .aside (.ofJson v) = .ok a → ReadsField c default [v] a

theorem Codec.ReadsField.unique {c : Codec α} {default : Option α} {values : List Json} {a b : α}
    (ha : c.ReadsField default values a) (hb : c.ReadsField default values b) : a = b := by
  cases ha with
  | absent ha =>
    cases hb with
    | absent hb => exact Option.some.inj (ha.symm.trans hb)
  | present ha =>
    cases hb with
    | present hb => exact Except.ok.inj (ha.symm.trans hb)

/-- A part of a record that one field sets, from what a codec reads, and that no other field changes. -/
structure Record.Holds (r : Record ρ) (f : Field ρ) (c : Codec α) (get : ρ → α) : Prop where
  mem : f ∈ r.fields
  decode_iff {tree : Tree} : (∃ update, f.decode .aside tree = .ok update) ↔ ∃ a, c.decode .aside tree = .ok a
  get_update {tree : Tree} {update : ρ → ρ} (value : ρ) : f.decode .aside tree = .ok update →
    c.decode .aside tree = .ok (get (update value))
  get_other {g : Field ρ} {tree : Tree} {update : ρ → ρ} (value : ρ) : g ∈ r.fields → g ≠ f →
    g.decode .aside tree = .ok update → get (update value) = get value

namespace Record

variable {r : Record ρ} {f : Field ρ} {c : Codec α} {get : ρ → α}

theorem decodeEntries_cons_field {p : Partial ρ} {key : String} {v : Json} {entries : List (String × Json)} {g : Field ρ}
    (hg : r.fields.find? (·.isNamed key) = some g) {result : Partial ρ} :
    r.decodeEntries .aside p (Tree.ofEntries ((key, v) :: entries)) = .ok result ↔ g.name ∉ p.seen ∧ ∃ update,
      g.decode .aside (.ofJson v) = .ok update ∧ r.decodeEntries .aside
        { p with value := update p.value, seen := g.name :: p.seen } (Tree.ofEntries entries) = .ok result := by
  rw [Tree.ofEntries, decodeEntries]
  simp only [refuse, hg, List.contains_eq_mem, decide_eq_true_eq]
  by_cases hseen : g.name ∈ p.seen
  · simp [hseen, bind, Except.bind, throw, throwThe, MonadExceptOf.throw]
  · simp [hseen, bind_eq_ok_iff]

theorem decodeEntries_cons_other {p : Partial ρ} {key : String} {v : Json} {entries : List (String × Json)}
    (hg : r.fields.find? (·.isNamed key) = none) (hinner : r.inner = none) :
    r.decodeEntries .aside p (Tree.ofEntries ((key, v) :: entries)) =
      r.decodeEntries .aside p (Tree.ofEntries entries) := by
  rw [Tree.ofEntries, decodeEntries]
  simp [refuse, hg, hinner, Tree.skip_ofJson, bind, Except.bind]

/-- What reading entries does to the part of a field: nothing when none has a key of it, else it comes from the only
one. -/
theorem decodeEntries_holds (hr : r.Unambiguous) (hinner : r.inner = none) (hf : r.Holds f c get)
    {entries : List (String × Json)} {p result : Partial ρ}
    (h : r.decodeEntries .aside p (Tree.ofEntries entries) = .ok result) :
    (keyed f.names entries = [] ∧ get result.value = get p.value ∧ (f.name ∈ result.seen ↔ f.name ∈ p.seen)) ∨
      f.name ∉ p.seen ∧ f.name ∈ result.seen ∧
        ∃ v, keyed f.names entries = [v] ∧ c.decode .aside (.ofJson v) = .ok (get result.value) := by
  induction entries generalizing p with
  | nil =>
    cases h
    exact .inl ⟨rfl, rfl, .rfl⟩
  | cons entry entries ih =>
    obtain ⟨key, v⟩ := entry
    cases hg : r.fields.find? (·.isNamed key) with
    | none =>
      rw [decodeEntries_cons_other hg hinner] at h
      have hkey : key ∉ f.names := fun hkey =>
        List.find?_eq_none.1 hg f hf.mem (Field.isNamed_iff.2 hkey)
      rw [keyed_cons_of_not_mem hkey]
      exact ih h
    | some g =>
      obtain ⟨hnew, update, hdecode, hrest⟩ := (decodeEntries_cons_field hg).1 h
      have hgmem := List.mem_of_find?_eq_some hg
      by_cases hgf : g = f
      · subst hgf
        have hkey := mem_names_of_find? hg
        rw [keyed_cons_of_mem hkey]
        -- A second entry of the field would have been refused, so the value of this one is kept.
        rcases ih hrest with ⟨hnone, hget, hseen⟩ | ⟨hnew', -⟩
        · refine .inr ⟨hnew, hseen.2 List.mem_cons_self, v, by rw [hnone], ?_⟩
          rw [hget]
          exact hf.get_update p.value hdecode
        · exact absurd List.mem_cons_self hnew'
      · have hname := hr.name_ne hgmem hf.mem hgf
        have hget := hf.get_other p.value hgmem hgf hdecode
        rw [keyed_cons_of_not_mem (hr.not_mem_names hf.mem hg hgf)]
        have hih := ih hrest
        simp only [List.mem_cons, hname.symm, false_or, hget] at hih
        exact hih

theorem exists_decodeEntries (hr : r.Unambiguous) (hinner : r.inner = none) {entries : List (String × Json)}
    {p : Partial ρ}
    (h : ∀ f ∈ r.fields, keyed f.names entries = [] ∨ f.name ∉ p.seen ∧ ∃ v update, keyed f.names entries = [v] ∧
      f.decode .aside (.ofJson v) = .ok update) :
    ∃ result, r.decodeEntries .aside p (Tree.ofEntries entries) = .ok result := by
  induction entries generalizing p with
  | nil => exact ⟨p, rfl⟩
  | cons entry entries ih =>
    obtain ⟨key, v⟩ := entry
    cases hg : r.fields.find? (·.isNamed key) with
    | none =>
      rw [decodeEntries_cons_other hg hinner]
      refine ih fun f hf => ?_
      have hkey : key ∉ f.names := fun hkey => List.find?_eq_none.1 hg f hf (Field.isNamed_iff.2 hkey)
      simpa only [keyed_cons_of_not_mem hkey] using h f hf
    | some g =>
      have hgmem := List.mem_of_find?_eq_some hg
      have hkey := mem_names_of_find? hg
      have hgread := h g hgmem
      rw [keyed_cons_of_mem hkey] at hgread
      obtain ⟨hnew, v', update, hv, hdecode⟩ := hgread.resolve_left (List.cons_ne_nil _ _)
      obtain ⟨rfl, hnone⟩ := List.cons.inj hv
      -- No other field is touched, since none shares its names with this one.
      have hrest : ∀ f ∈ r.fields, keyed f.names entries = [] ∨ f.name ∉ g.name :: p.seen ∧ ∃ v update,
          keyed f.names entries = [v] ∧ f.decode .aside (.ofJson v) = .ok update := by
        intro f hf
        by_cases hgf : g = f
        · exact .inl (hgf ▸ hnone)
        · have hname := hr.name_ne hgmem hf hgf
          simpa only [keyed_cons_of_not_mem (hr.not_mem_names hf hg hgf), List.mem_cons, hname.symm, false_or]
            using h f hf
      obtain ⟨result, hresult⟩ := ih (p := { p with value := update p.value, seen := g.name :: p.seen }) hrest
      exact ⟨result, (decodeEntries_cons_field hg).2 ⟨hnew, update, hdecode, hresult⟩⟩

theorem decodeObject_eq_ok_iff (hinner : r.inner = none) {entries : List (String × Json)} {stop : Position} {value : ρ} :
    r.decodeObject .aside stop (Tree.ofEntries entries) none = .ok value ↔ ∃ result,
      r.decodeEntries .aside ⟨r.initial, [], []⟩ (Tree.ofEntries entries) = .ok result ∧
        r.missing? result.seen = none ∧ result.value = value := by
  simp [decodeObject, hinner, bind_eq_ok_iff, map_eq_ok_iff, refuse_eq_ok_iff]

theorem missing?_eq_none_iff {seen : List String} :
    r.missing? seen = none ↔ ∀ f ∈ r.fields, f.required → f.name ∈ seen := by
  simp [missing?]

/-- The default of a part, unless its field is required. -/
def default? (r : Record ρ) (f : Field ρ) (get : ρ → α) : Option α :=
  if f.required then none else some (get r.initial)

theorem readsField_of_decodeObject (hr : r.Unambiguous) (hinner : r.inner = none) (hf : r.Holds f c get)
    {entries : List (String × Json)} {stop : Position} {value : ρ}
    (h : r.decodeObject .aside stop (Tree.ofEntries entries) none = .ok value) :
    c.ReadsField (r.default? f get) (keyed f.names entries) (get value) := by
  obtain ⟨result, hresult, hmissing, rfl⟩ := (decodeObject_eq_ok_iff hinner).1 h
  rcases decodeEntries_holds hr hinner hf hresult with ⟨hnone, hget, hseen⟩ | ⟨-, -, v, hv, hdecode⟩
  · rw [hnone]
    refine .absent ?_
    cases hrequired : f.required with
    | true =>
      have hmem := hseen.1 (missing?_eq_none_iff.1 hmissing f hf.mem hrequired)
      contradiction
    | false => simp [default?, hrequired, hget]
  · rw [hv]
    exact .present hdecode

theorem exists_decodeObject (hr : r.Unambiguous) (hinner : r.inner = none) {entries : List (String × Json)}
    (stop : Position)
    (h : ∀ f ∈ r.fields, ∃ (α : Type) (c : Codec α) (get : ρ → α) (a : α),
      r.Holds f c get ∧ c.ReadsField (r.default? f get) (keyed f.names entries) a) :
    ∃ value, r.decodeObject .aside stop (Tree.ofEntries entries) none = .ok value := by
  have hread : ∀ f ∈ r.fields, keyed f.names entries = [] ∨ f.name ∉ ([] : List String) ∧ ∃ v update,
      keyed f.names entries = [v] ∧ f.decode .aside (.ofJson v) = .ok update := by
    intro f hf
    obtain ⟨α, c, get, a, hget, hread⟩ := h f hf
    generalize keyed f.names entries = values at hread
    cases hread with
    | absent => exact .inl rfl
    | @present v a hdecode =>
      obtain ⟨update, hupdate⟩ := hget.decode_iff.2 ⟨a, hdecode⟩
      exact .inr ⟨List.not_mem_nil, v, update, rfl, hupdate⟩
  obtain ⟨result, hresult⟩ := exists_decodeEntries (p := ⟨r.initial, [], []⟩) hr hinner hread
  have hmissing : r.missing? result.seen = none := by
    refine missing?_eq_none_iff.2 fun f hf hrequired => ?_
    obtain ⟨α, c, get, a, hget, hread⟩ := h f hf
    rcases decodeEntries_holds hr hinner hget hresult with ⟨hnone, -⟩ | ⟨-, hseen, -⟩
    · rw [hnone] at hread
      cases hread with
      | absent hdefault => simp [default?, hrequired] at hdefault
    · exact hseen
  exact ⟨result.value, (decodeObject_eq_ok_iff hinner).2 ⟨result, hresult, hmissing, rfl⟩⟩

theorem Holds.intro (set : α → ρ → ρ) (hmem : f ∈ r.fields)
    (hdecode : ∀ tree, f.decode .aside tree = set <$> c.decode .aside tree) (hset : ∀ a value, get (set a value) = a)
    (hother : ∀ g ∈ r.fields, g ≠ f → ∀ tree update, g.decode .aside tree = .ok update → ∀ value,
      get (update value) = get value) : r.Holds f c get where
  mem := hmem
  decode_iff {tree} := by simp [hdecode, map_eq_ok_iff]
  get_update {tree update} value h := by
    rw [hdecode, map_eq_ok_iff] at h
    obtain ⟨a, ha, rfl⟩ := h
    rw [ha, hset]
  get_other {g tree update} value hg hne h := hother g hg hne tree update h value

theorem decode_object_iff_of_pair {β : Type} {g : Field ρ} {d : Codec β} {get' : ρ → β} (hfields : r.fields = [f, g])
    (hr : r.Unambiguous) (hinner : r.inner = none) (hf : r.Holds f c get) (hg : r.Holds g d get')
    (hext : ∀ v w, get v = get w → get' v = get' w → v = w) {entries : List (String × Json)} {value : ρ} :
    r.codec.decode .aside (.ofJson (.object entries)) = .ok value ↔
      c.ReadsField (r.default? f get) (keyed f.names entries) (get value) ∧
        d.ReadsField (r.default? g get') (keyed g.names entries) (get' value) := by
  have hcodec : r.codec.decode .aside (.ofJson (.object entries)) =
      r.decodeObject .aside Tree.nowhere (Tree.ofEntries entries) none := by
    simp [Record.codec, Tree.ofJson, refuse, bind, Except.bind]
  rw [hcodec]
  constructor
  · intro h
    exact ⟨readsField_of_decodeObject hr hinner hf h, readsField_of_decodeObject hr hinner hg h⟩
  · rintro ⟨hreadf, hreadg⟩
    have hread : ∀ f ∈ r.fields, ∃ (α : Type) (c : Codec α) (get : ρ → α) (a : α),
        r.Holds f c get ∧ c.ReadsField (r.default? f get) (keyed f.names entries) a := by
      rw [hfields, List.forall_mem_cons, List.forall_mem_singleton]
      exact ⟨⟨α, c, get, get value, hf, hreadf⟩, ⟨β, d, get', get' value, hg, hreadg⟩⟩
    obtain ⟨value', h⟩ := exists_decodeObject hr hinner Tree.nowhere hread
    have hvalue : value' = value := hext value' value
      ((readsField_of_decodeObject hr hinner hf h).unique hreadf)
      ((readsField_of_decodeObject hr hinner hg h).unique hreadg)
    rw [h, hvalue]

end Record

end AgentWorkflow.Json

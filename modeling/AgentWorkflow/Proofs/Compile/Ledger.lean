import AgentWorkflow.Proofs.Compile.Demand

/-!
The order in which parts are declared.

A ledger lists the demands that were met, each with the fragment that declares its part. In a sound ledger
everything that a part demands stands before it, and the function that wraps a node holds the fragments
put inside it until then. So the first function that wraps a node holds all of them, and later ones none.
-/

namespace AgentWorkflow

/-- Whether a demand is for a function that wraps a node. -/
def Demand.wraps (q : Demand) (id : String) : Bool :=
  q.id = id ∧ q.part = .wrapper

theorem Demand.wraps_iff {q : Demand} {id : String} : q.wraps id = true ↔ q.id = id ∧ q.part = .wrapper := by
  simp [wraps]

/-- The node whose wrapping function a place is in. -/
def Place.owner? : Place → Option String
  | .wrapper owner _ => some owner
  | _ => none

theorem Place.eq_wrapper_of_owner? {p : Place} {owner : String} (h : p.owner? = some owner) :
    ∃ isOpen, p = .wrapper owner isOpen := by
  cases p with
  | wrapper x isOpen => exact ⟨isOpen, by rw [Option.some.inj h]⟩
  | _ => cases h

/-- The demands that were met, in order, with the fragments that declare the parts. -/
abbrev Ledger := List (Demand × Fragment)

namespace Ledger

variable (l : Ledger)

/-- The demands that were met. -/
def keys : List Demand := l.map Prod.fst

def fragmentsAt (place : Place) : List Fragment :=
  (l.filter fun e => e.1.place = place).map Prod.snd

/-- The fragments with their places, in order. -/
def emissions : List (Place × Fragment) :=
  l.map fun e => (e.1.place, e.2)

def isWrapped (id : String) : Bool :=
  l.keys.any (·.wraps id)

/-- The place at which a node was wrapped first. -/
def home? (id : String) : Option Place :=
  (l.keys.find? (·.wraps id)).map Demand.place

/-- The fragments at a place that no function has taken into it. -/
def pending (place : Place) : List Fragment :=
  if place.owner?.any l.isWrapped then [] else l.fragmentsAt place

variable {l} {q : Demand} {f : Fragment} {place : Place} {id : String}

@[simp]
theorem keys_append (l l' : Ledger) : (l ++ l').keys = l.keys ++ l'.keys :=
  List.map_append

theorem emissions_snoc : emissions (l ++ [(q, f)]) = l.emissions ++ [(q.place, f)] := by
  simp [emissions]

theorem mem_keys_of_mem (h : (q, f) ∈ l) : q ∈ l.keys :=
  List.mem_map.mpr ⟨_, h, rfl⟩

theorem exists_of_mem_keys (h : q ∈ l.keys) : ∃ f, (q, f) ∈ l := by
  obtain ⟨⟨q', f⟩, hm, rfl⟩ := List.mem_map.mp h
  exact ⟨f, hm⟩

theorem mem_fragmentsAt : f ∈ l.fragmentsAt place ↔ ∃ q, (q, f) ∈ l ∧ q.place = place := by
  simp [fragmentsAt]

theorem fragmentsAt_split {earlier later : List Fragment} (h : l.fragmentsAt place = earlier ++ f :: later) :
    ∃ before q after, l = before ++ (q, f) :: after ∧ q.place = place ∧ fragmentsAt before place = earlier := by
  obtain ⟨l₁, l₂, hl, rfl, h₂⟩ := List.map_eq_append_iff.mp h
  obtain ⟨⟨q, f'⟩, l₃, rfl, rfl, -⟩ := List.map_eq_cons_iff.mp h₂
  obtain ⟨k₁, k₂, rfl, rfl, hk⟩ := List.filter_eq_append_iff.mp hl
  obtain ⟨m₁, m₂, rfl, hm, hq, -⟩ := List.filter_eq_cons_iff.mp hk
  refine ⟨k₁ ++ m₁, q, m₂, by rw [List.append_assoc], of_decide_eq_true hq, ?_⟩
  have hnil : m₁.filter (fun e => e.1.place = place) = [] := List.filter_eq_nil_iff.mpr hm
  rw [fragmentsAt, List.filter_append, hnil, List.append_nil]

theorem fragmentsAt_snoc :
    fragmentsAt (l ++ [(q, f)]) place =
      if q.place = place then l.fragmentsAt place ++ [f] else l.fragmentsAt place := by
  by_cases h : q.place = place <;> simp [fragmentsAt, h]

theorem isWrapped_iff : l.isWrapped id = true ↔ ∃ s, ⟨id, s, .wrapper⟩ ∈ l.keys := by
  simp only [isWrapped, List.any_eq_true, Demand.wraps_iff]
  constructor
  · rintro ⟨⟨_, s, _⟩, hq, rfl, rfl⟩
    exact ⟨s, hq⟩
  · exact fun ⟨s, hs⟩ => ⟨_, hs, rfl, rfl⟩

theorem isWrapped_snoc : isWrapped (l ++ [(q, f)]) id = (l.isWrapped id || q.wraps id) := by
  simp [isWrapped, keys]

theorem home?_eq_none : l.home? id = none ↔ l.isWrapped id = false := by
  simp [home?, isWrapped]

theorem home?_snoc :
    home? (l ++ [(q, f)]) id = (l.home? id <|> if q.wraps id then some q.place else none) := by
  simp only [home?, keys_append, List.find?_append, Option.map_or, Option.orElse_eq_orElse,
    Option.orElse_eq_or]
  congr 1
  by_cases h : q.wraps id <;> simp [keys, h]

/-- One more entry adds its fragment at its place, if no function has taken the fragments there; and one
that wraps a node takes those put inside it. -/
theorem pending_snoc (h : ∀ owner, q.place.owner? = some owner → l.isWrapped owner = false) :
    pending (l ++ [(q, f)]) place =
      if q.part = .wrapper ∧ place.owner? = some q.id then []
      else if q.place = place then l.pending place ++ [f] else l.pending place := by
  have hw : place.owner?.any (isWrapped (l ++ [(q, f)])) =
      (place.owner?.any l.isWrapped || decide (q.part = .wrapper ∧ place.owner? = some q.id)) := by
    cases place.owner? with
    | none => simp
    | some owner => simp [isWrapped_snoc, Demand.wraps, and_comm, eq_comm]
  by_cases hq : q.part = .wrapper ∧ place.owner? = some q.id
  · rw [if_pos hq, pending, hw, decide_eq_true hq, Bool.or_true, if_pos rfl]
  · rw [if_neg hq, pending, hw, decide_eq_false hq, Bool.or_false, fragmentsAt_snoc, pending]
    by_cases hp : q.place = place
    · have hn : place.owner?.any l.isWrapped = false := by
        cases ho : place.owner? with
        | none => rfl
        | some owner => exact h owner (hp ▸ ho)
      simp [hn, hp]
    · rw [if_neg hp, if_neg hp]

end Ledger

namespace Blueprint

variable (b : Blueprint) (first : List Demand)

/-- Each entry of a ledger meets a demand whose own demands were met before. -/
inductive Sound : Ledger → Prop
  | nil : Sound []
  | snoc {l : Ledger} {q : Demand} : Sound l → q ∉ l.keys → b.demandsOf q ⊆ l.keys →
    b.Demanded first q → b.Fits q.id →
    Sound (l ++ [(q, b.fragmentOf (l.pending (b.innerPlace q.id)) q)])

variable {b first} {l : Ledger} {q : Demand} {f : Fragment} {servers : List String} {place : Place}

theorem Within.of_owner {id owner : String} (h : b.Within servers id place) (ho : place.owner? = some owner) :
    place = b.innerPlace owner ∧ b.index.IsBelow id owner := by
  obtain ⟨isOpen, rfl⟩ := Place.eq_wrapper_of_owner? ho
  exact ⟨by rw [innerPlace, h.1], h.2⟩

theorem Within.owner_ne {id : String} (hb : b.Coherent) (h : b.Within servers id place) :
    place.owner? ≠ some id :=
  fun ho => hb.acyclic _ (h.of_owner ho).2

namespace Sound

theorem demandsOf_subset (h : b.Sound first l) {before after : Ledger} (he : l = before ++ (q, f) :: after) :
    b.demandsOf q ⊆ before.keys := by
  induction h generalizing before after with
  | nil => simp at he
  | @snoc l p _ _ hd _ _ ih =>
    rcases List.eq_nil_or_concat after with rfl | ⟨after, e, rfl⟩
    · obtain ⟨rfl, hq⟩ := List.append_inj' he rfl
      obtain ⟨rfl, -⟩ := Prod.mk.inj (List.head_eq_of_cons_eq hq)
      exact hd
    · rw [List.concat_eq_append, ← List.cons_append, ← List.append_assoc] at he
      exact ih (List.append_inj' he rfl).1

theorem closed (h : b.Sound first l) : ∀ p ∈ l.keys, b.demandsOf p ⊆ l.keys := by
  intro p hp
  obtain ⟨f, hf⟩ := Ledger.exists_of_mem_keys hp
  obtain ⟨before, after, he⟩ := List.append_of_mem hf
  intro q hq
  rw [he, Ledger.keys_append]
  exact List.mem_append_left _ (h.demandsOf_subset he hq)

theorem demanded (h : b.Sound first l) (hq : q ∈ l.keys) : b.Demanded first q ∧ b.Fits q.id := by
  induction h with
  | nil => cases hq
  | snoc _ _ _ hd hf ih =>
    rw [Ledger.keys_append] at hq
    rcases List.mem_append.mp hq with hq | hq
    · exact ih hq
    · obtain rfl := List.mem_singleton.mp hq
      exact ⟨hd, hf⟩

theorem keys_nodup (h : b.Sound first l) : l.keys.Nodup := by
  induction h with
  | nil => exact List.nodup_nil
  | snoc _ hn _ _ _ ih =>
    rw [Ledger.keys_append]
    exact List.nodup_append.mpr ⟨ih, List.nodup_singleton _, fun p hp p' hp' => by
      rw [List.mem_singleton.mp hp']
      rintro rfl
      exact hn hp⟩

/-- What holds of all parts, and of the function that wraps a node if it holds of the fragments put inside
it, holds of all entries. -/
theorem induction {motive : Demand → Fragment → Prop} (h : b.Sound first l)
    (part : ∀ q ∈ l.keys, q.part ≠ .wrapper → motive q (b.fragmentOf [] q))
    (wrapper : ∀ q ∈ l.keys, q.part = .wrapper → ∀ inside : List Fragment,
      (∀ f ∈ inside, ∃ p, (p, f) ∈ l ∧ p.place = b.innerPlace q.id ∧ motive p f) →
      motive q (b.fragmentOf inside q)) (hm : (q, f) ∈ l) : motive q f := by
  induction h generalizing q f with
  | nil => cases hm
  | @snoc l p _ _ _ _ _ ih =>
    have hl {q : Demand} {f : Fragment} (hq : (q, f) ∈ l) : motive q f := by
      refine ih (fun q hq => part q ?_) (fun q hq hw inside hin => wrapper q ?_ hw inside ?_) hq
      · exact List.mem_map.mpr (by simpa [Ledger.keys] using Or.inl (List.mem_map.mp hq))
      · exact List.mem_map.mpr (by simpa [Ledger.keys] using Or.inl (List.mem_map.mp hq))
      · exact fun f hf => (hin f hf).imp fun _ h => ⟨List.mem_append_left _ h.1, h.2⟩
    rcases List.mem_append.mp hm with hm | hm
    · exact hl hm
    · obtain ⟨rfl, rfl⟩ := Prod.mk.inj (List.mem_singleton.mp hm)
      have hk : q ∈ Ledger.keys (l ++ [(q, b.fragmentOf (l.pending (b.innerPlace q.id)) q)]) := by
        simp [Ledger.keys]
      by_cases hw : q.part = .wrapper
      · refine wrapper q hk hw _ fun f hf => ?_
        have hf : f ∈ l.fragmentsAt (b.innerPlace q.id) := by
          rw [Ledger.pending] at hf
          split_ifs at hf
          · cases hf
          · exact hf
        obtain ⟨p, hp, hpl⟩ := Ledger.mem_fragmentsAt.mp hf
        exact ⟨p, List.mem_append_left _ hp, hpl, hl hp⟩
      · rw [fragmentOf_of_not_wrapper hw _ []]
        exact part q hk hw

theorem exists_inside (h : b.Sound first l) (hm : (q, f) ∈ l) : ∃ inside, f = b.fragmentOf inside q :=
  h.induction (motive := fun q f => ∃ inside, f = b.fragmentOf inside q) (fun _ _ _ => ⟨[], rfl⟩)
    (fun _ _ _ inside _ => ⟨inside, rfl⟩) hm

theorem part_eq (h : b.Sound first l) (hm : (q, f) ∈ l) (hq : q.part ≠ .wrapper) : f = b.fragmentOf [] q := by
  obtain ⟨inside, rfl⟩ := h.exists_inside hm
  exact fragmentOf_of_not_wrapper hq _ _

theorem not_wrapped (h : b.Sound first l) (ha : b.Agenda servers first) (hd : b.Demanded first q)
    (hq : q ∉ l.keys) {owner : String} (ho : q.place.owner? = some owner) :
    l.isWrapped owner = false := by
  by_contra hw
  obtain ⟨s, hs⟩ := Ledger.isWrapped_iff.mp (Bool.not_eq_false _ ▸ hw)
  obtain ⟨isOpen, hp⟩ := Place.eq_wrapper_of_owner? ho
  exact hq (hd.mem_of_closed h.closed ha.outside hp hs)

theorem pending_eq_nil (hb : b.Coherent) (h : b.Sound first l) (ha : b.Agenda servers first)
    {p : Place} {id : String} (ho : p.owner? = some id) (hp : p ≠ b.innerPlace id) :
    l.pending p = [] := by
  rw [Ledger.pending]
  split_ifs
  · rfl
  · refine List.eq_nil_iff_forall_not_mem.mpr fun f hf => hp ?_
    obtain ⟨q, hq, rfl⟩ := Ledger.mem_fragmentsAt.mp hf
    exact (((h.demanded (Ledger.mem_keys_of_mem hq)).1.placed hb ha).within.of_owner ho).1

theorem pending_eq_nil_of_complete (h : b.Sound first l) (ha : b.Agenda servers first)
    (complete : ∀ q, b.Demanded first q → q ∈ l.keys) {p : Place} {id : String}
    (ho : p.owner? = some id) : l.pending p = [] := by
  rw [Ledger.pending]
  split_ifs with hw
  · rfl
  · refine List.eq_nil_iff_forall_not_mem.mpr fun f hf => hw ?_
    obtain ⟨q, hq, rfl⟩ := Ledger.mem_fragmentsAt.mp hf
    obtain ⟨isOpen, hp⟩ := Place.eq_wrapper_of_owner? ho
    obtain ⟨s, hs⟩ := (h.demanded (Ledger.mem_keys_of_mem hq)).1.exists_wrapper ha.outside hp
    rw [ho]
    exact Ledger.isWrapped_iff.mpr ⟨s, complete _ hs⟩

theorem isWrapped_of_mem (hm : q ∈ l.keys) (hq : q.part = .wrapper) : l.isWrapped q.id = true := by
  obtain ⟨id, s, part⟩ := q
  exact Ledger.isWrapped_iff.mpr ⟨s, hq ▸ hm⟩

theorem exists_home (h : l.isWrapped q.id = true) :
    ∃ s, l.home? q.id = some s ∧ ⟨q.id, s, .wrapper⟩ ∈ l.keys := by
  cases hh : l.home? q.id with
  | none =>
    rw [Ledger.home?_eq_none.mp hh] at h
    cases h
  | some s =>
    obtain ⟨⟨id, s', part⟩, hf, rfl⟩ := Option.map_eq_some_iff.mp hh
    have hw : Demand.wraps ⟨id, s', part⟩ q.id = true :=
      List.find?_some (p := fun p : Demand => p.wraps q.id) hf
    obtain ⟨rfl, rfl⟩ := Demand.wraps_iff.mp hw
    exact ⟨s', rfl, List.mem_of_find?_eq_some hf⟩

/-- The first function that wraps a node holds all fragments put inside it, and a later one none. -/
theorem wrapper_eq (hb : b.Coherent) (h : b.Sound first l) (ha : b.Agenda servers first)
    (hm : (q, f) ∈ l) (hq : q.part = .wrapper) :
    f = b.fragmentOf (if l.home? q.id = some q.place then l.fragmentsAt (b.innerPlace q.id) else []) q := by
  induction h with
  | nil => cases hm
  | @snoc l p hs hp hd hdem hf ih =>
    rcases List.mem_append.mp hm with hm | hm
    · -- An earlier entry: the new one is not put inside it.
      have hw := isWrapped_of_mem (Ledger.mem_keys_of_mem hm) hq
      have hne : p.place ≠ b.innerPlace q.id := by
        intro he
        have := hs.not_wrapped ha hdem hp (show p.place.owner? = some q.id by rw [he]; rfl)
        rw [hw] at this
        cases this
      obtain ⟨s, hh, -⟩ := exists_home hw
      rw [Ledger.fragmentsAt_snoc, if_neg hne, Ledger.home?_snoc, hh]
      simpa [hh] using ih hm
    · obtain ⟨rfl, rfl⟩ := Prod.mk.inj (List.mem_singleton.mp hm)
      have hne : q.place ≠ b.innerPlace q.id := fun he =>
        (hdem.placed hb ha).within.owner_ne hb (by rw [he]; rfl)
      rw [Ledger.fragmentsAt_snoc, if_neg hne, Ledger.home?_snoc, Ledger.pending]
      cases hw : l.isWrapped q.id with
      | false =>
        have hh := Ledger.home?_eq_none.mpr hw
        simp [hh, innerPlace, Place.owner?, hw, Demand.wraps, hq]
      | true =>
        obtain ⟨s, hh, hk⟩ := exists_home hw
        have hs : s ≠ q.place := by
          rintro rfl
          rw [← hq] at hk
          exact hp hk
        simp [hh, innerPlace, Place.owner?, hw, hs]

end Sound

end Blueprint

end AgentWorkflow

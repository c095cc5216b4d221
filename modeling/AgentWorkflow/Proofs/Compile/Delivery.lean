import AgentWorkflow.Proofs.Compile.Draft
import AgentWorkflow.Proofs.Compile.Ledger

/-!
How a computation on a draft adds to a ledger.

A draft is tracked by the ledger of what was declared and the list of what is being declared. A computation
delivers some demands when it ends with them in the ledger, or fails because something demanded does not
fit. What is being declared has a higher rank than what is demanded meanwhile, so a repeated demand was met.
-/

namespace AgentWorkflow

open Drafting

/-- Whether an error tells of a failure of the generation itself. -/
def CompileError.isInternal : CompileError → Bool
  | .internal _ => true
  | _ => false

/-- The fragments at the places where they are other than those pending. -/
abbrev Held := Place → Option (List Fragment)

namespace Held

/-- Fragments are as they are pending everywhere. -/
def free : Held := fun _ => none

/-- There are other fragments at one place. -/
def only (place : Place) (fragments : List Fragment) : Held :=
  fun p => if p = place then some fragments else none

@[simp]
theorem free_apply (p : Place) : free p = none := rfl

@[simp]
theorem only_self (place : Place) (fragments : List Fragment) : only place fragments place = some fragments :=
  if_pos rfl

@[simp]
theorem only_eq_none {place p : Place} {fragments : List Fragment} :
    only place fragments p = none ↔ p ≠ place := by
  simp [only]

end Held

/-- The ledger goes on, and what is pending stays as it is where other fragments are held. -/
structure Ledger.Extends (held : Held) (l l' : Ledger) : Prop where
  keys : l.keys ⊆ l'.keys
  kept : ∀ p, held p ≠ none → l'.pending p = l.pending p

theorem Ledger.Extends.refl (held : Held) (l : Ledger) : l.Extends held l :=
  ⟨fun _ h => h, fun _ _ => rfl⟩

theorem Ledger.Extends.trans {held : Held} {l l' l'' : Ledger} (h : Ledger.Extends held l l')
    (h' : Ledger.Extends held l' l'') : Ledger.Extends held l l'' :=
  ⟨fun _ hq => h'.keys (h.keys hq), fun p hp => (h'.kept p hp).trans (h.kept p hp)⟩

namespace Blueprint

variable (b : Blueprint) (first : List Demand)

/-- A failure is justified: its error is not internal, and something demanded does not fit. -/
def Justified (f : Failure) : Prop :=
  ∃ e, f = .error e ∧ e.isInternal = false ∧ ∃ q, b.Demanded first q ∧ ¬b.Fits q.id

/-- A ledger tracks a draft while some demands are being met. At some places other fragments may be held:
none after they were taken into a function that does not stand yet. -/
structure Tracks (active : List Demand) (held : Held) (d : Draft) (l : Ledger) : Prop where
  sound : b.Sound first l
  apart : ∀ q ∈ active, q ∉ l.keys
  demands : ∀ q, q ∈ d.demands ↔ q ∈ l.keys ∨ q ∈ active
  order : ∀ id, d.demands.reverse.filter (·.wraps id) = (l.keys ++ active).filter (·.wraps id)
  places : (d.places.map Prod.fst).Nodup
  fragments : ∀ p, d.fragments p = (held p).getD (l.pending p)
  emitted : d.emitted.reverse.filter (·.2.node.isSome) = l.emissions
  unowned : ∀ e ∈ d.emitted, e.2.node = none → e.2.kind = .composition

/-- A computation gives a result and ends with some demands met, or its failure is justified. -/
def Delivers (active : List Demand) (held : Held) {α : Type} (m : Drafting α) (a : α)
    (qs : List Demand) : Prop :=
  ∀ d l, b.Tracks first active held d l →
    m.Ends d (fun a' d' => a' = a ∧ ∃ l', l.Extends held l' ∧ b.Tracks first active held d' l' ∧
      qs ⊆ l'.keys) (b.Justified first)

/-- A computation fails, and its failure is justified. -/
def Fails (active : List Demand) (held : Held) {α : Type} (m : Drafting α) : Prop :=
  ∀ d l, b.Tracks first active held d l → m.Ends d (fun _ _ => False) (b.Justified first)

/-- Something demanded can be worked on while other demands are being met: it is of a lower rank. -/
structure Ready (active : List Demand) (q : Demand) : Prop where
  demanded : b.Demanded first q
  low : ∀ p ∈ active, b.rank q < b.rank p

variable {b first} {active : List Demand} {held : Held} {α β : Type} {a : α} {c : β}
  {m : Drafting α} {qs rs : List Demand}

namespace Delivers

theorem pure : b.Delivers first active held (Pure.pure a) a [] := fun _ l ht =>
  ends_pure.mpr ⟨rfl, l, .refl held l, ht, List.nil_subset _⟩

theorem mono (h : b.Delivers first active held m a qs) (hs : rs ⊆ qs) :
    b.Delivers first active held m a rs := fun d l ht =>
  (h d l ht).mono (fun _ _ ⟨ha, l', he, ht', hq⟩ => ⟨ha, l', he, ht', fun _ hr => hq (hs hr)⟩)
    fun _ hf => hf

theorem bind {f : α → Drafting β} (h : b.Delivers first active held m a qs)
    (hf : b.Delivers first active held (f a) c rs) :
    b.Delivers first active held (m >>= f) c (qs ++ rs) := by
  intro d l ht
  refine ends_bind.mpr ((h d l ht).mono ?_ fun _ hf => hf)
  rintro _ d' ⟨rfl, l', he, ht', hq⟩
  refine (hf d' l' ht').mono ?_ fun _ hf => hf
  rintro _ d'' ⟨rfl, l'', he', ht'', hr⟩
  exact ⟨rfl, l'', he.trans he', ht'', List.append_subset.mpr ⟨fun _ hx => he'.keys (hq hx), hr⟩⟩

theorem bind_fails {f : α → Drafting β} (h : b.Delivers first active held m a qs)
    (hf : b.Fails first active held (f a)) : b.Fails first active held (m >>= f) := by
  intro d l ht
  refine ends_bind.mpr ((h d l ht).mono ?_ fun _ hf => hf)
  rintro _ d' ⟨rfl, l', -, ht', -⟩
  exact hf d' l' ht'

theorem bind_nil {f : α → Drafting β} (h : b.Delivers first active held m a [])
    (hf : b.Delivers first active held (f a) c rs) : b.Delivers first active held (m >>= f) c rs :=
  h.bind hf

theorem then_nil {f : α → Drafting β} (h : b.Delivers first active held m a qs)
    (hf : b.Delivers first active held (f a) c []) : b.Delivers first active held (m >>= f) c qs := by
  simpa using h.bind hf

theorem map (f : α → β) (h : b.Delivers first active held m a qs) :
    b.Delivers first active held (do return f (← m)) (f a) qs :=
  h.then_nil (f := fun x => Pure.pure (f x)) pure

theorem ofExcept {e : Except CompileError α} (h : e = .ok a) :
    b.Delivers first active held (Drafting.ofExcept e) a [] := by
  subst h
  exact pure

theorem use {features : List Feature} :
    b.Delivers first active held (Drafting.use features) () [] := fun _ l ht =>
  ends_use.mpr ⟨rfl, l, .refl held l, ⟨ht.sound, ht.apart, ht.demands, ht.order, ht.places,
    ht.fragments, ht.emitted, ht.unowned⟩, List.nil_subset _⟩

theorem warn {message : String} :
    b.Delivers first active held (Drafting.warn message) () [] := fun _ l ht =>
  ends_warn.mpr ⟨rfl, l, .refl held l, ⟨ht.sound, ht.apart, ht.demands, ht.order, ht.places,
    ht.fragments, ht.emitted, ht.unowned⟩, List.nil_subset _⟩

theorem warn_ite {c : Prop} [Decidable c] {message : String} :
    b.Delivers first active held (if c then Drafting.warn message else Pure.pure ⟨⟩) ⟨⟩ [] := by
  split_ifs
  · exact warn
  · exact pure

theorem mapM {f : α → Drafting β} {g : α → β} {r : α → List Demand} {xs : List α}
    (h : ∀ x ∈ xs, b.Delivers first active held (f x) (g x) (r x)) :
    b.Delivers first active held (xs.mapM f) (xs.map g) (xs.flatMap r) := by
  induction xs with
  | nil => exact pure
  | cons x xs ih =>
    rw [List.mapM_cons, List.flatMap_cons]
    exact (h x List.mem_cons_self).bind ((ih fun y hy => h y (List.mem_cons_of_mem x hy)).map _)

theorem mapM_single {f : α → Drafting β} {g : α → β} {r : α → Demand} {xs : List α}
    (h : ∀ x ∈ xs, b.Delivers first active held (f x) (g x) [r x]) :
    b.Delivers first active held (xs.mapM f) (xs.map g) (xs.map r) := by
  rw [List.map_eq_flatMap (f := r)]
  exact mapM h

theorem forM {f : α → Drafting PUnit} {r : α → List Demand} {xs : List α}
    (h : ∀ x ∈ xs, b.Delivers first active held (f x) ⟨⟩ (r x)) :
    b.Delivers first active held (xs.forM f) ⟨⟩ (xs.flatMap r) := by
  induction xs with
  | nil => exact pure
  | cons x xs ih =>
    rw [List.flatMap_cons]
    exact (h x List.mem_cons_self).bind (ih fun y hy => h y (List.mem_cons_of_mem x hy))

theorem forM_single {f : α → Drafting PUnit} {r : α → Demand} {xs : List α}
    (h : ∀ x ∈ xs, b.Delivers first active held (f x) ⟨⟩ [r x]) :
    b.Delivers first active held (xs.forM f) ⟨⟩ (xs.map r) := by
  rw [List.map_eq_flatMap (f := r)]
  exact forM h

end Delivers

namespace Fails

theorem delivers (h : b.Fails first active held m) : b.Delivers first active held m a qs :=
  fun d l ht => (h d l ht).mono (fun _ _ hf => hf.elim) fun _ hf => hf

theorem error {e : CompileError} (he : e.isInternal = false) {q : Demand} (hq : b.Demanded first q)
    (hf : ¬b.Fits q.id) : b.Fails first active held (fail e : Drafting α) := fun _ _ _ =>
  ends_fail.mpr ⟨e, rfl, he, q, hq, hf⟩

theorem bind {f : α → Drafting β} (h : b.Fails first active held m) :
    b.Fails first active held (m >>= f) := fun d l ht =>
  ends_bind.mpr ((h d l ht).mono (fun _ _ hf => hf.elim) fun _ hf => hf)

theorem mapM {f : α → Drafting β} {g : α → β} {r : α → List Demand} {xs : List α}
    (h : ∀ x ∈ xs, b.Delivers first active held (f x) (g x) (r x))
    (hx : ∃ x ∈ xs, b.Fails first active held (f x)) : b.Fails first active held (xs.mapM f) := by
  induction xs with
  | nil => simp at hx
  | cons x xs ih =>
    rw [List.mapM_cons]
    obtain ⟨y, hy, hf⟩ := hx
    rcases List.mem_cons.mp hy with rfl | hy
    · exact hf.bind
    · exact (h x List.mem_cons_self).bind_fails
        (ih (fun z hz => h z (List.mem_cons_of_mem x hz)) ⟨y, hy, hf⟩).bind

end Fails

theorem Ready.of_demandsOf (hb : b.Coherent) {p q : Demand} (hp : b.Ready first active p)
    (hq : q ∈ b.demandsOf p) : b.Ready first (active ++ [p]) q := by
  refine ⟨.step hp.demanded hq, fun x hx => ?_⟩
  have hlt := rank_lt hb hq
  rcases List.mem_append.mp hx with hx | hx
  · exact hlt.trans (hp.low x hx)
  · exact List.mem_singleton.mp hx ▸ hlt

/-- The fragments that are held when a demand has been worked on: a function that wraps a node
takes those put inside it. -/
def taken (b : Blueprint) (q : Demand) (held : Held) : Held :=
  if q.part = .wrapper then .only (b.innerPlace q.id) [] else held

namespace Tracks

variable {d : Draft} {l : Ledger} {q : Demand}

theorem start (h : b.Tracks first active held d l) (hq : q ∉ d.demands) :
    b.Tracks first (active ++ [q]) held { d with demands := q :: d.demands } l where
  sound := h.sound
  apart p hp := by
    rcases List.mem_append.mp hp with hp | hp
    · exact h.apart p hp
    · obtain rfl := List.mem_singleton.mp hp
      exact fun hk => hq ((h.demands p).mpr (Or.inl hk))
  demands p := by
    simp only [List.mem_cons, h.demands p, List.mem_append, List.not_mem_nil, or_false]
    tauto
  order id := by
    rw [List.reverse_cons, List.filter_append, h.order id, ← List.filter_append, List.append_assoc]
  places := h.places
  fragments := h.fragments
  emitted := h.emitted
  unowned := h.unowned

theorem take (h : b.Tracks first active .free d l) (p : Place) :
    b.Tracks first active (.only p []) (d.clear p) l where
  sound := h.sound
  apart := h.apart
  demands := h.demands
  order := h.order
  places := ((Entries.erase_sublist p).map Prod.fst).nodup h.places
  fragments p' := by
    rw [Draft.fragments_clear h.places, h.fragments p', Held.only]
    split_ifs <;> rfl
  emitted := h.emitted
  unowned := h.unowned

/-- Nothing else that is being declared wraps the node that a demand of the lowest rank wraps. -/
theorem filter_wraps_of_low {id : String} (hlow : ∀ p ∈ active, b.rank q < b.rank p) (hw : q.wraps id = true) :
    active.filter (·.wraps id) = [] := by
  refine List.filter_eq_nil_iff.mpr fun p hp hpw => ?_
  obtain ⟨rfl, hq⟩ := Demand.wraps_iff.mp hw
  obtain ⟨hid, hp'⟩ := Demand.wraps_iff.mp hpw
  have := hlow p hp
  simp [rank, hq, hp', hid] at this

section Finish

variable {servers : List String} (hb : b.Coherent) (ha : b.Agenda servers first)
  (h : b.Tracks first (active ++ [q]) (b.taken q held) d l) (hd : b.Demanded first q)
  (hfree : q.part = .wrapper → held = .free) (hplace : held q.place = none)

include hb ha h hd hfree hplace

theorem fragments_finish (f : Fragment) (p : Place) :
    (d.emit q.place f).fragments p = (held p).getD (Ledger.pending (l ++ [(q, f)]) p) := by
  have hown : q.place.owner? ≠ some q.id := (hd.placed hb ha).within.owner_ne hb
  rw [Draft.fragments_emit, h.fragments, h.fragments,
    Ledger.pending_snoc fun _ ho => h.sound.not_wrapped ha hd (h.apart q (by simp)) ho]
  by_cases hw : q.part = .wrapper
  · have hne : q.place ≠ b.innerPlace q.id := fun he => hown (by rw [he]; rfl)
    rw [taken, if_pos hw, hfree hw]
    by_cases ho : p.owner? = some q.id
    · have hpq : p ≠ q.place := fun he => hown (he ▸ ho)
      by_cases hpi : p = b.innerPlace q.id
      · subst hpi
        simp [hpq, hw, ho, Held.only]
      · simp [hpq, hpi, hw, ho, h.sound.pending_eq_nil hb ha ho hpi, Held.only]
    · have hpi : p ≠ b.innerPlace q.id := fun he => ho (by rw [he]; rfl)
      by_cases hp : p = q.place
      · simp [hp, hne, hown, Held.only]
      · simp [hp, ho, hpi, Ne.symm hp, Held.only]
  · rw [taken, if_neg hw]
    by_cases hp : p = q.place
    · simp [hp, hplace, hw]
    · simp [hp, hw, Ne.symm hp]

theorem finish (hlow : ∀ p ∈ active, b.rank q < b.rank p) (hdem : b.demandsOf q ⊆ l.keys) (hf : b.Fits q.id)
    {f : Fragment} (he : f = b.fragmentOf (l.pending (b.innerPlace q.id)) q) :
    b.Tracks first active held (d.emit q.place f) (l ++ [(q, f)]) where
  sound := by
    subst he
    exact .snoc h.sound (h.apart q (by simp)) hdem hd hf
  apart p hp := by
    have hne : p ≠ q := by
      rintro rfl
      exact lt_irrefl _ (hlow p hp)
    simpa [Ledger.keys, hne] using h.apart p (List.mem_append_left _ hp)
  demands p := by
    rw [Draft.emit, h.demands p, Ledger.keys_append]
    simp only [List.mem_append, List.mem_singleton, Ledger.keys, List.map_cons, List.map_nil]
    tauto
  order id := by
    change d.demands.reverse.filter (·.wraps id) = _
    rw [h.order id, Ledger.keys_append]
    simp only [List.filter_append, List.append_assoc]
    by_cases hw : q.wraps id = true
    -- All that is active ranks above `q`, so nothing active wraps the same node.
    · rw [filter_wraps_of_low hlow hw, List.append_nil, List.nil_append]
      rfl
    · simp [Ledger.keys, hw]
  places := Entries.nodup_put h.places
  fragments := h.fragments_finish hb ha hd hfree hplace f
  emitted := by
    have hnode : f.node.isSome = true := by rw [he, fragmentOf_node, Option.isSome_some]
    rw [Draft.emit, List.reverse_cons, List.filter_append, h.emitted, Ledger.emissions_snoc]
    simp [hnode]
  unowned e hmem hnone := by
    rcases List.mem_cons.mp hmem with rfl | hmem
    · rw [he, fragmentOf_node] at hnone
      cases hnone
    · exact h.unowned e hmem hnone

end Finish

end Tracks

/-- A part is declared once: what makes its fragment meets its demands first. -/
theorem Delivers.once {servers : List String} (hb : b.Coherent) (ha : b.Agenda servers first)
    {q : Demand} (hq : b.Ready first active q) (hfree : q.part = .wrapper → held = .free)
    (hplace : held q.place = none) {make : Drafting Fragment}
    (hm : ∀ d l, b.Tracks first (active ++ [q]) held d l →
      make.Ends d (fun f d' => ∃ l', l.Extends held l' ∧
        b.Tracks first (active ++ [q]) (b.taken q held) d' l' ∧ b.demandsOf q ⊆ l'.keys ∧
        b.Fits q.id ∧ f = b.fragmentOf (l'.pending (b.innerPlace q.id)) q) (b.Justified first)) :
    b.Delivers first active held (Drafting.once q make) () [q] := by
  intro d l ht
  refine ends_bind.mpr (ends_isFirst.mpr ?_)
  by_cases hm' : q ∈ d.demands
  · have hk : q ∈ l.keys := ((ht.demands q).mp hm').resolve_right fun h => lt_irrefl _ (hq.low q h)
    rw [if_pos hm']
    exact ⟨rfl, l, .refl held l, ht, by simpa using hk⟩
  · rw [if_neg hm']
    refine ends_bind.mpr ((hm _ l (ht.start hm')).mono ?_ fun _ hf => hf)
    rintro f d' ⟨l', he, ht', hdem, hf, hfrag⟩
    have hn : q ∉ l'.keys := ht'.apart q (by simp)
    refine ends_emit.mpr ⟨rfl, l' ++ [(q, f)], ⟨fun _ hk => ?_, fun p hp => ?_⟩,
      ht'.finish hb ha hq.demanded hfree hplace hq.low hdem hf hfrag, ?_⟩
    · rw [Ledger.keys_append]
      exact List.mem_append_left _ (he.keys hk)
    · have hw : q.part ≠ .wrapper := fun hw => by simp [hfree hw] at hp
      have hpq : q.place ≠ p := fun h => hp (h ▸ hplace)
      rw [Ledger.pending_snoc fun _ ho => ht'.sound.not_wrapped ha hq.demanded hn ho, if_neg (hw ·.1),
        if_neg hpq, he.kept p hp]
    · simp [Ledger.keys]

theorem Delivers.once_part {servers : List String} (hb : b.Coherent) (ha : b.Agenda servers first)
    {q : Demand} (hq : b.Ready first active q) (hp : q.part ≠ .wrapper) (hplace : held q.place = none)
    {make : Drafting Fragment}
    (hm : b.Fits q.id →
      b.Delivers first (active ++ [q]) held make (b.fragmentOf [] q) (b.demandsOf q))
    (hx : ¬b.Fits q.id → b.Fails first (active ++ [q]) held make) :
    b.Delivers first active held (Drafting.once q make) () [q] := by
  refine .once hb ha hq (fun h => absurd h hp) hplace fun d l ht => ?_
  by_cases hf : b.Fits q.id
  · refine (hm hf d l ht).mono ?_ fun _ h => h
    rintro _ d' ⟨rfl, l', he, ht', hdem⟩
    refine ⟨l', he, ?_, hdem, hf, fragmentOf_of_not_wrapper hp _ _⟩
    rwa [taken, if_neg hp]
  · exact (hx hf d l ht).mono (fun _ _ h => h.elim) fun _ h => h

end Blueprint

end AgentWorkflow

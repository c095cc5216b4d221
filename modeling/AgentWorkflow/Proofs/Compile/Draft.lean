import AgentWorkflow.Compile.Draft
import Mathlib

/-!
How a computation on a draft ends.

`Ends` says of a computation that starts from a draft what holds of its result and the draft it leaves,
or of the failure that stops it. There is one lemma for each operation on drafts. `Leaves` says what holds of the
draft also when an error stops the computation, which goes on where the error is handled. A crash is never handled.
-/

namespace AgentWorkflow

namespace Entries

variable {κ β : Type} [DecidableEq κ] {entries : List (κ × β)}

theorem mem_keys_put {key k : κ} {value : β} :
    k ∈ (put key value entries).map Prod.fst ↔ k = key ∨ k ∈ entries.map Prod.fst := by
  induction entries with
  | nil => simp [put]
  | cons e rest ih =>
    by_cases he : key = e.1
    · simp [put, he]
    · rw [put, if_neg he, List.map_cons, List.mem_cons, ih, List.map_cons, List.mem_cons]
      tauto

theorem nodup_put {key : κ} {value : β} (h : (entries.map Prod.fst).Nodup) :
    ((put key value entries).map Prod.fst).Nodup := by
  induction entries with
  | nil => simp [put]
  | cons e rest ih =>
    obtain ⟨hn, hr⟩ := List.nodup_cons.mp h
    by_cases he : key = e.1
    · simpa [put, he] using h
    · rw [put, if_neg he]
      refine List.nodup_cons.mpr ⟨fun hm => ?_, ih hr⟩
      rcases mem_keys_put.mp hm with hm | hm
      · exact he hm.symm
      · exact hn hm

theorem mem_of_get? {key : κ} {value : β} (h : get? key entries = some value) : (key, value) ∈ entries := by
  induction entries with
  | nil => cases h
  | cons e rest ih =>
    rw [get?] at h
    split_ifs at h with he
    · obtain rfl := Option.some.inj h
      exact he ▸ List.mem_cons_self
    · exact List.mem_cons_of_mem _ (ih h)

theorem get?_eq_none {key : κ} (h : key ∉ entries.map Prod.fst) : get? key entries = none := by
  induction entries with
  | nil => rfl
  | cons e rest ih =>
    simp only [List.map_cons, List.mem_cons, not_or] at h
    rw [get?, if_neg h.1, ih h.2]

theorem get?_of_mem {key : κ} {value : β} (hn : (entries.map Prod.fst).Nodup)
    (h : (key, value) ∈ entries) : get? key entries = some value := by
  induction entries with
  | nil => cases h
  | cons e rest ih =>
    obtain ⟨hk, hr⟩ := List.nodup_cons.mp hn
    rcases List.mem_cons.mp h with rfl | h
    · simp [get?]
    · have hne : key ≠ e.1 := fun he => hk (List.mem_map.mpr ⟨_, h, he⟩)
      rw [get?, if_neg hne, ih hr h]

theorem erase_sublist (key : κ) : (erase key entries).Sublist entries := by
  induction entries with
  | nil => exact List.Sublist.refl _
  | cons e rest ih =>
    unfold erase
    split_ifs
    · exact List.sublist_cons_self _ _
    · exact ih.cons_cons e

theorem get?_erase {key k : κ} (hn : (entries.map Prod.fst).Nodup) :
    get? k (erase key entries) = if k = key then none else get? k entries := by
  induction entries with
  | nil => simp [erase, get?]
  | cons e rest ih =>
    obtain ⟨hk, hr⟩ := List.nodup_cons.mp hn
    by_cases he : key = e.1
    · rw [erase, if_pos he]
      by_cases hke : k = key
      · rw [if_pos hke]
        exact get?_eq_none (hke ▸ he ▸ hk)
      · rw [if_neg hke, get?, if_neg fun h => hke (h.trans he.symm)]
    · rw [erase, if_neg he, get?, get?, ih hr]
      by_cases hke : k = e.1
      · rw [if_pos hke, if_pos hke, if_neg fun h => he (h.symm.trans hke)]
      · rw [if_neg hke, if_neg hke]

end Entries

namespace Draft

variable {d : Draft} {place p : Place}

theorem fragments_emit (f : Fragment) :
    (d.emit place f).fragments p = if p = place then d.fragments place ++ [f] else d.fragments p := by
  simp only [fragments, emit, Entries.get?_put]
  split_ifs <;> rfl

theorem fragments_clear (hn : (d.places.map Prod.fst).Nodup) :
    (d.clear place).fragments p = if p = place then [] else d.fragments p := by
  simp only [fragments, clear, Entries.get?_erase hn]
  split_ifs <;> rfl

theorem leftover?_eq_none (hn : (d.places.map Prod.fst).Nodup)
    (h : ∀ p, p ≠ .topLevel → d.fragments p = []) : d.leftover? = none := by
  rw [leftover?, Option.map_eq_none_iff, List.find?_eq_none]
  rintro ⟨p, fs⟩ hm
  by_cases hp : p = .topLevel
  · simp [hp]
  · have hf : fs = [] := by
      have := h p hp
      rwa [fragments, Entries.get?_of_mem hn hm, Option.getD_some] at this
    simp [hf]

end Draft

namespace Drafting

variable {α β : Type} {m : Drafting α} {d : Draft} {ok ok' : α → Draft → Prop} {bad bad' : Failure → Prop}

/-- How a computation ends that starts from a draft: with a result and a draft, or with a failure. -/
def Ends (m : Drafting α) (d : Draft) (ok : α → Draft → Prop) (bad : Failure → Prop) : Prop :=
  match (m.run d : Except Failure α × Draft) with
  | (.ok a, d') => ok a d'
  | (.error f, _) => bad f

theorem Ends.mono (h : m.Ends d ok bad) (hok : ∀ a d', ok a d' → ok' a d')
    (hbad : ∀ f, bad f → bad' f) : m.Ends d ok' bad' := by
  unfold Ends at h ⊢
  split at h
  · exact hok _ _ h
  · exact hbad _ h

theorem Ends.and (h : m.Ends d ok bad) (h' : m.Ends d ok' bad') :
    m.Ends d (fun a d' => ok a d' ∧ ok' a d') fun f => bad f ∧ bad' f := by
  unfold Ends at h h' ⊢
  split at h
  · rename_i hr
    rw [hr] at h'
    exact ⟨h, h'⟩
  · rename_i hr
    rw [hr] at h'
    exact ⟨h, h'⟩

theorem Ends.elim (h : m.Ends d ok bad) :
    (∃ a d', m.run d = (.ok a, d') ∧ ok a d') ∨ ∃ f d', m.run d = (.error f, d') ∧ bad f := by
  unfold Ends at h
  split at h
  · exact Or.inl ⟨_, _, ‹_›, h⟩
  · exact Or.inr ⟨_, _, ‹_›, h⟩

theorem Ends.of_run {a : α} {d' : Draft} (h : m.Ends d ok bad)
    (hr : m.run d = ((.ok a, d') : Except Failure α × Draft)) : ok a d' := by
  unfold Ends at h
  rwa [hr] at h

theorem ends_trivial (m : Drafting α) (d : Draft) : m.Ends d (fun _ _ => True) fun _ => True := by
  unfold Ends
  split <;> trivial

theorem ends_pure {a : α} : (pure a : Drafting α).Ends d ok bad ↔ ok a d := Iff.rfl

theorem run_bind (m : Drafting α) (f : α → Drafting β) (d : Draft) :
    ((m >>= f).run d : Except Failure β × Draft) =
      match (m.run d : Except Failure α × Draft) with
      | (.ok a, d') => (f a).run d'
      | (.error e, d') => (.error e, d') := by
  change (ExceptT.bindCont f (m.run d).1).run (m.run d).2 = _
  rcases (m.run d : Except Failure α × Draft) with ⟨_ | _, _⟩ <;> rfl

theorem ofExcept_bind {e : Except CompileError α} {a : α} (h : e = .ok a) (f : α → Drafting β) :
    (ofExcept e >>= f) = f a := by
  rw [h]
  rfl

theorem ofExcept_bind_error {e : Except CompileError α} {fault : CompileError} (h : e = .error fault)
    (f : α → Drafting β) : (ofExcept e >>= f) = fail fault := by
  rw [h]
  rfl

theorem ends_bind {f : α → Drafting β} {ok : β → Draft → Prop} :
    (m >>= f).Ends d ok bad ↔ m.Ends d (fun a d' => (f a).Ends d' ok bad) bad := by
  unfold Ends
  rw [run_bind]
  rcases (m.run d : Except Failure α × Draft) with ⟨_ | _, _⟩ <;> rfl

theorem ends_fail {e : CompileError} : (fail e : Drafting α).Ends d ok bad ↔ bad (.error e) := Iff.rfl

theorem ends_ofExcept_ok {a : α} : (ofExcept (.ok a) : Drafting α).Ends d ok bad ↔ ok a d := Iff.rfl

section

variable {ok : Unit → Draft → Prop}

theorem ends_emit {place : Place} {f : Fragment} :
    (emit place f).Ends d ok bad ↔ ok () (d.emit place f) := Iff.rfl

theorem ends_use {features : List Feature} :
    (use features).Ends d ok bad ↔ ok () { d with imports := d.imports.useAll features } := Iff.rfl

theorem ends_warn {message : String} :
    (warn message).Ends d ok bad ↔ ok () { d with diagnostics := d.diagnostics.warn message } := Iff.rfl

end

theorem ends_take {place : Place} {ok : List Fragment → Draft → Prop} :
    (take place).Ends d ok bad ↔ ok (d.fragments place) (d.clear place) := Iff.rfl

theorem ends_get {ok : Draft → Draft → Prop} : (get : Drafting Draft).Ends d ok bad ↔ ok d d := Iff.rfl

theorem run_isFirst (demand : Demand) (d : Draft) :
    ((isFirst demand).run d : Except Failure Bool × Draft) =
      if demand ∈ d.demands then (.ok false, d) else (.ok true, { d with demands := demand :: d.demands }) := by
  change (match (if demand ∈ d.demands then (false, d)
    else (true, { d with demands := demand :: d.demands }) : Bool × Draft) with
    | (a, d') => ((.ok a, d') : Except Failure Bool × Draft)) = _
  split_ifs <;> rfl

theorem ends_isFirst {demand : Demand} {ok : Bool → Draft → Prop} :
    (isFirst demand).Ends d ok bad ↔
      if demand ∈ d.demands then ok false d
      else ok true { d with demands := demand :: d.demands } := by
  unfold Ends
  rw [run_isFirst]
  split_ifs <;> rfl

section Leaves

variable {bad bad' : Draft → Prop}

/-- How a computation leaves a draft that it starts from: with a result, or with an error. -/
def Leaves (m : Drafting α) (d : Draft) (ok : α → Draft → Prop) (bad : Draft → Prop) : Prop :=
  match (m.run d : Except Failure α × Draft) with
  | (.ok a, d') => ok a d'
  | (.error (.error _), d') => bad d'
  | (.error .crash, _) => True

theorem leaves_bind {f : α → Drafting β} {ok : β → Draft → Prop} :
    (m >>= f).Leaves d ok bad ↔ m.Leaves d (fun a d' => (f a).Leaves d' ok bad) bad := by
  unfold Leaves
  rw [run_bind]
  rcases (m.run d : Except Failure α × Draft) with ⟨(_ | _) | _, _⟩ <;> rfl

theorem leaves_ofExcept_ok {a : α} : (ofExcept (.ok a) : Drafting α).Leaves d ok bad ↔ ok a d := Iff.rfl

theorem leaves_take {place : Place} {ok : List Fragment → Draft → Prop} :
    (take place).Leaves d ok bad ↔ ok (d.fragments place) (d.clear place) := Iff.rfl

theorem leaves_get {ok : Draft → Draft → Prop} : (get : Drafting Draft).Leaves d ok bad ↔ ok d d := Iff.rfl

theorem Leaves.mono (h : m.Leaves d ok bad) (hok : ∀ a d', ok a d' → ok' a d')
    (hbad : ∀ d', bad d' → bad' d') : m.Leaves d ok' bad' := by
  unfold Leaves at h ⊢
  split at h
  · exact hok _ _ h
  · exact hbad _ h
  · trivial

theorem Leaves.and (h : m.Leaves d ok bad) (h' : m.Leaves d ok' bad') :
    m.Leaves d (fun a d' => ok a d' ∧ ok' a d') fun d' => bad d' ∧ bad' d' := by
  unfold Leaves at h h' ⊢
  split at h
  · rename_i hr
    rw [hr] at h'
    exact ⟨h, h'⟩
  · rename_i hr
    rw [hr] at h'
    exact ⟨h, h'⟩
  · trivial

theorem Leaves.of_run {a : α} {d' : Draft} (h : m.Leaves d ok bad)
    (hr : m.run d = ((.ok a, d') : Except Failure α × Draft)) : ok a d' := by
  unfold Leaves at h
  rwa [hr] at h

theorem leaves_trivial (m : Drafting α) (d : Draft) : m.Leaves d (fun _ _ => True) fun _ => True := by
  unfold Leaves
  split <;> trivial

theorem leaves_skip {f : α → Drafting β} {ok : β → Draft → Prop}
    (h : ∀ a d', (f a).Leaves d' ok fun _ => True) : (m >>= f).Leaves d ok fun _ => True := by
  apply leaves_bind.mpr
  exact (leaves_trivial m d).mono (fun a d' _ => h a d') fun _ h => h

theorem leaves_ofExcept {e : Except CompileError α} {f : α → Drafting β} {ok : β → Draft → Prop}
    (h : ∀ a, e = .ok a → (f a).Leaves d ok fun _ => True) : (ofExcept e >>= f).Leaves d ok fun _ => True := by
  cases e with
  | error e => trivial
  | ok a => exact h a rfl

end Leaves

end Drafting

end AgentWorkflow

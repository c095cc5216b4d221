import AgentWorkflow.Json.Tree
import Mathlib

/-!
Trees and the values they hold.
-/

namespace AgentWorkflow.Json

theorem bind_eq_ok_iff {α β : Type} {x : Except Fault α} {f : α → Except Fault β} {b : β} :
    (x >>= f) = .ok b ↔ ∃ a, x = .ok a ∧ f a = .ok b := by
  cases x <;> simp [bind, Except.bind]

theorem map_eq_ok_iff {α β : Type} {x : Except Fault α} {f : α → β} {b : β} :
    f <$> x = .ok b ↔ ∃ a, x = .ok a ∧ f a = b := by
  cases x <;> simp [Functor.map, Except.map]

theorem refuse_eq_ok_iff {defect : Option Fault} {u : Unit} : refuse defect = .ok u ↔ defect = none := by
  cases defect <;> simp [refuse]

namespace Tree

variable {tree : Tree}

/-- An entry of an object holds a key and a value, without a defect. -/
def HoldsEntry (entry : Key × Tree) (e : String × Json) : Prop :=
  entry.1.defect = none ∧ entry.1.name = e.1 ∧ entry.2.check = .ok e.2

theorem checkItems_eq_ok_iff {items : List (Fault × Tree)} {values : List Json} : checkItems items = .ok values ↔
    List.Forall₂ (fun item value => item.2.check = .ok value) items values := by
  induction items generalizing values with
  | nil => cases values <;> simp [checkItems, pure, Except.pure]
  | cons item items ih => cases values <;> simp [checkItems, bind_eq_ok_iff, map_eq_ok_iff, ih]

theorem checkEntries_eq_ok_iff {entries : List (Key × Tree)} {values : List (String × Json)} :
    checkEntries entries = .ok values ↔ List.Forall₂ HoldsEntry entries values := by
  induction entries generalizing values with
  | nil => cases values <;> simp [checkEntries, pure, Except.pure]
  | cons entry entries ih =>
    obtain ⟨key, tree⟩ := entry
    cases values <;> simp [checkEntries, bind_eq_ok_iff, map_eq_ok_iff, refuse_eq_ok_iff, HoldsEntry, ih, Prod.ext_iff]
    tauto

theorem eq_scalar_of_check {s : Scalar} (h : tree.check = .ok (.scalar s)) : ∃ span, tree = .scalar span s none := by
  cases tree <;> simp_all [check, bind_eq_ok_iff, map_eq_ok_iff, refuse_eq_ok_iff]

theorem eq_array_of_check {values : List Json} (h : tree.check = .ok (.array values)) : ∃ span items,
    tree = .array span none items none ∧ List.Forall₂ (fun item value => item.2.check = .ok value) items values := by
  cases tree <;> simp_all [check, bind_eq_ok_iff, map_eq_ok_iff, refuse_eq_ok_iff, checkItems_eq_ok_iff]

theorem eq_object_of_check {values : List (String × Json)} (h : tree.check = .ok (.object values)) : ∃ span entries,
    tree = .object span none entries none ∧ List.Forall₂ HoldsEntry entries values := by
  cases tree <;> simp_all [check, bind_eq_ok_iff, map_eq_ok_iff, refuse_eq_ok_iff, checkEntries_eq_ok_iff]

mutual

theorem check_ofJson : ∀ value : Json, (ofJson value).check = .ok value
  | .scalar s => rfl
  | .array items => by
    simp [ofJson, check, bind_eq_ok_iff, map_eq_ok_iff, refuse_eq_ok_iff, checkItems_ofItems items]
  | .object entries => by
    simp [ofJson, check, bind_eq_ok_iff, map_eq_ok_iff, refuse_eq_ok_iff, checkEntries_ofEntries entries]

theorem checkItems_ofItems : ∀ items : List Json, checkItems (ofItems items) = .ok items
  | [] => rfl
  | item :: items => by
    simp [ofItems, checkItems, bind_eq_ok_iff, check_ofJson item, checkItems_ofItems items]

theorem checkEntries_ofEntries : ∀ entries : List (String × Json), checkEntries (ofEntries entries) = .ok entries
  | [] => rfl
  | (name, value) :: entries => by
    simp [ofEntries, checkEntries, bind_eq_ok_iff, refuse_eq_ok_iff, check_ofJson value,
      checkEntries_ofEntries entries]

end

mutual

theorem skip_ofJson : ∀ value : Json, (ofJson value).skip = .ok ()
  | .scalar _ => rfl
  | .array items => by simp [ofJson, skip, bind_eq_ok_iff, refuse_eq_ok_iff, skipItems_ofItems items]
  | .object entries => by simp [ofJson, skip, bind_eq_ok_iff, refuse_eq_ok_iff, skipEntries_ofEntries entries]

theorem skipItems_ofItems : ∀ items : List Json, skipItems (ofItems items) = .ok ()
  | [] => rfl
  | item :: items => by simp [ofItems, skipItems, bind_eq_ok_iff, skip_ofJson item, skipItems_ofItems items]

theorem skipEntries_ofEntries : ∀ entries : List (String × Json), skipEntries (ofEntries entries) = .ok ()
  | [] => rfl
  | (_, value) :: entries => by
    simp [ofEntries, skipEntries, bind_eq_ok_iff, skip_ofJson value, skipEntries_ofEntries entries]

end

end Tree

end AgentWorkflow.Json

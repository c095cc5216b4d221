import AgentWorkflow.Proofs.Compile.Draft
import AgentWorkflow.Tools.Toolbox

/-!
What is known of the functions that custom tools define.

Main statements: the name of such a function starts with a letter or an underscore and goes on with letters, digits
and underscores; and of two custom tools that define the same function each is named in a notice.
-/

namespace AgentWorkflow

namespace CustomCode

/-- A text that starts like a name. -/
def StartsLikeName (s : String) : Prop :=
  ∃ c, s.toList.head? = some c ∧ startsName c = true

/-- A name that a text starts with. -/
def IsLeading (s : String) : Prop :=
  ∃ cs, leadingName? cs = some s

theorem IsLeading.eq_ofList {s : String} (h : IsLeading s) :
    ∃ (c : Char) (rest : List Char), s = .ofList (c :: rest.takeWhile continuesName) ∧ startsName c = true := by
  obtain ⟨cs, h⟩ := h
  cases cs with
  | nil => cases h
  | cons c rest =>
    rw [leadingName?] at h
    split_ifs at h with hc
    exact ⟨c, rest, (Option.some.inj h).symm, hc⟩

theorem definedName?_leading {cs : List Char} {s : String} (h : definedName? cs = some s) : IsLeading s := by
  obtain ⟨rest, -, hs⟩ := Option.bind_eq_some_iff.mp h
  exact ⟨rest, hs⟩

theorem decoratedName?_leading {lines : List (List Char)} {s : String} (h : decoratedName? lines = some s) :
    IsLeading s := by
  induction lines with
  | nil => cases h
  | cons line rest ih =>
    rw [decoratedName?] at h
    split_ifs at h
    · exact ih h
    · exact definedName?_leading h

theorem toolName?_leading {lines : List (List Char)} {s : String} (h : toolName? lines = some s) :
    IsLeading s := by
  induction lines with
  | nil => cases h
  | cons line rest ih =>
    rw [toolName?, Option.orElse_eq_orElse, Option.orElse_eq_or, Option.or_eq_some_iff] at h
    rcases h with hd | ⟨-, hr⟩
    · split_ifs at hd
      exact decoratedName?_leading hd
    · exact ih hr

theorem function_leading {code f : String} (h : (scan code).function = some f) : IsLeading f := by
  unfold scan at h
  dsimp only at h
  split at h
  · rename_i name hname
    exact Option.some.inj h ▸ toolName?_leading hname
  · obtain ⟨line, -, hl⟩ := List.exists_of_findSome?_eq_some h
    exact definedName?_leading hl

theorem function_starts {code f : String} (h : (scan code).function = some f) : StartsLikeName f := by
  obtain ⟨c, rest, rfl, hc⟩ := (function_leading h).eq_ofList
  exact ⟨c, by simp, hc⟩

theorem function_continues {code f : String} (h : (scan code).function = some f) :
    ∀ c ∈ f.toList, continuesName c = true := by
  obtain ⟨c, rest, rfl, hc⟩ := (function_leading h).eq_ofList
  rw [String.toList_ofList]
  refine List.forall_mem_cons.mpr ⟨?_, ?_⟩
  · rw [startsName, Bool.or_eq_true] at hc
    rw [continuesName, Char.isAlphanum]
    simpa [or_right_comm] using Or.inl hc
  · exact fun d hd => List.mem_takeWhile_imp hd

end CustomCode

/-- The function that a node defines if it is a custom tool. -/
def Node.function? (n : Node) : Option String :=
  match n.kind with
  | .customTool s => (CustomCode.scan s.code).function
  | _ => none

theorem Node.function?_eq {n : Node} {s : CustomToolSettings} (hk : n.kind = .customTool s) :
    n.function? = (CustomCode.scan s.code).function := by
  rw [function?, hk]

theorem Node.exists_customTool {n : Node} {f : String} (h : n.function? = some f) :
    ∃ s, n.kind = .customTool s := by
  unfold function? at h
  split at h
  · exact ⟨_, ‹_›⟩
  · cases h

namespace Toolbox

variable {definers : List (String × String)} {nodes : List Node} {n m : Node} {f previous : String}

/-- The definers of functions when a node was looked at too. -/
def definersWith (definers : List (String × String)) (n : Node) : List (String × String) :=
  (n.function?.map fun f => (f, n.displayName)).toList ++ definers

theorem noticesAfter_cons (definers : List (String × String)) (n : Node) (rest : List Node) :
    ∃ own, noticesAfter definers (n :: rest) = own ++ noticesAfter (definersWith definers n) rest ∧
      ∀ f previous, n.function? = some f → Entries.get? f definers = some previous →
        .redefined previous n.displayName f ∈ own := by
  cases hk : n.kind with
  | customTool s =>
    have hfun : n.function? = (CustomCode.scan s.code).function := n.function?_eq hk
    rw [noticesAfter, definersWith, hfun]
    simp only [hk]
    cases (CustomCode.scan s.code).function with
    | none => exact ⟨[_], rfl, by simp⟩
    | some function =>
      refine ⟨_, rfl, fun f previous hf hprev => ?_⟩
      obtain rfl := Option.some.inj hf
      simp [hprev]
  | builtinTool s =>
    have hfun : n.function? = none := by rw [Node.function?, hk]
    rw [noticesAfter, definersWith, hfun]
    simp only [hk]
    exact ⟨_, rfl, by simp⟩
  | _ =>
    have hfun : n.function? = none := by rw [Node.function?, hk]
    rw [noticesAfter, definersWith, hfun]
    simp only [hk]
    exact ⟨[], rfl, by simp⟩

theorem get?_definersWith (hf : n.function? ≠ some f) :
    Entries.get? f (definersWith definers n) = Entries.get? f definers := by
  unfold definersWith
  cases hn : n.function? with
  | none => rfl
  | some f' =>
    have hne : f ≠ f' := fun he => hf (he ▸ hn)
    simp [Entries.get?, hne]

theorem get?_definersWith_self (hf : n.function? = some f) :
    Entries.get? f (definersWith definers n) = some n.displayName := by
  simp [definersWith, hf, Entries.get?]

theorem exists_redefined_of_later (hprev : (Entries.get? f definers).isSome = true) (hn : n ∈ nodes)
    (hf : n.function? = some f) : ∃ previous, .redefined previous n.displayName f ∈ noticesAfter definers nodes := by
  induction nodes generalizing definers with
  | nil => cases hn
  | cons x rest ih =>
    obtain ⟨own, he, hown⟩ := noticesAfter_cons definers x rest
    rw [he]
    rcases List.mem_cons.mp hn with rfl | hn
    · obtain ⟨previous, hp⟩ := Option.isSome_iff_exists.mp hprev
      exact ⟨previous, List.mem_append_left _ (hown f previous hf hp)⟩
    · have hnext : (Entries.get? f (definersWith definers x)).isSome = true := by
        by_cases hx : x.function? = some f
        · rw [get?_definersWith_self hx]
          rfl
        · rwa [get?_definersWith hx]
      obtain ⟨previous, hp⟩ := ih hnext hn
      exact ⟨previous, List.mem_append_right _ hp⟩

theorem exists_redefined_of_earlier (hprev : Entries.get? f definers = some previous) (hn : n ∈ nodes)
    (hf : n.function? = some f) : ∃ name, .redefined previous name f ∈ noticesAfter definers nodes := by
  induction nodes generalizing definers with
  | nil => cases hn
  | cons x rest ih =>
    obtain ⟨own, he, hown⟩ := noticesAfter_cons definers x rest
    rw [he]
    by_cases hx : x.function? = some f
    · exact ⟨x.displayName, List.mem_append_left _ (hown f previous hx hprev)⟩
    · have hn : n ∈ rest := (List.mem_cons.mp hn).resolve_left fun h => hx (h ▸ hf)
      obtain ⟨name, hname⟩ := ih ((get?_definersWith hx).trans hprev) hn
      exact ⟨name, List.mem_append_right _ hname⟩

/-- Of two nodes that define the same function each is named in a notice. -/
theorem exists_redefined (hne : n ≠ m) (hn : n ∈ nodes) (hm : m ∈ nodes) (hf : n.function? = some f)
    (hfm : m.function? = some f) : ∃ previous name, .redefined previous name f ∈ noticesAfter definers nodes ∧
      (n.displayName = previous ∨ n.displayName = name) := by
  induction nodes generalizing definers with
  | nil => cases hn
  | cons x rest ih =>
    obtain ⟨own, he, -⟩ := noticesAfter_cons definers x rest
    rw [he]
    rcases List.mem_cons.mp hn with rfl | hnr
    · have hm : m ∈ rest := (List.mem_cons.mp hm).resolve_left hne.symm
      obtain ⟨name, hname⟩ := exists_redefined_of_earlier (get?_definersWith_self hf) hm hfm
      exact ⟨_, name, List.mem_append_right _ hname, Or.inl rfl⟩
    · rcases List.mem_cons.mp hm with rfl | hm
      · have hprev : (Entries.get? f (definersWith definers m)).isSome = true := by
          rw [get?_definersWith_self hfm]
          rfl
        obtain ⟨previous, hp⟩ := exists_redefined_of_later hprev hnr hf
        exact ⟨previous, _, List.mem_append_right _ hp, Or.inr rfl⟩
      · obtain ⟨previous, name, hr, hor⟩ := ih hnr hm
        exact ⟨previous, name, List.mem_append_right _ hr, hor⟩

theorem exists_scan {nodes : List Node} {id : String} {custom : CustomCode}
    (h : (ofNodes nodes).get? id = some custom) : ∃ code, custom = CustomCode.scan code := by
  have hfold (tools : List (String × CustomCode)) (htools : ∀ custom, Entries.get? id tools = some custom →
      ∃ code, custom = CustomCode.scan code) :
      Entries.get? id (nodes.foldl add tools) = some custom → ∃ code, custom = CustomCode.scan code := by
    clear h
    induction nodes generalizing tools with
    | nil => exact htools custom
    | cons n rest ih =>
      apply ih
      intro custom hget
      unfold add at hget
      split at hget
      · rw [Entries.get?_put] at hget
        split_ifs at hget
        · exact ⟨_, (Option.some.inj hget).symm⟩
        · exact htools custom hget
      · exact htools custom hget
  exact hfold [] (by simp [Entries.get?]) h

theorem mem_functions {t : Toolbox} {id : String} {custom : CustomCode} (h : t.get? id = some custom)
    (hf : custom.function = some f) : f ∈ t.functions :=
  List.mem_filterMap.mpr ⟨(id, custom), Entries.mem_of_get? h, hf⟩

end Toolbox

end AgentWorkflow

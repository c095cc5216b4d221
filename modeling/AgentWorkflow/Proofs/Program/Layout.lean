import AgentWorkflow.Program.Entry
import Mathlib

/-!
Where the code of fragments stands in a layout.

Main statements: a layout holds the code of the fragments and empty lines, and nothing else; it holds each
fragment once; and of two fragments the earlier one stands first unless its kind comes later.
-/

namespace AgentWorkflow

/-- Where a kind stands among the kinds. -/
def FragmentKind.position (kind : FragmentKind) : ℕ :=
  FragmentKind.all.idxOf kind

theorem FragmentKind.mem_all (kind : FragmentKind) : kind ∈ FragmentKind.all := by
  cases kind <;> decide

namespace Fragment

variable {fragments : List Fragment} {f : Fragment} {c : Code}

theorem mem_arrange : f ∈ arrange fragments ↔ f ∈ fragments := by
  have hk : f.kind ∈ FragmentKind.all := FragmentKind.mem_all f.kind
  simp only [arrange, List.mem_flatMap, List.mem_filter, decide_eq_true_eq]
  exact ⟨fun ⟨_, _, h, _⟩ => h, fun h => ⟨f.kind, hk, h, rfl⟩⟩

theorem mem_joinBlank {code more : List Code} (h : c ∈ joinBlank code more) :
    c = .blank ∨ c ∈ code ∨ c ∈ more := by
  unfold joinBlank at h
  split_ifs at h
  · exact Or.inr (Or.inr h)
  · rcases List.mem_append.mp h with h | h
    · exact Or.inr (Or.inl h)
    · exact (List.mem_cons.mp h).imp id Or.inr

theorem mem_joinBlank_of_mem {code more : List Code} (h : c ∈ code ∨ c ∈ more) : c ∈ joinBlank code more := by
  unfold joinBlank
  split_ifs with he
  · exact h.resolve_left fun hc => by simp [List.isEmpty_iff.mp he] at hc
  · simp only [List.mem_append, List.mem_cons]
    tauto

theorem mem_foldl_joinBlank {code : List Code}
    (h : c ∈ fragments.foldl (fun code f => joinBlank code f.code) code) :
    c = .blank ∨ c ∈ code ∨ ∃ f ∈ fragments, c ∈ f.code := by
  induction fragments generalizing code with
  | nil => exact Or.inr (Or.inl h)
  | cons g rest ih =>
    rcases ih h with hb | hc | ⟨f, hf, hc⟩
    · exact Or.inl hb
    · rcases mem_joinBlank hc with hb | hc | hc
      · exact Or.inl hb
      · exact Or.inr (Or.inl hc)
      · exact Or.inr (Or.inr ⟨g, List.mem_cons_self, hc⟩)
    · exact Or.inr (Or.inr ⟨f, List.mem_cons_of_mem _ hf, hc⟩)

theorem mem_foldl_joinBlank_of_mem {code : List Code} (h : c ∈ code ∨ ∃ f ∈ fragments, c ∈ f.code) :
    c ∈ fragments.foldl (fun code f => joinBlank code f.code) code := by
  induction fragments generalizing code with
  | nil => simpa using h
  | cons g rest ih =>
    apply ih
    rcases h with h | ⟨f, hf, hc⟩
    · exact Or.inl (mem_joinBlank_of_mem (Or.inl h))
    · rcases List.mem_cons.mp hf with rfl | hf
      · exact Or.inl (mem_joinBlank_of_mem (Or.inr hc))
      · exact Or.inr ⟨f, hf, hc⟩

theorem mem_layout (h : c ∈ layout fragments) : c = .blank ∨ ∃ f ∈ fragments, c ∈ f.code := by
  rcases mem_foldl_joinBlank h with hb | hc | ⟨f, hf, hc⟩
  · exact Or.inl hb
  · cases hc
  · exact Or.inr ⟨f, mem_arrange.mp hf, hc⟩

theorem mem_layout_of_mem (hf : f ∈ fragments) (hc : c ∈ f.code) : c ∈ layout fragments :=
  mem_foldl_joinBlank_of_mem (Or.inr ⟨f, mem_arrange.mpr hf, hc⟩)

theorem flatMap_filter_perm (fragments : List Fragment) {kinds : List FragmentKind} (h : kinds.Nodup) :
    (kinds.flatMap fun kind => fragments.filter (·.kind = kind)).Perm
      (fragments.filter (·.kind ∈ kinds)) := by
  induction kinds with
  | nil => simp
  | cons kind rest ih =>
    obtain ⟨hk, hr⟩ := List.nodup_cons.mp h
    have hsplit := List.filter_append_perm (fun f : Fragment => decide (f.kind = kind))
      (fragments.filter (·.kind ∈ kind :: rest))
    rw [List.filter_filter, List.filter_filter] at hsplit
    have hfirst : (fragments.filter fun f => decide (f.kind = kind) && decide (f.kind ∈ kind :: rest)) =
        fragments.filter (·.kind = kind) := by
      refine List.filter_congr fun f _ => ?_
      by_cases hf : f.kind = kind <;> simp [hf]
    have hlater : (fragments.filter fun f => !decide (f.kind = kind) && decide (f.kind ∈ kind :: rest)) =
        fragments.filter (·.kind ∈ rest) := by
      refine List.filter_congr fun f _ => ?_
      by_cases hf : f.kind = kind <;> simp [hf, hk]
    rw [hfirst, hlater] at hsplit
    rw [List.flatMap_cons]
    exact ((ih hr).append_left _).trans hsplit

theorem arrange_perm : (arrange fragments).Perm fragments := by
  have h := flatMap_filter_perm fragments (by decide : FragmentKind.all.Nodup)
  have hall : fragments.filter (·.kind ∈ FragmentKind.all) = fragments := by
    exact List.filter_eq_self.mpr fun f _ => decide_eq_true (FragmentKind.mem_all f.kind)
  rwa [hall] at h

theorem flatMap_eq_split {α β : Type} {l : List α} {g : α → List β} {before after : List β} {y : β}
    (h : l.flatMap g = before ++ y :: after) :
    ∃ l₁ x l₂ b₁ b₂, l = l₁ ++ x :: l₂ ∧ g x = b₁ ++ y :: b₂ ∧ before = l₁.flatMap g ++ b₁ := by
  induction l generalizing before with
  | nil => simp at h
  | cons x rest ih =>
    rw [List.flatMap_cons] at h
    rcases List.append_eq_append_iff.mp h with ⟨b, rfl, hr⟩ | ⟨b, hx, hr⟩
    · obtain ⟨l₁, x', l₂, b₁, b₂, rfl, hx, rfl⟩ := ih hr
      exact ⟨x :: l₁, x', l₂, b₁, b₂, rfl, hx, by simp⟩
    · cases b with
      | nil =>
        obtain ⟨l₁, x', l₂, b₁, b₂, rfl, hx', hb⟩ := ih (show rest.flatMap g = [] ++ y :: after from hr.symm)
        exact ⟨x :: l₁, x', l₂, b₁, b₂, rfl, hx', by rw [List.flatMap_cons, hx]; simpa using hb⟩
      | cons z b =>
        obtain ⟨rfl, rfl⟩ := List.cons.inj hr
        exact ⟨[], x, rest, before, b, rfl, hx, rfl⟩

theorem arrange_split {before after : List Fragment} (h : arrange fragments = before ++ f :: after) :
    ∃ earlier later, fragments = earlier ++ f :: later ∧
      ∀ g ∈ earlier, g.kind.position ≤ f.kind.position → g ∈ before := by
  obtain ⟨kinds, kind, kinds', b₁, b₂, hall, hb, rfl⟩ := flatMap_eq_split h
  obtain ⟨l₁, l₂, rfl, rfl, hl₂⟩ := List.filter_eq_append_iff.mp hb
  obtain ⟨m₁, m₂, rfl, hm₁, hf, rfl⟩ := List.filter_eq_cons_iff.mp hl₂
  have hkind : f.kind = kind := of_decide_eq_true hf
  refine ⟨l₁ ++ m₁, m₂, by rw [List.append_assoc], fun g hg hle => ?_⟩
  have hmem : g.kind ∈ kinds ++ kind :: kinds' := hall ▸ FragmentKind.mem_all g.kind
  have hsorted : (kinds ++ kind :: kinds').Pairwise (fun k k' => k.position < k'.position) :=
    hall ▸ (by decide : FragmentKind.all.Pairwise fun k k' => k.position < k'.position)
  rcases List.mem_append.mp hmem with hk | hk
  · -- A fragment of an earlier kind stands in the part of its kind.
    refine List.mem_append_left _ (List.mem_flatMap.mpr ⟨g.kind, hk, List.mem_filter.mpr ⟨?_, ?_⟩⟩)
    · rw [← List.append_assoc]
      exact List.mem_append_left _ hg
    · simp
  · rcases List.mem_cons.mp hk with hk | hk
    · -- One of the same kind keeps its order.
      refine List.mem_append_right _ (List.mem_filter.mpr ⟨?_, decide_eq_true hk⟩)
      exact (List.mem_append.mp hg).resolve_right fun h => hm₁ g h (decide_eq_true hk)
    · have hlt := List.rel_of_pairwise_cons (List.pairwise_append.mp hsorted).2.1 hk
      rw [hkind] at hle
      omega

section Gather

variable {α : Type} {gather : List Code → List α}
  (append : ∀ code more, gather (code ++ more) = gather code ++ gather more) (blank : gather [.blank] = [])

include append

theorem gather_nil : gather [] = [] := by
  simpa using append [] []

include blank

theorem gather_joinBlank {code more : List Code} : gather (joinBlank code more) = gather code ++ gather more := by
  unfold joinBlank
  split_ifs with hc
  · rw [List.isEmpty_iff.mp hc, gather_nil append, List.nil_append]
  · rw [append, ← List.singleton_append, append, blank, List.nil_append]

theorem gather_foldl_joinBlank {code : List Code} :
    gather (fragments.foldl (fun code f => joinBlank code f.code) code) =
      gather code ++ fragments.flatMap fun f => gather f.code := by
  induction fragments generalizing code with
  | nil => simp
  | cons f rest ih =>
    rw [List.foldl_cons, ih, gather_joinBlank append blank, List.flatMap_cons, List.append_assoc]

theorem gather_layout : gather (layout fragments) = (arrange fragments).flatMap fun f => gather f.code := by
  rw [layout, gather_foldl_joinBlank append blank, gather_nil append, List.nil_append]

theorem gather_layout_eq {before after : List Fragment} (h : ∀ g ∈ before ++ after, gather g.code = []) :
    gather (layout (before ++ f :: after)) = gather f.code := by
  have hperm : (arrange (before ++ f :: after)).Perm (f :: (before ++ after)) := arrange_perm.trans List.perm_middle
  obtain ⟨earlier, later, he⟩ := List.append_of_mem (hperm.mem_iff.mpr List.mem_cons_self)
  rw [he] at hperm
  have hrest : (earlier ++ later).Perm (before ++ after) := (List.perm_middle.symm.trans hperm).cons_inv
  have hother (g : Fragment) (hg : g ∈ earlier ++ later) : gather g.code = [] := h g (hrest.mem_iff.mp hg)
  have hearlier : (earlier.flatMap fun g => gather g.code) = [] :=
    List.flatMap_eq_nil_iff.mpr fun g hg => hother g (List.mem_append_left _ hg)
  have hlater : (later.flatMap fun g => gather g.code) = [] :=
    List.flatMap_eq_nil_iff.mpr fun g hg => hother g (List.mem_append_right _ hg)
  rw [gather_layout append blank, he, List.flatMap_append, List.flatMap_cons, hearlier, hlater, List.nil_append,
    List.append_nil]

end Gather

theorem filterMap_layout_perm {α : Type} {p : Code → Option α} (hp : p .blank = none) :
    ((layout fragments).filterMap p).Perm (fragments.flatMap fun f => f.code.filterMap p) := by
  rw [gather_layout (fun _ _ => List.filterMap_append) (by simp [hp])]
  exact arrange_perm.flatMap_right _

end Fragment

/-- A check of code from its start, in which each piece is checked with the names that those before it give. -/
structure Code.IsSequential (names : List Code → List String) (holds : List String → List Code → Prop) : Prop where
  names_append : ∀ code more, names (code ++ more) = names code ++ names more
  names_blank : names [.blank] = []
  nil : ∀ now, holds now []
  blank : ∀ now, holds now [.blank]
  append : ∀ now code more, holds now (code ++ more) ↔ holds now code ∧ holds (now ++ names code) more

namespace Code.IsSequential

open Fragment

variable {names : List Code → List String} {holds : List String → List Code → Prop} {now : List String}
  {code more : List Code} {fragments : List Fragment} (h : IsSequential names holds)

include h

theorem names_nil : names [] = [] :=
  gather_nil h.names_append

theorem names_subset {f : Fragment} (hf : f ∈ fragments) :
    names f.code ⊆ names (fragments.flatMap Fragment.code) := by
  obtain ⟨before, after, rfl⟩ := List.append_of_mem hf
  rw [List.flatMap_append, List.flatMap_cons, h.names_append, h.names_append]
  exact List.subset_append_of_subset_right _ (List.subset_append_left _ _)

theorem names_joinBlank : names (Fragment.joinBlank code more) = names code ++ names more :=
  gather_joinBlank h.names_append h.names_blank

theorem joinBlank : holds now (joinBlank code more) ↔ holds now code ∧ holds (now ++ names code) more := by
  unfold Fragment.joinBlank
  split_ifs with he
  · rw [List.isEmpty_iff.mp he, h.names_nil, List.append_nil]
    exact (and_iff_right (h.nil now)).symm
  · have hblank := h.append (now ++ names code) [.blank] more
    rw [h.names_blank, List.append_nil] at hblank
    rw [h.append]
    exact and_congr_right fun _ => hblank.trans (and_iff_right (h.blank _))

theorem foldl_joinBlank :
    holds now (fragments.foldl (fun code f => Fragment.joinBlank code f.code) code) ↔
      holds now code ∧ ∀ before f after, fragments = before ++ f :: after →
        holds (now ++ names code ++ names (before.flatMap Fragment.code)) f.code := by
  induction fragments generalizing code with
  | nil => simp
  | cons g rest ih =>
    rw [List.foldl_cons, ih, h.joinBlank, h.names_joinBlank, and_assoc]
    refine and_congr_right fun _ => ?_
    constructor
    · rintro ⟨hg, hrest⟩ before f after he
      cases before with
      | nil =>
        obtain ⟨rfl, rfl⟩ := List.cons.inj he
        simpa [h.names_nil] using hg
      | cons g' before =>
        obtain ⟨rfl, rfl⟩ := List.cons.inj he
        simpa [h.names_append] using hrest before f after rfl
    · intro hall
      refine ⟨by simpa [h.names_nil] using hall [] g rest rfl, fun before f after he => ?_⟩
      simpa [h.names_append] using hall (g :: before) f after (by rw [he, List.cons_append])

/-- A layout passes if each fragment does with the names of those before it whose kinds are not later. -/
theorem layout (hall : ∀ earlier f later, fragments = earlier ++ f :: later → ∀ now', now ⊆ now' →
    (∀ g ∈ earlier, g.kind.position ≤ f.kind.position → names g.code ⊆ now') → holds now' f.code) :
    holds now (Fragment.layout fragments) := by
  refine h.foldl_joinBlank.mpr ⟨h.nil now, fun before f after he => ?_⟩
  obtain ⟨earlier, later, hfr, hb⟩ := arrange_split he
  refine hall earlier f later hfr _ ?_ fun g hg hle => ?_
  · exact List.subset_append_of_subset_left _ (List.subset_append_left _ _)
  · exact List.subset_append_of_subset_right _ (h.names_subset (hb g hg hle))

end Code.IsSequential

end AgentWorkflow
